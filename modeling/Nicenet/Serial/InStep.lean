import Nicenet.Serial.RoundTrip

/-!
# Conditional fields in step

`operator<<` evaluates the condition of a field on the value it writes, and
`operator>>` on an object that holds only the fields read so far. Both leave a
record of their decisions here. The records agree, and what was written is read
back, exactly for the values on which no condition notices the difference:
`build2` checks the types of the fields, but not what a condition looks at.
-/

namespace Nicenet

open Library

/-- The decisions of one pass over a value: for each field, and for each element
of a vector, whether it is present, the decisions inside of it and the decisions
behind it. -/
inductive Decisions where
  | nil
  | cons (here : Bool) (inside behind : Decisions)
  deriving DecidableEq, Repr

/-- The number of fields or elements on the outermost level. -/
def Decisions.length : Decisions → Nat
  | .nil => 0
  | .cons _ _ behind => behind.length + 1

/-! ## The decisions of the encoder -/

/-- Every element of a vector is written. -/
def decidedItems {α : Type} (item : α → Decisions) : List α → Decisions
  | [] => .nil
  | first :: items => .cons true (item first) (decidedItems item items)

theorem length_decidedItems {α : Type} (item : α → Decisions) (items : List α) :
    (decidedItems item items).length = items.length := by
  induction items with
  | nil => rfl
  | cons first items ih => rw [decidedItems, Decisions.length, ih, List.length_cons]

mutual

/-- What `operator<<` decides. -/
def Ty.decided : {α : Type} → Ty α → α → Decisions
  | _, .vector element, v => decidedItems element.decided v
  | _, .struct fields _, v => fields.decided v v
  | _, _, _ => .nil

def Fields.decided : {σ β : Type} → Fields σ β → σ → β → Decisions
  | _, _, .nil, _, _ => .nil
  | _, _, .cons _ field condition others, whole, v =>
      .cons (present condition whole)
        (if present condition whole then field.decided v.1 else .nil)
        (others.decided whole v.2)

end

/-! ## The decisions of the decoder -/

/-- The loop of the vector reader. -/
def itemsDecisions {α : Type} (item : Message → Except Fault (α × Message))
    (decisions : Message → Decisions) : Nat → Message → Decisions
  | 0, _ => .nil
  | s + 1, m =>
      match item m with
      | .ok (_, next) =>
          .cons true (decisions m) (itemsDecisions item decisions s next)
      | .error _ => .cons true (decisions m) .nil

theorem length_itemsDecisions {α : Type} (item : Message → Except Fault (α × Message))
    (decisions : Message → Decisions) (s : Nat) (m : Message) :
    (itemsDecisions item decisions s m).length ≤ s := by
  induction s generalizing m with
  | zero => exact Nat.le_refl 0
  | succ s ih =>
      rw [itemsDecisions]
      split
      · exact Nat.succ_le_succ (ih _)
      · exact Nat.succ_le_succ (Nat.zero_le s)

mutual

/-- What `operator>>` decides while it reads a message into the target `p`. -/
def Ty.decisions : {α : Type} → Ty α → Message → α → Decisions
  | _, .vector element, m, _ =>
      match m.fetch 4 with
      | .ok (bytes, m) =>
          itemsDecisions (fun m => element.extract m element.init)
            (fun m => element.decisions m element.init) (readWord bytes).toNat m
      | .error _ => .nil
  | _, .struct fields _, m, p => fields.decisions id m p
  | _, _, _, _ => .nil

def Fields.decisions : {σ β : Type} → Fields σ β → (β → σ) → Message → β → Decisions
  | _, _, .nil, _, _, _ => .nil
  | _, _, .cons _ field condition others, rebuild, m, p =>
      if present condition (rebuild p) then
        match field.extract m p.1 with
        | .ok (first, next) =>
            .cons true (field.decisions m p.1)
              (others.decisions (fun tail => rebuild (first, tail)) next p.2)
        | .error _ => .cons true (field.decisions m p.1) .nil
      else
        .cons false .nil (others.decisions (fun tail => rebuild (p.1, tail)) m p.2)

end

/-! ## The values that stay in step -/

mutual

/-- The target `p` with the fields of `v` that were written. -/
def Ty.seen : {α : Type} → Ty α → α → α → α
  | _, .vector element, _, v => v.map (element.seen element.init)
  | _, .struct fields _, p, v => fields.seen v p v
  | _, .string, _, v => v
  | _, .ui16, _, v => v
  | _, .ui32, _, v => v
  | _, .ui64, _, v => v
  | _, .binary, _, v => v
  | _, .operUInt, _, v => v
  | _, .storeUInt, _, v => v

def Fields.seen : {σ β : Type} → Fields σ β → σ → β → β → β
  | _, _, .nil, _, _, _ => ()
  | _, _, .cons _ field condition others, whole, p, v =>
      (if present condition whole then field.seen p.1 v.1 else p.1,
        others.seen whole p.2 v.2)

end

mutual

/-- No condition tells the value from the target that holds the fields in front of
the condition, as far as they are written, and its own defaults from there on.
A vector has a target to append to, and a count of four bytes. -/
def Ty.Steady : {α : Type} → Ty α → α → α → Prop
  | _, .vector element, p, v =>
      p = [] ∧ v.length < 2 ^ 32 ∧ ∀ item ∈ v, element.Steady element.init item
  | _, .struct fields _, p, v => fields.Steady v id p v
  | _, _, _, _ => True

def Fields.Steady : {σ β : Type} → Fields σ β → σ → (β → σ) → β → β → Prop
  | _, _, .nil, _, _, _, _ => True
  | _, _, .cons _ field condition others, whole, rebuild, p, v =>
      present condition (rebuild p) = present condition whole ∧
        (present condition whole → field.Steady p.1 v.1) ∧
        others.Steady whole
          (fun tail => rebuild
            (if present condition whole then field.seen p.1 v.1 else p.1, tail))
          p.2 v.2

end

/-! ## Reading in step -/

section Steps

variable {memory : List UInt8}

/-- A reader is in step with the value it reads: the bytes of the value are read,
and nothing behind them. -/
def Ty.Follows {α : Type} (ty : Ty α) (memory : List UInt8) (p v : α) : Prop :=
  ∀ message rest, Unread memory message ((ty.insert v).flatten ++ rest) →
    ∃ next, ty.extract message p = .ok (ty.seen p v, next) ∧
      Unread memory next rest ∧ ty.decisions message p = ty.decided v

/-- The types without fields and elements take part in no decision. -/
theorem Ty.follows_plain {α : Type} {ty : Ty α} {p v : α} (plain : ty.plain)
    (fresh : ty.Fresh p v) (small : ty.written v < 2 ^ 32) (seen : ty.seen p v = v)
    (decisions : ∀ message, ty.decisions message p = ty.decided v) :
    ty.Follows memory p v := by
  intro message rest unread
  have word : ty.Words p (ty.insert v).flatten (ty.merge p v) :=
    ⟨v, (ty.wire_eq plain p v small).symm, rfl⟩
  obtain ⟨next, read, behind⟩ := (ty.extract_reads p).complete word unread
  rw [(ty.merge_eq_iff plain p v small).mpr fresh] at read
  exact ⟨next, by rw [read, seen], behind, decisions message⟩

/-- The loop of the vector reader, if each element is read in step. -/
theorem items_follow {α : Type} {element : Ty α} {items : List α}
    (each : ∀ item ∈ items, element.Follows memory element.init item)
    {message : Message} {rest : List UInt8} (p : List α)
    (unread : Unread memory message ((items.flatMap element.insert).flatten ++ rest)) :
    ∃ next, extractItems (fun m => element.extract m element.init) items.length
        message p = .ok (p ++ items.map (element.seen element.init), next) ∧
      Unread memory next rest ∧
      itemsDecisions (fun m => element.extract m element.init)
        (fun m => element.decisions m element.init) items.length message =
          decidedItems element.decided items := by
  induction items generalizing message p with
  | nil =>
      refine ⟨message, ?_, unread, rfl⟩
      rw [List.map_nil, List.append_nil]
      rfl
  | cons item items ih =>
      rw [List.flatMap_cons, List.flatten_append, List.append_assoc] at unread
      obtain ⟨middle, read, ahead, decided⟩ := each item List.mem_cons_self _ _ unread
      obtain ⟨next, readItems, behind, decidedRest⟩ :=
        ih (fun other member => each other (List.mem_cons_of_mem _ member))
          (p ++ [element.seen element.init item]) ahead
      refine ⟨next, ?_, behind, ?_⟩
      · simp only [List.length_cons, extractItems, bind, Except.bind, read]
        rw [readItems, List.append_assoc]
        rfl
      · simp only [List.length_cons, itemsDecisions, read, decided, decidedRest,
          decidedItems]

/-- The count of a vector. -/
theorem fetch_count {message : Message} {size : Nat} {rest : List UInt8}
    (unread : Unread memory message (wordBytes (UInt32.ofNat size) ++ rest)) :
    ∃ bytes next, message.fetch 4 = .ok (bytes, next) ∧
      (readWord bytes).toNat = size % 2 ^ 32 ∧ Unread memory next rest := by
  obtain ⟨next, read, behind⟩ := fetch_append unread
  rw [length_wordBytes] at read
  have word := readWord_wordBytes (UInt32.ofNat size) []
  rw [List.append_nil] at word
  refine ⟨_, next, read, ?_, behind⟩
  rw [word, UInt32.toNat_ofNat']

mutual

/-- A steady value is read in step. -/
theorem Ty.follows : {α : Type} → (ty : Ty α) → (p v : α) →
    ty.written v < 2 ^ 32 → ty.Steady p v → ty.Follows memory p v
  | _, .ui16, _, _, small, _ =>
      Ty.follows_plain rfl trivial small rfl fun _ => rfl
  | _, .ui32, _, _, small, _ =>
      Ty.follows_plain rfl trivial small rfl fun _ => rfl
  | _, .ui64, _, _, small, _ =>
      Ty.follows_plain rfl trivial small rfl fun _ => rfl
  | _, .string, _, _, small, _ =>
      Ty.follows_plain rfl trivial small rfl fun _ => rfl
  | _, .binary, _, _, small, _ =>
      Ty.follows_plain rfl trivial small rfl fun _ => rfl
  | _, .operUInt, _, _, small, _ =>
      Ty.follows_plain rfl trivial small rfl fun _ => rfl
  | _, .storeUInt, _, _, small, _ =>
      Ty.follows_plain rfl trivial small rfl fun _ => rfl
  | _, .vector element, p, v, small, steady => by
      obtain ⟨rfl, short, items⟩ := steady
      intro message rest unread
      rw [Ty.insert, List.flatten_cons, List.append_assoc] at unread
      obtain ⟨bytes, middle, counted, count, ahead⟩ := fetch_count unread
      rw [Nat.mod_eq_of_lt short] at count
      have each : ∀ item ∈ v, element.Follows memory element.init item :=
        fun item member => element.follows element.init item
          (Nat.lt_of_le_of_lt (element.written_le_of_mem member) small)
          (items item member)
      obtain ⟨next, read, behind, decided⟩ := items_follow each [] ahead
      refine ⟨next, ?_, behind, ?_⟩
      · simp only [Ty.extract, bind, Except.bind, counted, count, read,
          List.nil_append, Ty.seen]
      · simp only [Ty.decisions, counted, count, decided, Ty.decided]
  | _, .struct fields _, p, v, small, steady =>
      fun message rest unread =>
        fields.follows v id p v small steady message rest unread

theorem Fields.follows : {σ β : Type} → (fields : Fields σ β) → (whole : σ) →
    (rebuild : β → σ) → (p v : β) → fields.written whole v < 2 ^ 32 →
    fields.Steady whole rebuild p v → ∀ message rest,
    Unread memory message ((fields.insert whole v).flatten ++ rest) →
    ∃ next, fields.extract rebuild message p =
        .ok (fields.seen whole p v, next) ∧
      Unread memory next rest ∧
      fields.decisions rebuild message p = fields.decided whole v
  | _, _, .nil, _, _, _, _, _, _, message, _, unread => ⟨message, rfl, unread, rfl⟩
  | _, _, .cons _ field condition others, whole, rebuild, p, v, small, steady,
      message, rest, unread => by
      obtain ⟨same, first, behind⟩ := steady
      rw [Fields.written_cons] at small
      rw [Fields.insert, List.flatten_append, List.append_assoc] at unread
      by_cases here : present condition whole
      · simp only [here, ↓reduceIte, forall_const] at small unread first behind same
        obtain ⟨middle, read, ahead, inside⟩ :=
          field.follows p.1 v.1 (by omega) first message _ unread
        obtain ⟨next, readOthers, last, decided⟩ :=
          others.follows whole _ p.2 v.2 (by omega) behind middle rest ahead
        refine ⟨next, ?_, last, ?_⟩
        · simp only [Fields.extract, same, ↓reduceIte, bind, Except.bind, read,
            readOthers, Fields.seen, here]
          rfl
        · simp only [Fields.decisions, same, ↓reduceIte, read, decided, inside,
            Fields.decided, here]
      · simp only [here, Bool.false_eq_true, ↓reduceIte, List.flatten_nil,
          List.nil_append] at small unread behind same
        obtain ⟨next, readOthers, last, decided⟩ :=
          others.follows whole _ p.2 v.2 (by omega) behind message rest unread
        refine ⟨next, ?_, last, ?_⟩
        · simp only [Fields.extract, same, Bool.false_eq_true, ↓reduceIte, bind,
            Except.bind, readOthers, Fields.seen, here]
          rfl
        · simp only [Fields.decisions, same, Bool.false_eq_true, ↓reduceIte,
            decided, Fields.decided, here]

end

/-! ## Only steady values are read in step -/

/-- The loop of the vector reader appends one object for each element. -/
theorem extractItems_append {α : Type} {item : Message → Except Fault (α × Message)}
    {s : Nat} {message next : Message} {p q : List α}
    (read : extractItems item s message p = .ok (q, next)) :
    ∃ objects, objects.length = s ∧ q = p ++ objects := by
  induction s generalizing message p with
  | zero =>
      simp only [extractItems, Except.ok.injEq, Prod.mk.injEq] at read
      exact ⟨[], rfl, by rw [List.append_nil, read.1]⟩
  | succ s ih =>
      rw [extractItems] at read
      cases first : item message with
      | error fault => simp [first, bind, Except.bind] at read
      | ok value =>
          simp only [first, bind, Except.bind] at read
          obtain ⟨objects, length, same⟩ := ih read
          refine ⟨value.1 :: objects, by rw [List.length_cons, length], ?_⟩
          rw [same, List.append_assoc]
          rfl

/-- Reading the elements in step asks for steady elements. -/
theorem items_steady {α : Type} {element : Ty α} {items : List α}
    (small : ∀ item ∈ items, element.written item < 2 ^ 32)
    (each : ∀ item ∈ items, ∀ message rest next,
      Unread memory message ((element.insert item).flatten ++ rest) →
      element.extract message element.init =
        .ok (element.seen element.init item, next) →
      element.decisions message element.init = element.decided item →
      element.Steady element.init item)
    {message next : Message} {rest : List UInt8} (p : List α)
    (unread : Unread memory message ((items.flatMap element.insert).flatten ++ rest))
    (read : extractItems (fun m => element.extract m element.init) items.length
      message p = .ok (p ++ items.map (element.seen element.init), next))
    (decided : itemsDecisions (fun m => element.extract m element.init)
      (fun m => element.decisions m element.init) items.length message =
        decidedItems element.decided items) :
    ∀ item ∈ items, element.Steady element.init item := by
  induction items generalizing message p with
  | nil => exact fun item member => absurd member List.not_mem_nil
  | cons item items ih =>
      rw [List.flatMap_cons, List.flatten_append, List.append_assoc] at unread
      rw [List.length_cons, extractItems] at read
      rw [List.length_cons, itemsDecisions] at decided
      cases first : element.extract message element.init with
      | error fault => simp [first, bind, Except.bind] at read
      | ok result =>
          obtain ⟨object, middle⟩ := result
          simp only [first, bind, Except.bind] at read
          simp only [first, decidedItems, Decisions.cons.injEq, true_and] at decided
          obtain ⟨objects, _, same⟩ := extractItems_append read
          rw [List.map_cons, List.append_assoc] at same
          have head := List.append_cancel_left same
          rw [List.singleton_append, List.cons.injEq] at head
          obtain ⟨rfl, _⟩ := head
          have steady := each item List.mem_cons_self _ _ _ unread first decided.1
          obtain ⟨_, again, ahead, _⟩ := element.follows element.init item
            (small item List.mem_cons_self) steady _ _ unread
          rw [first, Except.ok.injEq, Prod.mk.injEq] at again
          rw [← again.2] at ahead
          rw [List.map_cons, List.append_cons p _ (items.map _)] at read
          intro other member
          rcases List.mem_cons.mp member with rfl | member
          · exact steady
          · exact ih (fun other member => small other (List.mem_cons_of_mem _ member))
              (fun other member => each other (List.mem_cons_of_mem _ member))
              _ ahead read decided.2 other member

mutual

/-- A value that is read in step is steady. -/
theorem Ty.steady_of_follows : {α : Type} → (ty : Ty α) → (p v : α) →
    ty.written v < 2 ^ 32 → ∀ message rest next,
    Unread memory message ((ty.insert v).flatten ++ rest) →
    ty.extract message p = .ok (ty.seen p v, next) →
    ty.decisions message p = ty.decided v → ty.Steady p v
  | _, .ui16, _, _, _, _, _, _, _, _, _ => trivial
  | _, .ui32, _, _, _, _, _, _, _, _, _ => trivial
  | _, .ui64, _, _, _, _, _, _, _, _, _ => trivial
  | _, .string, _, _, _, _, _, _, _, _, _ => trivial
  | _, .binary, _, _, _, _, _, _, _, _, _ => trivial
  | _, .operUInt, _, _, _, _, _, _, _, _, _ => trivial
  | _, .storeUInt, _, _, _, _, _, _, _, _, _ => trivial
  | _, .vector element, p, v, small, message, rest, next, unread, read, decided => by
      rw [Ty.insert, List.flatten_cons, List.append_assoc] at unread
      obtain ⟨bytes, middle, counted, count, ahead⟩ := fetch_count unread
      simp only [Ty.extract, bind, Except.bind, counted, Ty.seen] at read
      simp only [Ty.decisions, counted, Ty.decided] at decided
      rw [count] at read decided
      -- The decoder has no more decisions than the count announces.
      have most := length_itemsDecisions (fun m => element.extract m element.init)
        (fun m => element.decisions m element.init) (v.length % 2 ^ 32) middle
      rw [decided, length_decidedItems] at most
      have short : v.length < 2 ^ 32 :=
        Nat.lt_of_le_of_lt most (Nat.mod_lt _ (Nat.two_pow_pos 32))
      rw [Nat.mod_eq_of_lt short] at read decided
      obtain ⟨objects, length, same⟩ := extractItems_append read
      have empty : p = [] := by
        have total := congrArg List.length same
        rw [List.length_map, List.length_append, length] at total
        exact List.length_eq_zero_iff.mp (by omega)
      subst empty
      have light : ∀ item ∈ v, element.written item < 2 ^ 32 := fun item member =>
        Nat.lt_of_le_of_lt (element.written_le_of_mem member) small
      refine ⟨rfl, short, items_steady light ?_ [] ahead read decided⟩
      intro item member
      exact element.steady_of_follows element.init item (light item member)
  | _, .struct fields _, p, v, small, message, rest, next, unread, read, decided =>
      fields.steady_of_follows v id p v small message rest next unread read decided

theorem Fields.steady_of_follows : {σ β : Type} → (fields : Fields σ β) →
    (whole : σ) → (rebuild : β → σ) → (p v : β) →
    fields.written whole v < 2 ^ 32 → ∀ message rest next,
    Unread memory message ((fields.insert whole v).flatten ++ rest) →
    fields.extract rebuild message p = .ok (fields.seen whole p v, next) →
    fields.decisions rebuild message p = fields.decided whole v →
    fields.Steady whole rebuild p v
  | _, _, .nil, _, _, _, _, _, _, _, _, _, _, _ => trivial
  | _, _, .cons _ field condition others, whole, rebuild, p, v, small, message, rest,
      next, unread, read, decided => by
      rw [Fields.written_cons] at small
      rw [Fields.insert, List.flatten_append, List.append_assoc] at unread
      rw [Fields.extract] at read
      rw [Fields.decisions, Fields.decided] at decided
      by_cases here : present condition (rebuild p)
      · rw [if_pos here] at read decided
        cases first : field.extract message p.1 with
        | error fault => simp [first, bind, Except.bind] at read
        | ok result =>
            obtain ⟨object, middle⟩ := result
            simp only [first, bind, Except.bind] at read
            simp only [first, Decisions.cons.injEq] at decided
            obtain ⟨same, inside, behind⟩ := decided
            have wrote : present condition whole := same.symm
            rw [if_pos wrote] at small unread inside
            cases second : others.extract (fun tail => rebuild (object, tail)) middle
                p.2 with
            | error fault => simp [second] at read
            | ok result =>
                obtain ⟨objects, last⟩ := result
                simp only [second, pure, Except.pure, Except.ok.injEq, Prod.mk.injEq,
                  Fields.seen, if_pos wrote] at read
                obtain ⟨⟨rfl, rfl⟩, rfl⟩ := read
                have steady := field.steady_of_follows p.1 v.1 (by omega) _ _ _ unread
                  first inside
                obtain ⟨_, again, ahead, _⟩ :=
                  field.follows p.1 v.1 (by omega) steady _ _ unread
                rw [first, Except.ok.injEq, Prod.mk.injEq] at again
                rw [← again.2] at ahead
                refine ⟨here.trans same, fun _ => steady, ?_⟩
                rw [if_pos wrote]
                exact others.steady_of_follows whole _ p.2 v.2 (by omega) _ _ _ ahead
                  second behind
      · rw [if_neg here] at read decided
        simp only [bind, Except.bind] at read
        simp only [Decisions.cons.injEq] at decided
        obtain ⟨same, _, behind⟩ := decided
        have skipped : ¬present condition whole := by simp [← same]
        rw [if_neg skipped] at small unread
        rw [List.flatten_nil, List.nil_append] at unread
        cases second : others.extract (fun tail => rebuild (p.1, tail)) message
            p.2 with
        | error fault => simp [second] at read
        | ok result =>
            obtain ⟨objects, last⟩ := result
            simp only [second, pure, Except.pure, Except.ok.injEq, Prod.mk.injEq,
              Fields.seen, if_neg skipped] at read
            obtain ⟨⟨_, rfl⟩, rfl⟩ := read
            refine ⟨by rw [← same, Bool.eq_false_iff]; exact here,
              fun wrote => absurd wrote skipped, ?_⟩
            rw [if_neg skipped]
            exact others.steady_of_follows whole _ p.2 v.2 (by omega) _ _ _ unread
              second behind

end

end Steps

/-! ## A value in a message -/

section InStep

variable {α : Type}

/-- A message that `operator<<` wrote a value to, behind the header. -/
def Ty.Wrote (ty : Ty α) (v : α) (sent : Message) : Prop :=
  ∃ (heap : Heap) (size : UInt32) (id : UInt16) (blank named : Message),
    Message.empty.buildBuff heap size.toNat = .ok blank ∧
      blank.ID heap id = .ok named ∧ ty.serializeTo v named = .ok sent

/-- `operator>>`, applied to a default object and a message that holds the value,
decides on every field as `operator<<` did, reads back all that was written, and
nothing else. -/
def Ty.InStep (ty : Ty α) (v : α) : Prop :=
  ∀ sent, ty.Wrote v sent →
    ty.decisions sent ty.init = ty.decided v ∧
      ∃ received, ty.unserializeFrom sent ty.init = .ok (ty.seen ty.init v, received) ∧
        received.readPoint.toNat = 6 + ty.written v

/-- A message holds less than `2 ^ 32` bytes, and the value can be read there. -/
theorem Ty.Wrote.unread {ty : Ty α} {v : α} {sent : Message} (wrote : ty.Wrote v sent) :
    6 + ty.written v < 2 ^ 32 ∧ sent.readPoint = 6 ∧
      ∃ memory rest, Unread memory sent ((ty.insert v).flatten ++ rest) := by
  obtain ⟨heap, size, id, blank, named, built, marked, serialized⟩ := wrote
  have small := UInt32.toNat_lt size
  by_cases sized : 4 ≤ size.toNat
  · rw [Message.buildBuff_eq heap _ sized, Except.ok.injEq] at built
    subst built
    by_cases header : 6 ≤ size.toNat
    · rw [ID_built heap id header, Except.ok.injEq] at marked
      subst marked
      by_cases room : 6 + ty.written v ≤ size.toNat
      · rw [serializeTo_header heap ty id v small room, Except.ok.injEq] at serialized
        subst serialized
        obtain ⟨rest, unread⟩ := unread_header heap ty id small room
        exact ⟨Nat.lt_of_le_of_lt room small, rfl, _, rest, unread⟩
      · rw [serializeTo_header_outOfRange heap ty id v small header
          (Nat.lt_of_not_le room)] at serialized
        cases serialized
    · rw [ID_built_short heap id sized (Nat.lt_of_not_le header)] at marked
      cases marked
  · rw [buildBuff_short heap _ (Nat.lt_of_not_le sized)] at built
    cases built

/-- There is a message for every value that is small enough. -/
theorem Ty.exists_wrote {ty : Ty α} {v : α} (fits : 6 + ty.written v < 2 ^ 32) :
    ∃ sent, ty.Wrote v sent := by
  have size : (UInt32.ofNat (6 + ty.written v)).toNat = 6 + ty.written v :=
    UInt32.toNat_ofNat_of_lt' fits
  exact ⟨_, _, _, _, _, _, Message.buildBuff_eq (Heap.filled 0) _ (by omega),
    ID_built (Heap.filled 0) 0 (by omega),
    serializeTo_header _ ty _ v (UInt32.toNat_lt _) (Nat.le_of_eq size.symm)⟩

theorem Ty.InStep.steady {ty : Ty α} {v : α} (inStep : ty.InStep v)
    (fits : 6 + ty.written v < 2 ^ 32) : ty.Steady ty.init v := by
  obtain ⟨sent, wrote⟩ := ty.exists_wrote fits
  obtain ⟨_, _, memory, rest, unread⟩ := wrote.unread
  obtain ⟨decided, received, read, _⟩ := inStep sent wrote
  exact ty.steady_of_follows ty.init v (by omega) sent rest received unread read decided

theorem Ty.inStep_of_steady {ty : Ty α} {v : α}
    (steady : 6 + ty.written v < 2 ^ 32 → ty.Steady ty.init v) : ty.InStep v := by
  intro sent wrote
  obtain ⟨fits, start, memory, rest, unread⟩ := wrote.unread
  obtain ⟨received, read, behind, decided⟩ :=
    ty.follows ty.init v (by omega) (steady fits) sent rest unread
  refine ⟨decided, received, read, ?_⟩
  rw [unread.readPoint_after behind, start]
  rfl

/-- Encoder and decoder stay in step exactly for the steady values, and for those
that fit into no message. -/
theorem inStep_iff (ty : Ty α) (v : α) :
    ty.InStep v ↔ (6 + ty.written v < 2 ^ 32 → ty.Steady ty.init v) :=
  ⟨fun inStep fits => inStep.steady fits, Ty.inStep_of_steady⟩

end InStep

/-! ## Conditions that look behind and ahead -/

namespace Proto

abbrev TestAck := Code × UInt64 × Unit

/-- `TestAck` of `TestProto.json`: `code`, and `test` under the condition
`code.value == 0`. -/
def TestAck.ty : Ty TestAck :=
  .struct (.cons "code" Code.ty none
    (.cons "test" .ui64 (some fun _ p => p.1.1 == 0) .nil)) (Code.ty.init, 0, ())

/-- The condition of `TestAck` reads a field that is there. -/
theorem TestAck.inStep (p : TestAck) : TestAck.ty.InStep p := by
  apply Ty.inStep_of_steady
  intro _
  have code : Code.ty.Steady Code.ty.init p.1 :=
    ⟨rfl, fun _ => trivial, rfl, fun _ => trivial, rfl, fun _ => trivial, trivial⟩
  exact ⟨rfl, fun _ => code, rfl, fun _ => trivial, trivial⟩

abbrev Ahead := UInt32 × UInt32 × Unit

/-- A field `a` under the condition `b == 1`, and then `b`. -/
def Ahead.ty : Ty Ahead :=
  .struct (.cons "a" .ui32 (some fun _ p => p.2.1 == 1) (.cons "b" .ui32 none .nil)) (0, 0, ())

/-- `a` is written, since `b` is one, and read as `b`. -/
theorem Ahead.not_inStep : ¬Ahead.ty.InStep (5, 1, ()) := by
  intro inStep
  have steady := inStep.steady (by decide)
  exact absurd steady.1 (by decide)

end Proto

end Nicenet
