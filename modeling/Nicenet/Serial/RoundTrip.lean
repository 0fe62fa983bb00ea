import Nicenet.Serial.Wire

/-!
# Round trips

What `toMsg` wrote is read back, but not always into the value: the vector
reader appends to what its target already holds, be it the decoded object or a
temporary element with defaults of its own. `Fresh` says that there is nothing
to append to. The other condition is that `toMsg` gets through at all.
-/

namespace Nicenet

open Library

mutual

/-- No field has a condition. -/
def Ty.plain : {α : Type} → Ty α → Bool
  | _, .vector element => element.plain
  | _, .struct fields _ => fields.plain
  | _, _ => true

def Fields.plain : {σ β : Type} → Fields σ β → Bool
  | _, _, .nil => true
  | _, _, .cons _ field condition others =>
      condition.isNone && field.plain && others.plain

end

mutual

/-- The vectors of the target, and of the temporaries the value is read through,
are empty. (A count of four bytes falls short of a vector of `2 ^ 32` elements;
for one of those the target has to hold as many as the count leaves out.) -/
def Ty.Fresh : {α : Type} → Ty α → α → α → Prop
  | _, .vector element, p, v =>
      p.length + v.length % 2 ^ 32 = v.length ∧
        ∀ item ∈ v, element.Fresh element.init item
  | _, .struct fields _, p, v => fields.Fresh p v
  | _, _, _, _ => True

def Fields.Fresh : {σ β : Type} → Fields σ β → β → β → Prop
  | _, _, .nil, _, _ => True
  | _, _, .cons _ field _ others, p, v => field.Fresh p.1 v.1 ∧ others.Fresh p.2 v.2

end

/-! ## Values that take no bytes -/

theorem Fields.plain_cons {σ α β : Type} {name : String} {field : Ty α}
    {condition : Option (Option UInt32 → σ → Bool)} {others : Fields σ β}
    (plain : (Fields.cons name field condition others).plain) :
    (∀ whole, present condition whole = true) ∧ field.plain ∧ others.plain := by
  simp only [Fields.plain, Bool.and_eq_true, Option.isNone_iff_eq_none] at plain
  obtain ⟨⟨rfl, field⟩, others⟩ := plain
  exact ⟨fun _ => rfl, field, others⟩

mutual

/-- A value that takes no bytes is the only one of its type. -/
theorem Ty.eq_of_written_eq_zero : {α : Type} → (ty : Ty α) → ty.plain →
    (v : α) → ty.written v = 0 → ∀ w, w = v
  | _, .ui16, _, v, hollow => by simp [Ty.written, Ty.insert] at hollow
  | _, .ui32, _, v, hollow => by simp [Ty.written, Ty.insert] at hollow
  | _, .ui64, _, v, hollow => by simp [Ty.written, Ty.insert] at hollow
  | _, .string, _, v, hollow => by simp [Ty.written, Ty.insert] at hollow
  | _, .binary, _, v, hollow => by simp [Ty.written, Ty.insert] at hollow
  | _, .operUInt, _, v, hollow => by simp [Ty.written, Ty.insert] at hollow
  | _, .storeUInt, _, v, hollow => by simp [Ty.written, Ty.insert] at hollow
  | _, .vector element, _, v, hollow => by
      rw [Ty.written_vector] at hollow
      omega
  | _, .struct fields _, plain, v, hollow =>
      fields.eq_of_written_eq_zero plain v v hollow

theorem Fields.eq_of_written_eq_zero : {σ β : Type} → (fields : Fields σ β) →
    fields.plain → (whole : σ) → (v : β) → fields.written whole v = 0 → ∀ w, w = v
  | _, _, .nil, _, _, _, _, _ => rfl
  | _, _, .cons _ field condition others, plain, whole, v, hollow, w => by
      obtain ⟨always, fieldPlain, othersPlain⟩ := Fields.plain_cons plain
      rw [Fields.written_cons, if_pos (always whole)] at hollow
      have first := field.eq_of_written_eq_zero fieldPlain v.1 (by omega) w.1
      have rest := others.eq_of_written_eq_zero othersPlain whole v.2 (by omega) w.2
      exact Prod.ext first rest

end

/-- A vector too long for its count, in a message of less than `2 ^ 32` bytes,
has elements that take no bytes. -/
theorem hollow_of_long {α : Type} {element : Ty α} (plain : element.plain)
    {v : List α} (small : (Ty.vector element).written v < 2 ^ 32)
    (long : 2 ^ 32 ≤ v.length) : ∀ item : α, element.written item = 0 := by
  have light : ∃ item ∈ v, element.written item = 0 := by
    by_contra heavy
    push Not at heavy
    have bound : v.length ≤ (v.map element.written).sum := by
      clear small long
      induction v with
      | nil => exact Nat.le_refl 0
      | cons item v ih =>
          have head := heavy item List.mem_cons_self
          have tail := ih fun other member =>
            heavy other (List.mem_cons_of_mem _ member)
          simp only [List.length_cons, List.map_cons, List.sum_cons]
          omega
    rw [Ty.written_vector] at small
    omega
  obtain ⟨item, _, hollow⟩ := light
  intro other
  rw [element.eq_of_written_eq_zero plain item hollow other]
  exact hollow

theorem Ty.written_le_of_mem {α : Type} (element : Ty α) {v : List α} {item : α}
    (member : item ∈ v) : element.written item ≤ (Ty.vector element).written v := by
  rw [Ty.written_vector]
  induction v with
  | nil => exact absurd member List.not_mem_nil
  | cons first v ih =>
      rw [List.map_cons, List.sum_cons]
      rcases List.mem_cons.mp member with rfl | member
      · omega
      · have := ih member
        omega

/-! ## Without conditions the wire form is what serialization writes -/

theorem length_lt_of_written {v : List UInt8} (small : Ty.string.written v < 2 ^ 32) :
    v.length < 2 ^ 32 := by
  simp only [Ty.written, Ty.insert, List.flatten_cons, List.flatten_nil,
    List.append_nil, List.length_append] at small
  omega

section Vector

variable {α : Type} {element : Ty α} {v : List α}

theorem flatten_insert (element : Ty α) (v : List α) :
    (v.flatMap element.insert).flatten =
      v.flatMap fun item => (element.insert item).flatten := by
  induction v with
  | nil => rfl
  | cons item v ih =>
      rw [List.flatMap_cons, List.flatten_append, ih, List.flatMap_cons]

/-- The items of a vector, each in its wire form, are what serialization writes
for them. -/
theorem wire_items (plain : element.plain)
    (item : ∀ v, element.written v < 2 ^ 32 →
      element.wire element.init v = (element.insert v).flatten)
    (small : (Ty.vector element).written v < 2 ^ 32) :
    (counted v).flatMap (element.wire element.init) =
      (v.flatMap element.insert).flatten := by
  rw [flatten_insert]
  by_cases short : v.length < 2 ^ 32
  · rw [counted_of_lt short]
    apply List.flatMap_congr
    intro value member
    exact item value (Nat.lt_of_le_of_lt (element.written_le_of_mem member) small)
  · have hollow := hollow_of_long plain small (Nat.le_of_not_lt short)
    have nothing : ∀ value, (element.insert value).flatten = [] :=
      fun value => List.length_eq_zero_iff.mp (hollow value)
    have left : (counted v).flatMap (element.wire element.init) = [] := by
      rw [List.flatMap_eq_nil_iff]
      intro value _
      rw [item value (by rw [hollow value]; exact Nat.two_pow_pos 32)]
      exact nothing value
    rw [left, eq_comm, List.flatMap_eq_nil_iff]
    exact fun value _ => nothing value

/-- A vector is read back if its target was empty and its items are. -/
theorem merge_items (plain : element.plain)
    (item : ∀ v, element.written v < 2 ^ 32 →
      (element.merge element.init v = v ↔ element.Fresh element.init v))
    (p : List α) (small : (Ty.vector element).written v < 2 ^ 32) :
    p ++ (counted v).map (element.merge element.init) = v ↔
      p.length + v.length % 2 ^ 32 = v.length ∧
        ∀ value ∈ v, element.Fresh element.init value := by
  have each : ∀ value ∈ v, (element.merge element.init value = value ↔
      element.Fresh element.init value) := fun value member =>
    item value (Nat.lt_of_le_of_lt (element.written_le_of_mem member) small)
  have total : (p ++ (counted v).map (element.merge element.init)).length =
      p.length + v.length % 2 ^ 32 := by
    rw [List.length_append, List.length_map, length_counted, UInt32.toNat_ofNat']
  by_cases short : v.length < 2 ^ 32
  · rw [counted_of_lt short, Nat.mod_eq_of_lt short] at *
    constructor
    · intro same
      rw [same] at total
      have empty : p = [] := List.length_eq_zero_iff.mp (by omega)
      rw [empty, List.nil_append] at same
      refine ⟨total.symm, fun value member => (each value member).mp ?_⟩
      exact List.map_inj_left.mp (same.trans (List.map_id v).symm) value member
    · rintro ⟨length, fresh⟩
      have empty : p = [] := List.length_eq_zero_iff.mp (by omega)
      rw [empty, List.nil_append]
      have same := List.map_inj_left.mpr fun value member =>
        (each value member).mpr (fresh value member)
      exact same.trans (List.map_id v)
  · have hollow := hollow_of_long plain small (Nat.le_of_not_lt short)
    have equal : ∀ left right : α, left = right := fun left right =>
      element.eq_of_written_eq_zero plain right (hollow right) left
    constructor
    · intro same
      rw [same] at total
      exact ⟨total.symm, fun value member => (each value member).mp (equal _ _)⟩
    · rintro ⟨length, _⟩
      apply List.ext_getElem (total.trans length)
      intro index _ _
      exact equal _ _

end Vector

mutual

theorem Ty.wire_eq : {α : Type} → (ty : Ty α) → ty.plain → (p v : α) →
    ty.written v < 2 ^ 32 → ty.wire p v = (ty.insert v).flatten
  | _, .ui16, _, _, _, _ => (List.flatten_singleton).symm
  | _, .ui32, _, _, _, _ => (List.flatten_singleton).symm
  | _, .ui64, _, _, _, _ => (List.flatten_singleton).symm
  | _, .operUInt, _, _, _, _ => (List.flatten_singleton).symm
  | _, .storeUInt, _, _, _, _ => (List.flatten_singleton).symm
  | _, .binary, _, p, v, _ => by simp [Ty.wire, Ty.insert]
  | _, .string, _, p, v, small => by
      simp [Ty.wire, Ty.insert, counted_of_lt (length_lt_of_written small)]
  | _, .vector element, plain, p, v, small => by
      have plain : element.plain := plain
      rw [Ty.wire, Ty.insert, List.flatten_cons,
        wire_items plain (element.wire_eq plain element.init) small]
  | _, .struct fields _, plain, p, v, small =>
      fields.wire_eq plain id v p v small

theorem Fields.wire_eq : {σ β : Type} → (fields : Fields σ β) → fields.plain →
    (rebuild : β → σ) → (whole : σ) → (p v : β) →
    fields.written whole v < 2 ^ 32 →
    fields.wire rebuild p v = (fields.insert whole v).flatten
  | _, _, .nil, _, _, _, _, _, _ => rfl
  | _, _, .cons _ field condition others, plain, rebuild, whole, p, v, small => by
      obtain ⟨always, fieldPlain, othersPlain⟩ := Fields.plain_cons plain
      rw [Fields.written_cons, if_pos (always whole)] at small
      have first := field.wire_eq fieldPlain p.1 v.1 (by omega)
      have rest := fun rebuild =>
        others.wire_eq othersPlain rebuild whole p.2 v.2 (by omega)
      simp only [Fields.wire, Fields.insert, always, ↓reduceIte, first, rest,
        List.flatten_append]

end

mutual

/-- Reading a value gives it back if there was nothing to append to. -/
theorem Ty.merge_eq_iff : {α : Type} → (ty : Ty α) → ty.plain → (p v : α) →
    ty.written v < 2 ^ 32 → (ty.merge p v = v ↔ ty.Fresh p v)
  | _, .ui16, _, _, _, _ => iff_of_true rfl trivial
  | _, .ui32, _, _, _, _ => iff_of_true rfl trivial
  | _, .ui64, _, _, _, _ => iff_of_true rfl trivial
  | _, .operUInt, _, _, _, _ => iff_of_true rfl trivial
  | _, .storeUInt, _, _, _, _ => iff_of_true rfl trivial
  | _, .binary, _, _, _, _ => iff_of_true rfl trivial
  | _, .string, _, p, v, small =>
      iff_of_true (counted_of_lt (length_lt_of_written small)) trivial
  | _, .vector element, plain, p, v, small => by
      have plain : element.plain := plain
      exact merge_items plain (element.merge_eq_iff plain element.init) p small
  | _, .struct fields _, plain, p, v, small =>
      fields.merge_eq_iff plain id v p v small

theorem Fields.merge_eq_iff : {σ β : Type} → (fields : Fields σ β) → fields.plain →
    (rebuild : β → σ) → (whole : σ) → (p v : β) →
    fields.written whole v < 2 ^ 32 →
    (fields.merge rebuild p v = v ↔ fields.Fresh p v)
  | _, _, .nil, _, _, _, _, _, _ => iff_of_true rfl trivial
  | _, _, .cons _ field condition others, plain, rebuild, whole, p, v, small => by
      obtain ⟨always, fieldPlain, othersPlain⟩ := Fields.plain_cons plain
      rw [Fields.written_cons, if_pos (always whole)] at small
      have first := field.merge_eq_iff fieldPlain p.1 v.1 (by omega)
      have rest := fun rebuild =>
        others.merge_eq_iff othersPlain rebuild whole p.2 v.2 (by omega)
      simp only [Fields.merge, Fields.Fresh, always, ↓reduceIte, ← first]
      rw [← rest, Prod.ext_iff]

end

/-! ## The round trip -/

section RoundTrip

variable {α : Type} (heap : Heap) (ty : Ty α) (id : UInt16)

/-- `unserializeFrom`, applied to what `toMsg` built of a value, leaves the value
in the target and the read point behind the last byte written. -/
def RoundTrips (v target : α) : Prop :=
  ∃ sent, ty.toMsg heap id v Message.empty = .ok sent ∧
    ∃ received, ty.unserializeFrom sent target = .ok (v, received) ∧
      received.readPoint.toNat = 6 + ty.written v

/-- What was written behind the header of a message is read from there. -/
theorem unread_header {size : Nat} {v : α} (small : size < 2 ^ 32)
    (room : 6 + ty.written v ≤ size) :
    ∃ rest, Unread (Bytes.overwrite (headerMemory heap size id) 6
        (ty.insert v).flatten)
      ⟨.heap (Bytes.overwrite (headerMemory heap size id) 6
        (ty.insert v).flatten), 6 + UInt32.ofNat (ty.written v), 6⟩
      ((ty.insert v).flatten ++ rest) := by
  have header : 6 ≤ size := by omega
  have length := length_headerMemory heap id header
  have inside : 6 + (ty.insert v).flatten.length ≤
      (headerMemory heap size id).length := by
    rw [length]
    exact room
  have total := Bytes.length_overwrite inside
  refine ⟨(headerMemory heap size id).drop
    (6 + (ty.insert v).flatten.length), rfl, ?_, ?_, ?_⟩
  · rw [readWord_overwrite (by decide) inside, readWord_headerMemory heap id header,
      total, length, UInt32.toNat_ofNat_of_lt' small]
  · rw [total, length]
    exact header
  · have front : ((headerMemory heap size id).take 6).length = 6 := by
      rw [List.length_take, length]
      omega
    rw [Bytes.overwrite, List.append_assoc]
    exact List.drop_left' front

/-- Round trips succeed exactly when `toMsg` has the room it needs and the vectors
read into are empty. -/
theorem roundTrips_iff (plain : ty.plain) (v target : α) :
    RoundTrips heap ty id v target ↔
      (6 + ty.written v : Int) ≤ (6 + ty.written v + ty.excess v) % 2 ^ 32 ∧
        ty.Fresh target v := by
  rw [← ty.bufferSize_eq, show (6 + ty.written v : Int) ≤ ty.bufferSize v ↔
    6 + ty.written v ≤ ty.bufferSize v by omega]
  by_cases room : 6 + ty.written v ≤ ty.bufferSize v
  · have small : ty.written v < 2 ^ 32 := by
      have := UInt32.toNat_lt (6 + ty.getSize v)
      rw [Ty.bufferSize] at room
      omega
    obtain ⟨rest, unread⟩ := unread_header heap ty id (UInt32.toNat_lt _) room
    have word : ty.Words target (ty.insert v).flatten (ty.merge target v) :=
      ⟨v, (ty.wire_eq plain target v small).symm, rfl⟩
    obtain ⟨next, read, behind⟩ := (ty.extract_reads target).complete word unread
    have here : next.readPoint.toNat = 6 + ty.written v :=
      unread.readPoint_after behind
    rw [and_iff_right room, ← ty.merge_eq_iff plain target v small]
    constructor
    · rintro ⟨sent, built, received, decoded, _⟩
      rw [toMsg_ok heap ty id v Message.empty room] at built
      cases built
      rw [Ty.unserializeFrom] at decoded
      have same := read.symm.trans decoded
      simp only [Except.ok.injEq, Prod.mk.injEq] at same
      exact same.1
    · intro same
      rw [same] at read
      exact ⟨_, toMsg_ok heap ty id v Message.empty room, next, read, here⟩
  · refine iff_of_false ?_ fun holds => room holds.1
    rintro ⟨sent, built, _⟩
    rw [toMsg_outOfRange heap ty id v Message.empty (Nat.lt_of_not_le room)] at built
    cases built

end RoundTrip

/-- The default `XDataBase` is read back into an object without strings. -/
theorem roundTrips_into_empty :
    RoundTrips (Heap.filled 0) Proto.XDataBase.ty 7 Proto.XDataBase.ty.init
      (0, [], [], ()) :=
  (roundTrips_iff (Heap.filled 0) Proto.XDataBase.ty 7 (by decide)
    Proto.XDataBase.ty.init (0, [], [], ())).mpr (by
      refine ⟨by decide, trivial, trivial, ?_, trivial⟩
      exact ⟨by decide, fun _ _ => trivial⟩)

/-- Read back into a default `XDataBase`, its three strings come behind the three
that are there. -/
theorem roundTrips_into_default :
    ¬RoundTrips (Heap.filled 0) Proto.XDataBase.ty 7 Proto.XDataBase.ty.init
      Proto.XDataBase.ty.init := by
  rintro ⟨sent, built, received, decoded, _⟩
  have both : ((Proto.XDataBase.ty.toMsg (Heap.filled 0) 7 Proto.XDataBase.ty.init
      Message.empty).bind fun sent =>
        (Proto.XDataBase.ty.unserializeFrom sent Proto.XDataBase.ty.init).map
          fun read => read.1.2.2.1.length) = .ok 6 := rfl
  rw [built] at both
  simp only [Except.bind, decoded, Except.map] at both
  exact absurd both (by decide)

end Nicenet
