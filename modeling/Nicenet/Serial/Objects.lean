import Nicenet.Serial.Size

/-!
# Message objects

The size of a message stands in the memory that the message owns, and whoever gives it a
buffer writes it there. What follows is about any sequence of the operations that give a
message another buffer, and about what `getMsgID`, `getSize` and `doSend` then read of it.
-/

namespace Nicenet

open Library

/-- A `Message` object. The `m_buff` of a `wild` one is what its memory held before. -/
inductive Object where
  | known (message : Message)
  | wild
  deriving DecidableEq, Repr

namespace Object

/-- `swap` rewinds both objects, and reads neither buffer. -/
def rewind : Object → Object
  | .known message => .known ⟨message.buff, 6, 6⟩
  | .wild => .wild

def swap (object other : Object) : Object × Object := (other.rewind, object.rewind)

/-- An operation that looks at `m_buff`. -/
def use (object : Object) (operation : Message → Except Fault Message) :
    Except Fault Object :=
  match object with
  | .known message => (operation message).map .known
  | .wild => .error .outOfRange

/-- No buffer, or one of exactly `getSize()` bytes with room for a header. -/
def Owning : Object → Prop
  | .known message =>
      match message.buff with
      | .null => True
      | .writePoint => False
      | .heap memory => memory.length = message.getSize.toNat ∧ 6 ≤ message.getSize.toNat
  | .wild => False

instance : DecidablePred Owning
  | .known ⟨.null, _, _⟩ => inferInstanceAs (Decidable True)
  | .known ⟨.writePoint, _, _⟩ => inferInstanceAs (Decidable False)
  | .known ⟨.heap _, _, _⟩ => inferInstanceAs (Decidable (_ ∧ _))
  | .wild => inferInstanceAs (Decidable False)

/-- The messages that own a buffer. -/
def Allocated : Object → Prop
  | .known message => message.buff ≠ .null
  | .wild => False

instance : DecidablePred Allocated
  | .known message => inferInstanceAs (Decidable (message.buff ≠ .null))
  | .wild => inferInstanceAs (Decidable False)

/-- The id, the size and the bytes to send are read from within the buffer. -/
def Readable (model : DataModel) : Object → Prop
  | .known message =>
      message.loadMsgID = .ok message.getMsgID ∧
        message.loadSize model = .ok message.getSize ∧
        message.loadBytes model = .ok message.bytes
  | .wild => False

/-- A message that owns what it announces, and of which no more is ever read. -/
structure Safe (model : DataModel) (object : Object) : Prop where
  owning : object.Owning
  readable : object.Readable model

end Object

/-- The operations on the objects that there are, each with the fresh memory that it is
given. `clean` is whether the memory of a moved-to object happens to hold a null pointer. -/
inductive Operation : Type 1 where
  | default
  | raw (heap : Heap) (data : List UInt8)
  | move (other : Nat) (clean : Bool)
  | ID (heap : Heap) (object : Nat) (msgID : UInt16)
  | swap (object other : Nat)
  | clear (object : Nat)
  | toMsg {α : Type} (heap : Heap) (ty : Ty α) (id : UInt16) (p : α) (object : Nat)

namespace Operation

/-- An operation on one object. -/
def on (objects : List Object) (index : Nat)
    (operation : Message → Except Fault Message) : Except Fault (List Object) :=
  match objects[index]? with
  | none => .ok objects
  | some object => (object.use operation).map (objects.set index)

def apply (objects : List Object) : Operation → Except Fault (List Object)
  | .default => .ok (objects ++ [.known .empty])
  | .raw heap data =>
      (Message.ofBuffer heap data).map fun message => objects ++ [.known message]
  | .move other clean =>
      match objects[other]? with
      | none => .ok objects
      | some object =>
          -- The constructor leaves `m_buff` as it is before it swaps.
          let made : Object := if clean then .known .empty else .wild
          let (made, object) := made.swap object
          .ok (objects.set other object ++ [made])
  | .ID heap object msgID => on objects object fun message => message.ID heap msgID
  | .swap object other =>
      match objects[object]?, objects[other]? with
      | some first, some second =>
          let (first, second) := first.swap second
          .ok ((objects.set object first).set other second)
      | _, _ => .ok objects
  | .clear object => on objects object fun message => .ok message.clear
  | .toMsg heap ty id p object =>
      on objects object fun message => ty.toMsg heap id p message

def run (objects : List Object) (ops : List Operation) : Except Fault (List Object) :=
  ops.foldlM apply objects

/-- The objects that an operation names. -/
def names : Operation → List Nat
  | .default | .raw _ _ => []
  | .move other _ => [other]
  | .swap object other => [object, other]
  | .ID _ object _ | .clear object | .toMsg _ _ _ _ object => [object]

/-- The number of objects behind an operation. -/
def count (objects : Nat) : Operation → Nat
  | .default | .raw _ _ | .move _ _ => objects + 1
  | _ => objects

/-- Every operation is on objects that have been constructed. -/
def Scoped : Nat → List Operation → Prop
  | _, [] => True
  | objects, op :: ops =>
      (∀ name ∈ op.names, name < objects) ∧ Scoped (op.count objects) ops

/-- A raw buffer with a header starts with its own length, a moved-from object is left
null, and what `toMsg` is to write fits into the buffer that it builds. No buffer is
shorter than an `unsigned long`, and `ID` builds one of six bytes. -/
def Fits (model : DataModel) (objects : List Object) : Operation → Prop
  | .raw _ data =>
      data.length < 6 ∨
        (readWord data).toNat = data.length ∧ model.unsignedLong ≤ data.length
  | .move _ clean => clean = true
  | .ID _ object _ =>
      model.unsignedLong ≤ 6 ∨ ∀ named ∈ objects[object]?, named.Allocated
  | .toMsg _ ty _ p _ =>
      let buffer : Int := (6 + ty.written p + ty.excess p) % 2 ^ 32
      6 + ty.written p ≤ buffer ∧ model.unsignedLong ≤ buffer
  | _ => True

instance (model : DataModel) (objects : List Object) :
    (op : Operation) → Decidable (op.Fits model objects)
  | .raw _ _ => inferInstanceAs (Decidable (_ ∨ _ ∧ _))
  | .move _ clean => inferInstanceAs (Decidable (clean = true))
  | .ID _ object _ =>
      inferInstanceAs (Decidable (_ ∨ ∀ named ∈ objects[object]?, named.Allocated))
  | .toMsg _ _ _ _ _ => inferInstanceAs (Decidable (_ ∧ _))
  | .default => inferInstanceAs (Decidable True)
  | .swap _ _ => inferInstanceAs (Decidable True)
  | .clear _ => inferInstanceAs (Decidable True)

/-- Every operation of a sequence fits the objects that there are by then. -/
def AllFit (model : DataModel) : List Object → List Operation → Prop
  | _, [] => True
  | objects, op :: ops =>
      op.Fits model objects ∧
        ∀ next, op.apply objects = .ok next → AllFit model next ops

end Operation

/-! ## One operation -/

namespace Object

variable {message : Message}

theorem safe_empty {model : DataModel} : (known .empty).Safe model :=
  ⟨trivial, rfl, rfl, rfl⟩

/-- A block is safe that has its own length in front and the bytes of an `unsigned long`. -/
theorem safe_heap {model : DataModel} {memory : List UInt8} {writePoint readPoint : UInt32} :
    (known ⟨.heap memory, writePoint, readPoint⟩).Safe model ↔
      memory.length = (readWord memory).toNat ∧ 6 ≤ memory.length ∧
        model.unsignedLong ≤ memory.length := by
  constructor
  · rintro ⟨⟨whole, header⟩, _, size, _⟩
    have whole : memory.length = (readWord memory).toNat := whole
    refine ⟨whole, whole ▸ header, ?_⟩
    by_contra short
    rw [Message.loadSize_heap_short (Nat.lt_of_not_le short)] at size
    cases size
  · rintro ⟨whole, header, long⟩
    exact ⟨⟨whole, whole ▸ header⟩, Message.loadMsgID_heap header,
      Message.loadSize_heap long, Message.loadBytes_heap long whole⟩

theorem Safe.rewind {model : DataModel} {object : Object} (safe : object.Safe model) :
    object.rewind.Safe model := by
  cases object with
  | wild => exact safe.owning.elim
  | known message =>
      obtain ⟨buff, writePoint, readPoint⟩ := message
      cases buff with
      | null => exact safe_empty
      | writePoint => exact safe.owning.elim
      | heap memory => exact safe_heap.mpr (safe_heap.mp safe)

/-- The size is in front of what `ID` writes. A message without a buffer gets one of six
bytes. -/
theorem Safe.ID_safe_iff {model : DataModel} (heap : Heap) (msgID : UInt16)
    (safe : (known message).Safe model) :
    (∃ named, message.ID heap msgID = .ok named ∧ (known named).Safe model) ↔
      model.unsignedLong ≤ 6 ∨ (known message).Allocated := by
  obtain ⟨buff, writePoint, readPoint⟩ := message
  cases buff with
  | null =>
      have built := Message.buildBuff_eq heap ⟨.null, writePoint, readPoint⟩
        (show 4 ≤ 6 by decide)
      have named : Message.ID heap ⟨.null, writePoint, readPoint⟩ msgID =
          .ok ⟨.heap (headerMemory heap 6 msgID), 6, 6⟩ := by
        rw [← ID_built heap msgID (Nat.le_refl 6)]
        simp only [Message.ID, built]
      have length := length_headerMemory heap msgID (Nat.le_refl 6)
      have word := readWord_headerMemory heap msgID (Nat.le_refl 6)
      have bare : ¬(known ⟨.null, writePoint, readPoint⟩).Allocated := fun buffer => buffer rfl
      rw [or_iff_left bare]
      constructor
      · rintro ⟨after, done, safe⟩
        cases named.symm.trans done
        exact length ▸ (safe_heap.mp safe).2.2
      · intro short
        refine ⟨_, named, safe_heap.mpr ?_⟩
        rw [length, word]
        exact ⟨rfl, Nat.le_refl 6, short⟩
  | writePoint => exact safe.owning.elim
  | heap memory =>
      obtain ⟨whole, header, long⟩ := safe_heap.mp safe
      have inside : 4 + (Bytes.ofNat 2 msgID.toNat).length ≤ memory.length := by
        rw [Bytes.length_ofNat]
        exact header
      refine iff_of_true ⟨_, Message.copyIn_heap inside, ?_⟩ (.inr Buff.noConfusion)
      rw [safe_heap, Bytes.length_overwrite inside,
        readWord_overwrite (Nat.le_refl 4) inside]
      exact ⟨whole, header, long⟩

/-- A raw buffer becomes the memory of the message, its own first word the size. -/
theorem ofBuffer_safe_iff {model : DataModel} (heap : Heap) (data : List UInt8) :
    (∃ message, Message.ofBuffer heap data = .ok message ∧ (known message).Safe model) ↔
      data.length < 6 ∨
        (readWord data).toNat = data.length ∧ model.unsignedLong ≤ data.length := by
  by_cases short : data.length < 6
  · rw [Message.ofBuffer_short heap short]
    exact iff_of_true ⟨_, rfl, safe_empty⟩ (.inl short)
  · rw [Message.ofBuffer_long heap (by omega), or_iff_right short]
    constructor
    · rintro ⟨message, ⟨⟩, safe⟩
      obtain ⟨whole, _, long⟩ := safe_heap.mp safe
      exact ⟨whole.symm, long⟩
    · rintro ⟨word, long⟩
      exact ⟨_, rfl, safe_heap.mpr ⟨word.symm, Nat.le_of_not_lt short, long⟩⟩

/-- `toMsg` leaves a buffer of the size that it has built, or writes behind it. -/
theorem toMsg_safe_iff {model : DataModel} {α : Type} (heap : Heap) (ty : Ty α)
    (id : UInt16) (p : α) (message : Message) :
    (∃ sent, ty.toMsg heap id p message = .ok sent ∧ (known sent).Safe model) ↔
      6 + ty.written p ≤ ty.bufferSize p ∧ model.unsignedLong ≤ ty.bufferSize p := by
  by_cases room : 6 + ty.written p ≤ ty.bufferSize p
  · have header : 6 ≤ ty.bufferSize p := by omega
    have length := length_headerMemory heap id header
    have small : ty.bufferSize p < 2 ^ 32 := UInt32.toNat_lt _
    have inside : 6 + (ty.insert p).flatten.length ≤
        (headerMemory heap (ty.bufferSize p) id).length := by
      rw [length]
      exact room
    have safe : (known ⟨.heap (Bytes.overwrite (headerMemory heap (ty.bufferSize p) id) 6
        (ty.insert p).flatten), 6 + UInt32.ofNat (ty.written p), 6⟩).Safe model ↔
          model.unsignedLong ≤ ty.bufferSize p := by
      rw [safe_heap, Bytes.length_overwrite inside, readWord_overwrite (by decide) inside,
        readWord_headerMemory heap id header, UInt32.toNat_ofNat_of_lt' small, length]
      simp [header]
    rw [and_iff_right room, ← safe, toMsg_ok heap ty id p message room]
    exact ⟨fun ⟨_, done, safe⟩ => by cases done; exact safe, fun safe => ⟨_, rfl, safe⟩⟩
  · refine iff_of_false ?_ fun fits => room fits.1
    rintro ⟨sent, built, _⟩
    rw [toMsg_outOfRange heap ty id p message (by omega)] at built
    cases built

end Object

namespace Operation

variable {model : DataModel} {objects next : List Object} {op : Operation}

/-- All objects own what they announce, and no more is read of them. -/
def Sound (model : DataModel) (objects : List Object) : Prop :=
  ∀ object ∈ objects, object.Safe model

theorem Sound.set (sound : Sound model objects) {object : Object} (safe : object.Safe model)
    (index : Nat) : Sound model (objects.set index object) := by
  intro other member
  rcases List.mem_or_eq_of_mem_set member with before | rfl
  · exact sound other before
  · exact safe

theorem sound_append {object : Object} :
    Sound model (objects ++ [object]) ↔ Sound model objects ∧ object.Safe model := by
  simp [Sound, or_imp, forall_and]

/-- An operation on one object of many. -/
theorem on_sound_iff (sound : Sound model objects) {index : Nat}
    (inside : index < objects.length) {operation : Message → Except Fault Message}
    {condition : Prop}
    (spec : ∀ message, objects[index]? = some (.known message) →
      (Object.known message).Safe model →
        ((∃ after, operation message = .ok after ∧ (Object.known after).Safe model) ↔
          condition)) :
    (∃ next, on objects index operation = .ok next ∧ Sound model next) ↔ condition := by
  have found := List.getElem?_eq_getElem inside
  have safe := sound _ (List.getElem_mem inside)
  generalize objects[index] = object at found safe
  cases object with
  | wild => exact safe.owning.elim
  | known message =>
      rw [← spec message found safe, on, found]
      simp only [Object.use]
      cases operation message with
      | error fault => simp [Except.map]
      | ok after =>
          constructor
          · rintro ⟨next, ⟨⟩, rest⟩
            exact ⟨after, rfl, rest _ (List.mem_set inside _)⟩
          · rintro ⟨_, ⟨⟩, safe⟩
            exact ⟨_, rfl, sound.set safe index⟩

/-- One operation keeps all objects sound exactly if it fits. -/
theorem apply_sound_iff (sound : Sound model objects)
    (inside : ∀ name ∈ op.names, name < objects.length) :
    (∃ next, apply objects op = .ok next ∧ Sound model next) ↔ op.Fits model objects := by
  cases op with
  | default =>
      exact iff_of_true ⟨_, rfl, sound_append.mpr ⟨sound, Object.safe_empty⟩⟩ trivial
  | raw heap data =>
      rw [Fits, ← Object.ofBuffer_safe_iff heap data, apply]
      cases Message.ofBuffer heap data with
      | error fault => simp [Except.map]
      | ok message => simp [Except.map, sound_append, sound]
  | move other clean =>
      have found := inside other (by simp [names])
      have safe := sound _ (List.getElem_mem found)
      simp only [apply, List.getElem?_eq_getElem found]
      cases clean with
      | true =>
          refine iff_of_true ⟨_, rfl, sound_append.mpr ⟨?_, safe.rewind⟩⟩ rfl
          exact sound.set Object.safe_empty other
      | false =>
          refine iff_of_false ?_ (by simp [Fits])
          rintro ⟨next, ⟨⟩, rest⟩
          exact ((sound_append.mp rest).1 .wild (List.mem_set found _)).owning
  | ID heap object msgID =>
      refine on_sound_iff sound (inside object (by simp [names])) fun message found safe => ?_
      rw [safe.ID_safe_iff heap msgID, Fits, found]
      simp
  | swap object other =>
      have first := inside object (by simp [names])
      have second := inside other (by simp [names])
      have safeFirst := sound _ (List.getElem_mem first)
      have safeSecond := sound _ (List.getElem_mem second)
      simp only [apply, List.getElem?_eq_getElem first, List.getElem?_eq_getElem second]
      refine iff_of_true ⟨_, rfl, ?_⟩ trivial
      exact (sound.set safeSecond.rewind object).set safeFirst.rewind other
  | clear object =>
      refine on_sound_iff sound (inside object (by simp [names])) fun message _ _ => ?_
      exact iff_of_true ⟨_, rfl, Object.safe_empty⟩ trivial
  | toMsg heap ty id p object =>
      refine on_sound_iff sound (inside object (by simp [names])) fun message _ _ => ?_
      rw [Object.toMsg_safe_iff, Fits, ← ty.bufferSize_eq p]
      exact and_congr (by omega) (by omega)

theorem on_length {index : Nat} {operation : Message → Except Fault Message}
    (done : on objects index operation = .ok next) : next.length = objects.length := by
  rw [on] at done
  split at done
  · cases done
    rfl
  · next object _ =>
    cases used : object.use operation with
    | error fault => simp [used, Except.map] at done
    | ok after =>
        rw [used] at done
        cases done
        exact List.length_set

theorem apply_length (done : apply objects op = .ok next)
    (inside : ∀ name ∈ op.names, name < objects.length) :
    next.length = op.count objects.length := by
  cases op with
  | default =>
      cases done
      exact List.length_append
  | raw heap data =>
      rw [apply] at done
      cases built : Message.ofBuffer heap data with
      | error fault => simp [built, Except.map] at done
      | ok message =>
          rw [built] at done
          cases done
          exact List.length_append
  | move other clean =>
      simp only [apply, List.getElem?_eq_getElem (inside other (by simp [names]))] at done
      cases done
      simp [count]
  | swap object other =>
      simp only [apply, List.getElem?_eq_getElem (inside object (by simp [names])),
        List.getElem?_eq_getElem (inside other (by simp [names]))] at done
      cases done
      simp [count]
  | ID heap object msgID => exact on_length done
  | clear object => exact on_length done
  | toMsg heap ty id p object => exact on_length done

/-! ## Every sequence -/

variable {ops : List Operation}

/-- The objects that there are after every part of a sequence are sound. -/
def KeepsSound (model : DataModel) (objects : List Object) (ops : List Operation) : Prop :=
  ∀ before after, ops = before ++ after →
    ∃ next, run objects before = .ok next ∧ Sound model next

theorem run_cons (done : apply objects op = .ok next) :
    run objects (op :: ops) = run next ops := by
  rw [run, List.foldlM_cons, done]
  rfl

theorem keepsSound_cons (sound : Sound model objects) :
    KeepsSound model objects (op :: ops) ↔
      ∃ next, apply objects op = .ok next ∧ Sound model next ∧ KeepsSound model next ops := by
  constructor
  · intro keeps
    obtain ⟨next, done, rest⟩ := keeps [op] ops rfl
    have done : apply objects op = .ok next := by
      simpa [run, List.foldlM_cons, List.foldlM_nil] using done
    refine ⟨next, done, rest, ?_⟩
    rintro before after rfl
    rw [← run_cons done]
    exact keeps (op :: before) after rfl
  · rintro ⟨next, done, rest, keeps⟩ before after split
    cases before with
    | nil => exact ⟨objects, rfl, sound⟩
    | cons first before =>
        cases split
        rw [run_cons done]
        exact keeps before after rfl

/-- The step lemma, for every sequence. -/
theorem keepsSound_of_sound (sound : Sound model objects)
    (known : Scoped objects.length ops) :
    KeepsSound model objects ops ↔ AllFit model objects ops := by
  induction ops generalizing objects with
  | nil =>
      refine iff_of_true ?_ trivial
      intro before after split
      obtain ⟨rfl, rfl⟩ := List.append_eq_nil_iff.mp split.symm
      exact ⟨objects, rfl, sound⟩
  | cons op ops ih =>
      obtain ⟨inside, later⟩ := known
      rw [keepsSound_cons sound, AllFit, ← apply_sound_iff sound inside]
      constructor
      · rintro ⟨next, done, rest, keeps⟩
        refine ⟨⟨next, done, rest⟩, fun after same => ?_⟩
        cases done.symm.trans same
        rw [← apply_length done inside] at later
        exact (ih rest later).mp keeps
      · rintro ⟨⟨next, done, rest⟩, fits⟩
        rw [← apply_length done inside] at later
        exact ⟨next, done, rest, (ih rest later).mpr (fits next done)⟩

/-- Behind every part of a sequence of operations every message has no buffer, or one of
exactly its `getSize()` bytes, at least six and all that is read of it, exactly if all
operations fit. -/
theorem keepsSound_iff (known : Scoped 0 ops) :
    KeepsSound model [] ops ↔ AllFit model [] ops :=
  keepsSound_of_sound (fun _ member => absurd member List.not_mem_nil) known

/-- A message with a header of its own length, moved to an object whose memory is clean. -/
theorem keepsSound_moved :
    KeepsSound .lp64 [] [.raw (Heap.filled 0) [8, 0, 0, 0, 101, 0, 0, 0], .move 0 true,
      .ID (Heap.filled 0) 1 102, .swap 0 1, .clear 0] :=
  (keepsSound_iff (by simp [Scoped, names, count])).mpr (by
    refine ⟨by decide, ?_⟩
    rintro _ ⟨⟩
    refine ⟨rfl, ?_⟩
    rintro _ ⟨⟩
    refine ⟨by decide, ?_⟩
    rintro _ ⟨⟩
    refine ⟨trivial, ?_⟩
    rintro _ ⟨⟩
    exact ⟨trivial, fun _ _ => trivial⟩)

/-- `Message msg2(dat, 8)` of the test client, a moved-from message, and a message that is
no more than an id. -/
theorem not_keepsSound :
    ¬KeepsSound .lp64 [] [.raw (Heap.filled 0) [32, 0, 0, 0, 101, 0, 0, 0]] ∧
      ¬KeepsSound .lp64 [] [.default, .move 0 false] ∧
        ¬KeepsSound .lp64 [] [.default, .ID (Heap.filled 0) 0 101] := by
  refine ⟨?_, ?_, ?_⟩
  · intro keeps
    obtain ⟨next, ⟨⟩, sound⟩ := keeps _ [] (List.append_nil _).symm
    exact absurd (sound _ List.mem_cons_self).owning (by decide)
  · intro keeps
    obtain ⟨next, ⟨⟩, sound⟩ := keeps _ [] (List.append_nil _).symm
    exact (sound .wild List.mem_cons_self).owning
  · intro keeps
    obtain ⟨next, ⟨⟩, sound⟩ := keeps _ [] (List.append_nil _).symm
    exact absurd (sound _ List.mem_cons_self).readable.2.1 (by decide)

end Operation

end Nicenet
