import Mathlib.Algebra.Ring.Int.Defs
import Mathlib.Algebra.GroupWithZero.Nat
import Nicenet.Serial.Schema

/-!
# Sizes of serialized values

`getSize` and `operator<<` recurse over a type independently of each other. They
agree on every leaf but `ui16` and `ui32`: these are counted as eight bytes and
written as two and four. A field named `s` is counted as eight bytes whatever it
is, and a condition on it looks at the count. `excess` adds up the differences, and
the buffer that `toMsg` builds is too large, or too small, by just that.
-/

namespace Nicenet

open Library

/-- The number of bytes `operator<<` writes. -/
def Ty.written {α : Type} (ty : Ty α) (p : α) : Nat := (ty.insert p).flatten.length

def Fields.written {σ β : Type} (fields : Fields σ β) (whole : σ) (p : β) : Nat :=
  (fields.insert whole p).flatten.length

mutual

/-- Six for each `ui16` and four for each `ui32` that is written. -/
def Ty.excess : {α : Type} → Ty α → α → Int
  | _, .ui16, _ => 6
  | _, .ui32, _ => 4
  | _, .vector element, p => (p.map element.excess).sum
  | _, .struct fields _, p => fields.excess p p 0
  | _, _, _ => 0

/-- A field `s` takes eight bytes instead of its own, and a condition is one on the
count `s` so far where it tests a field of that name. -/
def Fields.excess : {σ β : Type} → Fields σ β → σ → β → UInt32 → Int
  | _, _, .nil, _, _, _ => 0
  | _, _, .cons name field condition others, whole, p, s =>
      let size : Int := if name = "s" then 8 else field.written p.1 + field.excess p.1
      let counts := if presentInSize condition s whole then size else 0
      let writes : Int := if present condition whole then field.written p.1 else 0
      counts - writes + others.excess whole p.2 (s + UInt32.ofInt counts)

end

theorem Ty.written_vector {α : Type} (element : Ty α) (p : List α) :
    (Ty.vector element).written p = 4 + (p.map element.written).sum := by
  have items : (p.flatMap element.insert).flatten.length =
      (p.map element.written).sum := by
    induction p with
    | nil => rfl
    | cons item p ih =>
        rw [List.flatMap_cons, List.flatten_append, List.length_append, ih]
        rfl
  rw [Ty.written, Ty.insert, List.flatten_cons, List.length_append, items,
    length_wordBytes]

theorem Fields.written_cons {σ α β : Type} (name : String) (field : Ty α)
    (condition : Option (Option UInt32 → σ → Bool)) (others : Fields σ β) (whole : σ)
    (p : α × β) : (Fields.cons name field condition others).written whole p =
      (if present condition whole then field.written p.1 else 0) +
        others.written whole p.2 := by
  rw [Fields.written, Fields.insert, List.flatten_append, List.length_append]
  split <;> rfl

theorem ofInt_natCast (size : Nat) : UInt32.ofInt size = UInt32.ofNat size := by
  rw [← UInt32.toNat_inj, UInt32.toNat_ofNat', UInt32.ofInt, UInt32.toNat_ofNat']
  omega

theorem toNat_ofInt (size : Int) : ((UInt32.ofInt size).toNat : Int) = size % 2 ^ 32 := by
  rw [UInt32.ofInt, UInt32.toNat_ofNat']
  omega

mutual

/-- `getSize` counts the bytes written and the excess. -/
theorem Ty.getSize_eq : {α : Type} → (ty : Ty α) → (p : α) →
    ty.getSize p = UInt32.ofInt (ty.written p + ty.excess p)
  | _, .ui16, p => by simp [Ty.getSize, Ty.written, Ty.insert, Ty.excess]; rfl
  | _, .ui32, p => by simp [Ty.getSize, Ty.written, Ty.insert, Ty.excess]; rfl
  | _, .ui64, p => by simp [Ty.getSize, Ty.written, Ty.insert, Ty.excess]; rfl
  | _, .string, p => by
      have exact : Ty.string.excess p = 0 := by simp [Ty.excess]
      rw [exact, Int.add_zero, ofInt_natCast]
      simp [Ty.getSize, Ty.written, Ty.insert, UInt32.ofNat_add, UInt32.add_comm]
  | _, .binary, p => by
      have exact : Ty.binary.excess p = 0 := by simp [Ty.excess]
      rw [exact, Int.add_zero, ofInt_natCast]
      simp [Ty.getSize, Ty.written, Ty.insert, Binary.m_Size, UInt32.ofNat_add,
        UInt32.add_comm]
  | _, .operUInt, p => by simp [Ty.getSize, Ty.written, Ty.insert, Ty.excess]; rfl
  | _, .storeUInt, p => by simp [Ty.getSize, Ty.written, Ty.insert, Ty.excess]; rfl
  | _, .vector element, p => by
      have item := element.getSize_eq
      have items : ∀ (p : List _) (si : UInt32),
          p.foldl (fun si item => si + element.getSize item) si =
            si + UInt32.ofInt ((p.map element.written).sum +
              (p.map element.excess).sum) := by
        intro p
        induction p with
        | nil => intro si; simp [UInt32.ofInt]
        | cons first p ih =>
            intro si
            rw [List.foldl_cons, ih, item, UInt32.add_assoc, ← UInt32.ofInt_add]
            congr 2
            simp only [List.map_cons, List.sum_cons]
            omega
      rw [Ty.getSize, items, Ty.written_vector, Ty.excess]
      push_cast
      rw [Int.add_assoc, UInt32.ofInt_add 4]
      rfl
  | _, .struct fields _, p => by
      rw [Ty.getSize, fields.getSize_eq p p 0, UInt32.zero_add]
      rfl

theorem Fields.getSize_eq : {σ β : Type} → (fields : Fields σ β) → (whole : σ) →
    (p : β) → (s : UInt32) → fields.getSize whole p s =
      s + UInt32.ofInt (fields.written whole p + fields.excess whole p s)
  | _, _, .nil, whole, p, s => by
      simp [Fields.getSize, Fields.written, Fields.insert, Fields.excess, UInt32.ofInt]
  | _, _, .cons name field condition others, whole, p, s => by
      have size : (if name = "s" then 8 else field.getSize p.1) = UInt32.ofInt
          (if name = "s" then 8 else field.written p.1 + field.excess p.1) := by
        split
        · rfl
        · exact field.getSize_eq p.1
      have writes : ((if present condition whole then field.written p.1 else 0 : Nat) : Int) =
          if present condition whole then (field.written p.1 : Int) else 0 := by
        split <;> rfl
      rw [Fields.getSize, others.getSize_eq whole p.2, Fields.written_cons, Fields.excess, size,
        Int.natCast_add, writes]
      by_cases counts : presentInSize condition s whole
      · simp only [counts, ↓reduceIte]
        rw [UInt32.add_assoc, ← UInt32.ofInt_add]
        congr 2
        omega
      · simp only [counts, Bool.false_eq_true, ↓reduceIte]
        rw [show UInt32.ofInt 0 = 0 from rfl, UInt32.add_zero]
        congr 2
        omega

end

/-! ## Writing into the buffer of a message -/

section Writes

variable {memory : List UInt8} {writePoint readPoint : UInt32}
variable {blocks : List (List UInt8)}

/-- A write behind the header leaves the size of the message alone. -/
theorem readWord_overwrite {offset : Nat} {bytes : List UInt8} (header : 4 ≤ offset)
    (inside : offset + bytes.length ≤ memory.length) :
    readWord (Bytes.overwrite memory offset bytes) = readWord memory := by
  rw [readWord, readWord, Bytes.take_overwrite (by omega) header]

theorem writeData_heap {block : List UInt8} (sized : 1 ≤ readWord memory)
    (room : writePoint.toNat + block.length ≤ memory.length) :
    Message.writeData ⟨.heap memory, writePoint, readPoint⟩ block =
      .ok ⟨.heap (Bytes.overwrite memory writePoint.toNat block),
        writePoint + UInt32.ofNat block.length, readPoint⟩ := by
  rw [Message.writeData, Message.getSize_heap,
    if_neg (UInt32.not_lt.mpr sized), Message.copyIn_heap room]

/-- Blocks that fit are written one behind the other. -/
theorem writeData_blocks (sized : 1 ≤ readWord memory) (header : 4 ≤ writePoint.toNat)
    (small : memory.length < 2 ^ 32)
    (room : writePoint.toNat + blocks.flatten.length ≤ memory.length) :
    blocks.foldlM Message.writeData ⟨.heap memory, writePoint, readPoint⟩ =
      .ok ⟨.heap (Bytes.overwrite memory writePoint.toNat blocks.flatten),
        writePoint + UInt32.ofNat blocks.flatten.length, readPoint⟩ := by
  induction blocks generalizing memory writePoint with
  | nil => simp [Bytes.overwrite, pure, Except.pure]
  | cons block blocks ih =>
      rw [List.flatten_cons, List.length_append] at room
      have fits : writePoint.toNat + block.length ≤ memory.length := by omega
      have length := Bytes.length_overwrite fits
      have next := @toNat_advance writePoint block.length (by omega)
      have later := ih (by rw [readWord_overwrite header fits]; exact sized)
        (show 4 ≤ (writePoint + UInt32.ofNat block.length).toNat by omega)
        (by rw [length]; exact small) (by rw [next, length]; omega)
      rw [List.foldlM_cons, writeData_heap sized fits]
      simp only [bind, Except.bind]
      rw [later, next, Bytes.overwrite_append (by omega), List.flatten_cons,
        UInt32.add_assoc, ← UInt32.ofNat_add, List.length_append]

/-- Blocks that do not fit end in a write behind the buffer. -/
theorem writeData_blocks_outOfRange (sized : 1 ≤ readWord memory)
    (header : 4 ≤ writePoint.toNat) (small : memory.length < 2 ^ 32)
    (overflow : memory.length < writePoint.toNat + blocks.flatten.length)
    (inside : writePoint.toNat ≤ memory.length) :
    blocks.foldlM Message.writeData ⟨.heap memory, writePoint, readPoint⟩ =
      .error .outOfRange := by
  induction blocks generalizing memory writePoint with
  | nil =>
      rw [List.flatten_nil, List.length_nil] at overflow
      omega
  | cons block blocks ih =>
      rw [List.flatten_cons, List.length_append] at overflow
      by_cases fits : writePoint.toNat + block.length ≤ memory.length
      · have length := Bytes.length_overwrite fits
        have next := @toNat_advance writePoint block.length (by omega)
        have later := ih (by rw [readWord_overwrite header fits]; exact sized)
          (show 4 ≤ (writePoint + UInt32.ofNat block.length).toNat by omega)
          (by rw [length]; exact small) (by rw [next, length]; omega)
          (by rw [next, length]; exact fits)
        rw [List.foldlM_cons, writeData_heap sized fits]
        exact later
      · rw [List.foldlM_cons, Message.writeData, Message.getSize_heap,
          if_neg (UInt32.not_lt.mpr sized)]
        simp only [Message.copyIn, if_neg fits]
        rfl

end Writes

/-- The size of the buffer that `toMsg` builds. -/
def Ty.bufferSize {α : Type} (ty : Ty α) (p : α) : Nat := (6 + ty.getSize p).toNat

theorem Ty.bufferSize_eq {α : Type} (ty : Ty α) (p : α) :
    (ty.bufferSize p : Int) = (6 + ty.written p + ty.excess p) % 2 ^ 32 := by
  have six : (6 : UInt32) = UInt32.ofInt 6 := rfl
  rw [Ty.bufferSize, ty.getSize_eq, six, ← UInt32.ofInt_add, toNat_ofInt, Int.add_assoc]

section ToMsg

variable {α : Type} (heap : Heap) (ty : Ty α) (id : UInt16) (p : α) (msg : Message)

/-- The header of a message: its size and its id. -/
def headerMemory (size : Nat) (id : UInt16) : List UInt8 :=
  Bytes.overwrite (Message.builtMemory heap size) 4 (Bytes.ofNat 2 id.toNat)

theorem length_headerMemory {size : Nat} (room : 6 ≤ size) :
    (headerMemory heap size id).length = size := by
  have built := Message.length_builtMemory heap (show 4 ≤ size by omega)
  rw [headerMemory, Bytes.length_overwrite, built]
  rw [built, Bytes.length_ofNat]
  exact room

theorem readWord_headerMemory {size : Nat} (room : 6 ≤ size) :
    readWord (headerMemory heap size id) = UInt32.ofNat size := by
  have built := Message.length_builtMemory heap (show 4 ≤ size by omega)
  rw [headerMemory, readWord_overwrite (Nat.le_refl 4),
    Message.readWord_builtMemory]
  rw [built, Bytes.length_ofNat]
  exact room

theorem one_le_size {size : Nat} (room : 6 ≤ size) (small : size < 2 ^ 32) :
    1 ≤ readWord (headerMemory heap size id) := by
  rw [readWord_headerMemory heap id room, UInt32.le_iff_toNat_le,
    UInt32.toNat_ofNat']
  have : (1 : UInt32).toNat = 1 := rfl
  omega

/-- A buffer without room for its own size. -/
theorem buildBuff_short {size : Nat} (short : size < 4) :
    msg.buildBuff heap size = .error .outOfRange := by
  simp only [Message.buildBuff, Message.copyIn, Heap.length_contents,
    length_wordBytes]
  rw [if_neg (by omega)]

/-- The id goes into the two bytes behind the size. -/
theorem ID_built {size : Nat} (room : 6 ≤ size) :
    Message.ID heap ⟨.heap (Message.builtMemory heap size), 6, 6⟩ id =
      .ok ⟨.heap (headerMemory heap size id), 6, 6⟩ := by
  have built := Message.length_builtMemory heap (show 4 ≤ size by omega)
  simp only [Message.ID]
  rw [Message.copyIn_heap]
  · rfl
  · rw [built, Bytes.length_ofNat]
    exact room

theorem ID_built_short {size : Nat} (sized : 4 ≤ size) (short : size < 6) :
    Message.ID heap ⟨.heap (Message.builtMemory heap size), 6, 6⟩ id =
      .error .outOfRange := by
  have built := Message.length_builtMemory heap sized
  simp only [Message.ID, Message.copyIn, built, Bytes.length_ofNat]
  rw [if_neg (by omega)]

/-- A buffer with room for the value takes it behind the header. -/
theorem serializeTo_header {size : Nat} (small : size < 2 ^ 32)
    (room : 6 + ty.written p ≤ size) :
    ty.serializeTo p ⟨.heap (headerMemory heap size id), 6, 6⟩ =
      .ok ⟨.heap (Bytes.overwrite (headerMemory heap size id) 6
        (ty.insert p).flatten), 6 + UInt32.ofNat (ty.written p), 6⟩ := by
  have header : 6 ≤ size := by omega
  have length := length_headerMemory heap id header
  rw [Ty.serializeTo, writeData_blocks (one_le_size heap id header small) (by decide)
    (by omega)]
  · rfl
  · rw [length]
    exact room

/-- A buffer without room for the value is overrun. -/
theorem serializeTo_header_outOfRange {size : Nat} (small : size < 2 ^ 32)
    (header : 6 ≤ size) (overflow : size < 6 + ty.written p) :
    ty.serializeTo p ⟨.heap (headerMemory heap size id), 6, 6⟩ =
      .error .outOfRange := by
  have length := length_headerMemory heap id header
  rw [Ty.serializeTo]
  exact writeData_blocks_outOfRange (one_le_size heap id header small)
    (by decide) (by omega) (by rw [length]; exact overflow)
    (by rw [length]; exact header)

/-- `toMsg` with a buffer that has room for its header. -/
theorem toMsg_eq (room : 6 ≤ ty.bufferSize p) :
    ty.toMsg heap id p msg =
      ty.serializeTo p ⟨.heap (headerMemory heap (ty.bufferSize p) id), 6, 6⟩ := by
  have stored := Message.buildBuff_eq heap msg (show 4 ≤ ty.bufferSize p by omega)
  have named := ID_built heap id room
  rw [Ty.bufferSize] at stored named
  simp only [Ty.toMsg, bind, Except.bind, stored, named, Ty.bufferSize]

theorem toMsg_ok (room : 6 + ty.written p ≤ ty.bufferSize p) :
    ty.toMsg heap id p msg =
      .ok ⟨.heap (Bytes.overwrite (headerMemory heap (ty.bufferSize p) id) 6
        (ty.insert p).flatten), 6 + UInt32.ofNat (ty.written p), 6⟩ := by
  rw [toMsg_eq heap ty id p msg (by omega)]
  exact serializeTo_header heap ty id p (UInt32.toNat_lt _) room

theorem toMsg_outOfRange (overflow : ty.bufferSize p < 6 + ty.written p) :
    ty.toMsg heap id p msg = .error .outOfRange := by
  by_cases header : 6 ≤ ty.bufferSize p
  · rw [toMsg_eq heap ty id p msg header]
    exact serializeTo_header_outOfRange heap ty id p (UInt32.toNat_lt _) header overflow
  · by_cases sized : 4 ≤ ty.bufferSize p
    · have stored := Message.buildBuff_eq heap msg sized
      have named := ID_built_short heap id sized (by omega)
      rw [Ty.bufferSize] at stored named
      simp only [Ty.toMsg, bind, Except.bind, stored, named]
    · have stored := buildBuff_short heap msg (by omega : ty.bufferSize p < 4)
      rw [Ty.bufferSize] at stored
      simp only [Ty.toMsg, bind, Except.bind, stored]

end ToMsg

/-- `getSize` is what serialization writes, and `toMsg` stops at the end of its
buffer, exactly when the excess is a multiple of `2 ^ 32`: in practice, when the
value has no `ui16` and no `ui32` field present, and no field named `s`. -/
theorem getSize_exact_iff {α : Type} (heap : Heap) (ty : Ty α) (id : UInt16) (p : α)
    (msg : Message) (fits : 6 + ty.written p < 2 ^ 32) :
    ((ty.getSize p).toNat = ty.written p ∧
      ∃ sent, ty.toMsg heap id p msg = .ok sent ∧
        sent.writePoint = sent.getSize) ↔ ty.excess p % 2 ^ 32 = 0 := by
  have size : ((ty.getSize p).toNat : Int) = (ty.written p + ty.excess p) % 2 ^ 32 := by
    rw [ty.getSize_eq, toNat_ofInt]
  constructor
  · rintro ⟨exact, _⟩
    omega
  · intro whole
    have buffer : ty.bufferSize p = 6 + ty.written p := by
      have built := ty.bufferSize_eq p
      omega
    refine ⟨by omega, _, toMsg_ok heap ty id p msg (Nat.le_of_eq buffer.symm), ?_⟩
    have length := length_headerMemory heap id
      (show 6 ≤ ty.bufferSize p by omega)
    rw [Message.getSize_heap, readWord_overwrite (by decide) (by
      rw [length, buffer]
      exact Nat.le_refl _), readWord_headerMemory heap id (by omega), buffer,
      UInt32.ofNat_add]
    rfl

/-- A string `s` of ten bytes is written with fourteen and counted with eight. -/
example : (Ty.struct (.cons "s" .string none .nil) ([], ())).excess
    (List.replicate 10 0, ()) = -6 := by decide

/-- An `XDataBase` fills its message. -/
theorem getSize_exact_xDataBase :
    (Proto.XDataBase.ty.getSize Proto.XDataBase.ty.init).toNat =
        Proto.XDataBase.ty.written Proto.XDataBase.ty.init ∧
      ∃ sent, Proto.XDataBase.ty.toMsg (Heap.filled 0) 0 Proto.XDataBase.ty.init
          Message.empty = .ok sent ∧ sent.writePoint = sent.getSize :=
  (getSize_exact_iff (Heap.filled 0) Proto.XDataBase.ty 0 Proto.XDataBase.ty.init
    Message.empty (by decide)).mpr (by decide)

/-- A `Code` is counted with twenty bytes and written with twelve. -/
theorem getSize_exact_code :
    6 + Proto.Code.ty.written Proto.Code.ty.init < 2 ^ 32 ∧
      ¬((Proto.Code.ty.getSize Proto.Code.ty.init).toNat =
          Proto.Code.ty.written Proto.Code.ty.init ∧
        ∃ sent, Proto.Code.ty.toMsg (Heap.filled 0) 0 Proto.Code.ty.init
          Message.empty = .ok sent ∧ sent.writePoint = sent.getSize) := by
  refine ⟨by decide, ?_⟩
  rintro ⟨exact, _⟩
  exact absurd exact (by decide)

end Nicenet
