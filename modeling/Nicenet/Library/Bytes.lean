import Mathlib.Algebra.Group.Nat.Defs
import Mathlib.Tactic.Common
import Mathlib.Data.List.Basic

/-!
# Little-endian numbers in byte lists

A number of a fixed width is laid out with its least significant byte first.
The two directions are inverse to each other below the width's bound, and
`overwrite` describes a copy of a block of bytes into a larger one.
-/

namespace Nicenet.Library.Bytes

/-- The `width` little-endian bytes of a number. -/
def ofNat : (width : Nat) → Nat → List UInt8
  | 0, _ => []
  | width + 1, value => UInt8.ofNat value :: ofNat width (value / 256)

/-- The number written in a block of little-endian bytes. -/
def toNat : List UInt8 → Nat
  | [] => 0
  | byte :: bytes => byte.toNat + 256 * toNat bytes

@[simp] theorem length_ofNat (width value : Nat) :
    (ofNat width value).length = width := by
  induction width generalizing value with
  | zero => rfl
  | succ width ih => simp [ofNat, ih]

theorem toNat_lt (bytes : List UInt8) : toNat bytes < 256 ^ bytes.length := by
  induction bytes with
  | nil => simp [toNat]
  | cons byte bytes ih =>
      have low := UInt8.toNat_lt byte
      simp only [toNat, List.length_cons, Nat.pow_succ]
      omega

theorem toNat_append (low high : List UInt8) :
    toNat (low ++ high) = toNat low + 256 ^ low.length * toNat high := by
  induction low with
  | nil => simp [toNat]
  | cons byte low ih =>
      rw [List.cons_append, toNat, toNat, ih, Nat.mul_add, Nat.add_assoc, List.length_cons,
        Nat.pow_succ', Nat.mul_assoc]

@[simp] theorem toNat_ofNat (width value : Nat) :
    toNat (ofNat width value) = value % 256 ^ width := by
  induction width generalizing value with
  | zero => simp [ofNat, toNat, Nat.mod_one]
  | succ width ih =>
      have split : 256 ^ (width + 1) = 256 * 256 ^ width := by
        rw [Nat.pow_succ, Nat.mul_comm]
      rw [ofNat, toNat, ih, UInt8.toNat_ofNat', split, Nat.mod_mul]

theorem toNat_ofNat_of_lt {width value : Nat} (fits : value < 256 ^ width) :
    toNat (ofNat width value) = value := by
  rw [toNat_ofNat, Nat.mod_eq_of_lt fits]

@[simp] theorem ofNat_toNat (bytes : List UInt8) :
    ofNat bytes.length (toNat bytes) = bytes := by
  induction bytes with
  | nil => rfl
  | cons byte bytes ih =>
      have low := UInt8.toNat_lt byte
      have quotient : (byte.toNat + 256 * toNat bytes) / 256 = toNat bytes := by
        omega
      have head : UInt8.ofNat (byte.toNat + 256 * toNat bytes) = byte := by
        apply UInt8.toNat_inj.mp
        rw [UInt8.toNat_ofNat']
        omega
      simp only [toNat, List.length_cons, ofNat, quotient, ih, head]

theorem ofNat_toNat_of_length {width : Nat} {bytes : List UInt8}
    (length : bytes.length = width) : ofNat width (toNat bytes) = bytes := by
  rw [← length]
  exact ofNat_toNat bytes

/-- A block of memory after a copy of `bytes` to position `offset`. -/
def overwrite (memory : List UInt8) (offset : Nat) (bytes : List UInt8) :
    List UInt8 :=
  memory.take offset ++ bytes ++ memory.drop (offset + bytes.length)

@[simp] theorem length_overwrite {memory : List UInt8} {offset : Nat}
    {bytes : List UInt8} (inside : offset + bytes.length ≤ memory.length) :
    (overwrite memory offset bytes).length = memory.length := by
  simp only [overwrite, List.length_append, List.length_take, List.length_drop]
  omega

/-- A copy leaves the bytes in front of it alone. -/
theorem take_overwrite {memory : List UInt8} {offset limit : Nat}
    {bytes : List UInt8} (inside : offset ≤ memory.length)
    (before : limit ≤ offset) :
    (overwrite memory offset bytes).take limit = memory.take limit := by
  rw [overwrite, List.append_assoc, List.take_append_of_le_length
    (by simp only [List.length_take]; omega), List.take_take, Nat.min_eq_left before]

/-- The bytes up to the end of a copy are the old ones in front of it and then
the copied ones. -/
theorem take_overwrite_end {memory : List UInt8} {offset : Nat}
    (bytes : List UInt8) (inside : offset ≤ memory.length) :
    (overwrite memory offset bytes).take (offset + bytes.length) =
      memory.take offset ++ bytes := by
  have length : (memory.take offset ++ bytes).length = offset + bytes.length := by
    simp only [List.length_append, List.length_take]
    omega
  rw [overwrite, ← length, List.take_left]

/-- Two copies next to each other are one copy of both blocks. -/
theorem overwrite_append {memory : List UInt8} {offset : Nat}
    {first second : List UInt8}
    (inside : offset + first.length + second.length ≤ memory.length) :
    overwrite (overwrite memory offset first) (offset + first.length) second =
      overwrite memory offset (first ++ second) := by
  have front := take_overwrite_end first
    (show offset ≤ memory.length by omega)
  have back : (overwrite memory offset first).drop
      (offset + first.length + second.length) =
        memory.drop (offset + first.length + second.length) := by
    have length : (memory.take offset ++ first).length = offset + first.length := by
      simp only [List.length_append, List.length_take]
      omega
    rw [overwrite, List.drop_append, length, List.drop_eq_nil_of_le (by omega),
      List.nil_append, List.drop_drop]
    congr 1
    omega
  rw [overwrite.eq_1 (overwrite memory offset first), front, back, overwrite]
  simp only [List.length_append, List.append_assoc, Nat.add_assoc]

/-- The bytes of a field at a fixed position. -/
def slice (memory : List UInt8) (offset size : Nat) : List UInt8 :=
  (memory.drop offset).take size

theorem length_slice {memory : List UInt8} {offset size : Nat}
    (inside : offset + size ≤ memory.length) : (slice memory offset size).length = size := by
  rw [slice, List.length_take, List.length_drop]
  omega

/-- A field is found behind what is in front of it. -/
theorem slice_append {front field : List UInt8} {offset size : Nat} (back : List UInt8)
    (before : front.length = offset) (length : field.length = size) :
    slice (front ++ field ++ back) offset size = field := by
  rw [slice, List.append_assoc, ← before, List.drop_left, ← length, List.take_left]

/-- A field depends only on the bytes up to its end. -/
theorem slice_append_left {front : List UInt8} {offset size : Nat} (back : List UInt8)
    (inside : offset + size ≤ front.length) :
    slice (front ++ back) offset size = slice front offset size := by
  rw [slice, slice, List.drop_append_of_le_length (by omega),
    List.take_append_of_le_length (by rw [List.length_drop]; omega)]

theorem getElem?_slice {memory : List UInt8} {offset size index : Nat}
    (inside : index < size) :
    (slice memory offset size)[index]? = memory[offset + index]? := by
  rw [slice, List.getElem?_take_of_lt inside, List.getElem?_drop]

/-- Numbers of one width tell the blocks they are read from apart. -/
theorem toNat_inj {first second : List UInt8} (length : first.length = second.length) :
    toNat first = toNat second ↔ first = second := by
  refine ⟨fun equal => ?_, congrArg toNat⟩
  rw [← ofNat_toNat first, ← ofNat_toNat second, equal, length]

/-- Blocks are equal when they are equal byte by byte. -/
theorem eq_iff_bytes {first second : List UInt8} {count : Nat}
    (length : first.length = count) (length' : second.length = count) :
    first = second ↔ ∀ i < count, first[i]? = second[i]? := by
  refine ⟨fun equal _ _ => by rw [equal], fun equal => List.ext_getElem? fun i => ?_⟩
  by_cases inside : i < count
  · exact equal i inside
  · rw [List.getElem?_eq_none (by omega), List.getElem?_eq_none (by omega)]

/-- Blocks are equal when they are equal word by word. -/
theorem eq_iff_slices (width : Nat) {first second : List UInt8} {count : Nat}
    (length : first.length = width * count) (length' : second.length = width * count) :
    first = second ↔
      ∀ i < count, slice first (width * i) width = slice second (width * i) width := by
  refine ⟨fun equal _ _ => by rw [equal], fun equal => ?_⟩
  refine (eq_iff_bytes length length').mpr fun index inside => ?_
  have positive : 0 < width := Nat.pos_of_mul_pos_right (Nat.zero_lt_of_lt inside)
  have word := equal (index / width) (Nat.div_lt_of_lt_mul inside)
  have rest : index % width < width := Nat.mod_lt _ positive
  have bytes := congrArg (fun block => block[index % width]?) word
  simp only [getElem?_slice rest, Nat.div_add_mod] at bytes
  exact bytes

end Nicenet.Library.Bytes
