import Mathlib.Data.List.TakeWhile
import Nicenet.Library.Machine
import Nicenet.Http.Text

/-!
# Numerals

Digits of base 10 and 16, and what the C library's conversions make of a text that
consists of them.
-/

namespace Nicenet.Http

open Library

/-- What holds of all bytes can be decided byte by byte. -/
instance decidableEveryByte {property : UInt8 → Prop} [DecidablePred property] :
    Decidable (∀ c, property c) :=
  decidable_of_iff (∀ index : Fin 256, property (.ofFin index))
    ⟨fun every c => every c.toFin, fun every _ => every _⟩

/-- A digit of a base. -/
def isDigitOf (base : Nat) (c : UInt8) : Bool := (digitValue c).any (· < base)

/-- A number written in a base, leading zeros allowed. -/
def IsNumeral (base : Nat) (text : Str) : Prop :=
  text ≠ [] ∧ ∀ c ∈ text, isDigitOf base c

instance (base : Nat) : DecidablePred (IsNumeral base) :=
  fun _ => inferInstanceAs (Decidable (_ ∧ _))

def numeral (base : Nat) (text : Str) : Nat := leadingValue base 0 text

theorem hexDigit_of_decimal : ∀ c : UInt8, isDigitOf 10 c → isDigitOf 16 c := by
  decide +kernel

/-- Digits are letters or digits, but not the letter of `0x`. -/
theorem hexDigit_spec : ∀ c : UInt8, isDigitOf 16 c → isalnum c = true ∧ lower c ≠ 120 := by
  decide +kernel

/-- Letters and digits are neither NUL nor white space, nor a sign. -/
theorem isalnum_spec : ∀ c : UInt8, isalnum c →
    c ≠ 0 ∧ isspace c = false ∧ c ≠ 45 ∧ c ≠ 43 := by
  decide +kernel

/-- The loop that reads a numeral takes every character. -/
theorem leadingValue_eq_foldl {base : Nat} {text : Str} (value : Nat)
    (digits : ∀ c ∈ text, isDigitOf base c) :
    leadingValue base value text =
      text.foldl (fun value c => value * base + (digitValue c).getD 0) value := by
  induction text generalizing value with
  | nil => rfl
  | cons c text ih =>
      obtain ⟨digit, found, small⟩ :=
        (Option.any_eq_true _ _).mp (digits c List.mem_cons_self)
      rw [leadingValue, found, List.foldl_cons, found]
      simp only [of_decide_eq_true small, if_true, Option.getD_some]
      exact ih _ fun other member => digits other (List.mem_cons_of_mem _ member)

/-- A machine reads a number in decimal: its first digit starts it, others follow. -/
theorem numeral_passes {σ ρ : Type} {machine : Machine σ UInt8 ρ} {start : σ}
    (reads : Nat → σ) {text : Str} (wf : IsNumeral 10 text)
    (first : ∀ c left, isDigitOf 10 c →
      machine start c left = .next (reads ((digitValue c).getD 0)))
    (more : ∀ value c left, isDigitOf 10 c →
      machine (reads value) c left = .next (reads (value * 10 + (digitValue c).getD 0))) :
    machine.Passes start text (reads (numeral 10 text)) := by
  obtain ⟨ne, digits⟩ := wf
  obtain ⟨c, rest, rfl⟩ := List.exists_cons_of_ne_nil ne
  rw [numeral, leadingValue_eq_foldl 0 digits, List.foldl_cons, Nat.zero_mul, Nat.zero_add]
  refine .cons (fun left => first c left (digits c List.mem_cons_self)) ?_
  exact .loop reads more _ fun other member => digits other (List.mem_cons_of_mem _ member)

theorem magnitude_numeral {base : Nat} {text : Str}
    (digits : ∀ c ∈ text, isDigitOf 16 c) :
    magnitude base text = numeral base text := by
  rw [numeral]
  unfold magnitude
  split
  · next x c rest =>
    have notX := (hexDigit_spec x (digits x (by simp))).2
    rw [if_neg fun both => notX both.1]
  · rfl

/-- `strtol` of letters and digits is what it makes of digits, as far as that fits. -/
theorem strtol_alnum (base : Nat) {text : Str} (alnum : ∀ c ∈ text, isalnum c) :
    strtol text base = min (2 ^ 63 - 1) (magnitude base text : Int) := by
  have whole : cStr text = text := by
    rw [cStr, List.takeWhile_eq_self_iff]
    exact fun c member => decide_eq_true (isalnum_spec c (alnum c member)).1
  have stays : text.dropWhile isspace = text := by
    cases text with
    | nil => rfl
    | cons first rest =>
        have space := (isalnum_spec first (alnum first List.mem_cons_self)).2.1
        exact List.dropWhile_cons_of_neg (by rw [space]; exact Bool.false_ne_true)
  rw [strtol, whole, stays]
  split
  · exact absurd rfl (isalnum_spec 45 (alnum 45 List.mem_cons_self)).2.2.1
  · exact absurd rfl (isalnum_spec 43 (alnum 43 List.mem_cons_self)).2.2.2
  · rfl

/-- Without a sign, a size is not negative. -/
theorem strtol_alnum_bounds (base : Nat) {text : Str} (alnum : ∀ c ∈ text, isalnum c) :
    ∃ value : Nat, strtol text base = value ∧ value < 2 ^ 63 := by
  rw [strtol_alnum base alnum]
  exact ⟨min (2 ^ 63 - 1) (magnitude base text), by omega, by omega⟩

/-- `strtol` of digits is their value, as far as that fits. -/
theorem strtol_numeral (base : Nat) {text : Str} (digits : ∀ c ∈ text, isDigitOf 16 c) :
    strtol text base = min (2 ^ 63 - 1) (numeral base text : Int) := by
  have alnum : ∀ c ∈ text, isalnum c := fun c member => (hexDigit_spec c (digits c member)).1
  rw [strtol_alnum base alnum, magnitude_numeral digits]

/-- `atoi` of a numeral that fits into an `int` is its value. -/
theorem atoi_numeral {text : Str} (wf : IsNumeral 10 text)
    (fits : numeral 10 text < 2 ^ 31) :
    (atoi text).toInt = numeral 10 text := by
  have value := strtol_numeral 10
    fun c member => hexDigit_of_decimal c (wf.2 c member)
  rw [atoi, value, Int.min_eq_right (by omega)]
  exact Int32.toInt_ofInt_of_le (by omega) (by omega)

/-- What `atoi` makes of a numeral is at most its value. -/
theorem atoi_le_numeral {text : Str} (wf : IsNumeral 10 text) :
    (atoi text).toInt ≤ numeral 10 text := by
  have value := strtol_numeral 10
    fun c member => hexDigit_of_decimal c (wf.2 c member)
  have size : ((Int32.size : Nat) : Int) = 2 ^ 32 := rfl
  rw [atoi, value, Int32.toInt_ofInt, Int.bmod_def, size]
  split <;> omega

/-! ## Sizes -/

theorem toSizeT_natCast (value : Nat) : toSizeT (value : Int) = UInt64.ofNat value := by
  rw [toSizeT]
  apply UInt64.toNat_inj.mp
  simp [UInt64.ofInt]
  omega

theorem toNat_toSizeT (value : Int) : (toSizeT value).toNat = (value % 2 ^ 64).toNat := by
  rw [toSizeT, UInt64.ofInt]
  exact UInt64.toNat_ofNat_of_lt' (by
    rw [show UInt64.size = 2 ^ 64 from rfl]
    omega)

theorem toNat_ofNat_size {value : Nat} (fits : value < 2 ^ 63) :
    (UInt64.ofNat value).toNat = value :=
  UInt64.toNat_ofNat_of_lt' (Nat.lt_trans fits (by decide))

theorem ofNat_eq_zero {value : Nat} (fits : value < 2 ^ 63) :
    UInt64.ofNat value = 0 ↔ value = 0 := by
  rw [← UInt64.toNat_inj, toNat_ofNat_size fits]
  rfl

/-- A counter above zero is one more than the next one. -/
theorem toNat_sub_one {size : UInt64} (more : size ≠ 0) :
    size.toNat = (size - 1).toNat + 1 := by
  have positive : size.toNat ≠ 0 := fun zero => more (UInt64.toNat_inj.mp zero)
  have one : (1 : UInt64) ≤ size := by
    rw [UInt64.le_iff_toNat_le]
    exact Nat.one_le_iff_ne_zero.mpr positive
  rw [UInt64.toNat_sub_of_le _ _ one]
  exact (Nat.sub_add_cancel (Nat.one_le_iff_ne_zero.mpr positive)).symm

/-- Sizes below 2⁶³ can be reserved. -/
theorem le_maxSize_iff (size : UInt64) : size ≤ maxSize ↔ size.toNat < 2 ^ 63 := by
  have max : maxSize.toNat = 2 ^ 63 - 1 := by decide +kernel
  rw [UInt64.le_iff_toNat_le, max]
  omega

theorem ofNat_le_maxSize {value : Nat} (fits : value < 2 ^ 63) :
    UInt64.ofNat value ≤ maxSize := by
  rw [le_maxSize_iff, toNat_ofNat_size fits]
  exact fits

/-- The sum of a content and of a chunk does not wrap around. -/
theorem reserve_iff {held value : Nat} (before : held < 2 ^ 63) (size : value < 2 ^ 63) :
    UInt64.ofNat held + UInt64.ofNat value ≤ maxSize ↔ held + value < 2 ^ 63 := by
  have sum : held + value < 2 ^ 64 := by omega
  rw [← UInt64.ofNat_add, le_maxSize_iff, UInt64.toNat_ofNat_of_lt' sum]

/-- An `int` can be reserved unless it is negative. -/
theorem toSizeT_le_maxSize (value : Int32) :
    toSizeT value.toInt ≤ maxSize ↔ 0 ≤ value.toInt := by
  have low := Int32.le_toInt value
  have high := Int32.toInt_lt value
  rw [le_maxSize_iff, toNat_toSizeT]
  constructor
  · intro fits
    by_contra negative
    omega
  · intro positive
    omega

end Nicenet.Http
