import Mathlib.Data.UInt
import Mathlib.Tactic.Common
import Mathlib.Data.List.Basic

/-!
# Bytes and strings of HTTP

The character classes of `HttpParser.hpp`, and the functions of `Common.hpp` and
of the C library that the parsers and the server call. A `char` is signed where
the program runs: bytes from 128 on are negative, so they belong to none of the
classes below.
-/

namespace Nicenet

/-- The bytes of a `std::string`. -/
abbrev Str := List UInt8

namespace Http

/-- An HTTP character: not negative. -/
def isChar (c : UInt8) : Bool := c < 128

/-- An HTTP control character. -/
def isControl (c : UInt8) : Bool := c ≤ 31 || c = 127

/-- The characters of `()<>@,;:\"/[]?={}`, blank and tab. -/
def isSpecial (c : UInt8) : Bool :=
  [40, 41, 60, 62, 64, 44, 59, 58, 92, 34, 47, 91, 93, 63, 61, 123, 125, 32,
    9].contains c

def isDigit (c : UInt8) : Bool := 48 ≤ c && c ≤ 57

/-- `isalpha` of the C library, in the C locale. -/
def isalpha (c : UInt8) : Bool := (65 ≤ c && c ≤ 90) || (97 ≤ c && c ≤ 122)

/-- `isalnum` of the C library, in the C locale. -/
def isalnum (c : UInt8) : Bool := isalpha c || isDigit c

/-- `isspace` of the C library, in the C locale. -/
def isspace (c : UInt8) : Bool := c = 32 || (9 ≤ c && c ≤ 13)

/-- The bytes of a string up to its first NUL, as `c_str()` passes them on. -/
def cStr (text : Str) : Str := text.takeWhile (· ≠ 0)

def lower (c : UInt8) : UInt8 := if 65 ≤ c && c ≤ 90 then c + 32 else c

/-- `StrCaseCmp`: 0 for strings that differ in the case of letters at most. -/
def strCaseCmp : Str → Str → Nat
  | [], [] => 0
  | x :: a, y :: b => if lower x ≠ lower y then 1 else strCaseCmp a b
  | _, _ => 1

/-- The value of a digit in bases up to 36. -/
def digitValue (c : UInt8) : Option Nat :=
  if isDigit c then some (c.toNat - 48)
  else if isalpha c then some ((lower c).toNat - 87)
  else none

/-- The digits of a base at the front of a text, as a number. -/
def leadingValue (base : Nat) : Nat → Str → Nat
  | value, [] => value
  | value, c :: text =>
      match digitValue c with
      | some digit =>
          if digit < base then leadingValue base (value * base + digit) text
          else value
      | none => value

/-- What `strtol` does behind the sign: base 16 allows a prefix `0x` in front of
a hexadecimal digit. -/
def magnitude (base : Nat) (text : Str) : Nat :=
  match base, text with
  | 16, 48 :: x :: c :: rest =>
      if lower x = 120 ∧ (digitValue c).any (· < 16) then
        leadingValue 16 0 (c :: rest)
      else leadingValue 16 0 (48 :: x :: c :: rest)
  | base, text => leadingValue base 0 text

/-- `strtol` with a 64-bit `long`: white space, a sign, digits; too large values
give the largest one. -/
def strtol (text : Str) (base : Nat) : Int :=
  match (cStr text).dropWhile isspace with
  | 45 :: rest => max (-2 ^ 63) (-(magnitude base rest : Int))
  | 43 :: rest => min (2 ^ 63 - 1) (magnitude base rest : Int)
  | rest => min (2 ^ 63 - 1) (magnitude base rest : Int)

/-- `atoi` is `strtol` in base ten, cut to an `int`. -/
def atoi (text : Str) : Int32 := Int32.ofInt (strtol text 10)

/-- A signed number stored in a `size_t`. -/
def toSizeT (value : Int) : UInt64 := UInt64.ofInt value

/-- `std::vector<char>::max_size()`: a larger `reserve` throws. -/
def maxSize : UInt64 := 2 ^ 63 - 1

/-- `std::string::find` of a character from a position on. -/
def find (src : Str) (splitWord : UInt8) (pos : Nat) : Option Nat :=
  ((src.drop pos).findIdx? (· = splitWord)).map (pos + ·)

/-- The loop of `splitString`; without fuel left it gives up. -/
def splitLoop (src : Str) (splitWord : UInt8) :
    Nat → Nat → List Str → Option (List Str)
  | 0, _, _ => none
  | fuel + 1, pos1, strvec =>
      match find src splitWord pos1 with
      | some pos2 =>
          splitLoop src splitWord fuel (pos2 + 1)
            (strvec ++ [(src.drop pos1).take (pos2 - pos1)])
      | none => some (strvec ++ [src.drop pos1])

/-- `splitString`. Every turn of the loop leaves a character behind. -/
def splitString (src : Str) (splitWord : UInt8) : List Str :=
  (splitLoop src splitWord (src.length + 1) 0 []).getD []

/-! ## Comparison without regard to case -/

/-- Two texts are equal up to the case of their letters. -/
def SameWord (left right : Str) : Prop := left.map lower = right.map lower

instance (left right : Str) : Decidable (SameWord left right) :=
  inferInstanceAs (Decidable (_ = _))

theorem strCaseCmp_eq_zero (left right : Str) :
    strCaseCmp left right = 0 ↔ SameWord left right := by
  induction left generalizing right with
  | nil => cases right <;> simp [strCaseCmp, SameWord]
  | cons x left ih =>
      cases right with
      | nil => simp [strCaseCmp, SameWord]
      | cons y right =>
          rw [strCaseCmp, SameWord, List.map_cons, List.map_cons, List.cons.injEq]
          by_cases same : lower x = lower y
          · rw [if_neg (not_not.mpr same), ih]
            exact ⟨fun tail => ⟨same, tail⟩, And.right⟩
          · rw [if_pos same]
            exact ⟨fun impossible => absurd impossible Nat.one_ne_zero,
              fun both => absurd both.1 same⟩

end Http

end Nicenet
