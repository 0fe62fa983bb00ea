import Mathlib.Data.List.Forall2
import Mathlib.Data.Vector.Defs
import Nicenet.Handshake.Challenge
import Nicenet.Http.Numeral

/-!
# Private keys as text

A key is written as `0x` and its bytes in hexadecimal, the upper half of a byte first. It is
read back with or without the `0x`, in either case of the letters, and what follows the 64
digits is not looked at. Nothing is stored before the public key has been computed.
-/

namespace Nicenet

open Library

def privateKeySize : Nat := 32

namespace PrivateKey

/-- `Server`: the two arrays of bytes. -/
structure Server where
  m_privateKey : List.Vector UInt8 privateKeySize
  m_publicKey : List.Vector UInt8 publicKeySize
  deriving DecidableEq

/-- The character at a position, a NUL behind the end. -/
def charAt (text : Str) (i : Nat) : UInt8 := text.getD i 0

def get0xCharValue (c : UInt8) : UInt8 :=
  if c = 48 then 0
  else if 49 ≤ c ∧ c ≤ 57 then 1 + (c - 49)
  else if 97 ≤ c ∧ c ≤ 102 then 10 + (c - 97)
  else if 65 ≤ c ∧ c ≤ 70 then 10 + (c - 65)
  else 255

/-- The loop of `SetPrivateKeyString`, which reads two characters for each byte. -/
def readKey : (count : Nat) → Str → Option (List.Vector UInt8 count)
  | 0, _ => some .nil
  | count + 1, s =>
      let a := get0xCharValue (charAt s 1)
      let b := get0xCharValue (charAt s 0)
      if a > 15 ∨ b > 15 then none
      else (readKey count (s.drop 2)).map (.cons (b * 16 + a))

/-- Where the digits start, in a text that is long enough. -/
def keyText (privateKeyString : Str) : Option Str :=
  if charAt privateKeyString 0 = 48 ∧ charAt privateKeyString 1 = 120 then
    if privateKeyString.length < 66 then none else some (privateKeyString.drop 2)
  else if privateKeyString.length < 64 then none
  else some privateKeyString

/-- `uECC_compute_public_key`, with nothing for a number that is no private key. -/
abbrev ComputePublicKey : Type :=
  List.Vector UInt8 privateKeySize → Option (List.Vector UInt8 publicKeySize)

namespace Server

variable (uECC_compute_public_key : ComputePublicKey)

/-- `SetPrivateKeyString`: the answer, and the server behind it. -/
def setPrivateKeyString (server : Server) (privateKeyString : Str) : Bool × Server :=
  match keyText privateKeyString with
  | none => (false, server)
  | some s =>
      match readKey privateKeySize s with
      | none => (false, server)
      | some privateKey =>
          match uECC_compute_public_key privateKey with
          | none => (false, server)
          | some publicKey => (true, ⟨privateKey, publicKey⟩)

end Server

/-- A digit as `%x` writes it. -/
def hexChar (digit : Nat) : UInt8 := UInt8.ofNat (if digit < 10 then 48 + digit else 87 + digit)

/-- A byte as `%02x` writes it. -/
def hexByte (byte : UInt8) : Str := [hexChar (byte.toNat / 16), hexChar (byte.toNat % 16)]

def Server.getPrivateKeyString (server : Server) : Str :=
  [48, 120] ++ server.m_privateKey.toList.flatMap hexByte

/-! ## Digits -/

/-- A hexadecimal digit and its value. -/
def HexDigit (c : UInt8) (value : Nat) : Prop := Http.digitValue c = some value ∧ value < 16

instance (c : UInt8) (value : Nat) : Decidable (HexDigit c value) :=
  inferInstanceAs (Decidable (_ ∧ _))

/-- The digits of the two halves of a byte. -/
def halves (byte : UInt8) : List Nat := [byte.toNat / 16, byte.toNat % 16]

/-- A number from its digits, the most significant first. -/
def number (base : Nat) (digits : List Nat) : Nat :=
  digits.foldl (fun value digit => value * base + digit) 0

theorem length_halves (bytes : List UInt8) :
    (bytes.flatMap halves).length = 2 * bytes.length := by
  simp [halves, List.length_flatMap, Nat.mul_comm]

theorem get0xCharValue_spec : ∀ c : UInt8,
    if get0xCharValue c > 15 then ∀ value < 16, Http.digitValue c ≠ some value
    else Http.digitValue c = some (get0xCharValue c).toNat := by
  decide +kernel

/-- The value is the digit's, and 255 for other characters. -/
theorem hexDigit_iff {c : UInt8} {value : Nat} :
    HexDigit c value ↔ get0xCharValue c ≤ 15 ∧ value = (get0xCharValue c).toNat := by
  have spec := get0xCharValue_spec c
  by_cases large : get0xCharValue c > 15
  · rw [if_pos large] at spec
    refine ⟨fun digit => absurd digit.1 (spec value digit.2), fun same => ?_⟩
    exact absurd same.1 (UInt8.not_le.mpr large)
  · rw [if_neg large] at spec
    have small := UInt8.not_lt.mp large
    have bound : (get0xCharValue c).toNat < 16 :=
      Nat.lt_succ_of_le (UInt8.le_iff_toNat_le.mp small)
    rw [HexDigit, spec, Option.some_inj]
    exact ⟨fun digit => ⟨small, digit.1.symm⟩, fun same => ⟨same.2.symm, same.2 ▸ bound⟩⟩

theorem hexDigit_hexChar : ∀ digit < 16, HexDigit (hexChar digit) digit := by
  decide +kernel

/-- A number in base 256 is one in base 16 with twice the digits. -/
theorem number_halves (bytes : List UInt8) :
    number 16 (bytes.flatMap halves) = number 256 (bytes.map UInt8.toNat) := by
  rw [number, number]
  generalize 0 = value
  induction bytes generalizing value with
  | nil => rfl
  | cons byte bytes ih =>
      have whole : byte.toNat % 16 + 16 * (byte.toNat / 16) = byte.toNat :=
        Nat.mod_add_div _ _
      have same : (value * 16 + byte.toNat / 16) * 16 + byte.toNat % 16 =
          value * 256 + byte.toNat := by
        omega
      simp only [List.flatMap_cons, halves, List.cons_append, List.nil_append, List.foldl_cons,
        List.map_cons, same]
      exact ih _

/-! ## Reading and writing -/

theorem byte_eq_iff {byte high low : UInt8} (small : high ≤ 15) (small' : low ≤ 15) :
    high * 16 + low = byte ↔
      high.toNat = byte.toNat / 16 ∧ low.toNat = byte.toNat % 16 := by
  have bound : high.toNat ≤ 15 := UInt8.le_iff_toNat_le.mp small
  have bound' : low.toNat ≤ 15 := UInt8.le_iff_toNat_le.mp small'
  have sixteen : (16 : UInt8).toNat = 16 := rfl
  rw [← UInt8.toNat_inj, UInt8.toNat_add, UInt8.toNat_mul, sixteen]
  omega

/-- What is read are the bytes whose halves the digits stand for. -/
theorem readKey_eq_some {count : Nat} {s : Str} {key : List.Vector UInt8 count} :
    readKey count s = some key ↔
      List.Forall₂ HexDigit (s.take (2 * count)) (key.toList.flatMap halves) := by
  induction count generalizing s with
  | zero =>
      obtain ⟨_ | ⟨byte, rest⟩, length⟩ := key
      · rw [Nat.mul_zero, List.take_zero]
        exact iff_of_true rfl .nil
      · cases length
  | succ count ih =>
      obtain ⟨byte, rest, rfl⟩ : ∃ byte rest, key = .cons byte rest :=
        ⟨key.head, key.tail, key.cons_head_tail.symm⟩
      have double : 2 * (count + 1) = 2 * count + 1 + 1 := by
        omega
      rw [double]
      rcases s with _ | ⟨upper, _ | ⟨lower, s⟩⟩
      · simp [readKey, charAt, get0xCharValue, halves]
      · simp [readKey, charAt, get0xCharValue, halves]
      · simp only [readKey, charAt, List.getD_cons_zero, List.getD_cons_succ,
          List.drop_succ_cons, List.drop_zero, List.take_succ_cons, List.Vector.toList_cons,
          List.flatMap_cons, halves, List.cons_append, List.nil_append, List.forall₂_cons,
          hexDigit_iff]
        rw [← ih]
        by_cases large : get0xCharValue lower > 15 ∨ get0xCharValue upper > 15
        · rw [if_pos large]
          rcases large with large | large
          · simp [UInt8.not_le.mpr large]
          · simp [UInt8.not_le.mpr large]
        · obtain ⟨small', small⟩ := not_or.mp large |>.imp UInt8.not_lt.mp UInt8.not_lt.mp
          rw [if_neg large, Option.map_eq_some_iff]
          have byte := @byte_eq_iff byte _ _ small small'
          constructor
          · rintro ⟨key, read, same⟩
            have head := congrArg List.Vector.head same
            have tail := congrArg List.Vector.tail same
            rw [List.Vector.head_cons, List.Vector.head_cons] at head
            rw [List.Vector.tail_cons, List.Vector.tail_cons] at tail
            exact ⟨⟨small, (byte.mp head).1.symm⟩, ⟨small', (byte.mp head).2.symm⟩, tail ▸ read⟩
          · rintro ⟨⟨_, high⟩, ⟨_, low⟩, read⟩
            exact ⟨rest, read, by rw [byte.mpr ⟨high.symm, low.symm⟩]⟩

/-- The bytes of a key are written with the digits of their halves. -/
theorem digits_hexByte (bytes : List UInt8) :
    List.Forall₂ HexDigit (bytes.flatMap hexByte) (bytes.flatMap halves) := by
  induction bytes with
  | nil => exact .nil
  | cons byte bytes ih =>
      have bound := byte.toNat_lt
      exact .cons (hexDigit_hexChar _ (by omega)) (.cons (hexDigit_hexChar _ (by omega)) ih)

/-- A text behind its `0x`, where it has one. -/
def unmarked (privateKeyString : Str) : Str :=
  if [48, 120] <+: privateKeyString then privateKeyString.drop 2 else privateKeyString

theorem marked_iff {privateKeyString : Str} :
    charAt privateKeyString 0 = 48 ∧ charAt privateKeyString 1 = 120 ↔
      [48, 120] <+: privateKeyString := by
  rcases privateKeyString with _ | ⟨first, _ | ⟨second, rest⟩⟩
  · simp [charAt]
  · simp [charAt]
  · simp [charAt, eq_comm]

/-- The digits are looked for behind the `0x`, when there is room for them. -/
theorem keyText_eq_some {privateKeyString s : Str} :
    keyText privateKeyString = some s ↔
      unmarked privateKeyString = s ∧ 64 ≤ (unmarked privateKeyString).length := by
  by_cases marked : [48, 120] <+: privateKeyString
  · have room := marked.length_le
    rw [keyText, if_pos (marked_iff.mpr marked), unmarked, if_pos marked, List.length_drop]
    by_cases short : privateKeyString.length < 66
    · simp [short]
      omega
    · simp [short]
      omega
  · rw [keyText, if_neg (mt marked_iff.mp marked), unmarked, if_neg marked]
    by_cases short : privateKeyString.length < 64
    · simp [short]
    · simp [short, Nat.not_lt.mp short]

namespace Server

variable {uECC_compute_public_key : ComputePublicKey} {server : Server}
variable {privateKeyString : Str}

/-- A key is taken exactly from a text that starts with its digits, with the public key that
is computed for it. -/
theorem setPrivateKeyString_eq_true {next : Server} :
    server.setPrivateKeyString uECC_compute_public_key privateKeyString = (true, next) ↔
      List.Forall₂ HexDigit ((unmarked privateKeyString).take 64)
          (next.m_privateKey.toList.flatMap halves) ∧
        uECC_compute_public_key next.m_privateKey = some next.m_publicKey := by
  rw [setPrivateKeyString]
  cases text : keyText privateKeyString with
  | none =>
      have short : (unmarked privateKeyString).length < 64 := by
        by_contra long
        have found := keyText_eq_some.mpr ⟨rfl, Nat.not_lt.mp long⟩
        rw [text] at found
        cases found
      refine ⟨nofun, fun taken => ?_⟩
      have length := taken.1.length_eq
      rw [length_halves, List.Vector.toList_length, List.length_take, privateKeySize] at length
      omega
  | some s =>
      obtain ⟨rfl, room⟩ := keyText_eq_some.mp text
      dsimp only
      rw [show 64 = 2 * privateKeySize from rfl, ← readKey_eq_some]
      cases read : readKey privateKeySize (unmarked privateKeyString) with
      | none => simp
      | some privateKey =>
          cases computed : uECC_compute_public_key privateKey with
          | none =>
              refine ⟨by simp [computed], ?_⟩
              rintro ⟨⟨⟩, found⟩
              rw [computed] at found
              cases found
          | some publicKey =>
              constructor
              · intro taken
                simp only [computed, Prod.mk.injEq, true_and] at taken
                subst taken
                exact ⟨rfl, computed⟩
              · rintro ⟨⟨⟩, found⟩
                obtain rfl := Option.some_inj.mp (computed.symm.trans found)
                simp [computed]

/-- A text that is not taken changes nothing. -/
theorem setPrivateKeyString_unchanged
    (refused : (server.setPrivateKeyString uECC_compute_public_key privateKeyString).1 = false) :
    (server.setPrivateKeyString uECC_compute_public_key privateKeyString).2 = server := by
  rw [setPrivateKeyString] at refused ⊢
  split at refused
  · rfl
  · split at refused
    · rfl
    · split at refused
      · rfl
      · cases refused

/-- The text of a key starts with its digits, behind the `0x`. -/
theorem unmarked_getPrivateKeyString :
    (unmarked server.getPrivateKeyString).take 64 =
      server.m_privateKey.toList.flatMap hexByte := by
  have length : (server.m_privateKey.toList.flatMap hexByte).length = 64 := by
    rw [(digits_hexByte _).length_eq, length_halves, List.Vector.toList_length]
    rfl
  rw [unmarked, getPrivateKeyString, if_pos (List.prefix_append _ _)]
  exact List.take_of_length_le length.le

end Server

/-- The text of a key gives it back to any server, with the public key computed for it. A text
that is taken starts with 64 digits that make up the number of the key, and one that is not
taken changes neither key. -/
theorem privateKeyString_survives (uECC_compute_public_key : ComputePublicKey) :
    (∀ (server target : Server) (publicKey : List.Vector UInt8 publicKeySize),
      uECC_compute_public_key server.m_privateKey = some publicKey →
        target.setPrivateKeyString uECC_compute_public_key server.getPrivateKeyString =
          (true, ⟨server.m_privateKey, publicKey⟩)) ∧
    ∀ (server : Server) (privateKeyString : Str) (answer : Bool) (next : Server),
      server.setPrivateKeyString uECC_compute_public_key privateKeyString = (answer, next) →
        (answer = true → ∃ digits : List Nat, digits.length = 64 ∧
          List.Forall₂ HexDigit ((unmarked privateKeyString).take 64) digits ∧
          number 16 digits = number 256 (next.m_privateKey.toList.map UInt8.toNat) ∧
          uECC_compute_public_key next.m_privateKey = some next.m_publicKey) ∧
        (answer = false → next = server) := by
  refine ⟨fun server target publicKey computed => ?_, fun server text answer next set => ?_⟩
  · rw [Server.setPrivateKeyString_eq_true, Server.unmarked_getPrivateKeyString]
    exact ⟨digits_hexByte _, computed⟩
  · constructor
    · rintro rfl
      obtain ⟨digits, computed⟩ := Server.setPrivateKeyString_eq_true.mp set
      refine ⟨_, ?_, digits, number_halves _, computed⟩
      rw [length_halves, List.Vector.toList_length]
      rfl
    · rintro rfl
      have kept := Server.setPrivateKeyString_unchanged (congrArg Prod.fst set)
      rwa [set] at kept

/-- A server with keys all of whose bytes are the same. -/
def sampleServer (byte : UInt8) : Server :=
  ⟨.replicate privateKeySize byte, .replicate publicKeySize byte⟩

/-- A key that goes from one server to another. -/
theorem survives_copied :
    (sampleServer 0).setPrivateKeyString (fun _ => some (.replicate publicKeySize 171))
        (sampleServer 171).getPrivateKeyString = (true, sampleServer 171) :=
  (privateKeyString_survives fun _ => some (.replicate publicKeySize 171)).1 (sampleServer 171)
    (sampleServer 0) _ rfl

end PrivateKey

end Nicenet
