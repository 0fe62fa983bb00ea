import Mathlib.Data.List.TakeDrop
import Nicenet.Proto.Table

/-!
# The text of `cmd.json`

The script writes `cmd.json` itself, with the names between quotes as they are,
and reads it with `json.loads`, which looks for escapes in them. What was written
is read back, or not at all, if no name has a character that needs one.
-/

namespace Nicenet.ProtoJson2Hpp

/-! ## Writing -/

/-- `str` of an integer. -/
def str : Int → Text
  | .ofNat n => Nat.toDigits 10 n
  | .negSucc n => '-' :: Nat.toDigits 10 (n + 1)

/-- The two writes of one row; `last` is `idV[-1]`. -/
def line (last : Option Int) (row : Int × Text) : Text :=
  ['\t', '"'] ++ row.2 ++ ['"', ' ', ':', ' '] ++ str row.1 ++
    (if some row.1 ≠ last then [',', '\n'] else ['\n'])

/-- `write` encodes its `unicode` argument as ASCII, or raises an exception. -/
def encodable (text : Text) : Bool := text.all fun c => c.toNat < 128

/-- The rows, up to the first one that cannot be encoded, and whether `write` got
through all of them. -/
def writeRows (last : Option Int) : List (Int × Text) → Text × Bool
  | [] => (['}', '\n'], true)
  | row :: rows =>
      if encodable row.2 then
        let (text, through) := writeRows last rows
        (line last row ++ text, through)
      else
        ([], false)

/-- The contents of `cmd.json` after it was written. -/
def writeCmd (rows : List (Int × Text)) : Text × Bool :=
  let (text, through) := writeRows (rows.getLast?.map Prod.fst) rows
  (['{', '\n'] ++ text, through)

/-! ## Reading -/

/-- White space between tokens. -/
def skipSpace (text : Text) : Text :=
  text.dropWhile fun c => c = ' ' || c = '\t' || c = '\n' || c = '\r'

def hexDigit (c : Char) : Option Nat :=
  if '0' ≤ c ∧ c ≤ '9' then some (c.toNat - 48)
  else if 'a' ≤ c ∧ c ≤ 'f' then some (c.toNat - 87)
  else if 'A' ≤ c ∧ c ≤ 'F' then some (c.toNat - 55)
  else none

/-- The value of the four digits behind `\\u`. -/
def hexValue (a b c d : Char) : Option Nat := do
  return (((← hexDigit a) * 16 + (← hexDigit b)) * 16 + (← hexDigit c)) * 16 +
    (← hexDigit d)

/-- The escapes of one letter. -/
def escaped (c : Char) : Option Char :=
  match c with
  | '"' => some '"'
  | '\\' => some '\\'
  | '/' => some '/'
  | 'b' => some '\x08'
  | 'f' => some '\x0c'
  | 'n' => some '\n'
  | 'r' => some '\r'
  | 't' => some '\t'
  | _ => none

/-- A string from behind its opening quote. A surrogate without its counterpart is
no character and has no place in a `Text`. -/
def readString : Text → Option (Text × Text)
  | [] => none
  | '"' :: rest => some ([], rest)
  | '\\' :: 'u' :: a :: b :: c :: d :: rest => do
      let unit ← hexValue a b c d
      if 0xD800 ≤ unit ∧ unit < 0xDC00 then
        match rest with
        | '\\' :: 'u' :: e :: f :: g :: h :: rest => do
            let low ← hexValue e f g h
            if 0xDC00 ≤ low ∧ low < 0xE000 then
              let (text, rest) ← readString rest
              let c := Char.ofNat (0x10000 + (unit - 0xD800) * 0x400 + (low - 0xDC00))
              return (c :: text, rest)
            else
              none
        | _ => none
      else if 0xDC00 ≤ unit ∧ unit < 0xE000 then
        none
      else
        let (text, rest) ← readString rest
        return (Char.ofNat unit :: text, rest)
  | '\\' :: c :: rest => do
      let c ← escaped c
      let (text, rest) ← readString rest
      return (c :: text, rest)
  | c :: rest =>
      if c.toNat < 32 then
        none
      else do
        let (text, rest) ← readString rest
        return (c :: text, rest)

/-- Digits, without leading zeros. -/
def readNat (text : Text) : Option (Nat × Text) :=
  match text.span Char.isDigit with
  | ([], _) => none
  | ('0' :: _ :: _, _) => none
  | (digits, rest) => some (Nat.ofDigitChars 10 digits 0, rest)

/-- An integer, without a fraction or an exponent. -/
def readInt (text : Text) : Option (Int × Text) :=
  match text with
  | '-' :: text => (readNat text).map fun read => (-(read.1 : Int), read.2)
  | text => (readNat text).map fun read => ((read.1 : Int), read.2)

/-- The members of an object, from the opening quote of a name; `fuel` bounds how
many there are. -/
def readMembers : Nat → Text → Option (List (Text × Int) × Text)
  | 0, _ => none
  | fuel + 1, text =>
      match text with
      | '"' :: text => do
          let (name, text) ← readString text
          match skipSpace text with
          | ':' :: text => do
              let (id, text) ← readInt (skipSpace text)
              match skipSpace text with
              | ',' :: text => do
                  let (members, text) ← readMembers fuel (skipSpace text)
                  return ((name, id) :: members, text)
              | '}' :: text => return ([(name, id)], text)
              | _ => none
          | _ => none
      | _ => none

/-- `json.loads` of an object that maps names to integers. -/
def loads (text : Text) : Option (List (Text × Int)) := do
  match skipSpace text with
  | '{' :: text =>
      match skipSpace text with
      | '}' :: text => if skipSpace text = [] then some [] else none
      | text => do
          let (members, text) ← readMembers text.length text
          if skipSpace text = [] then some members else none
  | _ => none

/-- A `dict` of members: of two with one name the later one counts. -/
def dict (members : List (Text × Int)) : Dict Text Int :=
  members.foldl (fun dict member => dict.insert member.1 member.2) ∅

example : loads (writeCmd [(101, "AID".toList), (60000, "BID".toList)]).1 =
    some [("AID".toList, 101), ("BID".toList, 60000)] := by decide +kernel

example : loads (writeCmd [(101, "P\\u0041ID".toList)]).1 =
    some [("PAID".toList, 101)] := by decide +kernel

/-! ## Names that are written as they are -/

/-- A name in which JSON has nothing to escape. -/
def Plain (name : Text) : Prop :=
  ∀ c ∈ name, 32 ≤ c.toNat ∧ c ≠ '"' ∧ c ≠ '\\'

instance : DecidablePred Plain := fun name =>
  List.decidableBAll (fun c : Char => 32 ≤ c.toNat ∧ c ≠ '"' ∧ c ≠ '\\') name

/-- A character that stands for itself. -/
theorem readString_cons {c : Char} {text : Text} (high : 32 ≤ c.toNat) (quote : c ≠ '"')
    (escape : c ≠ '\\') : readString (c :: text) =
      (readString text).map fun read => (c :: read.1, read.2) := by
  rw [readString.eq_def]
  split
  · rename_i same
    cases same
  · rename_i same
    exact absurd (List.cons.inj same).1 quote
  · rename_i same
    exact absurd (List.cons.inj same).1 escape
  · rename_i same
    exact absurd (List.cons.inj same).1 escape
  · rename_i same
    cases same
    rw [if_neg (Nat.not_lt.mpr high)]
    cases readString text <;> rfl

theorem readString_plain {name : Text} (plain : Plain name) (rest : Text) :
    readString (name ++ '"' :: rest) = some (name, rest) := by
  induction name with
  | nil => rw [List.nil_append, readString]
  | cons c name ih =>
      obtain ⟨high, quote, escape⟩ := plain c List.mem_cons_self
      rw [List.cons_append, readString_cons high quote escape,
        ih fun other member => plain other (List.mem_cons_of_mem _ member)]
      rfl

/-- A control character stands for nothing. -/
theorem readString_control {c : Char} (text : Text) (low : c.toNat < 32) :
    readString (c :: text) = none := by
  rw [readString.eq_def]
  split
  · rename_i same
    cases same
  · rename_i same
    rw [(List.cons.inj same).1] at low
    exact absurd low (by decide)
  · rename_i same
    rw [(List.cons.inj same).1] at low
    exact absurd low (by decide)
  · rename_i same
    rw [(List.cons.inj same).1] at low
    exact absurd low (by decide)
  · rename_i same
    cases same
    rw [if_pos low]

/-- A name that neither ends a string nor starts an escape. -/
def Quoteless (name : Text) : Prop := '"' ∉ name ∧ '\\' ∉ name

/-- Such a name is read as it is, or not at all. -/
theorem readString_unfit {name : Text} (quoteless : Quoteless name) (unfit : ¬Plain name)
    (rest : Text) : readString (name ++ '"' :: rest) = none := by
  induction name with
  | nil => exact absurd (fun c member => absurd member List.not_mem_nil) unfit
  | cons c name ih =>
      obtain ⟨quote, quotes⟩ := List.ne_and_not_mem_of_not_mem_cons quoteless.1
      obtain ⟨escape, escapes⟩ := List.ne_and_not_mem_of_not_mem_cons quoteless.2
      rw [List.cons_append]
      by_cases high : 32 ≤ c.toNat
      · have later : ¬Plain name := fun plain => unfit
          (List.forall_mem_cons.mpr ⟨⟨high, quote.symm, escape.symm⟩, plain⟩)
        rw [readString_cons high quote.symm escape.symm, ih ⟨quotes, escapes⟩ later]
        rfl
      · exact readString_control _ (Nat.lt_of_not_le high)

/-! ## Numbers -/

/-- A number does not start with a zero that could be left out. -/
theorem toDigits_zero_cons {n : Nat} {rest : Text}
    (zero : Nat.toDigits 10 n = '0' :: rest) : rest = [] := by
  induction n using Nat.strong_induction_on generalizing rest with
  | _ n ih =>
      rw [Nat.toDigits_eq_if (by decide)] at zero
      split at zero
      · exact (List.cons.inj zero).2.symm
      · rename_i long
        cases front : Nat.toDigits 10 (n / 10) with
        | nil => exact absurd front Nat.toDigits_ne_nil
        | cons c digits =>
            rw [front, List.cons_append] at zero
            obtain ⟨rfl, _⟩ := List.cons.inj zero
            have short := ih (n / 10) (by omega) front
            -- The digits in front of the last one are those of a number below ten.
            rw [short] at front
            have value : Nat.ofDigitChars 10 (Nat.toDigits 10 (n / 10)) 0 = n / 10 :=
              Nat.ofDigitChars_ten_toDigits
            rw [front] at value
            have small : n / 10 = 0 := value.symm
            omega

theorem readNat_append (n : Nat) {rest : Text} (stop : ∀ c ∈ rest.head?, c.isDigit = false) :
    readNat (Nat.toDigits 10 n ++ rest) = some (n, rest) := by
  have digits : ∀ d ∈ Nat.toDigits 10 n, d.isDigit := fun d member =>
    Nat.isDigit_of_mem_toDigits (by decide) (by decide) member
  have split : (Nat.toDigits 10 n ++ rest).span Char.isDigit =
      (Nat.toDigits 10 n, rest) := by
    rw [List.span_eq_takeWhile_dropWhile, List.takeWhile_append_of_pos digits,
      List.dropWhile_append_of_pos digits]
    cases rest with
    | nil => simp
    | cons c rest => simp [stop c rfl]
  have value : Nat.ofDigitChars 10 (Nat.toDigits 10 n) 0 = n :=
    Nat.ofDigitChars_ten_toDigits
  rw [readNat, split]
  split
  · rename_i same
    exact absurd (Prod.mk.inj same).1 Nat.toDigits_ne_nil
  · rename_i same
    exact absurd (toDigits_zero_cons (Prod.mk.inj same).1) (List.cons_ne_nil _ _)
  · rename_i same
    obtain ⟨rfl, rfl⟩ := Prod.mk.inj same
    rw [value]

theorem readNat_toDigits (n : Nat) {c : Char} (rest : Text) (stop : c.isDigit = false) :
    readNat (Nat.toDigits 10 n ++ c :: rest) = some (n, c :: rest) :=
  readNat_append n fun other same => by rwa [Option.some.inj same] at stop

/-- A number does not start with a sign. -/
theorem readInt_toDigits (n : Nat) {c : Char} (rest : Text) (stop : c.isDigit = false) :
    readInt (Nat.toDigits 10 n ++ c :: rest) = some ((n : Int), c :: rest) := by
  rw [readInt.eq_def]
  split
  · rename_i same
    cases written : Nat.toDigits 10 n with
    | nil => exact absurd written Nat.toDigits_ne_nil
    | cons first others =>
        rw [written] at same
        have digit : first.isDigit := Nat.isDigit_of_mem_toDigits (by decide) (by decide)
          (show first ∈ Nat.toDigits 10 n by rw [written]; exact List.mem_cons_self)
        rw [(List.cons.inj same).1] at digit
        exact absurd digit (by decide)
  · rw [readNat_toDigits n rest stop]
    rfl

theorem readInt_str (id : Int) {c : Char} (rest : Text) (stop : c.isDigit = false) :
    readInt (str id ++ c :: rest) = some (id, c :: rest) := by
  cases id with
  | ofNat n => exact readInt_toDigits n rest stop
  | negSucc n =>
      show (readNat (Nat.toDigits 10 (n + 1) ++ c :: rest)).map _ = _
      rw [readNat_toDigits (n + 1) rest stop]
      rfl

/-! ## Reading what was written -/

theorem skipSpace_cons {c : Char} (text : Text)
    (space : (c = ' ' || c = '\t' || c = '\n' || c = '\r') = true) :
    skipSpace (c :: text) = skipSpace text := List.dropWhile_cons_of_pos space

theorem skipSpace_token {c : Char} (text : Text)
    (token : (c = ' ' || c = '\t' || c = '\n' || c = '\r') = false) :
    skipSpace (c :: text) = c :: text :=
  List.dropWhile_cons_of_neg (by rw [token]; exact Bool.false_ne_true)

theorem skipSpace_str (id : Int) (rest : Text) :
    skipSpace (str id ++ rest) = str id ++ rest := by
  cases id with
  | negSucc n => exact skipSpace_token _ (by decide)
  | ofNat n =>
      show skipSpace (Nat.toDigits 10 n ++ rest) = Nat.toDigits 10 n ++ rest
      cases written : Nat.toDigits 10 n with
      | nil => exact absurd written Nat.toDigits_ne_nil
      | cons first others =>
          have digit : first.isDigit := Nat.isDigit_of_mem_toDigits (by decide) (by decide)
            (show first ∈ Nat.toDigits 10 n by rw [written]; exact List.mem_cons_self)
          refine skipSpace_token _ ?_
          rw [Bool.eq_false_iff]
          intro space
          simp only [Bool.or_eq_true, decide_eq_true_eq] at space
          rcases space with ((rfl | rfl) | rfl) | rfl <;> exact absurd digit (by decide)

/-- A row starts with the opening quote of its name. -/
theorem row_quoted (row : Int × Text) (rest : Text) :
    skipSpace (['\t', '"'] ++ row.2 ++ ['"', ' ', ':', ' '] ++ str row.1 ++ rest) =
      '"' :: (row.2 ++ '"' :: ' ' :: ':' :: ' ' :: (str row.1 ++ rest)) := by
  simp only [List.cons_append, List.nil_append, List.append_assoc]
  rw [skipSpace_cons _ (by decide), skipSpace_token _ (by decide)]

/-- One row up to the character behind its id, which is no digit. -/
theorem readMembers_row {row : Int × Text} (plain : Plain row.2) (fuel : Nat) {c : Char}
    (rest : Text) (stop : c.isDigit = false) :
    readMembers (fuel + 1) (skipSpace
      (['\t', '"'] ++ row.2 ++ ['"', ' ', ':', ' '] ++ str row.1 ++ c :: rest)) =
      match skipSpace (c :: rest) with
      | ',' :: text => (readMembers fuel (skipSpace text)).map fun read =>
          (row.swap :: read.1, read.2)
      | '}' :: text => some ([row.swap], text)
      | _ => none := by
  rw [row_quoted, readMembers]
  simp only [readString_plain plain, bind, Option.bind]
  rw [skipSpace_cons _ (by decide), skipSpace_token _ (by decide)]
  simp only
  rw [skipSpace_cons _ (by decide), skipSpace_str]
  simp only [readInt_str row.1 rest stop]
  split
  · rename_i text _
    cases readMembers fuel (skipSpace text) <;> rfl
  · rfl
  · rfl

/-- The rows of a table, from the opening quote of the first name. -/
theorem readMembers_rows {last : Option Int} {row : Int × Text} {rows : List (Int × Text)}
    (plain : ∀ other ∈ row :: rows, Plain other.2)
    (distinct : (row :: rows).Pairwise fun first second => first.1 ≠ second.1)
    (final : (row :: rows).getLast?.map Prod.fst = last) {fuel : Nat}
    (enough : (writeRows last (row :: rows)).2 = true → rows.length < fuel) :
    readMembers fuel (skipSpace (writeRows last (row :: rows)).1) =
      if (writeRows last (row :: rows)).2 then some ((row :: rows).map Prod.swap, ['\n'])
      else none := by
  induction rows generalizing row fuel with
  | nil =>
      have here := plain row List.mem_cons_self
      by_cases encoded : encodable row.2
      · have written : writeRows last [row] =
            (['\t', '"'] ++ row.2 ++ ['"', ' ', ':', ' '] ++ str row.1 ++
              '\n' :: ['}', '\n'], true) := by
          rw [← final]
          simp [writeRows, encoded, line]
        rw [written] at enough ⊢
        obtain ⟨fuel, rfl⟩ := Nat.exists_eq_add_one.mpr (enough rfl)
        rw [readMembers_row here fuel _ (by decide)]
        rfl
      · rw [writeRows, if_neg encoded]
        cases fuel <;> rfl
  | cons next rows ih =>
      have here := plain row List.mem_cons_self
      obtain ⟨apart, others⟩ := List.pairwise_cons.mp distinct
      by_cases encoded : encodable row.2
      · have further : some row.1 ≠ last := by
          rw [← final, List.getLast?_cons_cons]
          intro same
          obtain ⟨other, found, equal⟩ := Option.map_eq_some_iff.mp same.symm
          exact apart other (List.mem_of_getLast? found) equal.symm
        have written : writeRows last (row :: next :: rows) =
            (['\t', '"'] ++ row.2 ++ ['"', ' ', ':', ' '] ++ str row.1 ++
              ',' :: '\n' :: (writeRows last (next :: rows)).1,
              (writeRows last (next :: rows)).2) := by
          rw [writeRows, if_pos encoded, line, if_pos further]
          simp
        rw [written] at enough ⊢
        cases fuel with
        | zero =>
            have cut : (writeRows last (next :: rows)).2 = false := by
              rw [Bool.eq_false_iff]
              exact fun through => absurd (enough through) (Nat.not_lt_zero _)
            rw [cut]
            rfl
        | succ fuel =>
            have later := ih
              (fun other member => plain other (List.mem_cons_of_mem _ member)) others
              (by rw [← final, List.getLast?_cons_cons])
              (fun through => Nat.lt_of_succ_lt_succ (enough through))
            rw [readMembers_row here fuel _ (by decide), skipSpace_token _ (by decide)]
            simp only
            rw [skipSpace_cons _ (by decide), later]
            cases (writeRows last (next :: rows)).2 <;> rfl
      · rw [writeRows, if_neg encoded]
        cases fuel <;> rfl

/-- Every row that is written takes two characters and more, and so does the end. -/
theorem length_writeRows {last : Option Int} {rows : List (Int × Text)}
    (through : (writeRows last rows).2 = true) :
    2 * rows.length + 2 ≤ (writeRows last rows).1.length := by
  induction rows with
  | nil => exact Nat.le_refl 2
  | cons row rows ih =>
      rw [writeRows] at through ⊢
      split at through
      · rename_i encoded
        have length := ih through
        rw [if_pos encoded]
        simp only [line, List.length_append, List.length_cons, List.length_nil]
        omega
      · cases through

/-- A `cmd.json` with plain names is read back, unless the write stopped in the middle of
it; then it cannot be read at all. -/
theorem loads_writeCmd {rows : List (Int × Text)} (plain : ∀ row ∈ rows, Plain row.2)
    (distinct : rows.Pairwise fun first second => first.1 ≠ second.1) :
    loads (writeCmd rows).1 =
      if (writeCmd rows).2 then some (rows.map Prod.swap) else none := by
  rw [loads, writeCmd]
  simp only [List.cons_append, List.nil_append]
  rw [skipSpace_token _ (by decide)]
  simp only
  rw [skipSpace_cons _ (by decide)]
  cases rows with
  | nil => rfl
  | cons row rows =>
      by_cases encoded : encodable row.2
      · have quoted : ∃ text,
            (writeRows ((row :: rows).getLast?.map Prod.fst) (row :: rows)).1 =
              '\t' :: '"' :: text := by
          rw [writeRows, if_pos encoded, line]
          exact ⟨_, rfl⟩
        obtain ⟨text, quoted⟩ := quoted
        have enough : (writeRows ((row :: rows).getLast?.map Prod.fst) (row :: rows)).2 =
            true → rows.length < ('"' :: text).length := by
          intro through
          have length := length_writeRows through
          rw [quoted] at length
          simp only [List.length_cons] at length ⊢
          omega
        have read := readMembers_rows plain distinct rfl enough
        rw [quoted, skipSpace_cons _ (by decide), skipSpace_token _ (by decide)] at read ⊢
        show ((readMembers _ _).bind fun read =>
          if skipSpace read.2 = [] then some read.1 else none) = _
        rw [read]
        cases (writeRows ((row :: rows).getLast?.map Prod.fst) (row :: rows)).2 <;> rfl
      · rw [writeRows, if_neg encoded]
        rfl

/-- What stands in the file if the write got through a row. -/
theorem writeRows_through {last : Option Int} {row : Int × Text} {rows : List (Int × Text)}
    (through : (writeRows last (row :: rows)).2 = true) :
    (writeRows last rows).2 = true ∧
      (writeRows last (row :: rows)).1 = line last row ++ (writeRows last rows).1 := by
  rw [writeRows] at through ⊢
  by_cases encoded : encodable row.2
  · rw [if_pos encoded] at through ⊢
    exact ⟨through, rfl⟩
  · rw [if_neg encoded] at through
    cases through

/-- It starts with the quote in front of a name. -/
theorem writeRows_quoted {last : Option Int} {row : Int × Text} {rows : List (Int × Text)}
    (through : (writeRows last (row :: rows)).2 = true) :
    ∃ text, skipSpace (writeRows last (row :: rows)).1 = '"' :: text := by
  rw [(writeRows_through through).2, line, List.append_assoc _ (ite _ _ _), row_quoted]
  exact ⟨_, rfl⟩

/-- Names that end no string are plain where the members can be read. -/
theorem plain_of_readMembers {last : Option Int} {rows : List (Int × Text)}
    (through : (writeRows last rows).2 = true) (quoteless : ∀ row ∈ rows, Quoteless row.2)
    (fuel : Nat) (read : rows ≠ [] →
      readMembers fuel (skipSpace (writeRows last rows).1) ≠ none) :
    ∀ row ∈ rows, Plain row.2 := by
  induction rows generalizing fuel with
  | nil => exact fun row member => absurd member List.not_mem_nil
  | cons row rows ih =>
      have here := read (List.cons_ne_nil _ _)
      obtain ⟨later, written⟩ := writeRows_through through
      rw [written, line, List.append_assoc _ (ite _ _ _)] at here
      cases fuel with
      | zero => exact absurd rfl here
      | succ fuel =>
          have plain : Plain row.2 := by
            by_contra unfit
            rw [row_quoted, readMembers,
              readString_unfit (quoteless row List.mem_cons_self) unfit] at here
            exact here rfl
          refine List.forall_mem_cons.mpr ⟨plain, ih later
            (fun other member => quoteless other (List.mem_cons_of_mem _ member)) fuel
            fun more none => here ?_⟩
          by_cases further : some row.1 ≠ last
          · rw [if_pos further]
            show readMembers (fuel + 1) (skipSpace
              (['\t', '"'] ++ row.2 ++ ['"', ' ', ':', ' '] ++ str row.1 ++
                ',' :: '\n' :: (writeRows last rows).1)) = _
            rw [readMembers_row plain fuel _ (by decide), skipSpace_token _ (by decide)]
            simp only
            rw [skipSpace_cons _ (by decide), none]
            rfl
          · -- The line says that it is the last one, and another one is behind it.
            rw [if_neg further]
            show readMembers (fuel + 1) (skipSpace
              (['\t', '"'] ++ row.2 ++ ['"', ' ', ':', ' '] ++ str row.1 ++
                '\n' :: (writeRows last rows).1)) = _
            rw [readMembers_row plain fuel _ (by decide), skipSpace_cons _ (by decide)]
            obtain ⟨next, others, rfl⟩ := List.exists_cons_of_ne_nil more
            obtain ⟨text, quoted⟩ := writeRows_quoted later
            rw [quoted]
            rfl

/-- The same of the whole `cmd.json`. -/
theorem plain_of_loads {rows : List (Int × Text)} (through : (writeCmd rows).2 = true)
    (quoteless : ∀ row ∈ rows, Quoteless row.2) (read : loads (writeCmd rows).1 ≠ none) :
    ∀ row ∈ rows, Plain row.2 := by
  cases rows with
  | nil => exact fun row member => absurd member List.not_mem_nil
  | cons row rows =>
      rw [loads, writeCmd] at read
      simp only [List.cons_append, List.nil_append] at read
      rw [skipSpace_token _ (by decide)] at read
      simp only at read
      rw [skipSpace_cons _ (by decide)] at read
      obtain ⟨text, quoted⟩ := writeRows_quoted through
      refine plain_of_readMembers through quoteless (text.length + 1) fun _ none => read ?_
      rw [quoted] at none ⊢
      show ((readMembers _ _).bind fun read =>
        if skipSpace read.2 = [] then some read.1 else Option.none) = _
      rw [List.length_cons, none]
      rfl

/-! ## The dictionary that is read back -/

/-- Members with distinct names are all in the dictionary. -/
theorem lookup_dict {members : List (Text × Int)}
    (distinct : members.Pairwise fun first second => first.1 ≠ second.1) (name : Text)
    (id : Int) : (dict members).lookup name = some id ↔ (name, id) ∈ members := by
  have every : ∀ (members : List (Text × Int)) (start : Dict Text Int),
      members.Pairwise (fun first second => first.1 ≠ second.1) →
      ((members.foldl (fun dict member => dict.insert member.1 member.2) start).lookup
          name = some id ↔ (name, id) ∈ members ∨
        (start.lookup name = some id ∧ ∀ member ∈ members, member.1 ≠ name)) := by
    intro members
    induction members with
    | nil => simp
    | cons member members ih =>
        intro start distinct
        obtain ⟨apart, others⟩ := List.pairwise_cons.mp distinct
        rw [List.foldl_cons, ih _ others, List.mem_cons, List.forall_mem_cons]
        by_cases same : name = member.1
        · subst same
          rw [AList.lookup_insert]
          have outside : (member.1, id) ∉ members := fun inside => apart _ inside rfl
          have free : ∀ other ∈ members, other.1 ≠ member.1 := fun other inside =>
            (apart other inside).symm
          constructor
          · rintro (inside | ⟨value, _⟩)
            · exact absurd inside outside
            · rw [Option.some.injEq] at value
              exact .inl (.inl (by rw [← value]))
          · rintro ((equal | inside) | ⟨_, other, _⟩)
            · exact .inr ⟨by rw [← equal], free⟩
            · exact absurd inside outside
            · exact absurd rfl other
        · rw [AList.lookup_insert_ne same]
          have differs : (name, id) ≠ member := fun equal => same (by rw [← equal])
          have front : member.1 ≠ name := fun equal => same equal.symm
          simp only [differs, false_or, ne_eq, front, not_false_eq_true, true_and]
  rw [dict, every members ∅ distinct]
  simp

end Nicenet.ProtoJson2Hpp
