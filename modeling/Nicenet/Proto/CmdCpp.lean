import Mathlib.Algebra.Group.Int.Defs
import Nicenet.Proto.CmdJson

/-!
# The table as it is emitted

The rows go to `cmd.json`, for the next run of the script, and to `cmd.cpp`, for the
compiler. The script writes names as they are, so what is in the two files is what
their readers make of them.
-/

namespace Nicenet.ProtoJson2Hpp

/-! ## Writing -/

/-- The text in front of the declarations. -/
def preamble : Text := "#include \"../Type.h\"\nnamespace Proto \x7b\n".toList

/-- The line of one row. -/
def declaration (row : Int × Text) : Text :=
  "\textern const ui16 ".toList ++ row.2 ++ " = ".toList ++ str row.1 ++ ";\n".toList

/-- The contents of `cmd.cpp`. -/
def writeCpp (rows : List (Int × Text)) : Text :=
  preamble ++ (rows.flatMap declaration ++ "\x7d\n".toList)

/-- The two files. -/
structure Output where
  cmdJson : Text
  cmdCpp : Text
  deriving DecidableEq, Repr

/-- The end of the script. A name that cannot be encoded raises an exception in the
middle of `cmd.json`, and `cmd.cpp` is not written. -/
def emit (cmdFix cmd : Dict Text Int) (filelist : List (List Item)) :
    Except Stop Output := do
  let rows ← table cmdFix cmd filelist
  match writeCmd rows with
  | (cmdJson, true) => return { cmdJson, cmdCpp := writeCpp rows }
  | (_, false) => .error .raised

/-! ## Reading declarations -/

/-- The characters of identifiers and numbers. -/
def isWord (c : Char) : Bool := c.isAlphanum || c = '_'

/-- White space between tokens. -/
def isSpace (c : Char) : Bool :=
  c = ' ' || c = '\t' || c = '\n' || c = '\r' || c = '\x0b' || c = '\x0c'

/-- The other characters that declarations of constants have. -/
def isSymbol (c : Char) : Bool := c = '=' || c = '-' || c = ';' || c = '}'

inductive Token where
  | word (text : Text)
  | symbol (c : Char)
  deriving DecidableEq, Repr

/-- A word ends in front of the next token. -/
def flush (word : Text) (tokens : List Token) : List Token :=
  if word = [] then tokens else .word word :: tokens

/-- The tokens of a text, the first of which may have started with `word`. -/
def scan (word : Text) : Text → Option (List Token)
  | [] => some (flush word [])
  | c :: text =>
      if isWord c then scan (word ++ [c]) text
      else if isSpace c then (scan [] text).map (flush word)
      else if isSymbol c then
        (scan [] text).map fun tokens => flush word (.symbol c :: tokens)
      else none

/-- The words that cannot name a constant: the keywords of C++, and the type. -/
def keywords : List String :=
  ["alignas", "alignof", "and", "and_eq", "asm", "auto", "bitand", "bitor", "bool",
    "break", "case", "catch", "char", "char8_t", "char16_t", "char32_t", "class", "compl",
    "concept", "const", "consteval", "constexpr", "constinit", "const_cast", "continue",
    "co_await", "co_return", "co_yield", "decltype", "default", "delete", "do", "double",
    "dynamic_cast", "else", "enum", "explicit", "export", "extern", "false", "float",
    "for", "friend", "goto", "if", "inline", "int", "long", "mutable", "namespace", "new",
    "noexcept", "not", "not_eq", "nullptr", "operator", "or", "or_eq", "private",
    "protected", "public", "register", "reinterpret_cast", "requires", "return", "short",
    "signed", "sizeof", "static", "static_assert", "static_cast", "struct", "switch",
    "template", "this", "thread_local", "throw", "true", "try", "typedef", "typeid",
    "typename", "union", "unsigned", "using", "virtual", "void", "volatile", "wchar_t",
    "while", "xor", "xor_eq", "ui16"]

/-- A name that a constant can have. `macros` are the names that the included headers
define as something else. -/
structure IsIdentifier (macros : List Text) (name : Text) : Prop where
  nonempty : name ≠ []
  words : ∀ c ∈ name, isWord c
  start : ∀ c ∈ name.head?, ¬c.isDigit
  free : name ∉ keywords.map String.toList ∧ name ∉ macros

theorem isIdentifier_iff {macros : List Text} {name : Text} :
    IsIdentifier macros name ↔ name ≠ [] ∧ name.all isWord ∧
      name.head?.all (fun c => !c.isDigit) ∧ keywords.all (fun word => word.toList ≠ name) ∧
      macros.all (fun other => other ≠ name) := by
  simp only [List.all_eq_true, Option.all_eq_true, decide_eq_true_eq, Bool.not_eq_true']
  constructor
  · rintro ⟨nonempty, words, start, free, other⟩
    refine ⟨nonempty, words, fun c first => by simpa using start c first, ?_, ?_⟩
    · rintro word member rfl
      exact free (List.mem_map_of_mem member)
    · rintro _ member rfl
      exact other member
  · rintro ⟨nonempty, words, start, free, other⟩
    refine ⟨nonempty, words, fun c first => by simpa using start c first, ?_, fun member =>
      other name member rfl⟩
    intro member
    obtain ⟨word, listed, same⟩ := List.mem_map.mp member
    exact free word listed same

instance (macros : List Text) : DecidablePred (IsIdentifier macros) := fun _ =>
  decidable_of_iff _ isIdentifier_iff.symm

/-- A decimal literal. -/
def number (digits : Text) : Option Nat :=
  match readNat digits with
  | some (n, []) => some n
  | _ => none

/-- The constants that are declared up to the end of the namespace, each with the value
that a `ui16` has. -/
def declarations (macros : List Text) : List Token → Option (List (Int × Text))
  | [.symbol '}'] => some []
  | .word first :: .word second :: .word third :: .word name :: .symbol '=' ::
      .word digits :: .symbol ';' :: tokens =>
      if first = "extern".toList ∧ second = "const".toList ∧ third = "ui16".toList ∧
          IsIdentifier macros name then do
        let n ← number digits
        let rows ← declarations macros tokens
        return (((n : Int) % 2 ^ 16, name) :: rows)
      else none
  | .word first :: .word second :: .word third :: .word name :: .symbol '=' ::
      .symbol '-' :: .word digits :: .symbol ';' :: tokens =>
      if first = "extern".toList ∧ second = "const".toList ∧ third = "ui16".toList ∧
          IsIdentifier macros name then do
        let n ← number digits
        let rows ← declarations macros tokens
        return ((-(n : Int) % 2 ^ 16, name) :: rows)
      else none
  | _ => none

/-- What the compiler finds in `cmd.cpp`, if it accepts it. -/
def readCpp (macros : List Text) (text : Text) : Option (List (Int × Text)) := do
  if text.take preamble.length = preamble then
    declarations macros (← scan [] (text.drop preamble.length))
  else none

/-- Both files have this table. -/
structure Output.Holds (macros : List Text) (output : Output)
    (table : List (Int × Text)) : Prop where
  json : loads output.cmdJson = some (table.map Prod.swap)
  cpp : readCpp macros output.cmdCpp = some table

/-! ## Scanning -/

theorem scan_words {word : Text} (words : ∀ c ∈ word, isWord c) (front rest : Text) :
    scan front (word ++ rest) = scan (front ++ word) rest := by
  induction word generalizing front with
  | nil => rw [List.nil_append, List.append_nil]
  | cons c word ih =>
      obtain ⟨here, later⟩ := List.forall_mem_cons.mp words
      rw [List.cons_append, scan, if_pos here, ih later, List.append_assoc,
        List.singleton_append]

/-- A word and the space behind it. -/
theorem scan_word {word : Text} (words : ∀ c ∈ word, isWord c) (nonempty : word ≠ [])
    (rest : Text) :
    scan [] (word ++ ' ' :: rest) = (scan [] rest).map (.word word :: ·) := by
  rw [scan_words words, List.nil_append, scan, if_neg (by decide), if_pos (by decide)]
  exact congrArg (Option.map · _) (funext fun tokens => if_neg nonempty)

/-- A word in front of a semicolon. -/
theorem scan_last {word : Text} (words : ∀ c ∈ word, isWord c) (nonempty : word ≠ [])
    (rest : Text) : scan [] (word ++ ';' :: rest) =
      (scan [] rest).map fun tokens => .word word :: .symbol ';' :: tokens := by
  rw [scan_words words, List.nil_append, scan, if_neg (by decide), if_neg (by decide),
    if_pos (by decide)]
  exact congrArg (Option.map · _) (funext fun tokens => if_neg nonempty)

theorem scan_space {c : Char} (space : isSpace c) (apart : isWord c = false)
    (rest : Text) : scan [] (c :: rest) = scan [] rest := by
  rw [scan, apart, if_neg Bool.false_ne_true, if_pos space]
  cases scan [] rest <;> rfl

theorem scan_symbol {c : Char} (symbol : isSymbol c) (word : isWord c = false)
    (space : isSpace c = false) (rest : Text) :
    scan [] (c :: rest) = (scan [] rest).map (.symbol c :: ·) := by
  rw [scan, word, space, if_neg Bool.false_ne_true, if_neg Bool.false_ne_true,
    if_pos symbol]
  rfl

/-- A text that can be scanned has no other characters. -/
theorem scan_chars {text : Text} {word : Text} {tokens : List Token}
    (scanned : scan word text = some tokens) :
    ∀ c ∈ text, isWord c ∨ isSpace c ∨ isSymbol c := by
  induction text generalizing word tokens with
  | nil => exact fun c member => absurd member List.not_mem_nil
  | cons c text ih =>
      rw [scan] at scanned
      refine List.forall_mem_cons.mpr ?_
      split at scanned
      · exact ⟨.inl ‹_›, ih scanned⟩
      · split at scanned
        · obtain ⟨_, later, _⟩ := Option.map_eq_some_iff.mp scanned
          exact ⟨.inr (.inl ‹_›), ih later⟩
        · split at scanned
          · obtain ⟨_, later, _⟩ := Option.map_eq_some_iff.mp scanned
            exact ⟨.inr (.inr ‹_›), ih later⟩
          · cases scanned

/-! ## Reading what was written -/

section Read

variable {macros : List Text}

/-- The tokens of a row. -/
def rowTokens (row : Int × Text) (digits : Text) : List Token :=
  [.word "extern".toList, .word "const".toList, .word "ui16".toList, .word row.2,
    .symbol '=', .word digits, .symbol ';']

theorem isWord_of_isDigit {c : Char} (digit : c.isDigit) : isWord c := by
  simp [isWord, Char.isAlphanum, digit]

theorem number_toDigits (n : Nat) : number (Nat.toDigits 10 n) = some n := by
  have read := @readNat_append n [] fun c none => nomatch none
  rw [List.append_nil] at read
  rw [number, read]

/-- A row in the order in which it is scanned. -/
theorem declaration_append {row : Int × Text} {n : Nat} (value : row.1 = n) (rest : Text) :
    declaration row ++ rest = '\t' :: ("extern".toList ++ ' ' :: ("const".toList ++ ' ' ::
      ("ui16".toList ++ ' ' :: (row.2 ++ ' ' :: '=' :: ' ' ::
        (Nat.toDigits 10 n ++ ';' :: '\n' :: rest))))) := by
  unfold declaration
  rw [value]
  simp [str]

theorem isWord_keyword :
    ∀ word ∈ ["extern".toList, "const".toList, "ui16".toList], ∀ c ∈ word, isWord c := by
  have all : ∀ word ∈ ["extern".toList, "const".toList, "ui16".toList], word.all isWord := by
    decide +kernel
  exact fun word member => List.all_eq_true.mp (all word member)

/-- The line of a row whose name is an identifier. -/
theorem scan_declaration {row : Int × Text} {n : Nat} (value : row.1 = n)
    (identifier : IsIdentifier macros row.2) (rest : Text) :
    scan [] (declaration row ++ rest) =
      (scan [] rest).map (rowTokens row (Nat.toDigits 10 n) ++ ·) := by
  have digits : ∀ c ∈ Nat.toDigits 10 n, isWord c := fun c member =>
    isWord_of_isDigit (Nat.isDigit_of_mem_toDigits (by decide) (by decide) member)
  rw [declaration_append value, scan_space (by decide) (by decide),
    scan_word (isWord_keyword _ (by simp)) (by simp),
    scan_word (isWord_keyword _ (by simp)) (by simp),
    scan_word (isWord_keyword _ (by simp)) (by simp),
    scan_word identifier.words identifier.nonempty, scan_symbol (by decide) (by decide)
      (by decide), scan_space (by decide) (by decide), scan_last digits Nat.toDigits_ne_nil,
    scan_space (by decide) (by decide)]
  cases scan [] rest <;> rfl

/-- The constants of rows whose names are identifiers, and whose ids fit their type. -/
theorem readCpp_writeCpp {rows : List (Int × Text)}
    (identifiers : ∀ row ∈ rows, IsIdentifier macros row.2)
    (fit : ∀ row ∈ rows, 0 ≤ row.1 ∧ row.1 < 2 ^ 16) :
    readCpp macros (writeCpp rows) = some rows := by
  have every : ∃ tokens, scan [] (rows.flatMap declaration ++ "\x7d\n".toList) =
      some tokens ∧ declarations macros tokens = some rows := by
    induction rows with
    | nil => exact ⟨[.symbol '}'], by decide, rfl⟩
    | cons row rows ih =>
        obtain ⟨identifier, others⟩ := List.forall_mem_cons.mp identifiers
        obtain ⟨inside, later⟩ := List.forall_mem_cons.mp fit
        obtain ⟨tokens, scanned, declared⟩ := ih others later
        obtain ⟨n, value⟩ := Int.eq_ofNat_of_zero_le inside.1
        refine ⟨rowTokens row (Nat.toDigits 10 n) ++ tokens, ?_, ?_⟩
        · rw [List.flatMap_cons, List.append_assoc, scan_declaration value identifier,
            scanned]
          rfl
        · have small : (n : Int) % 2 ^ 16 = row.1 := by omega
          simp only [rowTokens, List.cons_append, List.nil_append]
          rw [declarations, if_pos ⟨rfl, rfl, rfl, identifier⟩, number_toDigits, declared]
          simp only [bind, Option.bind, pure, small]
  obtain ⟨tokens, scanned, declared⟩ := every
  rw [readCpp, writeCpp, List.take_left, if_pos rfl, List.drop_left, scanned]
  exact declared

/-- Only identifiers are declared. -/
theorem identifier_of_declarations {tokens : List Token} {rows : List (Int × Text)}
    (declared : declarations macros tokens = some rows) :
    ∀ row ∈ rows, IsIdentifier macros row.2 := by
  fun_induction declarations macros tokens generalizing rows with
  | case1 =>
      cases declared
      exact fun row member => absurd member List.not_mem_nil
  | case2 first second third name digits tokens here ih =>
      obtain ⟨n, _, declared⟩ := Option.bind_eq_some_iff.mp declared
      obtain ⟨others, later, declared⟩ := Option.bind_eq_some_iff.mp declared
      cases declared
      exact List.forall_mem_cons.mpr ⟨here.2.2.2, ih later⟩
  | case4 first second third name digits tokens here ih =>
      obtain ⟨n, _, declared⟩ := Option.bind_eq_some_iff.mp declared
      obtain ⟨others, later, declared⟩ := Option.bind_eq_some_iff.mp declared
      cases declared
      exact List.forall_mem_cons.mpr ⟨here.2.2.2, ih later⟩
  | case3 => cases declared
  | case5 => cases declared
  | case6 => cases declared

theorem mem_declaration {row : Int × Text} {c : Char} (part : c ∈ row.2) :
    c ∈ declaration row := by
  unfold declaration
  exact List.mem_append_left _ (List.mem_append_left _ (List.mem_append_left _
    (List.mem_append_right _ part)))

theorem identifier_of_readCpp {text : Text} {rows : List (Int × Text)}
    (read : readCpp macros text = some rows) :
    ∀ row ∈ rows, IsIdentifier macros row.2 := by
  rw [readCpp] at read
  split at read
  · obtain ⟨tokens, _, declared⟩ := Option.bind_eq_some_iff.mp read
    exact identifier_of_declarations declared
  · cases read

/-- What the compiler accepts has no name with a quote or a backslash. -/
theorem quoteless_of_readCpp {rows written : List (Int × Text)}
    (read : readCpp macros (writeCpp rows) = some written) :
    ∀ row ∈ rows, Quoteless row.2 := by
  rw [readCpp, writeCpp, List.take_left, if_pos rfl, List.drop_left] at read
  obtain ⟨tokens, scanned, _⟩ := Option.bind_eq_some_iff.mp read
  intro row member
  have inside : ∀ c ∈ row.2, isWord c ∨ isSpace c ∨ isSymbol c := fun c part =>
    scan_chars scanned c (List.mem_append_left _ (List.mem_flatMap.mpr
      ⟨row, member, mem_declaration part⟩))
  exact ⟨fun quote => absurd (inside _ quote) (by decide),
    fun escape => absurd (inside _ escape) (by decide)⟩

theorem le_toNat_of_isWord {c : Char} (word : isWord c) : 32 ≤ c.toNat := by
  by_contra control
  have none : ∀ n < 32, isWord (Char.ofNat n) = false := by decide
  have mine := none c.toNat (Nat.not_le.mp control)
  rw [Char.ofNat_toNat, word] at mine
  cases mine

/-- An identifier has nothing to escape. -/
theorem IsIdentifier.plain {name : Text} (identifier : IsIdentifier macros name) :
    Plain name := by
  intro c member
  have word := identifier.words c member
  refine ⟨le_toNat_of_isWord word, ?_, ?_⟩
  · rintro rfl
    exact absurd word (by decide)
  · rintro rfl
    exact absurd word (by decide)

end Read

/-! ## The table of both files -/

/-- The names that the table can have: those of `cmd_fix.json`, those of messages, and
those that `cmd.json` remembers under ids of their own. -/
def Named (cmdFix cmd : Dict Text Int) (filelist : List (List Item)) (name : Text) : Prop :=
  name ∈ cmdFix ∨ name ∈ messages filelist ∨
    ∃ id, (∀ other, cmdFix.lookup other ≠ some id) ∧ remembered cmdFix cmd id = some name

section Emit

variable {macros : List Text} {cmdFix cmd : Dict Text Int} {filelist : List (List Item)}

theorem emit_eq {output : Output} (wrote : emit cmdFix cmd filelist = .ok output) :
    ∃ rows, table cmdFix cmd filelist = .ok rows ∧ (writeCmd rows).2 = true ∧
      output = { cmdJson := (writeCmd rows).1, cmdCpp := writeCpp rows } := by
  rw [emit] at wrote
  cases built : table cmdFix cmd filelist with
  | error stop => simp [built, bind, Except.bind] at wrote
  | ok rows =>
      simp only [built, bind, Except.bind] at wrote
      cases written : writeCmd rows with
      | mk cmdJson through =>
          rw [written] at wrote
          cases through with
          | false => cases wrote
          | true =>
              cases wrote
              exact ⟨rows, rfl, by rw [written], by rw [written]⟩

theorem mem_of_remembered {id : Int} {name : Text}
    (remembers : remembered cmdFix cmd id = some name) : name ∈ cmd := by
  rw [remembered] at remembers
  split at remembers
  · obtain ⟨entry, found, rfl⟩ := Option.map_eq_some_iff.mp remembers
    exact mem_of_lookup (AList.mem_lookup_iff.mpr (List.mem_of_find?_eq_some found))
  · cases remembers

/-- The rows are among these names, and all of these names are in the rows. -/
theorem named_iff {last : Cmds} (builds : (load cmdFix cmd).Builds (messages filelist) last)
    (distinct : Distinct cmdFix) (name : Text) :
    Named cmdFix cmd filelist name ↔ ∃ id, last.idMap.lookup id = some name := by
  obtain ⟨fixed, found⟩ := builds.found distinct
  have fresh : ∀ id, (loadFix cmdFix).lookup id = none ↔
      ∀ other, cmdFix.lookup other ≠ some id := by
    intro id
    refine ⟨fun none other given => ?_, fun none => ?_⟩
    · rw [loadFix_complete distinct given] at none
      cases none
    · cases taken : (loadFix cmdFix).lookup id with
      | none => rfl
      | some other => exact absurd (loadFix_sound taken) (none other)
  constructor
  · rintro (given | listed | ⟨id, none, remembers⟩)
    · obtain ⟨id, given⟩ := Option.isSome_iff_exists.mp (AList.lookup_isSome.mpr given)
      exact ⟨id, fixed name id given⟩
    · exact found name listed
    · refine ⟨id, builds.extended.kept id name ?_⟩
      rw [load_lookup, (fresh id).mpr none, remembers]
      rfl
  · rintro ⟨id, here⟩
    rcases builds.coherent.named id name here with given | ⟨_, listed⟩
    · rw [builds.extended.fixed] at given
      exact .inl (mem_of_lookup given)
    · rcases builds.source name (mem_of_lookup listed) with known | listed
      · obtain ⟨before, known⟩ :=
          Option.isSome_iff_exists.mp (AList.lookup_isSome.mpr known)
        have loaded := (coherent_load cmdFix cmd).entered name before known
        rw [load_lookup] at loaded
        cases taken : (loadFix cmdFix).lookup before with
        | none =>
            rw [taken, Option.none_or] at loaded
            exact .inr (.inr ⟨before, (fresh before).mp taken, loaded⟩)
        | some other =>
            rw [taken, Option.some_or] at loaded
            cases loaded
            exact .inl (mem_of_lookup (loadFix_sound taken))
      · exact .inr (.inl listed)

/-- The two files have one good table exactly if the ids of `cmd_fix.json` are distinct
and in range, and the names are identifiers: what is wrong with ids is logged, and names
are not looked at. -/
theorem good_iff {output : Output} (wrote : emit cmdFix cmd filelist = .ok output) :
    (∃ table, output.Holds macros table ∧ Good cmdFix (messages filelist) table) ↔
      Sound cmdFix ∧
        ∀ name, Named cmdFix cmd filelist name → IsIdentifier macros name := by
  obtain ⟨written, built, through, rfl⟩ := emit_eq wrote
  obtain ⟨last, rows, builds⟩ := table_builds built
  have apart : written.Pairwise fun first second => first.1 ≠ second.1 := by
    rw [rows]
    exact pairwise_rows last.idMap
  have read := fun plain => @loads_writeCmd written plain apart
  constructor
  · rintro ⟨table, holds, good⟩
    have plain := plain_of_loads through (quoteless_of_readCpp holds.cpp)
      (by rw [holds.json]; exact Option.some_ne_none _)
    have same : table = written := by
      have both := holds.json.symm.trans (read plain)
      rw [if_pos through, Option.some.injEq] at both
      exact List.map_injective_iff.mpr Prod.swap_injective both
    subst same
    have sound := (good_rows_iff built).mp good
    refine ⟨sound, fun name named => ?_⟩
    obtain ⟨id, found⟩ := (named_iff builds sound.1 name).mp named
    refine identifier_of_readCpp holds.cpp (id, name) ?_
    rw [rows]
    exact mem_rows.mpr found
  · rintro ⟨sound, identifiers⟩
    have good := (good_rows_iff built).mpr sound
    have all : ∀ row ∈ written, IsIdentifier macros row.2 := by
      intro row member
      rw [rows, mem_rows] at member
      exact identifiers row.2 ((named_iff builds sound.1 row.2).mpr ⟨row.1, member⟩)
    refine ⟨written, ⟨?_, readCpp_writeCpp all fun row member => ?_⟩, good⟩
    · rw [read fun row member => (all row member).plain, if_pos through]
    · have inside := good.inRange row member
      omega

/-- A message that is not found in `cmd.json`, or found twice. -/
theorem not_good_of_loads {output : Output} {members : List (Text × Int)}
    (read : loads output.cmdJson = some members) {names : List Text} {name : Text}
    (member : name ∈ names) (count : (members.map Prod.fst).count name ≠ 1) :
    ∀ table, output.Holds macros table → ¬Good cmdFix names table := by
  intro table holds good
  have same := holds.json.symm.trans read
  rw [Option.some.injEq] at same
  rw [← same, List.map_map] at count
  exact count (good.complete name member)

end Emit

/-- A fixed id, a new one and a remembered one. -/
theorem good_three :
    ∃ output, emit ((∅ : Dict Text Int).insert "LoginID".toList 1001)
        ((∅ : Dict Text Int).insert "OldID".toList 102)
        [[.plain "Login".toList, .plain "Move".toList]] = .ok output ∧
      ∃ table, output.Holds [] table ∧
        Good ((∅ : Dict Text Int).insert "LoginID".toList 1001)
          (messages [[.plain "Login".toList, .plain "Move".toList]]) table := by
  have wrote : emit ((∅ : Dict Text Int).insert "LoginID".toList 1001)
      ((∅ : Dict Text Int).insert "OldID".toList 102)
      [[.plain "Login".toList, .plain "Move".toList]] = .ok
        ⟨"\x7b\n\t\"MoveID\" : 101,\n\t\"OldID\" : 102,\n\t\"LoginID\" : 1001\n\x7d\n".toList,
          writeCpp [(101, "MoveID".toList), (102, "OldID".toList),
            (1001, "LoginID".toList)]⟩ := by decide +kernel
  refine ⟨_, wrote, (good_iff wrote).mpr ⟨⟨?_, ?_⟩, ?_⟩⟩
  · intro name other id first second
    rw [(lookup_single first).1, (lookup_single second).1]
  · intro name id given
    rw [(lookup_single given).2]
    decide
  · rintro name (fixed | listed | ⟨id, _, remembers⟩)
    · rw [List.mem_singleton.mp fixed]
      decide +kernel
    · have both : ∀ name ∈ messages [[.plain "Login".toList, .plain "Move".toList]],
          IsIdentifier [] name := by decide +kernel
      exact both name listed
    · rw [List.mem_singleton.mp (mem_of_remembered remembers)]
      decide +kernel

/-- Two names of `cmd_fix.json` with one id: the script says so in its log, and the
table has one of them. A name with an escape is another one when `cmd.json` is read, and
one with a quote is the end of one entry and the start of the next. -/
theorem good_fails :
    (∃ output, emit (((∅ : Dict Text Int).insert "MoveID".toList 7).insert
        "LoginID".toList 7) ∅ [[.plain "Login".toList, .plain "Move".toList]] = .ok output ∧
      ∀ table, output.Holds [] table →
        ¬Good (((∅ : Dict Text Int).insert "MoveID".toList 7).insert "LoginID".toList 7)
          (messages [[.plain "Login".toList, .plain "Move".toList]]) table) ∧
      ∀ typeName ∈ ["P\\u0041".toList, "X\" : 70000, \"Y".toList],
        ∃ output, emit ∅ ∅ [[.plain typeName]] = .ok output ∧
          ∀ table, output.Holds [] table →
            ¬Good ∅ (messages [[.plain typeName]]) table := by
  refine ⟨⟨⟨(writeCmd [(7, "MoveID".toList)]).1, writeCpp [(7, "MoveID".toList)]⟩,
    by decide +kernel, not_good_of_loads (show loads _ = some [("MoveID".toList, 7)] by
      decide +kernel) (show "LoginID".toList ∈ _ by decide +kernel) (by decide +kernel)⟩,
    List.forall_mem_cons.mpr ⟨?_, List.forall_mem_singleton.mpr ?_⟩⟩
  · exact ⟨⟨(writeCmd [(101, "P\\u0041ID".toList)]).1,
      writeCpp [(101, "P\\u0041ID".toList)]⟩, by decide +kernel, not_good_of_loads
        (show loads _ = some [("PAID".toList, 101)] by decide +kernel)
        (show "P\\u0041ID".toList ∈ _ by decide +kernel) (by decide +kernel)⟩
  · exact ⟨⟨(writeCmd [(101, "X\" : 70000, \"YID".toList)]).1,
      writeCpp [(101, "X\" : 70000, \"YID".toList)]⟩, by decide +kernel, not_good_of_loads
        (show loads _ = some [("X".toList, 70000), ("YID".toList, 101)] by decide +kernel)
        (show "X\" : 70000, \"YID".toList ∈ _ by decide +kernel) (by decide +kernel)⟩

end Nicenet.ProtoJson2Hpp
