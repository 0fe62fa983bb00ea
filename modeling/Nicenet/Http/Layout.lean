import Mathlib.Data.List.DropRight
import Nicenet.Library.Split
import Nicenet.Http.Chunks

/-!
# The layout of a request

A request is a line, header lines and the body that they announce: a sequence of chunks
if the last transfer coding is `chunked`, or as many bytes as each `Content-Length` says.
Unlike a `WrittenRequest`, a request of this layout may have folded header lines, several
headers about its body, and a body whatever its method is.
-/

namespace Nicenet.Http

open Library

/-- A request line; a blank in the target can only be the first character. -/
structure RequestLine where
  method : Str
  uri : Str
  major : Str
  minor : Str
  method_ne : method ≠ []
  method_token : ∀ c ∈ method, isToken c
  uri_ne : uri ≠ []
  uri_plain : ∀ c ∈ uri, isControl c = false
  uri_blank : ∀ c ∈ uri.tail, c ≠ 32
  major_ne : major ≠ []
  major_digit : ∀ c ∈ major, isDigit c
  minor_ne : minor ≠ []
  minor_digit : ∀ c ∈ minor, isDigit c

def RequestLine.text (line : RequestLine) : Str :=
  line.method ++ [32] ++ line.uri ++ [32, 72, 84, 84, 80, 47] ++ line.major ++ [46] ++
    line.minor

/-- A header line: a name and a value, or more of the value before. -/
inductive HeaderLine where
  | field (item : HeaderItem) (wf : item.WellFormed)
  | folded (space text : Str) (space_ne : space ≠ [])
      (space_blank : ∀ c ∈ space, c = 32 ∨ c = 9)
      (text_plain : ∀ c ∈ text, isControl c = false)
      (text_first : ∀ c ∈ text.head?, c ≠ 32)

namespace HeaderLine

def text : HeaderLine → Str
  | .field item _ => item.name ++ [58, 32] ++ item.value
  | .folded space text _ _ _ _ => space ++ text

def isField : HeaderLine → Bool
  | .field _ _ => true
  | .folded _ _ _ _ _ _ => false

end HeaderLine

/-- A line with its end. -/
def ended (text : Str) : Str := text ++ crlf

/-! ## What the header lines announce -/

/-- The headers with one more line; `glue` stands between a value and more of it. -/
def gather (glue : Str) (headers : List HeaderItem) : HeaderLine → List HeaderItem
  | .field item _ => headers ++ [item]
  | .folded _ text _ _ _ _ =>
      match headers.getLast? with
      | none => headers
      | some item =>
          headers.dropLast ++ [{ item with value := item.value ++ glue ++ text }]

/-- The fields of a head: a line end in a value stands for a blank. -/
def fields (lines : List HeaderLine) : List HeaderItem := lines.foldl (gather [32]) []

def isBlank (c : UInt8) : Bool := c = 32 || c = 9

/-- A value without the blanks around it. -/
def trim (text : Str) : Str := (text.dropWhile isBlank).rdropWhile isBlank

def HeaderItem.isTransferEncoding (item : HeaderItem) : Bool :=
  isWord item.name transferEncoding

/-- The last of the transfer codings, between which commas stand. -/
def finalCoding (headers : List HeaderItem) : Str :=
  let codings := (headers.filter HeaderItem.isTransferEncoding).flatMap fun item =>
    item.value ++ [44]
  trim ((codings.rdropWhile fun c => isBlank c || c = 44).rtakeWhile (· ≠ 44))

/-- The lengths that headers announce. -/
def lengths (headers : List HeaderItem) : List Str :=
  (headers.filter HeaderItem.isContentLength).map fun item => trim item.value

/-- Chunks with data, a chunk without, trailers and an empty line. -/
def ChunkSequence (content body : Str) : Prop :=
  ∃ (chunks : List Chunk) (last : Chunk) (trailers : List Trailer),
    (∀ chunk ∈ chunks, chunk.data ≠ []) ∧ last.data = [] ∧
      content = chunks.flatMap Chunk.data ∧
      body = chunks.flatMap Chunk.bytes ++ last.line ++
        trailers.flatMap Trailer.bytes ++ crlf

/-- The body is the one announced, and the content what is in it. Transfer codings count
more than lengths; the end of a body that is coded in another way is not announced. -/
def Announce (headers : List HeaderItem) (content body : Str) : Prop :=
  if headers.any HeaderItem.isTransferEncoding then
    SameWord (finalCoding headers) strChunked ∧ ChunkSequence content body
  else
    body = content ∧ (lengths headers = [] → content = []) ∧
      ∀ length ∈ lengths headers, IsNumeral 10 length ∧ numeral 10 length = content.length

/-! ## The request -/

/-- The bytes of a request: each of its lines, the empty one included, ends with CR LF,
and behind them comes the body that they announce. -/
def WellFormed (consumed content : Str) : Prop :=
  ∃ (start : RequestLine) (lines : List HeaderLine) (body : Str),
    (∀ line ∈ lines.head?, line.isField) ∧
      consumed = ended start.text ++ lines.flatMap (fun line => ended line.text) ++
        crlf ++ body ∧
      Announce (fields lines) content body

/-! ## Lines can be told apart -/

theorem isToken_spec : ∀ c : UInt8, isToken c →
    c ≠ 32 ∧ c ≠ 58 ∧ c ≠ 13 ∧ isBlank c = false := by
  decide +kernel

theorem not_control_spec : ∀ c : UInt8, isControl c = false → c ≠ 13 ∧ c ≠ 9 := by
  decide +kernel

theorem isDigit_spec : ∀ c : UInt8, isDigit c → c ≠ 13 := by
  decide +kernel

/-- What is in front of the first separator can be told from what is behind it. -/
theorem append_inj_of_not_mem {separator : UInt8} {front other rest more : Str}
    (first : separator ∉ front) (second : separator ∉ other)
    (same : front ++ separator :: rest = other ++ separator :: more) :
    front = other ∧ rest = more := by
  have fronts := congrArg (Split.before separator) same
  have backs := congrArg (Split.behind separator) same
  rw [Split.before_append first, Split.before_append second] at fronts
  rw [Split.behind_append first, Split.behind_append second] at backs
  exact ⟨fronts, backs⟩

/-- The first line of a text. -/
theorem ended_inj {front other rest more : Str} (first : 13 ∉ front) (second : 13 ∉ other)
    (same : ended front ++ rest = ended other ++ more) : front = other ∧ rest = more := by
  rw [ended, ended, crlf, List.append_assoc, List.append_assoc] at same
  obtain ⟨fronts, backs⟩ := append_inj_of_not_mem first second same
  exact ⟨fronts, List.append_cancel_left backs⟩

theorem RequestLine.not_mem_text (line : RequestLine) : 13 ∉ line.text := by
  have every : ∀ c ∈ line.text, c ≠ 13 := by
    intro c member
    simp only [text, List.append_assoc, List.mem_append] at member
    rcases member with name | blank | target | version | digit | dot | digit
    · exact (isToken_spec c (line.method_token c name)).2.2.1
    · rw [List.mem_singleton.mp blank]
      decide
    · exact (not_control_spec c (line.uri_plain c target)).1
    · have http : ∀ c ∈ ([32, 72, 84, 84, 80, 47] : Str), c ≠ 13 := by decide +kernel
      exact http c version
    · exact isDigit_spec c (line.major_digit c digit)
    · rw [List.mem_singleton.mp dot]
      decide
    · exact isDigit_spec c (line.minor_digit c digit)
  exact fun member => every 13 member rfl

/-- The method of a request line is in front of its first blank. -/
theorem RequestLine.method_inj {first second : RequestLine}
    (same : first.text = second.text) : first.method = second.method := by
  have blank : ∀ line : RequestLine, 32 ∉ line.method := fun line member =>
    (isToken_spec 32 (line.method_token 32 member)).1 rfl
  simp only [text, List.append_assoc, List.singleton_append] at same
  exact (append_inj_of_not_mem (blank first) (blank second) same).1

namespace HeaderLine

theorem text_ne (line : HeaderLine) : line.text ≠ [] := by
  cases line with
  | field item wf => simp [text]
  | folded space rest space_ne _ _ _ => simp [text, space_ne]

theorem not_mem_text (line : HeaderLine) : 13 ∉ line.text := by
  have every : ∀ c ∈ line.text, c ≠ 13 := by
    intro c member
    cases line with
    | field item wf =>
        simp only [text, List.append_assoc, List.mem_append] at member
        rcases member with name | colon | value
        · exact (isToken_spec c (wf.name_token c name)).2.2.1
        · rcases List.mem_pair.mp colon with rfl | rfl <;> decide
        · exact (not_control_spec c (wf.value_plain c value)).1
    | folded space rest space_ne space_blank text_plain _ =>
        simp only [text, List.mem_append] at member
        rcases member with blank | more
        · rcases space_blank c blank with rfl | rfl <;> decide
        · exact (not_control_spec c (text_plain c more)).1
  exact fun member => every 13 member rfl

/-- A field starts with a letter of its name, a folded line with a blank. -/
theorem head_text (line : HeaderLine) :
    ∃ first rest, line.text = first :: rest ∧ isBlank first = !line.isField := by
  cases line with
  | field item wf =>
      obtain ⟨first, rest, named⟩ := List.exists_cons_of_ne_nil wf.name_ne
      have token : isToken first := wf.name_token first (by rw [named]; exact List.mem_cons_self)
      exact ⟨first, rest ++ [58, 32] ++ item.value, by simp [text, named],
        (isToken_spec first token).2.2.2⟩
  | folded space more space_ne space_blank _ _ =>
      obtain ⟨first, rest, blanks⟩ := List.exists_cons_of_ne_nil space_ne
      refine ⟨first, rest ++ more, by simp [text, blanks], ?_⟩
      rcases space_blank first (by rw [blanks]; exact List.mem_cons_self) with rfl | rfl <;> rfl

theorem text_inj {first second : HeaderLine} (same : first.text = second.text) :
    first = second := by
  have kinds : first.isField = second.isField := by
    obtain ⟨c, rest, here, kind⟩ := first.head_text
    obtain ⟨other, more, there, otherKind⟩ := second.head_text
    rw [here, there] at same
    rw [(List.cons.inj same).1, otherKind] at kind
    exact Bool.not_inj kind.symm
  cases first with
  | field item wf =>
      cases second with
      | folded => cases kinds
      | field other otherWf =>
          have colon : ∀ {item : HeaderItem}, item.WellFormed → 58 ∉ item.name :=
            fun wf member => (isToken_spec 58 (wf.name_token 58 member)).2.1 rfl
          simp only [text, List.append_assoc, List.cons_append, List.nil_append] at same
          obtain ⟨names, values⟩ := append_inj_of_not_mem (colon wf) (colon otherWf) same
          obtain ⟨name, value⟩ := item
          obtain ⟨otherName, otherValue⟩ := other
          simp only at names
          subst names
          cases values
          rfl
  | folded space more space_ne space_blank text_plain text_first =>
      cases second with
      | field => cases kinds
      | folded other otherMore other_ne other_blank otherText_plain otherText_first =>
          have apart : ∀ {space more : Str}, (∀ c ∈ space, c = 32 ∨ c = 9) →
              (∀ c ∈ more, isControl c = false) → (∀ c ∈ more.head?, c ≠ 32) →
              (space ++ more).takeWhile isBlank = space ∧
                (space ++ more).dropWhile isBlank = more := by
            intro space more blanks plain start
            have all : ∀ c ∈ space, isBlank c := fun c member => by
              rcases blanks c member with rfl | rfl <;> rfl
            rw [List.takeWhile_append_of_pos all, List.dropWhile_append_of_pos all]
            cases more with
            | nil => simp
            | cons c more =>
                have stop : isBlank c = false := by
                  have tab := (not_control_spec c (plain c List.mem_cons_self)).2
                  have blank := start c rfl
                  simp [isBlank, tab, blank]
                simp [stop]
          simp only [text] at same
          have here := apart space_blank text_plain text_first
          have there := apart other_blank otherText_plain otherText_first
          rw [same] at here
          obtain rfl := here.1.symm.trans there.1
          obtain rfl := here.2.symm.trans there.2
          rfl

end HeaderLine

/-- The header lines of a text, up to the CR of the empty line. -/
theorem lines_inj {first second : List HeaderLine} {rest more : Str}
    (same : first.flatMap (fun line => ended line.text) ++ 13 :: rest =
      second.flatMap (fun line => ended line.text) ++ 13 :: more) :
    first = second ∧ rest = more := by
  -- The CR of the empty line is where another line has its first character.
  have apart : ∀ (line : HeaderLine) (lines : List HeaderLine) (rest more : Str),
      13 :: rest ≠ (line :: lines).flatMap (fun line => ended line.text) ++ more := by
    intro line lines rest more same
    obtain ⟨c, text, written⟩ := List.exists_cons_of_ne_nil line.text_ne
    rw [List.flatMap_cons, ended, written] at same
    refine line.not_mem_text ?_
    rw [written, (List.cons.inj same).1]
    exact List.mem_cons_self
  induction first generalizing second with
  | nil =>
      cases second with
      | nil => exact ⟨rfl, (List.cons.inj same).2⟩
      | cons line lines => exact absurd same (apart line lines rest _)
  | cons line lines ih =>
      cases second with
      | nil => exact absurd same.symm (apart line lines more _)
      | cons other others =>
          rw [List.flatMap_cons, List.flatMap_cons, List.append_assoc, List.append_assoc]
            at same
          obtain ⟨here, later⟩ := ended_inj line.not_mem_text other.not_mem_text same
          obtain ⟨rfl, rests⟩ := ih later
          exact ⟨by rw [HeaderLine.text_inj here], rests⟩

/-- The lines of a head, and where it ends. -/
theorem head_inj {start other : RequestLine} {first second : List HeaderLine}
    {rest more : Str}
    (same : ended start.text ++ first.flatMap (fun line => ended line.text) ++ 13 :: rest =
      ended other.text ++ second.flatMap (fun line => ended line.text) ++ 13 :: more) :
    start.method = other.method ∧ first = second ∧ rest = more := by
  rw [List.append_assoc, List.append_assoc] at same
  obtain ⟨starts, lines⟩ := ended_inj start.not_mem_text other.not_mem_text same
  exact ⟨RequestLine.method_inj starts, lines_inj lines⟩

end Nicenet.Http
