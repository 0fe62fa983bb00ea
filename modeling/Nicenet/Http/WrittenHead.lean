import Nicenet.Http.Completes
import Nicenet.Http.ResponseHead
import Nicenet.Http.Shared

/-!
# Written heads

The lines in front of a body, as they are sent: `RequestHead` is what comes behind the
method of a request, `ResponseHead` the whole head of a response. Which body their
headers announce is left open.
-/

namespace Nicenet.Http

open Library

/-- A length that a header announces can be reserved. -/
def HeaderItem.Reserves (item : HeaderItem) : Prop :=
  item.isContentLength → toSizeT (atoi item.value).toInt ≤ maxSize

instance : DecidablePred HeaderItem.Reserves :=
  fun _ => inferInstanceAs (Decidable (_ → _))

/-- The head of a request without its method. -/
structure RequestHead where
  uri : Str
  major : Str
  minor : Str
  headers : List HeaderItem
  uri_ne : uri ≠ []
  uri_plain : ∀ c ∈ uri, c ≠ 32 ∧ isControl c = false
  major_numeral : IsNumeral 10 major
  minor_numeral : IsNumeral 10 minor
  headers_wf : ∀ item ∈ headers, item.WellFormed

namespace RequestHead

def bytes (head : RequestHead) : Str :=
  [32] ++ head.uri ++ [32, 72, 84, 84, 80, 47] ++ head.major ++ [46] ++ head.minor ++
    crlf ++ head.headers.flatMap HeaderItem.bytes ++ crlf

/-- The request as the parser has it in front of the last line feed of its head. -/
def parsed (head : RequestHead) (method : Str) : HttpRequest :=
  ⟨method, head.uri, Int32.ofNat (numeral 10 head.major),
    Int32.ofNat (numeral 10 head.minor), head.headers, [], false, 0, [], []⟩

/-- A fresh parser takes the head up to its last line feed. -/
theorem consume_head (head : RequestHead) {method : Str} (ne : method ≠ [])
    (token : ∀ c ∈ method, isToken c)
    (fits : HasBody method → ∀ item ∈ head.headers, item.Reserves) (rest : Str) :
    consume ⟨.fresh, .empty⟩ (method ++ head.bytes ++ rest) =
      consume ⟨(head.headers.foldl (announce method) .fresh).at .expectingNewline_3,
        head.parsed method⟩ (10 :: rest) := by
  have line := requestLine_passes ne token head.uri_ne head.uri_plain head.major_numeral
    head.minor_numeral
  have headers := headLines_passes { head.parsed method with headers := [] } .fresh rfl
    fun item member => ⟨head.headers_wf item member, fun body => fits body item member⟩
  have bytes : method ++ head.bytes ++ rest =
      method ++ [32] ++ head.uri ++ [32, 72, 84, 84, 80, 47] ++ head.major ++ [46] ++
        head.minor ++ crlf ++ (head.headers.flatMap HeaderItem.bytes ++ [13]) ++
        (10 :: rest) := by
    simp [RequestHead.bytes, crlf]
  rw [bytes]
  exact (line.append headers) (10 :: rest)

end RequestHead

/-- The head of a response. -/
structure ResponseHead where
  major : Str
  minor : Str
  code : Str
  reason : Str
  headers : List HeaderItem
  major_numeral : IsNumeral 10 major
  minor_numeral : IsNumeral 10 minor
  code_numeral : IsNumeral 10 code
  code_low : 100 ≤ numeral 10 code
  code_high : numeral 10 code ≤ 999
  reason_plain : ∀ c ∈ reason, c ≠ 13 ∧ isChar c
  headers_wf : ∀ item ∈ headers, item.WellFormed

/-- The code that the examples carry. -/
theorem ok_numeral : IsNumeral 10 [50, 48, 48] := by
  decide +kernel

theorem ok_low : 100 ≤ numeral 10 [50, 48, 48] := by
  decide +kernel

theorem ok_high : numeral 10 [50, 48, 48] ≤ 999 := by
  decide +kernel

/-- The phrase that some of them leave out. -/
theorem noReason_plain : ∀ c ∈ ([] : Str), c ≠ 13 ∧ isChar c :=
  List.forall_mem_nil _

namespace ResponseHead

/-- The status line up to the reason phrase. -/
def version (head : ResponseHead) : Str :=
  strHttp ++ head.major ++ [46] ++ head.minor ++ [32] ++ head.code ++ [32]

def bytes (head : ResponseHead) : Str :=
  head.version ++ head.reason ++ crlf ++ head.headers.flatMap HeaderItem.bytes ++ crlf

/-- The parser behind the status line. -/
def lineParsed (head : ResponseHead) : Response.Parsing :=
  ⟨Response.HttpResponseParser.fresh.at .headerLineStart,
    ⟨Int32.ofNat (numeral 10 head.major), Int32.ofNat (numeral 10 head.minor), [], [],
      false, UInt32.ofNat (numeral 10 head.code), head.reason⟩⟩

/-- The request that the response amounts to in front of the last line feed of its
head. -/
def parsed (head : ResponseHead) : HttpRequest :=
  ⟨strPost, [], Int32.ofNat (numeral 10 head.major), Int32.ofNat (numeral 10 head.minor),
    head.headers, [], false, 0, [], []⟩

theorem line_passes (head : ResponseHead) (ne : head.reason ≠ []) :
    Machine.Passes Response.step ⟨.fresh, .empty⟩ (head.version ++ head.reason ++ crlf)
      head.lineParsed := by
  have line := Response.statusLine_passes head.major_numeral head.minor_numeral
    head.code_numeral head.code_low head.code_high ne head.reason_plain
  exact line.append fun _ => rfl

/-- A fresh parser takes the head of a response with a reason phrase as the parser of
requests takes that of a `POST`, up to its last line feed. -/
theorem consume_head (head : ResponseHead) (ne : head.reason ≠ [])
    (fits : ∀ item ∈ head.headers, item.Reserves) (rest : Str) :
    let halt := Response.consume ⟨.fresh, .empty⟩ (head.bytes ++ rest)
    (∃ remainSize, consume
        ⟨(head.headers.foldl (announce strPost) .fresh).at .expectingNewline_3, head.parsed⟩
        (10 :: rest) = ⟨halt.state.asRequest remainSize, halt.result, halt.rest⟩) ∧
      head.lineParsed.SameStatus halt.state := by
  intro halt
  have headers := headLines_passes { head.parsed with headers := [] } .fresh rfl
    fun item member => ⟨head.headers_wf item member, fun _ => fits item member⟩
  have bytes : head.bytes ++ rest = head.version ++ head.reason ++ crlf ++
      (head.headers.flatMap HeaderItem.bytes ++ [13] ++ (10 :: rest)) := by
    simp [ResponseHead.bytes, crlf]
  have run : halt = Response.consume head.lineParsed
      (head.headers.flatMap HeaderItem.bytes ++ [13] ++ (10 :: rest)) := by
    simp only [halt, bytes]
    exact head.line_passes ne _
  rw [run]
  have shared : head.lineParsed.parser.state.isShared := rfl
  obtain ⟨⟨remainSize, same⟩, status⟩ := Response.Parsing.consume_asRequest shared
    (head.headers.flatMap HeaderItem.bytes ++ [13] ++ (10 :: rest))
  exact ⟨⟨remainSize, (headers (10 :: rest)).symm.trans same⟩, status⟩

end ResponseHead

end Nicenet.Http
