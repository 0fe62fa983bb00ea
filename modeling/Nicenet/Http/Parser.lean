import Nicenet.Library.Machine
import Nicenet.Http.Text

/-!
# The HTTP request parser

`consume` reads one character after the other; `step` is the body of its loop,
with one branch for each case of the `switch`. The parser object keeps its state
between two calls of `parse`, while the request it fills is an argument of each.
-/

namespace Nicenet.Http

open Library

/-- The states of the parser, those of responses included. -/
inductive State where
  | requestMethodStart
  | requestMethod
  | requestUriStart
  | requestUri
  | requestHttpVersion_h
  | requestHttpVersion_ht
  | requestHttpVersion_htt
  | requestHttpVersion_http
  | requestHttpVersion_slash
  | requestHttpVersion_majorStart
  | requestHttpVersion_major
  | requestHttpVersion_minorStart
  | requestHttpVersion_minor
  | responseStatusStart
  | responseHttpVersion_ht
  | responseHttpVersion_htt
  | responseHttpVersion_http
  | responseHttpVersion_slash
  | responseHttpVersion_majorStart
  | responseHttpVersion_major
  | responseHttpVersion_minorStart
  | responseHttpVersion_minor
  | responseHttpVersion_spaceAfterVersion
  | responseHttpVersion_statusCodeStart
  | responseHttpVersion_spaceAfterStatusCode
  | responseHttpVersion_statusTextStart
  | responseHttpVersion_newLine
  | headerLineStart
  | headerLws
  | headerName
  | spaceBeforeHeaderValue
  | headerValue
  | expectingNewline_2
  | expectingNewline_3
  | post
  | chunkSize
  | chunkExtensionName
  | chunkExtensionValue
  | chunkSizeNewLine
  | chunkSizeNewLine_2
  | chunkSizeNewLine_3
  | chunkTrailerName
  | chunkTrailerValue
  | chunkDataNewLine_1
  | chunkDataNewLine_2
  | chunkData
  deriving DecidableEq, Repr

structure HeaderItem where
  name : Str
  value : Str
  deriving DecidableEq, Repr

/-- `HttpRequestBase`. The map of parameters is a list with the latest binding of
a key in front. -/
structure HttpRequest where
  method : Str
  uri : Str
  versionMajor : Int32
  versionMinor : Int32
  headers : List HeaderItem
  content : Str
  keepAlive : Bool
  remainSize : Int32
  paramsString : Str
  params : List (Str × Str)
  deriving DecidableEq, Repr

def HttpRequest.empty : HttpRequest := ⟨[], [], 0, 0, [], [], false, 0, [], []⟩

structure HttpRequestParser where
  state : State
  contentSize : UInt64
  chunkSizeStr : Str
  chunkSize : UInt64
  chunked : Bool
  deriving DecidableEq, Repr

def HttpRequestParser.fresh : HttpRequestParser := ⟨.requestMethodStart, 0, [], 0, false⟩

/-- The parser and the request it is filling. -/
structure Parsing where
  parser : HttpRequestParser
  req : HttpRequest
  deriving DecidableEq, Repr

/-- How a call of `consume` ends before its input does: with `ParsingCompleted`,
with `ParsingError`, with `headers.back()` of an empty list, or with a `reserve`
that throws because a vector cannot be so long, or because there is no such block of
memory. -/
inductive Stop where
  | parsingCompleted
  | parsingError
  | emptyBack
  | lengthError
  | badAlloc
  deriving DecidableEq, Repr

abbrev Move := Machine.Move Parsing Stop

namespace Parsing

def goto (s : Parsing) (state : State) : Parsing :=
  { s with parser := { s.parser with state := state } }

def error (s : Parsing) : Move := .stop s .parsingError

/-- `remainSize = int(end - begin)` and `ParsingCompleted`. -/
def completed (s : Parsing) (left : Nat) : Move :=
  .stop { s with req := { s.req with remainSize := Int32.ofNat left } }
    .parsingCompleted

/-- `headers.back()` is changed. -/
def back (s : Parsing) (change : HeaderItem → HeaderItem) (state : State) : Move :=
  match s.req.headers.getLast? with
  | none => .stop s .emptyBack
  | some item =>
      .next ({ s with req := { s.req with
        headers := s.req.headers.dropLast ++ [change item] } }.goto state)

def pushMethod (s : Parsing) (input : UInt8) : Parsing :=
  { s with req := { s.req with method := s.req.method ++ [input] } }

def pushUri (s : Parsing) (input : UInt8) : Parsing :=
  { s with req := { s.req with uri := s.req.uri ++ [input] } }

def pushContent (s : Parsing) (input : UInt8) : Parsing :=
  { s with req := { s.req with content := s.req.content ++ [input] } }

def pushChunkSize (s : Parsing) (input : UInt8) : Parsing :=
  { s with parser := { s.parser with
    chunkSizeStr := s.parser.chunkSizeStr ++ [input] } }

def setMajor (s : Parsing) (versionMajor : Int32) : Parsing :=
  { s with req := { s.req with versionMajor := versionMajor } }

def setMinor (s : Parsing) (versionMinor : Int32) : Parsing :=
  { s with req := { s.req with versionMinor := versionMinor } }

end Parsing

def pushName (input : UInt8) (item : HeaderItem) : HeaderItem :=
  { item with name := item.name ++ [input] }

def pushValue (input : UInt8) (item : HeaderItem) : HeaderItem :=
  { item with value := item.value ++ [input] }

/-- The characters of methods and of header names. -/
def isToken (input : UInt8) : Bool :=
  isChar input && !isControl input && !isSpecial input

/-- `input - '0'` added to a number, as an `int`. -/
def digit (input : UInt8) : Int32 := Int32.ofNat input.toNat - 48

def strPost : Str := [80, 79, 83, 84]
def strPut : Str := [80, 85, 84]
def contentLength : Str := [67, 111, 110, 116, 101, 110, 116, 45, 76, 101, 110, 103, 116, 104]
def transferEncoding : Str :=
  [84, 114, 97, 110, 115, 102, 101, 114, 45, 69, 110, 99, 111, 100, 105, 110, 103]
def strChunked : Str := [99, 104, 117, 110, 107, 101, 100]
def connection : Str := [67, 111, 110, 110, 101, 99, 116, 105, 111, 110]
def strKeepAlive : Str := [75, 101, 101, 112, 45, 65, 108, 105, 118, 101]

/-- `StrCaseCmp(text.c_str(), literal) == 0`. -/
def isWord (text literal : Str) : Bool := strCaseCmp (cStr text) literal = 0

/-- The end of a header line: the headers that announce a body are evaluated. -/
def headerEnd (s : Parsing) : Move :=
  if s.req.method = strPost ∨ s.req.method = strPut then
    match s.req.headers.getLast? with
    | none => .stop s .emptyBack
    | some h =>
        if isWord h.name contentLength then
          let contentSize := toSizeT (atoi h.value).toInt
          let s := { s with parser := { s.parser with contentSize := contentSize } }
          if contentSize > maxSize then .stop s .lengthError
          else .next (s.goto .expectingNewline_2)
        else if isWord h.name transferEncoding && isWord h.value strChunked then
          .next ({ s with parser := { s.parser with chunked := true } }.goto
            .expectingNewline_2)
        else .next (s.goto .expectingNewline_2)
  else .next (s.goto .expectingNewline_2)

/-- Whether the connection stays open behind the request. -/
def keepAlive (req : HttpRequest) : Bool :=
  match req.headers.find? fun item => isWord item.name connection with
  | some item => isWord item.value strKeepAlive
  | none =>
      if req.versionMajor > 1 ∨ (req.versionMajor = 1 ∧ req.versionMinor = 1) then
        true
      else req.keepAlive

/-- The end of the headers. -/
def headersEnd (s : Parsing) (input : UInt8) (left : Nat) : Move :=
  let s := { s with req := { s.req with keepAlive := keepAlive s.req } }
  if s.parser.chunked then .next (s.goto .chunkSize)
  else if s.parser.contentSize = 0 then
    if input = 10 then s.completed left else s.error
  else .next (s.goto .post)

/-- The end of a chunk size, or of a trailer line. The `reserve` here throws
`length_error` only; `LengthReader.within` has it run out of memory too. -/
def chunkSizeEnd (s : Parsing) : Move :=
  let chunkSize := toSizeT (strtol s.parser.chunkSizeStr 16)
  let s := { s with parser := { s.parser with
    chunkSize := chunkSize, chunkSizeStr := [] } }
  if UInt64.ofNat s.req.content.length + chunkSize > maxSize then .stop s .lengthError
  else if chunkSize = 0 then .next (s.goto .chunkSizeNewLine_2)
  else .next (s.goto .chunkData)

/-- A state that only waits for one character. -/
def expect (s : Parsing) (input wanted : UInt8) (next : Parsing) : Move :=
  if input = wanted then .next next else s.error

/-- The body of the loop of `consume`; `left` is `end - begin` behind `input`. There is
memory for whatever a vector can hold. -/
def step (s : Parsing) (input : UInt8) (left : Nat) : Move :=
  match s.parser.state with
  | .requestMethodStart =>
      if !isToken input then s.error
      else .next ((s.pushMethod input).goto .requestMethod)
  | .requestMethod =>
      if input = 32 then .next (s.goto .requestUriStart)
      else if !isToken input then s.error
      else .next (s.pushMethod input)
  | .requestUriStart =>
      if isControl input then s.error
      else .next ((s.pushUri input).goto .requestUri)
  | .requestUri =>
      if input = 32 then .next (s.goto .requestHttpVersion_h)
      else if input = 13 then ((s.setMajor 0).setMinor 9).completed left
      else if isControl input then s.error
      else .next (s.pushUri input)
  | .requestHttpVersion_h => expect s input 72 (s.goto .requestHttpVersion_ht)
  | .requestHttpVersion_ht => expect s input 84 (s.goto .requestHttpVersion_htt)
  | .requestHttpVersion_htt => expect s input 84 (s.goto .requestHttpVersion_http)
  | .requestHttpVersion_http => expect s input 80 (s.goto .requestHttpVersion_slash)
  | .requestHttpVersion_slash =>
      expect s input 47
        (((s.setMajor 0).setMinor 0).goto .requestHttpVersion_majorStart)
  | .requestHttpVersion_majorStart =>
      if isDigit input then
        .next ((s.setMajor (digit input)).goto .requestHttpVersion_major)
      else s.error
  | .requestHttpVersion_major =>
      if input = 46 then .next (s.goto .requestHttpVersion_minorStart)
      else if isDigit input then
        .next (s.setMajor (s.req.versionMajor * 10 + digit input))
      else s.error
  | .requestHttpVersion_minorStart =>
      if isDigit input then
        .next ((s.setMinor (digit input)).goto .requestHttpVersion_minor)
      else s.error
  | .requestHttpVersion_minor =>
      if input = 13 then .next (s.goto .responseHttpVersion_newLine)
      else if isDigit input then
        .next (s.setMinor (s.req.versionMinor * 10 + digit input))
      else s.error
  | .responseHttpVersion_newLine => expect s input 10 (s.goto .headerLineStart)
  | .headerLineStart =>
      if input = 13 then .next (s.goto .expectingNewline_3)
      else if s.req.headers ≠ [] ∧ (input = 32 ∨ input = 9) then
        .next (s.goto .headerLws)
      else if !isToken input then s.error
      else
        .next ({ s with req := { s.req with
          headers := s.req.headers ++ [HeaderItem.mk [input] []] } }.goto .headerName)
  | .headerLws =>
      if input = 13 then .next (s.goto .expectingNewline_2)
      else if input = 32 ∨ input = 9 then .next s
      else if isControl input then s.error
      else s.back (pushValue input) .headerValue
  | .headerName =>
      if input = 58 then .next (s.goto .spaceBeforeHeaderValue)
      else if !isToken input then s.error
      else s.back (pushName input) .headerName
  | .spaceBeforeHeaderValue => expect s input 32 (s.goto .headerValue)
  | .headerValue =>
      if input = 13 then headerEnd s
      else if isControl input then s.error
      else s.back (pushValue input) .headerValue
  | .expectingNewline_2 => expect s input 10 (s.goto .headerLineStart)
  | .expectingNewline_3 => headersEnd s input left
  | .post =>
      let s := { s with parser := { s.parser with
        contentSize := s.parser.contentSize - 1 } }.pushContent input
      if s.parser.contentSize = 0 then s.completed left else .next s
  | .chunkSize =>
      if isalnum input then .next (s.pushChunkSize input)
      else if input = 59 then .next (s.goto .chunkExtensionName)
      else if input = 13 then .next (s.goto .chunkSizeNewLine)
      else s.error
  | .chunkExtensionName =>
      if isalnum input ∨ input = 32 then .next s
      else if input = 61 then .next (s.goto .chunkExtensionValue)
      else if input = 13 then .next (s.goto .chunkSizeNewLine)
      else s.error
  | .chunkExtensionValue =>
      if isalnum input ∨ input = 32 then .next s
      else if input = 13 then .next (s.goto .chunkSizeNewLine)
      else s.error
  | .chunkSizeNewLine => if input = 10 then chunkSizeEnd s else s.error
  | .chunkSizeNewLine_2 =>
      if input = 13 then .next (s.goto .chunkSizeNewLine_3)
      else if isalpha input then .next (s.goto .chunkTrailerName)
      else s.error
  | .chunkSizeNewLine_3 => if input = 10 then s.completed left else s.error
  | .chunkTrailerName =>
      if isalnum input then .next s
      else if input = 58 then .next (s.goto .chunkTrailerValue)
      else s.error
  | .chunkTrailerValue =>
      if isalnum input ∨ input = 32 then .next s
      else if input = 13 then .next (s.goto .chunkSizeNewLine)
      else s.error
  | .chunkData =>
      let s := { s with parser := { s.parser with
        chunkSize := s.parser.chunkSize - 1 } }.pushContent input
      if s.parser.chunkSize = 0 then .next (s.goto .chunkDataNewLine_1) else .next s
  | .chunkDataNewLine_1 => expect s input 13 (s.goto .chunkDataNewLine_2)
  | .chunkDataNewLine_2 => expect s input 10 (s.goto .chunkSize)
  | _ => s.error

/-- What `parse` leaves and returns; `none` is `ParsingIncompleted`. -/
abbrev Parsed := Machine.Halt Parsing UInt8 Stop

/-- `HttpRequestParser::consume`, and so `parse`. -/
def consume (s : Parsing) (text : Str) : Parsed := Machine.consume step s text

/-- A step adds one byte to the content at most. -/
theorem step_content_le (s : Parsing) (input : UInt8) (left : Nat) :
    (step s input left).state.req.content.length ≤ s.req.content.length + 1 := by
  cases start : s.parser.state <;>
    simp only [step, start, expect, headerEnd, headersEnd, chunkSizeEnd, Parsing.back,
      Parsing.error, Parsing.completed]
  all_goals
    repeat' split
  all_goals
    simp [Machine.Move.state, Parsing.goto, Parsing.pushMethod, Parsing.pushUri,
      Parsing.pushContent, Parsing.pushChunkSize, Parsing.setMajor, Parsing.setMinor]

/-! ## Steps that complete a request -/

theorem expect_ne_completed {s next after : Parsing} {input wanted : UInt8} :
    expect s input wanted next ≠ .stop after .parsingCompleted := by
  rw [expect]
  split <;> simp [Parsing.error]

theorem back_ne_completed {s after : Parsing} {change : HeaderItem → HeaderItem}
    {state : State} : s.back change state ≠ .stop after .parsingCompleted := by
  rw [Parsing.back]
  split <;> simp

theorem headerEnd_ne_completed {s after : Parsing} :
    headerEnd s ≠ .stop after .parsingCompleted := by
  simp only [headerEnd]
  repeat' split
  all_goals simp

theorem chunkSizeEnd_ne_completed {s after : Parsing} :
    chunkSizeEnd s ≠ .stop after .parsingCompleted := by
  simp only [chunkSizeEnd]
  repeat' split
  all_goals simp

theorem completed_remainSize {s next : Parsing} {left : Nat}
    (stop : s.completed left = .stop next .parsingCompleted) :
    next.req.remainSize = Int32.ofNat left := by
  cases stop
  rfl

theorem headersEnd_completed {s next : Parsing} {input : UInt8} {left : Nat}
    (stop : headersEnd s input left = .stop next .parsingCompleted) :
    next.req.remainSize = Int32.ofNat left := by
  simp only [headersEnd, Parsing.error] at stop
  repeat' split at stop
  all_goals first
    | exact completed_remainSize stop
    | simp at stop

/-- A step that completes a request, as four states can, stores what is left behind
it. -/
theorem step_completed {s next : Parsing} {input : UInt8} {left : Nat}
    (stop : step s input left = .stop next .parsingCompleted) :
    next.req.remainSize = Int32.ofNat left := by
  rw [step] at stop
  cases start : s.parser.state <;> simp only [start, Parsing.error] at stop
  case expectingNewline_3 => exact headersEnd_completed stop
  case requestUri | post | chunkSizeNewLine_3 =>
      repeat' split at stop
      all_goals first
        | exact completed_remainSize stop
        | simp at stop
  all_goals
    repeat' split at stop
  all_goals simp only [Machine.Move.stop.injEq, reduceCtorEq, and_false,
    expect_ne_completed, back_ne_completed, headerEnd_ne_completed,
    chunkSizeEnd_ne_completed] at stop

end Nicenet.Http
