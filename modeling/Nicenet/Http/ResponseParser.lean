import Nicenet.Library.Machine
import Nicenet.Http.Response

/-!
# The HTTP response parser

`HttpResponseParser` is the parser of requests once more, with a status line in
front. It evaluates the headers that announce a body whatever the method was, and it
does not say how much text it left. `step` has one branch for each case of its
`switch`.
-/

namespace Nicenet.Http.Response

open Library

/-- `HttpResponseParser::State`. -/
inductive State where
  | responseStatusStart
  | responseHttpVersion_ht
  | responseHttpVersion_htt
  | responseHttpVersion_http
  | responseHttpVersion_slash
  | responseHttpVersion_majorStart
  | responseHttpVersion_major
  | responseHttpVersion_minorStart
  | responseHttpVersion_minor
  | responseHttpVersion_statusCodeStart
  | responseHttpVersion_statusCode
  | responseHttpVersion_statusTextStart
  | responseHttpVersion_statusText
  | responseHttpVersion_newLine
  | headerLineStart
  | headerLws
  | headerName
  | spaceBeforeHeaderValue
  | headerValue
  | expectingNewline_2
  | expectingNewline_3
  | post
  | chunkSize
  | chunkExtensionName
  | chunkExtensionValue
  | chunkSizeNewLine
  | chunkSizeNewLine_2
  | chunkSizeNewLine_3
  | chunkTrailerName
  | chunkTrailerValue
  | chunkDataNewLine_1
  | chunkDataNewLine_2
  | chunkData
  deriving DecidableEq, Repr

structure HttpResponseParser where
  state : State
  contentSize : UInt64
  chunkSizeStr : Str
  chunkSize : UInt64
  chunked : Bool
  deriving DecidableEq, Repr

def HttpResponseParser.fresh : HttpResponseParser := ⟨.responseStatusStart, 0, [], 0, false⟩

/-- The parser and the response it is filling. -/
structure Parsing where
  parser : HttpResponseParser
  resp : HttpResponse
  deriving DecidableEq, Repr

abbrev Move := Machine.Move Parsing Stop

namespace Parsing

def goto (s : Parsing) (state : State) : Parsing :=
  { s with parser := { s.parser with state := state } }

def error (s : Parsing) : Move := .stop s .parsingError

def completed (s : Parsing) : Move := .stop s .parsingCompleted

/-- `headers.back()` is changed. -/
def back (s : Parsing) (change : HeaderItem → HeaderItem) (state : State) : Move :=
  match s.resp.headers.getLast? with
  | none => .stop s .emptyBack
  | some item =>
      .next ({ s with resp := { s.resp with
        headers := s.resp.headers.dropLast ++ [change item] } }.goto state)

def pushStatus (s : Parsing) (input : UInt8) : Parsing :=
  { s with resp := { s.resp with status := s.resp.status ++ [input] } }

def pushContent (s : Parsing) (input : UInt8) : Parsing :=
  { s with resp := { s.resp with content := s.resp.content ++ [input] } }

def pushChunkSize (s : Parsing) (input : UInt8) : Parsing :=
  { s with parser := { s.parser with
    chunkSizeStr := s.parser.chunkSizeStr ++ [input] } }

def setMajor (s : Parsing) (versionMajor : Int32) : Parsing :=
  { s with resp := { s.resp with versionMajor := versionMajor } }

def setMinor (s : Parsing) (versionMinor : Int32) : Parsing :=
  { s with resp := { s.resp with versionMinor := versionMinor } }

def setCode (s : Parsing) (statusCode : UInt32) : Parsing :=
  { s with resp := { s.resp with statusCode := statusCode } }

end Parsing

/-- `input - '0'` added to a number, as an `unsigned int`. -/
def codeDigit (input : UInt8) : UInt32 := input.toUInt32 - 48

/-- The end of a header line: the headers that announce a body are evaluated. -/
def headerEnd (s : Parsing) : Move :=
  match s.resp.headers.getLast? with
  | none => .stop s .emptyBack
  | some h =>
      if isWord h.name contentLength then
        let contentSize := toSizeT (atoi h.value).toInt
        let s := { s with parser := { s.parser with contentSize := contentSize } }
        if contentSize > maxSize then .stop s .lengthError
        else .next (s.goto .expectingNewline_2)
      else if isWord h.name transferEncoding && isWord h.value strChunked then
        .next ({ s with parser := { s.parser with chunked := true } }.goto
          .expectingNewline_2)
      else .next (s.goto .expectingNewline_2)

/-- Whether the connection stays open behind the response. -/
def keepAlive (resp : HttpResponse) : Bool :=
  match resp.headers.find? fun item => isWord item.name connection with
  | some item => isWord item.value strKeepAlive
  | none =>
      if resp.versionMajor > 1 ∨ (resp.versionMajor = 1 ∧ resp.versionMinor = 1) then
        true
      else resp.keepAlive

/-- The end of the headers. -/
def headersEnd (s : Parsing) (input : UInt8) : Move :=
  let s := { s with resp := { s.resp with keepAlive := keepAlive s.resp } }
  if s.parser.chunked then .next (s.goto .chunkSize)
  else if s.parser.contentSize = 0 then
    if input = 10 then s.completed else s.error
  else .next (s.goto .post)

/-- The end of a chunk size, or of a trailer line. -/
def chunkSizeEnd (s : Parsing) : Move :=
  let chunkSize := toSizeT (strtol s.parser.chunkSizeStr 16)
  let s := { s with parser := { s.parser with
    chunkSize := chunkSize, chunkSizeStr := [] } }
  if UInt64.ofNat s.resp.content.length + chunkSize > maxSize then .stop s .lengthError
  else if chunkSize = 0 then .next (s.goto .chunkSizeNewLine_2)
  else .next (s.goto .chunkData)

/-- A state that only waits for one character. -/
def expect (s : Parsing) (input wanted : UInt8) (next : Parsing) : Move :=
  if input = wanted then .next next else s.error

/-- The body of the loop of `consume`. -/
def step (s : Parsing) (input : UInt8) (_left : Nat) : Move :=
  match s.parser.state with
  | .responseStatusStart => expect s input 72 (s.goto .responseHttpVersion_ht)
  | .responseHttpVersion_ht => expect s input 84 (s.goto .responseHttpVersion_htt)
  | .responseHttpVersion_htt => expect s input 84 (s.goto .responseHttpVersion_http)
  | .responseHttpVersion_http => expect s input 80 (s.goto .responseHttpVersion_slash)
  | .responseHttpVersion_slash =>
      expect s input 47
        (((s.setMajor 0).setMinor 0).goto .responseHttpVersion_majorStart)
  | .responseHttpVersion_majorStart =>
      if isDigit input then
        .next ((s.setMajor (digit input)).goto .responseHttpVersion_major)
      else s.error
  | .responseHttpVersion_major =>
      if input = 46 then .next (s.goto .responseHttpVersion_minorStart)
      else if isDigit input then
        .next (s.setMajor (s.resp.versionMajor * 10 + digit input))
      else s.error
  | .responseHttpVersion_minorStart =>
      if isDigit input then
        .next ((s.setMinor (digit input)).goto .responseHttpVersion_minor)
      else s.error
  | .responseHttpVersion_minor =>
      if input = 32 then
        .next ((s.setCode 0).goto .responseHttpVersion_statusCodeStart)
      else if isDigit input then
        .next (s.setMinor (s.resp.versionMinor * 10 + digit input))
      else s.error
  | .responseHttpVersion_statusCodeStart =>
      if isDigit input then
        .next ((s.setCode (codeDigit input)).goto .responseHttpVersion_statusCode)
      else s.error
  | .responseHttpVersion_statusCode =>
      if isDigit input then
        .next (s.setCode (s.resp.statusCode * 10 + codeDigit input))
      else if s.resp.statusCode < 100 ∨ s.resp.statusCode > 999 then s.error
      else if input = 32 then .next (s.goto .responseHttpVersion_statusTextStart)
      else s.error
  | .responseHttpVersion_statusTextStart =>
      if isChar input then
        .next ((s.pushStatus input).goto .responseHttpVersion_statusText)
      else s.error
  | .responseHttpVersion_statusText =>
      if input = 13 then .next (s.goto .responseHttpVersion_newLine)
      else if isChar input then .next (s.pushStatus input)
      else s.error
  | .responseHttpVersion_newLine => expect s input 10 (s.goto .headerLineStart)
  | .headerLineStart =>
      if input = 13 then .next (s.goto .expectingNewline_3)
      else if s.resp.headers ≠ [] ∧ (input = 32 ∨ input = 9) then
        .next (s.goto .headerLws)
      else if !isToken input then s.error
      else
        .next ({ s with resp := { s.resp with
          headers := s.resp.headers ++ [HeaderItem.mk [input] []] } }.goto .headerName)
  | .headerLws =>
      if input = 13 then .next (s.goto .expectingNewline_2)
      else if input = 32 ∨ input = 9 then .next s
      else if isControl input then s.error
      else s.back (pushValue input) .headerValue
  | .headerName =>
      if input = 58 then .next (s.goto .spaceBeforeHeaderValue)
      else if !isToken input then s.error
      else s.back (pushName input) .headerName
  | .spaceBeforeHeaderValue => expect s input 32 (s.goto .headerValue)
  | .headerValue =>
      if input = 13 then headerEnd s
      else if isControl input then s.error
      else s.back (pushValue input) .headerValue
  | .expectingNewline_2 => expect s input 10 (s.goto .headerLineStart)
  | .expectingNewline_3 => headersEnd s input
  | .post =>
      let s := { s with parser := { s.parser with
        contentSize := s.parser.contentSize - 1 } }.pushContent input
      if s.parser.contentSize = 0 then s.completed else .next s
  | .chunkSize =>
      if isalnum input then .next (s.pushChunkSize input)
      else if input = 59 then .next (s.goto .chunkExtensionName)
      else if input = 13 then .next (s.goto .chunkSizeNewLine)
      else s.error
  | .chunkExtensionName =>
      if isalnum input ∨ input = 32 then .next s
      else if input = 61 then .next (s.goto .chunkExtensionValue)
      else if input = 13 then .next (s.goto .chunkSizeNewLine)
      else s.error
  | .chunkExtensionValue =>
      if isalnum input ∨ input = 32 then .next s
      else if input = 13 then .next (s.goto .chunkSizeNewLine)
      else s.error
  | .chunkSizeNewLine => if input = 10 then chunkSizeEnd s else s.error
  | .chunkSizeNewLine_2 =>
      if input = 13 then .next (s.goto .chunkSizeNewLine_3)
      else if isalpha input then .next (s.goto .chunkTrailerName)
      else s.error
  | .chunkSizeNewLine_3 => if input = 10 then s.completed else s.error
  | .chunkTrailerName =>
      if isalnum input then .next s
      else if input = 58 then .next (s.goto .chunkTrailerValue)
      else s.error
  | .chunkTrailerValue =>
      if isalnum input ∨ input = 32 then .next s
      else if input = 13 then .next (s.goto .chunkSizeNewLine)
      else s.error
  | .chunkData =>
      let s := { s with parser := { s.parser with
        chunkSize := s.parser.chunkSize - 1 } }.pushContent input
      if s.parser.chunkSize = 0 then .next (s.goto .chunkDataNewLine_1) else .next s
  | .chunkDataNewLine_1 => expect s input 13 (s.goto .chunkDataNewLine_2)
  | .chunkDataNewLine_2 => expect s input 10 (s.goto .chunkSize)

/-- `HttpResponseParser::consume`, and so `parse`; without a result it is
`ParsingIncompleted`. -/
def consume (s : Parsing) (text : Str) : Machine.Halt Parsing UInt8 Stop :=
  Machine.consume step s text

/-- What comes behind a byte does not matter. -/
theorem step_uniform : Machine.Uniform step := fun _ _ _ _ => rfl

/-! ## The status line -/

/-- A step leaves the status text or adds to it. -/
theorem step_status (s : Parsing) (input : UInt8) (left : Nat) :
    s.resp.status <+: (step s input left).state.resp.status := by
  cases start : s.parser.state <;>
    simp only [step, start, expect, headerEnd, headersEnd, chunkSizeEnd, Parsing.back,
      Parsing.error, Parsing.completed]
  all_goals
    repeat' split
  all_goals first
    | exact List.prefix_rfl
    | exact List.prefix_append _ _

/-- What the status text starts with, it keeps. -/
theorem status_prefix {text : Str} (s : Parsing) (input : Str)
    (front : text <+: s.resp.status) : text <+: (consume s input).state.resp.status :=
  Machine.consume_keeps step
    (fun s c left front => List.IsPrefix.trans front (step_status s c left)) front input

end Nicenet.Http.Response
