import Nicenet.Message
import Nicenet.Http.Parser

/-!
# HTTP connections

`start` waits for the socket to be readable and reads once. What it read goes to
the parser, behind the bytes that `m_buffer` still holds, and into a request that
lives as long as the callback. A completed request is posted to its handler, or
answered at once when there is none. The callback ends by starting over or not.

The connection is generic in the parser, of which it uses `parse` alone: the
parser takes its text from the front, up to its end unless it returns a result,
and `remainSize` of a completed request is what it left.
-/

namespace Nicenet.Http

/-- What a call of `parse` leaves: the parser, the request, the result
(`ParsingIncompleted` without one) and the text not consumed. -/
structure Parse (π : Type) where
  parser : π
  request : HttpRequest
  result : Option Stop
  rest : Str
  deriving DecidableEq, Repr

/-- A parser as the connection uses it. -/
structure RequestParser (π : Type) where
  fresh : π
  parse : π → Str → Parse π
  rest_suffix : ∀ parser text, (parse parser text).rest <:+ text
  rest_of_none : ∀ parser text, (parse parser text).result = none →
    (parse parser text).rest = []
  remainSize_eq : ∀ parser text,
    (parse parser text).result = some .parsingCompleted →
    (parse parser text).request.remainSize =
      Int32.ofNat (parse parser text).rest.length

/-- `ui32(request->remainSize)`. -/
def HttpRequest.remain (request : HttpRequest) : Nat :=
  request.remainSize.toUInt32.toNat

/-- `params[key] = value` in a map. -/
def setParam (params : List (Str × Str)) (key value : Str) : List (Str × Str) :=
  (key, value) :: params.filter fun param => param.1 ≠ key

/-- The parameters of a query: in each piece that has an `=` the text before the
first one is the key and the text up to the next one is the value. -/
def params (pieces : List Str) (start : List (Str × Str)) : List (Str × Str) :=
  pieces.foldl (fun params piece =>
    match splitString piece 61 with
    | key :: value :: _ => setParam params key value
    | _ => params) start

/-- The URI is cut at its question marks. -/
def splitUri (request : HttpRequest) : HttpRequest :=
  let ss := splitString request.uri 63
  let request := { request with uri := ss.headD [] }
  if ss.length > 1 then
    let paramsString := ss.getLastD []
    { request with
      paramsString := paramsString
      params := params (splitString paramsString 38) request.params }
  else request

/-- How a completed request is answered: by its handler, to which it is posted, or
with status 404. Either way one response object is destroyed, and so sent. -/
inductive Event where
  | posted (request : HttpRequest)
  | notFound (request : HttpRequest)
  deriving DecidableEq, Repr

/-- Whether `start` is called again behind an answer. -/
def Event.again : Event → Bool
  | .posted request => request.keepAlive
  | .notFound _ => false

structure HttpConnection (π : Type) where
  parser : π
  buffer : Str
  deriving DecidableEq, Repr

/-- A read callback: the connection before it, what the socket returned, the text
given to `parse` and what that did, the connection behind it, the answer and
whether `start` is called again. -/
structure Read (π : Type) where
  before : HttpConnection π
  data : Str
  text : Str
  parsed : Parse π
  after : HttpConnection π
  event : Option Event
  again : Bool
  deriving DecidableEq, Repr

section Connection

variable {π : Type} (parser : RequestParser π) (handles : Str → Bool)

/-- The bytes the callback keeps of a completed request's read, and the request
with its `remainSize` corrected for a NUL that is dropped. -/
def remaining (request : HttpRequest) (data : Str) : HttpRequest :=
  if request.remain > 0 ∧ data[data.length - request.remain]? = some 0 then
    { request with remainSize := request.remainSize - 1 }
  else request

/-- The answer to a completed request. -/
def answer (request : HttpRequest) : Event :=
  let request := splitUri request
  if handles request.uri then .posted request else .notFound request

/-- `m_buffer` with the bytes that were read, and the text given to `parse`. -/
def buffered (conn : HttpConnection π) (data : Str) : Str × Str :=
  if conn.buffer.length > 0 then
    let buffer := conn.buffer ++ data
    (buffer, buffer.take data.length)
  else (conn.buffer, data)

/-- The callback of `start`, once `read_some` has returned `data`. -/
def onRead (conn : HttpConnection π) (data : Str) : Read π :=
  let len := data.length
  let (buffer, text) := buffered conn data
  let parsed := parser.parse conn.parser text
  let after : HttpConnection π := ⟨parsed.parser, buffer⟩
  match parsed.result with
  | some .parsingCompleted =>
      if parsed.request.remain > len then
        ⟨conn, data, text, parsed, after, none, false⟩
      else
        let request := remaining parsed.request data
        let after := { after with
          buffer := if request.remain > 0 then data.drop (len - request.remain)
            else [] }
        let event := answer handles request
        ⟨conn, data, text, parsed, after, some event, event.again⟩
  | some _ => ⟨conn, data, text, parsed, after, none, false⟩
  | none => ⟨conn, data, text, parsed, after, none, true⟩

/-- The reads of a connection, as long as it starts over. -/
def run (conn : HttpConnection π) : List Str → List (Read π)
  | [] => []
  | data :: more =>
      let read := onRead parser handles conn data
      read :: if read.again then run read.after more else []

/-- The reads of a fresh connection. -/
def runFresh (reads : List Str) : List (Read π) :=
  run parser handles ⟨parser.fresh, []⟩ reads

end Connection

/-! ## What a read does -/

theorem HttpRequest.remain_eq {request : HttpRequest} {size : Nat}
    (remainSize : request.remainSize = Int32.ofNat size) (small : size < 2 ^ 32) :
    request.remain = size := by
  rw [remain, remainSize]
  exact Nat.mod_eq_of_lt small

theorem HttpRequest.remain_sub_one {request : HttpRequest} {size : Nat}
    (remainSize : request.remainSize = Int32.ofNat size) (small : size < 2 ^ 32)
    (pos : 0 < size) :
    HttpRequest.remain { request with remainSize := request.remainSize - 1 } =
      size - 1 := by
  have whole : request.remainSize.toUInt32.toNat = size :=
    request.remain_eq remainSize small
  have one : (1 : UInt32) ≤ request.remainSize.toUInt32 := by
    rw [UInt32.le_iff_toNat_le, whole]
    exact pos
  simp only [remain, Int32.toUInt32_sub]
  exact (UInt32.toNat_sub_of_le _ _ one).trans (congrArg (· - 1) whole)

section Reads

variable {π : Type} {parser : RequestParser π} {handles : Str → Bool}
variable {conn : HttpConnection π} {data : Str}

theorem onRead_before : (onRead parser handles conn data).before = conn := by
  simp only [onRead]
  repeat' split
  all_goals rfl

theorem onRead_data : (onRead parser handles conn data).data = data := by
  simp only [onRead]
  repeat' split
  all_goals rfl

theorem onRead_text :
    (onRead parser handles conn data).text = (buffered conn data).2 := by
  simp only [onRead]
  repeat' split
  all_goals rfl

theorem onRead_parsed :
    (onRead parser handles conn data).parsed =
      parser.parse conn.parser (buffered conn data).2 := by
  simp only [onRead]
  repeat' split
  all_goals rfl

theorem after_parser_eq :
    (onRead parser handles conn data).after.parser =
      (onRead parser handles conn data).parsed.parser := by
  simp only [onRead]
  repeat' split
  all_goals rfl

/-- Only a completed request is answered. -/
theorem onRead_event {event : Event}
    (answered : (onRead parser handles conn data).event = some event) :
    (onRead parser handles conn data).parsed.result = some .parsingCompleted ∧
      answer handles (remaining (onRead parser handles conn data).parsed.request data) =
        event := by
  rw [onRead_parsed]
  revert answered
  simp only [onRead]
  split
  · next result =>
    split
    · intro answered
      exact absurd answered (Option.some_ne_none event).symm
    · intro answered
      exact ⟨result, Option.some.inj answered⟩
  · intro answered
    exact absurd answered (Option.some_ne_none event).symm
  · intro answered
    exact absurd answered (Option.some_ne_none event).symm

/-- A read that does not complete a request goes on with all of `m_buffer`. -/
theorem onRead_waits
    (again : (onRead parser handles conn data).again = true)
    (waits : (onRead parser handles conn data).parsed.result ≠ some .parsingCompleted) :
    (onRead parser handles conn data).parsed.result = none ∧
      (onRead parser handles conn data).after.buffer = (buffered conn data).1 := by
  rw [onRead_parsed] at waits ⊢
  revert again
  simp only [onRead]
  split
  · next result => exact absurd result waits
  · intro again
    exact absurd again Bool.false_ne_true
  · next result => exact fun _ => ⟨result, rfl⟩

/-- `parse` is given as many bytes as the socket returned. -/
theorem onRead_text_length :
    (onRead parser handles conn data).text.length = data.length := by
  rw [onRead_text, buffered]
  split
  · rw [List.length_take, List.length_append]
    omega
  · rfl

theorem buffered_idle (idle : conn.buffer = []) : buffered conn data = ([], data) := by
  rw [buffered, if_neg (by rw [idle]; simp), idle]

theorem mem_run {reads : List Str} {read : Read π}
    (member : read ∈ run parser handles conn reads) :
    ∃ conn data, read = onRead parser handles conn data := by
  induction reads generalizing conn with
  | nil => exact absurd member List.not_mem_nil
  | cons data reads ih =>
      rw [run] at member
      rcases List.mem_cons.mp member with rfl | member
      · exact ⟨conn, data, rfl⟩
      · split at member
        · exact ih member
        · exact absurd member List.not_mem_nil

theorem splitUri_method (request : HttpRequest) :
    (splitUri request).method = request.method := by
  simp only [splitUri]
  split <;> rfl

theorem remaining_method (request : HttpRequest) :
    (remaining request data).method = request.method := by
  rw [remaining]
  split <;> rfl

/-- A posted request has the method that the parser has read. -/
theorem posted_method {request : HttpRequest}
    (posted : (onRead parser handles conn data).event = some (.posted request)) :
    request.method = (onRead parser handles conn data).parsed.request.method := by
  have answer_eq := (onRead_event posted).2
  simp only [answer] at answer_eq
  split at answer_eq
  · rw [← Event.posted.inj answer_eq, splitUri_method, remaining_method]
  · exact Event.noConfusion answer_eq

/-- What is kept of a text whose end is `rest`. -/
theorem remaining_spec {request : HttpRequest} {rest : Str} (legal : IsChunk data)
    (suffix : rest <:+ data)
    (remainSize : request.remainSize = Int32.ofNat rest.length) :
    ∃ dropped,
      rest = dropped ++ data.drop (data.length - (remaining request data).remain) ∧
      (dropped = [] ∨ dropped = [0]) := by
  obtain ⟨front, rfl⟩ := suffix
  have bound : (front ++ rest).length ≤ 1024 * 16 := legal.2
  rw [List.length_append] at bound
  have small : rest.length < 2 ^ 32 := by omega
  have remain := request.remain_eq remainSize small
  have offset : (front ++ rest).length - rest.length = front.length := by
    rw [List.length_append, Nat.add_sub_cancel]
  cases rest with
  | nil =>
      refine ⟨[], ?_, Or.inl rfl⟩
      have idle : remaining request (front ++ []) = request := by
        rw [remaining, remain]
        simp
      rw [idle, remain, offset, List.drop_left, List.nil_append]
  | cons first rest =>
      by_cases nul : first = 0
      · refine ⟨[0], ?_, Or.inr rfl⟩
        have cut : remaining request (front ++ first :: rest) =
            { request with remainSize := request.remainSize - 1 } := by
          rw [remaining, remain, offset, if_pos]
          simp [nul]
        have past : (front ++ first :: rest).length - ((first :: rest).length - 1) =
            front.length + 1 := by
          rw [List.length_append, List.length_cons]
          omega
        rw [cut, request.remain_sub_one remainSize small (Nat.succ_pos _), past, nul]
        simp
      · refine ⟨[], ?_, Or.inl rfl⟩
        have whole : remaining request (front ++ first :: rest) = request := by
          rw [remaining, remain, offset, if_neg]
          simp [nul]
        rw [whole, remain, offset, List.drop_left, List.nil_append]
/-- What a read does that starts with an empty `m_buffer`. -/
inductive IdleRead (parser : RequestParser π) (handles : Str → Bool)
    (conn : HttpConnection π) (data : Str) : Read π → Prop where
  | waits (result : (parser.parse conn.parser data).result = none) :
      IdleRead parser handles conn data
        ⟨conn, data, data, parser.parse conn.parser data,
          ⟨(parser.parse conn.parser data).parser, []⟩, none, true⟩
  | completes {dropped kept : Str}
      (result : (parser.parse conn.parser data).result = some .parsingCompleted)
      (rest : (parser.parse conn.parser data).rest = dropped ++ kept)
      (nul : dropped = [] ∨ dropped = [0]) :
      IdleRead parser handles conn data
        ⟨conn, data, data, parser.parse conn.parser data,
          ⟨(parser.parse conn.parser data).parser, kept⟩,
          some (answer handles
            (remaining (parser.parse conn.parser data).request data)),
          (answer handles
            (remaining (parser.parse conn.parser data).request data)).again⟩
  | fails {stop : Stop}
      (result : (parser.parse conn.parser data).result = some stop)
      (stops : stop ≠ .parsingCompleted) :
      IdleRead parser handles conn data
        ⟨conn, data, data, parser.parse conn.parser data,
          ⟨(parser.parse conn.parser data).parser, []⟩, none, false⟩

variable (parser handles) in
theorem onRead_idle (idle : conn.buffer = []) (legal : IsChunk data) :
    IdleRead parser handles conn data (onRead parser handles conn data) := by
  have suffix := parser.rest_suffix conn.parser data
  have bound : data.length ≤ 1024 * 16 := legal.2
  simp only [onRead, buffered_idle idle]
  split
  · next result =>
    have remainSize := parser.remainSize_eq conn.parser data result
    have size := (parser.parse conn.parser data).request.remain_eq remainSize
      (by have := suffix.length_le; omega)
    obtain ⟨dropped, rest, nul⟩ := remaining_spec legal suffix remainSize
    rw [if_neg (by rw [size]; exact Nat.not_lt.mpr suffix.length_le)]
    split
    · exact .completes result rest nul
    · next none_left =>
      have kept : data.drop (data.length -
          (remaining (parser.parse conn.parser data).request data).remain) = [] := by
        rw [Nat.eq_zero_of_not_pos none_left, Nat.sub_zero, List.drop_length]
      rw [kept] at rest
      exact .completes result rest nul
  · next stop other result =>
    exact .fails result other
  · next result => exact .waits result

end Reads

/-! ## The parser of the server -/

/-- `HttpRequestParser` with a fresh request for each call. -/
def HttpRequestParser.parse (parser : HttpRequestParser) (text : Str) :
    Parse HttpRequestParser :=
  let halt := consume ⟨parser, .empty⟩ text
  ⟨halt.state.parser, halt.state.req, halt.result, halt.rest⟩

/-- The parser of the server's connections. -/
def requestParser : RequestParser HttpRequestParser where
  fresh := .fresh
  parse := HttpRequestParser.parse
  rest_suffix parser text := Library.Machine.rest_suffix step ⟨parser, .empty⟩ text
  rest_of_none _ _ running := Library.Machine.rest_of_none step running
  remainSize_eq _ _ completed := by
    obtain ⟨before, input, last⟩ := Library.Machine.last_step step completed
    exact step_completed last

end Nicenet.Http
