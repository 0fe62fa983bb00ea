import Nicenet.Http.Chunks
import Nicenet.Http.Connection

/-!
# Written requests are understood

A fresh parser that is given all bytes of a written request completes it with the
last one and delivers the method, the URI, the version, the headers and the content
that were written.
-/

namespace Nicenet.Http

open Library

variable (req : HttpRequest)

/-! ## The request line -/

/-- A method is read from its first character on. -/
theorem methodStart_passes {method : Str} (ne : method ≠ [])
    (token : ∀ c ∈ method, isToken c) :
    Machine.Passes step ⟨.fresh, .empty⟩ method
      ⟨HttpRequestParser.fresh.at .requestMethod,
        { HttpRequest.empty with method := method }⟩ := by
  obtain ⟨first, rest, rfl⟩ := List.exists_cons_of_ne_nil ne
  have start : ∀ left, step ⟨.fresh, .empty⟩ first left =
      .next ⟨HttpRequestParser.fresh.at .requestMethod,
        { HttpRequest.empty with method := [first] }⟩ := by
    intro left
    have isToken := token first List.mem_cons_self
    simp only [step, HttpRequestParser.fresh, isToken]
    rfl
  exact .cons start (method_passes _ _
    fun c member => token c (List.mem_cons_of_mem first member))

theorem uriStart_passes {uri : Str} (ne : uri ≠ [])
    (plain : ∀ c ∈ uri, c ≠ 32 ∧ isControl c = false) (empty : req.uri = []) :
    Machine.Passes step ⟨HttpRequestParser.fresh.at .requestUriStart, req⟩ uri
      ⟨HttpRequestParser.fresh.at .requestUri, { req with uri := uri }⟩ := by
  obtain ⟨first, rest, rfl⟩ := List.exists_cons_of_ne_nil ne
  have start : ∀ left, step ⟨HttpRequestParser.fresh.at .requestUriStart, req⟩ first left =
      .next ⟨HttpRequestParser.fresh.at .requestUri, { req with uri := [first] }⟩ := by
    intro left
    have notControl := (plain first List.mem_cons_self).2
    simp [step, HttpRequestParser.at, notControl, Parsing.pushUri, Parsing.goto, empty]
  exact .cons start (uri_passes _ _
    fun c member => plain c (List.mem_cons_of_mem first member))

/-- A request line takes a fresh parser to the headers. -/
theorem requestLine_passes {method uri major minor : Str} (methodNe : method ≠ [])
    (token : ∀ c ∈ method, isToken c) (uriNe : uri ≠ [])
    (plain : ∀ c ∈ uri, c ≠ 32 ∧ isControl c = false) (majorWf : IsNumeral 10 major)
    (minorWf : IsNumeral 10 minor) :
    Machine.Passes step ⟨.fresh, .empty⟩
      (method ++ [32] ++ uri ++ [32, 72, 84, 84, 80, 47] ++ major ++ [46] ++ minor ++ crlf)
      ⟨HttpRequestParser.fresh.at .headerLineStart,
        ⟨method, uri, Int32.ofNat (numeral 10 major), Int32.ofNat (numeral 10 minor), [],
          [], false, 0, [], []⟩⟩ := by
  have blank : Machine.Passes step
      ⟨HttpRequestParser.fresh.at .requestMethod,
        { HttpRequest.empty with method := method }⟩ [32]
      ⟨HttpRequestParser.fresh.at .requestUriStart,
        { HttpRequest.empty with method := method }⟩ := fun _ => rfl
  have uriPasses := uriStart_passes { HttpRequest.empty with method := method } uriNe plain rfl
  have http : Machine.Passes step
      ⟨HttpRequestParser.fresh.at .requestUri,
        { HttpRequest.empty with method := method, uri := uri }⟩
      [32, 72, 84, 84, 80, 47]
      ⟨HttpRequestParser.fresh.at .requestHttpVersion_majorStart,
        { HttpRequest.empty with method := method, uri := uri }⟩ := fun _ => rfl
  have majorPasses := major_passes .fresh
    { HttpRequest.empty with method := method, uri := uri } majorWf
  have dot : Machine.Passes step
      ⟨HttpRequestParser.fresh.at .requestHttpVersion_major, { HttpRequest.empty with
        method := method
        uri := uri
        versionMajor := Int32.ofNat (numeral 10 major) }⟩ [46]
      ⟨HttpRequestParser.fresh.at .requestHttpVersion_minorStart, { HttpRequest.empty with
        method := method
        uri := uri
        versionMajor := Int32.ofNat (numeral 10 major) }⟩ := fun _ => rfl
  have minorPasses := minor_passes .fresh { HttpRequest.empty with
    method := method
    uri := uri
    versionMajor := Int32.ofNat (numeral 10 major) } minorWf
  have ended : Machine.Passes step
      ⟨HttpRequestParser.fresh.at .requestHttpVersion_minor, { HttpRequest.empty with
        method := method
        uri := uri
        versionMajor := Int32.ofNat (numeral 10 major)
        versionMinor := Int32.ofNat (numeral 10 minor) }⟩ crlf
      ⟨HttpRequestParser.fresh.at .headerLineStart, { HttpRequest.empty with
        method := method
        uri := uri
        versionMajor := Int32.ofNat (numeral 10 major)
        versionMinor := Int32.ofNat (numeral 10 minor) }⟩ := fun _ => rfl
  exact (((((((methodStart_passes methodNe token).append blank).append uriPasses).append
    http).append majorPasses).append dot).append minorPasses).append ended

/-- The headers and the carriage return behind them. -/
theorem headLines_passes (parser : HttpRequestParser) {headers : List HeaderItem}
    (none : req.headers = [])
    (wf : ∀ item ∈ headers, item.WellFormed ∧
      (HasBody req.method → item.isContentLength →
        toSizeT (atoi item.value).toInt ≤ maxSize)) :
    Machine.Passes step ⟨parser.at .headerLineStart, req⟩
      (headers.flatMap HeaderItem.bytes ++ [13])
      ⟨(headers.foldl (announce req.method) parser).at .expectingNewline_3,
        { req with headers := headers }⟩ := by
  have lines := headers_passes parser req wf
  rw [none, List.nil_append] at lines
  exact lines.append fun _ => rfl

/-! ## The end of a request -/

/-- A request without a body is completed by the empty line. -/
theorem empty_completes (rest : Str) :
    consume ⟨⟨.expectingNewline_3, 0, [], 0, false⟩, req⟩ (10 :: rest) =
      ⟨⟨⟨.expectingNewline_3, 0, [], 0, false⟩, { req with
          keepAlive := keepAlive req
          remainSize := Int32.ofNat rest.length }⟩, some .parsingCompleted, rest⟩ :=
  Machine.consume_stop step rfl

theorem step_post {contentSize : UInt64} (announced : contentSize ≠ 0) (left : Nat) :
    step ⟨⟨.expectingNewline_3, contentSize, [], 0, false⟩, req⟩ 10 left =
      .next ⟨⟨.post, contentSize, [], 0, false⟩,
        { req with keepAlive := keepAlive req }⟩ := by
  simp only [step, headersEnd, if_neg announced]
  rfl

theorem step_chunked (contentSize : UInt64) (left : Nat) :
    step ⟨⟨.expectingNewline_3, contentSize, [], 0, true⟩, req⟩ 10 left =
      .next ⟨⟨.chunkSize, contentSize, [], 0, true⟩,
        { req with keepAlive := keepAlive req }⟩ := rfl

/-- A request with a chunked body is completed by the line feed at its end. -/
theorem chunked_completes (contentSize : UInt64) (body : Chunked) (empty : req.content = [])
    (rest : Str) :
    consume ⟨⟨.expectingNewline_3, contentSize, [], 0, true⟩, req⟩
        (10 :: (body.bytes ++ rest)) =
      ⟨⟨⟨.chunkSizeNewLine_3, contentSize, [], 0, true⟩, { req with
          content := body.chunks.flatMap Chunk.data
          keepAlive := keepAlive req
          remainSize := Int32.ofNat rest.length }⟩, some .parsingCompleted, rest⟩ := by
  have bytes : body.bytes ++ rest =
      body.chunks.flatMap Chunk.bytes ++ body.last.line ++
        body.trailers.flatMap Trailer.bytes ++ [13] ++ (10 :: rest) := by
    simp [Chunked.bytes, crlf]
  rw [bytes]
  refine (Machine.consume_next step (step_chunked req contentSize _)).trans ?_
  refine (chunked_passes { req with keepAlive := keepAlive req } contentSize body empty
    (10 :: rest)).trans ?_
  exact Machine.consume_stop step rfl

/-- A byte of the body that is not its last one. -/
theorem step_content {contentSize : UInt64} (more : contentSize - 1 ≠ 0) (c : UInt8)
    (left : Nat) :
    step ⟨⟨.post, contentSize, [], 0, false⟩, req⟩ c left =
      .next ⟨⟨.post, contentSize - 1, [], 0, false⟩,
        { req with content := req.content ++ [c] }⟩ := by
  simp only [step, Parsing.pushContent]
  exact if_neg more

/-- A request with a `Content-Length` is completed by the last byte of its body. -/
theorem post_completes {content : Str} (ne : content ≠ [])
    (fits : content.length < 2 ^ 63) (rest : Str) :
    consume ⟨⟨.post, UInt64.ofNat content.length, [], 0, false⟩, req⟩ (content ++ rest) =
      ⟨⟨⟨.post, 0, [], 0, false⟩, { req with
          content := req.content ++ content
          remainSize := Int32.ofNat rest.length }⟩, some .parsingCompleted, rest⟩ := by
  induction content generalizing req with
  | nil => exact absurd rfl ne
  | cons c content ih =>
      have less : UInt64.ofNat (c :: content).length - 1 = UInt64.ofNat content.length := by
        rw [List.length_cons, UInt64.ofNat_add]
        exact UInt64.add_sub_cancel _ _
      have small : content.length < 2 ^ 63 := Nat.lt_of_succ_lt fits
      by_cases last : content = []
      · subst last
        refine Machine.consume_stop step ?_
        simp only [step, less]
        rfl
      · have more : UInt64.ofNat (c :: content).length - 1 ≠ 0 := by
          rw [less]
          exact mt (ofNat_eq_zero small).mp (mt List.length_eq_zero_iff.mp last)
        have later := ih { req with content := req.content ++ [c] } last small
        rw [List.append_assoc] at later
        refine (Machine.consume_next step (step_content req more c _)).trans ?_
        rw [less]
        exact later

/-- The lengths in headers that announce a body can be reserved. -/
theorem Body.Announced.reserves {method : Str} {headers : List HeaderItem} {body : Body}
    (announced : body.Announced method headers) {item : HeaderItem} (member : item ∈ headers)
    (hasBody : HasBody method) (length : item.isContentLength) :
    toSizeT (atoi item.value).toInt ≤ maxSize := by
  cases body with
  | none =>
      rcases announced with bare | neither
      · exact absurd hasBody bare
      · rw [(neither item member).1] at length
        exact absurd length Bool.false_ne_true
  | sized content =>
      obtain ⟨_, _, only, filtered, wf, value, fits⟩ := announced
      have same : item ∈ headers.filter HeaderItem.isContentLength :=
        List.mem_filter.mpr ⟨member, length⟩
      rw [filtered, List.mem_singleton] at same
      subst same
      rw [atoi_numeral wf (value ▸ fits), value, toSizeT_natCast]
      exact ofNat_le_maxSize (Nat.lt_trans fits (by decide))
  | chunked body =>
      rw [announced.2.2 item member] at length
      exact absurd length Bool.false_ne_true

/-- The parser behind a completed request: it is not reset. -/
def Body.parserAfter : Body → HttpRequestParser
  | .none | .sized [] => ⟨.expectingNewline_3, 0, [], 0, false⟩
  | .sized (_ :: _) => ⟨.post, 0, [], 0, false⟩
  | .chunked _ => ⟨.chunkSizeNewLine_3, 0, [], 0, true⟩

/-- From the empty line on, the body that the headers announce is read. -/
theorem body_completes {method : Str} {headers : List HeaderItem} {body : Body}
    (announced : body.Announced method headers) (empty : req.content = [])
    (rest : Str) :
    consume ⟨(headers.foldl (announce method) .fresh).at .expectingNewline_3, req⟩
        (10 :: (body.bytes ++ rest)) =
      ⟨⟨body.parserAfter, { req with
          content := body.content
          keepAlive := keepAlive req
          remainSize := Int32.ofNat rest.length }⟩, some .parsingCompleted, rest⟩ := by
  obtain ⟨_, _, _, _, _, content, _, _, _, _⟩ := req
  obtain rfl : content = [] := empty
  cases body with
  | none =>
      rw [foldl_announce_none _ announced]
      exact empty_completes _ rest
  | sized content =>
      obtain ⟨hasBody, plain, item, only, wf, value, fits⟩ := announced
      rw [foldl_announce_sized _ hasBody plain only, atoi_numeral wf (value ▸ fits), value,
        toSizeT_natCast]
      cases content with
      | nil =>
          exact empty_completes _ rest
      | cons c content =>
          have announced : UInt64.ofNat (c :: content).length ≠ 0 :=
            mt (ofNat_eq_zero (Nat.lt_trans fits (by decide))).mp (Nat.succ_ne_zero _)
          refine (Machine.consume_next step (step_post _ announced _)).trans ?_
          exact post_completes _ (List.cons_ne_nil c content)
            (Nat.lt_trans fits (by decide)) rest
  | chunked body =>
      obtain ⟨hasBody, ⟨item, member, chunked⟩, unsized⟩ := announced
      have found : headers.any HeaderItem.isChunked = true :=
        List.any_eq_true.mpr ⟨item, member, chunked⟩
      rw [foldl_announce_chunked _ hasBody unsized, found]
      exact chunked_completes _ 0 body rfl rest

namespace WrittenRequest

/-- The request as the parser should deliver it, with so many bytes behind it. -/
def parsed (request : WrittenRequest) (left : Nat) : HttpRequest :=
  let head : HttpRequest :=
    ⟨request.method, request.uri, Int32.ofNat (numeral 10 request.major),
      Int32.ofNat (numeral 10 request.minor), request.headers, [], false, 0, [], []⟩
  { head with
    content := request.body.content
    keepAlive := keepAlive head
    remainSize := Int32.ofNat left }

/-- The request as the parser has it behind the request line. -/
def lineParsed (request : WrittenRequest) : HttpRequest :=
  ⟨request.method, request.uri, Int32.ofNat (numeral 10 request.major),
    Int32.ofNat (numeral 10 request.minor), [], [], false, 0, [], []⟩

theorem line_passes (request : WrittenRequest) :
    Machine.Passes step ⟨.fresh, .empty⟩ request.line
      ⟨HttpRequestParser.fresh.at .headerLineStart, request.lineParsed⟩ :=
  requestLine_passes request.method_ne request.method_token request.uri_ne
    request.uri_plain request.major_numeral request.minor_numeral

/-- A fresh parser completes a written request with its last byte, whatever comes
behind it, and delivers what was written. -/
theorem completes (request : WrittenRequest) (rest : Str) :
    consume ⟨.fresh, .empty⟩ (request.bytes ++ rest) =
      ⟨⟨request.body.parserAfter, request.parsed rest.length⟩,
        some .parsingCompleted, rest⟩ := by
  have headers := headLines_passes request.lineParsed .fresh rfl
    fun item member => ⟨request.headers_wf item member, request.announced.reserves member⟩
  have bytes : request.bytes ++ rest =
      request.line ++ (request.headers.flatMap HeaderItem.bytes ++ [13]) ++
        (10 :: (request.body.bytes ++ rest)) := by
    simp [WrittenRequest.bytes, crlf]
  rw [bytes]
  refine ((request.line_passes.append headers) _).trans ?_
  exact body_completes _ request.announced rfl rest

theorem parse_bytes (request : WrittenRequest) :
    HttpRequestParser.fresh.parse request.bytes =
      ⟨request.body.parserAfter, request.parsed 0, some .parsingCompleted, []⟩ := by
  have completes := request.completes []
  rw [List.append_nil] at completes
  rw [HttpRequestParser.parse, completes]
  rfl

/-- A request starts with its method and a blank. -/
theorem bytes_method (request : WrittenRequest) :
    ∃ rest, request.bytes = request.method ++ 32 :: rest := by
  refine ⟨?_, ?_⟩
  rotate_left
  · simp only [bytes, line, List.append_assoc, List.singleton_append]
    rfl

/-- A request starts with a character of its method. -/
theorem bytes_head (request : WrittenRequest) :
    ∃ first rest, request.bytes = first :: rest ∧ isToken first := by
  obtain ⟨first, rest, method⟩ := List.exists_cons_of_ne_nil request.method_ne
  obtain ⟨more, bytes⟩ := request.bytes_method
  rw [method] at bytes
  refine ⟨first, rest ++ 32 :: more, bytes, request.method_token first ?_⟩
  rw [method]
  exact List.mem_cons_self

/-- The first read of a connection, when it returns the whole request. -/
def wholeRead (request : WrittenRequest) (handles : Str → Bool) :
    Read HttpRequestParser where
  before := ⟨requestParser.fresh, []⟩
  data := request.bytes
  text := request.bytes
  parsed := ⟨request.body.parserAfter, request.parsed 0, some .parsingCompleted, []⟩
  after := ⟨request.body.parserAfter, []⟩
  event := some (answer handles (request.parsed 0))
  again := (answer handles (request.parsed 0)).again

theorem onRead_whole (request : WrittenRequest) (handles : Str → Bool) :
    onRead requestParser handles ⟨requestParser.fresh, []⟩ request.bytes =
      request.wholeRead handles := by
  have parse : requestParser.parse requestParser.fresh request.bytes =
      ⟨request.body.parserAfter, request.parsed 0, some .parsingCompleted, []⟩ :=
    request.parse_bytes
  have remain : (request.parsed 0).remain = 0 := rfl
  have remaining : remaining (request.parsed 0) request.bytes = request.parsed 0 := by
    rw [Http.remaining, remain, if_neg (by omega)]
  simp only [onRead, buffered, List.length_nil, Nat.lt_irrefl, if_false, parse, remaining,
    remain, gt_iff_lt, Nat.not_lt_zero]
  rfl

theorem runFresh_whole (request : WrittenRequest) (handles : Str → Bool) :
    runFresh requestParser handles [request.bytes] = [request.wholeRead handles] := by
  rw [runFresh, run, run, ite_self, onRead_whole]

end WrittenRequest

end Nicenet.Http
