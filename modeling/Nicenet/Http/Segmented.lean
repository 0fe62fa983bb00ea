import Nicenet.Http.Completes

/-!
# Requests that arrive in pieces

The parser keeps its state between two reads, the request it fills does not: each
read starts with an empty one. Behind the first piece of a request the parser has
taken a character of its method at least, and it never goes back to the start of a
request, so a request that is completed later on has a shorter method.
-/

namespace Nicenet.Http

open Library

/-! ## The method is read once -/

/-- A parser that has read the method, with what it made of it. -/
structure PastMethod (method : Str) (s : Parsing) : Prop where
  started : s.parser.state ≠ .requestMethodStart
  read : s.parser.state ≠ .requestMethod
  method_eq : s.req.method = method

namespace PastMethod

variable {method : Str} {s : Parsing}

theorem back (past : PastMethod method s) (change : HeaderItem → HeaderItem)
    {state : State} (started : state ≠ .requestMethodStart)
    (read : state ≠ .requestMethod) : PastMethod method (s.back change state).state := by
  rw [Parsing.back]
  split
  · exact past
  · exact ⟨started, read, past.method_eq⟩

theorem expect (past : PastMethod method s) {next : Parsing}
    (pastNext : PastMethod method next) (input wanted : UInt8) :
    PastMethod method (expect s input wanted next).state := by
  rw [Http.expect]
  split
  · exact pastNext
  · exact past

theorem headerEnd (past : PastMethod method s) : PastMethod method (headerEnd s).state := by
  simp only [Http.headerEnd]
  repeat' split
  all_goals first
    | exact ⟨past.started, past.read, past.method_eq⟩
    | exact ⟨State.noConfusion, State.noConfusion, past.method_eq⟩

theorem headersEnd (past : PastMethod method s) (input : UInt8) (left : Nat) :
    PastMethod method (headersEnd s input left).state := by
  simp only [Http.headersEnd]
  repeat' split
  all_goals first
    | exact ⟨past.started, past.read, past.method_eq⟩
    | exact ⟨State.noConfusion, State.noConfusion, past.method_eq⟩

theorem chunkSizeEnd (past : PastMethod method s) :
    PastMethod method (chunkSizeEnd s).state := by
  simp only [Http.chunkSizeEnd]
  repeat' split
  all_goals first
    | exact ⟨past.started, past.read, past.method_eq⟩
    | exact ⟨State.noConfusion, State.noConfusion, past.method_eq⟩

/-- No step goes back to the method. -/
theorem step (past : PastMethod method s) (input : UInt8) (left : Nat) :
    PastMethod method (step s input left).state := by
  have stays : PastMethod method s.error.state := past
  generalize start : s.parser.state = state
  rw [Http.step, start]
  cases state <;> simp only
  case requestMethodStart => exact absurd start past.started
  case requestMethod => exact absurd start past.read
  case headerLws =>
      repeat' split
      · exact ⟨State.noConfusion, State.noConfusion, past.method_eq⟩
      · exact past
      · exact past
      · exact past.back _ State.noConfusion State.noConfusion
  case headerName =>
      repeat' split
      · exact ⟨State.noConfusion, State.noConfusion, past.method_eq⟩
      · exact past
      · exact past.back _ State.noConfusion State.noConfusion
  case headerValue =>
      repeat' split
      · exact past.headerEnd
      · exact past
      · exact past.back _ State.noConfusion State.noConfusion
  case expectingNewline_3 => exact past.headersEnd input left
  case chunkSizeNewLine =>
      split
      · exact past.chunkSizeEnd
      · exact past
  all_goals
    try apply past.expect
    repeat' split
  all_goals first
    | exact stays
    | exact ⟨State.noConfusion, State.noConfusion, past.method_eq⟩
    | exact ⟨past.started, past.read, past.method_eq⟩

end PastMethod

/-- What a parser does that is reading the method: it reads on to the end of the text,
it meets a character that no method has, or it gets past the method at a blank. -/
theorem consume_method (s : Parsing) (reading : s.parser.state = .requestMethod)
    (text : Str) :
    ((consume s text).result = none ∧
      (consume s text).state.parser.state = .requestMethod ∧ 32 ∉ text) ∨
    (consume s text).result = some .parsingError ∨
    PastMethod (s.req.method ++ text.takeWhile (· ≠ 32)) (consume s text).state := by
  induction text generalizing s with
  | nil => exact .inl ⟨rfl, reading, List.not_mem_nil⟩
  | cons c text ih =>
      have move : step s c text.length =
          if c = 32 then .next (s.goto .requestUriStart)
          else if !isToken c then s.error
          else .next (s.pushMethod c) := by
        rw [step, reading]
      by_cases blank : c = 32
      · right
        right
        rw [if_pos blank] at move
        rw [consume, Machine.consume_next step move,
          List.takeWhile_cons_of_neg (by simp [blank]), List.append_nil]
        exact Machine.consume_keeps step (fun _ input left past => past.step input left)
          ⟨State.noConfusion, State.noConfusion, rfl⟩ text
      · rw [if_neg blank] at move
        by_cases token : isToken c
        · rw [token] at move
          rw [consume, Machine.consume_next step move,
            List.takeWhile_cons_of_pos (by simp [blank])]
          rcases ih (s.pushMethod c) reading with ⟨waits, still, free⟩ | fails | past
          · refine .inl ⟨waits, still, ?_⟩
            rw [List.mem_cons, not_or]
            exact ⟨fun same => blank same.symm, free⟩
          · exact .inr (.inl fails)
          · right
            right
            rw [Parsing.pushMethod, List.append_assoc] at past
            exact past
        · right
          left
          rw [Bool.eq_false_iff.mpr token] at move
          have stop : step s c text.length = .stop s .parsingError := move
          rw [consume, Machine.consume_stop step stop]

/-- The symbols that come behind matter to `remainSize` alone. -/
theorem step_uniform : Machine.Uniform step := by
  intro s input left other
  have completed : ∀ s : Parsing,
      (s.completed left).outline = (s.completed other).outline := fun _ => rfl
  generalize start : s.parser.state = state
  rw [step, step, start]
  cases state <;> try rfl
  case requestUri =>
      simp only
      repeat' split
      all_goals first | exact completed _ | rfl
  case expectingNewline_3 =>
      simp only [headersEnd]
      repeat' split
      all_goals first | exact completed _ | rfl
  case post =>
      simp only
      split
      · exact completed _
      · rfl
  case chunkSizeNewLine_3 =>
      simp only
      split
      · exact completed _
      · rfl

/-! ## Reads behind the first piece -/

/-- A connection behind the first piece of a request: the parser is past the method,
or it will take at most `bound` more characters for it. -/
def Behind (bound : Nat) (conn : HttpConnection HttpRequestParser) (ahead : Str) : Prop :=
  conn.parser.state ≠ .requestMethodStart ∧
    (conn.parser.state = .requestMethod →
      conn.buffer = [] ∧ (ahead.takeWhile (· ≠ 32)).length ≤ bound)

theorem takeWhile_append_of_free {front : Str} (free : 32 ∉ front) (back : Str) :
    (front ++ back).takeWhile (· ≠ 32) = front ++ back.takeWhile (· ≠ 32) := by
  rw [List.takeWhile_append_of_pos]
  intro c member
  exact decide_eq_true fun same => free (same ▸ member)

theorem length_takeWhile_append (front back : Str) :
    (front.takeWhile (· ≠ 32)).length ≤ ((front ++ back).takeWhile (· ≠ 32)).length := by
  rw [List.takeWhile_append]
  split
  · rw [List.length_append]
    omega
  · exact Nat.le_refl _

variable {handles : Str → Bool} {bound : Nat} {conn : HttpConnection HttpRequestParser}

/-- A parser past the method stays behind. -/
theorem PastMethod.behind {method : Str} {s : Parsing} (past : PastMethod method s)
    (conn : HttpConnection HttpRequestParser) (same : conn.parser = s.parser)
    (bound : Nat) (ahead : Str) : Behind bound conn ahead := by
  rw [Behind, same]
  exact ⟨past.started, fun reading => absurd reading past.read⟩

variable (handles) in
/-- The parser behind a read. -/
theorem parser_onRead (conn : HttpConnection HttpRequestParser) (data : Str) :
    (onRead requestParser handles conn data).after.parser =
      (consume ⟨conn.parser, .empty⟩ (buffered conn data).2).state.parser := by
  rw [after_parser_eq, onRead_parsed]
  rfl

variable (handles) in
/-- A read with a parser past the method: the request it fills has none. -/
theorem onRead_past {data : Str} (started : conn.parser.state ≠ .requestMethodStart)
    (read : conn.parser.state ≠ .requestMethod) (bound : Nat) (ahead : Str) :
    (onRead requestParser handles conn data).parsed.request.method = [] ∧
      Behind bound (onRead requestParser handles conn data).after ahead := by
  have past : PastMethod []
      (consume ⟨conn.parser, .empty⟩ (buffered conn data).2).state :=
    Machine.consume_keeps step (fun _ input left past => past.step input left)
      ⟨started, read, rfl⟩ _
  refine ⟨?_, past.behind _ (parser_onRead handles conn data) bound ahead⟩
  rw [onRead_parsed]
  exact past.method_eq

variable (handles) in
/-- A read with a parser in the method: it stays there only for lack of bytes, and a
request that is completed has the characters up to the blank. -/
theorem onRead_reading {data ahead : Str} (reading : conn.parser.state = .requestMethod)
    (idle : conn.buffer = [])
    (short : ((data ++ ahead).takeWhile (· ≠ 32)).length ≤ bound) :
    ((onRead requestParser handles conn data).parsed.result = some .parsingCompleted →
      (onRead requestParser handles conn data).parsed.request.method.length ≤ bound) ∧
    ((onRead requestParser handles conn data).again = true →
      Behind bound (onRead requestParser handles conn data).after ahead) := by
  have parsed : (onRead requestParser handles conn data).parsed =
      conn.parser.parse data := by
    rw [onRead_parsed, buffered_idle idle]
    rfl
  have after := parser_onRead handles conn data
  rw [buffered_idle idle] at after
  rcases consume_method ⟨conn.parser, .empty⟩ reading data with
    ⟨waits, still, free⟩ | fails | past
  · have waits : (onRead requestParser handles conn data).parsed.result = none := by
      rw [parsed]
      exact waits
    constructor
    · intro completed
      exact absurd (waits.symm.trans completed) (Option.some_ne_none _).symm
    · intro again
      have kept := (onRead_waits again (by rw [waits]; simp)).2
      rw [buffered_idle idle] at kept
      refine ⟨?_, fun _ => ⟨kept, ?_⟩⟩
      · rw [after]
        exact fun start => State.noConfusion (still.symm.trans start)
      · rw [takeWhile_append_of_free free, List.length_append] at short
        omega
  · have fails : (onRead requestParser handles conn data).parsed.result =
        some .parsingError := by
      rw [parsed]
      exact fails
    constructor
    · intro completed
      exact absurd (fails.symm.trans completed) (by decide)
    · intro again
      have waits := (onRead_waits again (by rw [fails]; decide)).1
      exact absurd (fails.symm.trans waits) (Option.some_ne_none _)
  · constructor
    · intro _
      have method : (conn.parser.parse data).request.method = data.takeWhile (· ≠ 32) :=
        past.method_eq
      rw [parsed, method]
      exact Nat.le_trans (length_takeWhile_append data ahead) short
    · intro _
      exact past.behind _ after bound ahead

variable (handles) in
/-- A read behind the first piece: a request it completes has a short method, and
reads that follow are behind the first piece as well. -/
theorem Behind.onRead {data ahead : Str} (behind : Behind bound conn (data ++ ahead)) :
    ((onRead requestParser handles conn data).parsed.result = some .parsingCompleted →
      (onRead requestParser handles conn data).parsed.request.method.length ≤ bound) ∧
    ((onRead requestParser handles conn data).again = true →
      Behind bound (onRead requestParser handles conn data).after ahead) := by
  by_cases reading : conn.parser.state = .requestMethod
  · obtain ⟨idle, short⟩ := behind.2 reading
    exact onRead_reading handles reading idle short
  · obtain ⟨method, later⟩ := onRead_past handles behind.1 reading bound ahead
    refine ⟨fun _ => ?_, fun _ => later⟩
    rw [method]
    exact Nat.zero_le bound

/-- No read behind the first piece completes a request with the whole method. -/
theorem Behind.run {reads : List Str} (behind : Behind bound conn reads.flatten) :
    ∀ read ∈ run requestParser handles conn reads,
      read.parsed.result = some .parsingCompleted →
        read.parsed.request.method.length ≤ bound := by
  induction reads generalizing conn with
  | nil =>
      intro read member
      exact absurd member List.not_mem_nil
  | cons data reads ih =>
      rw [List.flatten_cons] at behind
      obtain ⟨short, later⟩ := behind.onRead handles
      rw [Http.run]
      intro read member
      rcases List.mem_cons.mp member with rfl | member
      · exact short
      · split at member
        · next again => exact ih (later again) read member
        · exact absurd member List.not_mem_nil

/-! ## Segmentation -/

/-- Two requests that agree in what the handler is promised. -/
def HttpRequest.Agrees (request other : HttpRequest) : Prop :=
  request.method = other.method ∧ request.uri = other.uri ∧
    request.versionMajor = other.versionMajor ∧
    request.versionMinor = other.versionMinor ∧ request.headers = other.headers ∧
    request.params = other.params ∧ request.content = other.content

/-- A request that arrives in pieces is understood: it is posted once and agrees with
what a parser makes of all its bytes, and `headers.back()` of no headers is never
taken. -/
def Understood (handles : Str → Bool) (request : WrittenRequest) (chunks : List Str) :
    Prop :=
  (∃ posted : HttpRequest,
    (runFresh requestParser handles chunks).filterMap Read.event = [.posted posted] ∧
    posted.Agrees (splitUri (HttpRequestParser.fresh.parse request.bytes).request)) ∧
  ∀ read ∈ runFresh requestParser handles chunks,
    read.parsed.result ≠ some .emptyBack

theorem blank_not_mem_method (request : WrittenRequest) : 32 ∉ request.method :=
  fun member => absurd (request.method_token 32 member) (by decide)

/-- A proper first piece of a request does not end the parse. -/
theorem first_running {request : WrittenRequest} {chunk ahead : Str}
    (more : ahead ≠ []) (cut : chunk ++ ahead = request.bytes) :
    (consume ⟨.fresh, .empty⟩ chunk).result = none := by
  have whole := request.completes []
  rw [List.append_nil, ← cut] at whole
  apply step_uniform.running
  rw [show Machine.consume step _ (chunk ++ ahead) = _ from whole]
  exact List.length_pos_iff.mpr more

/-- Behind the first character the parser reads the rest of the method. -/
theorem consume_first {first : UInt8} (token : isToken first) (rest : Str) :
    consume ⟨.fresh, .empty⟩ (first :: rest) =
      consume ⟨HttpRequestParser.fresh.at .requestMethod,
        { HttpRequest.empty with method := [first] }⟩ rest := by
  apply Machine.consume_next
  simp only [step, HttpRequestParser.fresh, token]
  rfl

variable (handles) in
/-- The first piece of a request leaves the connection behind it. -/
theorem behind_first {request : WrittenRequest} {chunk ahead : Str}
    (ne : chunk ≠ []) (more : ahead ≠ []) (cut : chunk ++ ahead = request.bytes) :
    (onRead requestParser handles ⟨.fresh, []⟩ chunk).parsed.result = none ∧
    ((onRead requestParser handles ⟨.fresh, []⟩ chunk).again = true →
      Behind (request.method.length - 1)
        (onRead requestParser handles ⟨.fresh, []⟩ chunk).after ahead) := by
  have running := first_running more cut
  have parsed : (onRead requestParser handles ⟨.fresh, []⟩ chunk).parsed =
      HttpRequestParser.fresh.parse chunk := onRead_parsed
  have waits : (onRead requestParser handles ⟨.fresh, []⟩ chunk).parsed.result = none := by
    rw [parsed]
    exact running
  refine ⟨waits, fun again => ?_⟩
  have after := parser_onRead handles ⟨.fresh, []⟩ chunk
  rw [buffered_idle rfl] at after
  obtain ⟨first, rest, rfl⟩ := List.exists_cons_of_ne_nil ne
  obtain ⟨tail, bytes⟩ := request.bytes_method
  obtain ⟨head, others, same, token⟩ := request.bytes_head
  obtain rfl : head = first := (List.cons.inj (cut.trans same)).1.symm
  rw [consume_first token] at after running
  rcases consume_method ⟨HttpRequestParser.fresh.at .requestMethod,
    { HttpRequest.empty with method := [head] }⟩ rfl rest with
    ⟨_, still, free⟩ | fails | past
  · have kept := (onRead_waits again (by rw [waits]; simp)).2
    refine ⟨?_, fun _ => ⟨kept, ?_⟩⟩
    · rw [after]
      exact fun start => State.noConfusion (still.symm.trans start)
    · have blank : (32 : UInt8) ≠ head := fun same => absurd token (by rw [← same]; decide)
      have free : 32 ∉ head :: rest := by
        rw [List.mem_cons, not_or]
        exact ⟨blank, free⟩
      have method : (head :: rest) ++ ahead.takeWhile (· ≠ 32) = request.method := by
        rw [← takeWhile_append_of_free free, cut, bytes,
          takeWhile_append_of_free (blank_not_mem_method request)]
        simp
      rw [← method, List.length_append, List.length_cons]
      omega
  · rw [running] at fails
    exact absurd fails (Option.some_ne_none _).symm
  · exact past.behind _ after _ ahead

/-- In pieces a request is not understood. -/
theorem not_understood {request : WrittenRequest} {chunk second : Str}
    {chunks : List Str} (ne : chunk ≠ []) (more : second ≠ [])
    (cut : (chunk :: second :: chunks).flatten = request.bytes) :
    ¬Understood handles request (chunk :: second :: chunks) := by
  rintro ⟨⟨posted, events, agrees, _⟩, _⟩
  have ahead : (second :: chunks).flatten ≠ [] := by
    rw [List.flatten_cons]
    exact List.append_ne_nil_of_left_ne_nil more _
  obtain ⟨waits, behind⟩ := behind_first handles ne ahead cut
  have answered : Event.posted posted ∈
      (runFresh requestParser handles (chunk :: second :: chunks)).filterMap Read.event := by
    rw [events]
    exact List.mem_cons_self
  obtain ⟨read, member, event⟩ := List.mem_filterMap.mp answered
  obtain ⟨conn, data, rfl⟩ := mem_run member
  have completed := (onRead_event event).1
  have method := posted_method event
  have whole : (HttpRequestParser.fresh.parse request.bytes).request.method =
      request.method := by
    rw [request.parse_bytes]
    rfl
  rw [agrees, splitUri_method, whole] at method
  rw [runFresh, run] at member
  rcases List.mem_cons.mp member with same | member
  · rw [same] at completed
    exact absurd (waits.symm.trans completed) (Option.some_ne_none _).symm
  · split at member
    · next again =>
      have short := (behind again).run _ member completed
      rw [← method] at short
      have long := List.length_pos_iff.mpr request.method_ne
      omega
    · exact absurd member List.not_mem_nil

/-- In one piece it is. -/
theorem understood_single {request : WrittenRequest}
    (registered : handles
      (splitUri (HttpRequestParser.fresh.parse request.bytes).request).uri = true) :
    Understood handles request [request.bytes] := by
  rw [request.parse_bytes] at registered
  have posted : answer handles (request.parsed 0) =
      .posted (splitUri (request.parsed 0)) := by
    rw [answer]
    exact if_pos registered
  rw [Understood, request.runFresh_whole, request.parse_bytes]
  constructor
  · refine ⟨splitUri (request.parsed 0), ?_, rfl, rfl, rfl, rfl, rfl, rfl, rfl⟩
    rw [← posted]
    rfl
  · intro read member
    rw [List.mem_singleton.mp member]
    exact fun same => Stop.noConfusion (Option.some.inj same)

/-- Whatever handler is registered for its URI, a request is understood exactly if it
arrives in one piece. -/
theorem understood_iff (handles : Str → Bool) (request : WrittenRequest)
    {chunks : List Str}
    (registered : handles
      (splitUri (HttpRequestParser.fresh.parse request.bytes).request).uri = true)
    (legal : ∀ chunk ∈ chunks, IsChunk chunk) (cut : chunks.flatten = request.bytes) :
    Understood handles request chunks ↔ chunks.length = 1 := by
  have nonempty : ∀ chunk ∈ chunks, chunk ≠ [] := fun chunk member =>
    List.ne_nil_of_length_pos (legal chunk member).1
  rcases chunks with _ | ⟨chunk, _ | ⟨second, chunks⟩⟩
  · obtain ⟨first, rest, bytes, _⟩ := request.bytes_head
    rw [bytes] at cut
    exact absurd cut (List.cons_ne_nil first rest).symm
  · rw [List.flatten_singleton] at cut
    rw [cut]
    exact ⟨fun _ => rfl, fun _ => understood_single registered⟩
  · constructor
    · intro understood
      exact absurd understood (not_understood (nonempty chunk List.mem_cons_self)
        (nonempty second (by simp)) cut)
    · intro one
      exact absurd one (by simp)

/-- A request that arrives in one piece is understood. -/
theorem understood_whole : Understood (fun _ => true) getRoot [getRoot.bytes] :=
  (understood_iff (fun _ => true) getRoot rfl (by decide) rfl).mpr rfl

/-- With its first byte in a piece of its own it is not. -/
theorem understood_split :
    (∀ chunk ∈ [getRoot.bytes.take 1, getRoot.bytes.drop 1], IsChunk chunk) ∧
    [getRoot.bytes.take 1, getRoot.bytes.drop 1].flatten = getRoot.bytes ∧
    ¬Understood (fun _ => true) getRoot [getRoot.bytes.take 1, getRoot.bytes.drop 1] :=
  ⟨by decide, by decide, not_understood (by decide) (by decide) (by decide)⟩

end Nicenet.Http
