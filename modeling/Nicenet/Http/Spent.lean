import Nicenet.Http.Answering
import Nicenet.Http.Segmented

/-!
# A connection behind its first request

The parser of a connection is not reset, and each read has a request of its own. A request
that keeps the connection open leaves the parser behind the request line for good, so
whatever comes in after it completes at most a request with nothing but content in it. That
request does not keep the connection open.
-/

namespace Nicenet.Http

open Library

/-- The states that read the method and the URI. -/
def State.inLine : State → Bool
  | .requestMethodStart | .requestMethod | .requestUriStart | .requestUri => true
  | _ => false

/-- There is nothing but content in a request. -/
structure HttpRequest.Bare (req : HttpRequest) : Prop where
  method : req.method = []
  uri : req.uri = []
  versionMajor : req.versionMajor = 0
  versionMinor : req.versionMinor = 0
  headers : req.headers = []
  keepAlive : req.keepAlive = false

/-- The states that a parser completes a request in, but for a request line without a version. -/
inductive HttpRequestParser.Spent (parser : HttpRequestParser) : Prop where
  | head (state : parser.state = .expectingNewline_3) (chunked : parser.chunked = false)
      (contentSize : parser.contentSize = 0)
  | post (state : parser.state = .post)
  | chunks (state : parser.state = .chunkSizeNewLine_3)

theorem bare_empty : HttpRequest.empty.Bare := ⟨rfl, rfl, rfl, rfl, rfl, rfl⟩

/-- Without a version and a header, a request does not ask for more. -/
theorem HttpRequest.Bare.keepAlive_eq {req : HttpRequest} (bare : req.Bare) :
    Http.keepAlive req = false := by
  simp [Http.keepAlive, bare.headers, bare.versionMajor, bare.keepAlive]

/-! ## Steps behind the first request -/

/-- The request stays bare, and the parser does not get back to the request line. -/
theorem step_spent {s : Parsing} {input : UInt8} {left : Nat} (spent : s.parser.Spent)
    (bare : s.req.Bare) :
    (step s input left).state.parser.Spent ∧ (step s input left).state.req.Bare := by
  cases spent with
  | head state chunked contentSize =>
      have kept : HttpRequest.Bare { s.req with keepAlive := keepAlive s.req } :=
        { bare with keepAlive := bare.keepAlive_eq }
      simp only [step, state, headersEnd, chunked, contentSize, Bool.false_eq_true, if_false,
        if_true]
      split
      · exact ⟨.head state chunked contentSize, { kept with }⟩
      · exact ⟨.head state chunked contentSize, kept⟩
  | post state =>
      simp only [step, state]
      split
      · exact ⟨.post rfl, { bare with }⟩
      · exact ⟨.post rfl, { bare with }⟩
  | chunks state =>
      simp only [step, state]
      split
      · exact ⟨.chunks state, { bare with }⟩
      · exact ⟨.chunks state, bare⟩

theorem parse_spent {parser : HttpRequestParser} (spent : parser.Spent) (text : Str) :
    (parser.parse text).parser.Spent ∧ (parser.parse text).request.Bare :=
  @Machine.consume_keeps Parsing UInt8 Stop step (fun s => s.parser.Spent ∧ s.req.Bare)
    (fun _ _ _ holds => step_spent holds.1 holds.2) ⟨parser, .empty⟩ ⟨spent, bare_empty⟩ text

/-! ## Steps of the first request -/

section Step

variable {s next : Parsing} {input : UInt8} {left : Nat}

/-- The parser is behind the request line. -/
def Past (s : Parsing) : Prop := s.parser.state.inLine = false

theorem expect_past {wanted : UInt8} (behind : Past s) (after : Past next) :
    Past (expect s input wanted next).state := by
  rw [expect]
  split
  · exact after
  · exact behind

theorem back_past {change : HeaderItem → HeaderItem} {state : State} (behind : Past s)
    (after : state.inLine = false) : Past (s.back change state).state := by
  rw [Parsing.back]
  split
  · exact behind
  · exact after

theorem headerEnd_past (behind : Past s) : Past (headerEnd s).state := by
  simp only [headerEnd]
  repeat' split
  all_goals first
    | rfl
    | exact behind

theorem headersEnd_past (behind : Past s) : Past (headersEnd s input left).state := by
  simp only [headersEnd]
  repeat' split
  all_goals first
    | rfl
    | exact behind

theorem chunkSizeEnd_past (behind : Past s) : Past (chunkSizeEnd s).state := by
  simp only [chunkSizeEnd]
  repeat' split
  all_goals first
    | rfl
    | exact behind

/-- No step gets back to the request line. -/
theorem step_past (behind : Past s) : Past (step s input left).state := by
  have inside := behind
  rw [Past] at inside
  rw [step]
  cases state : s.parser.state
  all_goals simp only [state, State.inLine, reduceCtorEq] at inside
  all_goals dsimp only
  case headerValue =>
      repeat' split
      · exact headerEnd_past behind
      · exact behind
      · exact back_past behind rfl
  case expectingNewline_3 => exact headersEnd_past behind
  case chunkSizeNewLine =>
      split
      · exact chunkSizeEnd_past behind
      · exact behind
  all_goals repeat' split
  all_goals first
    | rfl
    | exact behind
    | exact expect_past behind rfl
    | exact back_past behind rfl

/-- In the request line, whether the connection is kept open is not known yet. -/
def Early (s : Parsing) : Prop := s.parser.state.inLine = true → s.req.keepAlive = false

theorem step_early (early : Early s) : Early (step s input left).state := by
  cases inside : s.parser.state.inLine with
  | true =>
      have unknown := early inside
      rw [step]
      cases state : s.parser.state
      all_goals simp only [state, State.inLine, reduceCtorEq] at inside
      all_goals dsimp only
      all_goals repeat' split
      all_goals exact fun _ => unknown
  | false =>
      intro line
      exact absurd ((step_past inside).symm.trans line) Bool.false_ne_true

/-- A request that keeps the connection open is completed behind the request line. -/
theorem completed_spent (early : Early s) (stop : step s input left = .stop next .parsingCompleted)
    (alive : next.req.keepAlive = true) : next.parser.Spent := by
  rw [step] at stop
  cases state : s.parser.state <;> simp only [state, Parsing.error] at stop
  case requestUri =>
      have unknown := early (by rw [state]; rfl)
      repeat' split at stop
      all_goals cases stop
      cases unknown.symm.trans alive
  case expectingNewline_3 =>
      simp only [headersEnd, Parsing.error] at stop
      repeat' split at stop
      all_goals cases stop
      exact .head state (Bool.eq_false_iff.mpr ‹_›) ‹_›
  case post =>
      split at stop
      · cases stop
        exact .post rfl
      · cases stop
  case chunkSizeNewLine_3 =>
      split at stop
      · cases stop
        exact .chunks state
      · cases stop
  all_goals
    repeat' split at stop
  all_goals simp only [Machine.Move.stop.injEq, reduceCtorEq, and_false,
    expect_ne_completed, back_ne_completed, headerEnd_ne_completed,
    chunkSizeEnd_ne_completed] at stop

end Step

/-- The request that is answered. -/
def Event.request : Event → HttpRequest
  | .posted request | .notFound request => request

/-! ## Reads -/

section Reads

variable {handles : Str → Bool} {conn : HttpConnection HttpRequestParser} {data : Str}

theorem answer_request (request : HttpRequest) :
    (answer handles request).request = splitUri request := by
  simp only [answer]
  split
  · rfl
  · rfl

theorem again_keepAlive {event : Event} (again : event.again = true) :
    event.request.keepAlive = true := by
  cases event with
  | posted request => exact again
  | notFound request => cases again

theorem splitUri_keepAlive (request : HttpRequest) :
    (splitUri request).keepAlive = request.keepAlive := by
  simp only [splitUri]
  split
  · rfl
  · rfl

theorem remaining_keepAlive (request : HttpRequest) :
    (remaining request data).keepAlive = request.keepAlive := by
  rw [remaining]
  split
  · rfl
  · rfl

theorem remaining_bare {request : HttpRequest} (bare : request.Bare) :
    (remaining request data).Bare := by
  rw [remaining]
  split
  · exact { bare with }
  · exact bare

theorem splitUri_bare {request : HttpRequest} (bare : request.Bare) : (splitUri request).Bare := by
  have single : splitString [] 63 = [[]] := by decide
  simp only [splitUri, bare.uri, single]
  exact { bare with uri := rfl }

theorem onRead_again {event : Event}
    (answered : (onRead requestParser handles conn data).event = some event) :
    (onRead requestParser handles conn data).again = event.again := by
  revert answered
  simp only [onRead]
  repeat' split
  all_goals intro answered
  all_goals cases answered
  all_goals rfl

/-- A first request that keeps the connection open leaves the parser spent. -/
theorem onRead_spent {event : Event}
    (answered : (onRead requestParser handles conn data).event = some event)
    (again : event.again = true) : (onRead requestParser handles conn data).after.parser.Spent := by
  obtain ⟨completed, same⟩ := onRead_event answered
  have alive := again_keepAlive again
  rw [← same, answer_request, splitUri_keepAlive, remaining_keepAlive] at alive
  rw [after_parser_eq]
  rw [onRead_parsed] at completed alive ⊢
  obtain ⟨front, symbol, before, -, run, last⟩ := step_uniform.last_step completed
  have early := @Machine.consume_keeps Parsing UInt8 Stop step Early (fun _ _ _ => step_early)
    ⟨conn.parser, .empty⟩ (fun _ => rfl) front
  rw [run] at early
  exact completed_spent early last alive

end Reads

/-! ## Runs -/

namespace Answering

variable {handles : Str → Bool} {s next : Answering HttpRequestParser}

/-- How far a connection has come: to its first request, to the one behind it, or to its end. -/
inductive Progress (s : Answering HttpRequestParser) : Prop where
  | none (requests : s.requests = [])
  | one (event : Event) (requests : s.requests = [event])
      (spent : s.reading = true → s.conn.parser.Spent)
  | two (first second : Event) (requests : s.requests = [first, second])
      (bare : second.request.Bare) (reading : s.reading = false)

theorem request_requests (event : Event) : (s.request event).requests = s.requests ++ [event] := by
  cases event with
  | posted request => rfl
  | notFound request => rfl

theorem request_reading (event : Event) : (s.request event).reading = s.reading := by
  cases event with
  | posted request => rfl
  | notFound request => rfl

theorem request_conn (event : Event) : (s.request event).conn = s.conn := by
  cases event with
  | posted request => rfl
  | notFound request => rfl

theorem read_progress (progress : s.Progress) (reading : s.reading = true) (data : Str) :
    (s.read requestParser handles data).Progress := by
  have parsed := @onRead_parsed _ requestParser handles s.conn data
  have parser := @after_parser_eq _ requestParser handles s.conn data
  rw [parsed] at parser
  simp only [read]
  cases answered : (onRead requestParser handles s.conn data).event with
  | none =>
      cases progress with
      | none requests => exact .none requests
      | one event requests spent =>
          refine .one event requests fun _ => ?_
          rw [parser]
          exact (parse_spent (spent reading) _).1
      | two first second requests bare stopped => cases stopped.symm.trans reading
  | some event =>
      have again := onRead_again answered
      cases progress with
      | none requests =>
          refine .one event ?_ fun alive => ?_
          · rw [request_requests]
            exact congrArg (· ++ [event]) requests
          · rw [request_reading, again] at alive
            rw [request_conn]
            exact onRead_spent answered alive
      | one first requests spent =>
          have bare : event.request.Bare := by
            rw [← (onRead_event answered).2, answer_request, parsed]
            exact splitUri_bare (remaining_bare (parse_spent (spent reading) _).2)
          refine .two first event ?_ bare ?_
          · rw [request_requests]
            exact congrArg (· ++ [event]) requests
          · rw [request_reading, again]
            by_contra alive
            have keeps := again_keepAlive (Bool.eq_true_of_not_eq_false alive)
            cases bare.keepAlive.symm.trans keeps
      | two first second requests bare stopped => cases stopped.symm.trans reading

theorem step_progress {action : Action} (progress : s.Progress)
    (taken : s.step requestParser handles action = some next) : next.Progress := by
  have same {other : Answering HttpRequestParser} (conn : other.conn = s.conn)
      (reading : other.reading = s.reading) (requests : other.requests = s.requests) :
      other.Progress := by
    cases progress with
    | none none => exact .none (requests.trans none)
    | one event one spent =>
        refine .one event (requests.trans one) ?_
        rw [reading, conn]
        exact spent
    | two first second two bare stopped =>
        exact .two first second (requests.trans two) bare (reading.trans stopped)
  cases action with
  | read data =>
      simp only [step] at taken
      split at taken
      · next legal =>
        cases taken
        exact read_progress progress legal.1 data
      · cases taken
  | finish request response =>
      simp only [step] at taken
      split at taken
      · cases taken
        exact same rfl rfl rfl
      · cases taken
  | push =>
      obtain ⟨outgoing, -, rfl⟩ := Option.map_eq_some_iff.mp taken
      exact same rfl rfl rfl
  | complete index sentSize =>
      obtain ⟨outgoing, -, rfl⟩ := Option.map_eq_some_iff.mp taken
      exact same rfl rfl rfl

theorem progress_of_reachable (reachable : (system requestParser handles).Reachable s) :
    s.Progress := by
  apply reachable.invariant
  · rintro s rfl
    exact .none rfl
  · intro s action next progress taken
    exact step_progress progress taken

theorem Progress.length_le (progress : s.Progress) : s.requests.length ≤ 2 := by
  cases progress with
  | none requests => rw [requests]; decide
  | one event requests spent => rw [requests]; exact Nat.le_succ 1
  | two first second requests bare reading => rw [requests]; exact Nat.le_refl 2

/-- Whatever comes in, in whatever pieces, and in whatever order handlers finish and writes
complete: a connection completes at most two requests. The second one has no method, URI,
version or header, and behind it nothing is read, so only the first can be one for a handler
with a name. What is sent are texts of at most two responses, one for each request at most. -/
theorem answers_twice (reachable : (system requestParser handles).Reachable s) :
    s.requests.length ≤ 2 ∧
      (∀ first second, s.requests = [first, second] →
        second.request.Bare ∧ s.reading = false) ∧
      (∀ k event, s.requests[k]? = some event → event.request.uri ≠ [] → k = 0) ∧
      s.pushed.Nodup ∧ (∀ k ∈ s.pushed, k < s.requests.length) ∧
      s.outgoing.wire <+: s.outgoing.pushed.flatMap write := by
  have progress := progress_of_reachable reachable
  have sound := reachable_sound reachable
  have ordered : s.pushed ++ s.waiting = s.destroyed := by
    rw [pushed, waiting, destroyed, ← List.map_append, sound.outgoing.ordered]
  have answered := sound.answered
  rw [Answered, ← ordered, List.append_assoc] at answered
  have last {first second : Event} (requests : s.requests = [first, second]) :
      second.request.Bare ∧ s.reading = false := by
    cases progress with
    | none none => cases none.symm.trans requests
    | one event one spent => cases one.symm.trans requests
    | two first second two bare stopped =>
        cases two.symm.trans requests
        exact ⟨bare, stopped⟩
  refine ⟨progress.length_le, fun _ _ => last, fun k event found named => ?_, ?_,
    fun k member => ?_, ?_⟩
  · cases progress with
    | none none =>
        rw [none] at found
        cases found
    | one event one spent =>
        rw [one] at found
        exact Nat.lt_one_iff.mp (List.getElem?_eq_some_iff.mp found).1
    | two first second two bare stopped =>
        rw [two] at found
        rcases k with _ | _ | k
        · rfl
        · cases found
          exact absurd bare.uri named
        · cases found
  · exact (answered.nodup_iff.mpr List.nodup_range).of_append_left
  · exact List.mem_range.mp (answered.subset (List.mem_append_left _ member))
  · exact ⟨_, sound.outgoing.accounted⟩

/-- Behind a request that is kept open, a line feed completes another one. -/
theorem answers_twice_two : ∃ s : Answering HttpRequestParser, s.requests.length = 2 ∧
    s.reading = false := by
  have taken : (Transition.run (step requestParser root) (fresh requestParser)
      [.read getRoot.bytes, .read [10], .push]).map (fun s => s.requests.length) = some 2 := by
    decide +kernel
  obtain ⟨s, taken, two⟩ := Option.map_eq_some_iff.mp taken
  obtain ⟨first, second, requests⟩ := List.length_eq_two.mp two
  exact ⟨s, two, ((answers_twice (Transition.reachable_run taken)).2.1 first second requests).2⟩

end Answering

end Nicenet.Http
