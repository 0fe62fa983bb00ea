import Nicenet.Library.Transition
import Nicenet.Http.Numeral
import Nicenet.Http.Parser

/-!
# The states of the request parser

Which states the parser can be in, and what its fields and the request are in each, over
any number of calls with the same parser and the same request. An exception that a
`reserve` throws ends a call, too, and leaves both as they are for the next one.
-/

namespace Nicenet.Http

open Library

namespace State

/-- The states that have a case in `consume`. -/
def hasCase : State → Bool
  | .responseStatusStart | .responseHttpVersion_ht | .responseHttpVersion_htt
  | .responseHttpVersion_http | .responseHttpVersion_slash
  | .responseHttpVersion_majorStart | .responseHttpVersion_major
  | .responseHttpVersion_minorStart | .responseHttpVersion_minor
  | .responseHttpVersion_spaceAfterVersion | .responseHttpVersion_statusCodeStart
  | .responseHttpVersion_spaceAfterStatusCode | .responseHttpVersion_statusTextStart => false
  | _ => true

/-- The states inside of a header line. -/
def inHeader : State → Bool
  | .headerLws | .headerName | .spaceBeforeHeaderValue | .headerValue
  | .expectingNewline_2 => true
  | _ => false

/-- The states inside of a line with the size of a chunk. -/
def inSizeLine : State → Bool
  | .chunkSize | .chunkExtensionName | .chunkExtensionValue | .chunkSizeNewLine => true
  | _ => false

end State

namespace Parsing

/-- What holds in each state: the last header is there, the counters are not used up, and
only a size line has digits of a size. -/
structure Safe (s : Parsing) : Prop where
  hasCase : s.parser.state.hasCase
  headers : s.parser.state.inHeader → s.req.headers ≠ []
  post : s.parser.state = .post → s.parser.contentSize ≠ 0
  chunkData : s.parser.state = .chunkData → s.parser.chunkSize ≠ 0
  chunkSizeStr : ¬s.parser.state.inSizeLine → s.parser.chunkSizeStr = []

/-- Where a step leaves the parser to the next one, in the same call or, behind an
exception, in the next one. -/
def behind : Move → Option Parsing
  | .next s => some s
  | .stop s .lengthError => some s
  | .stop _ _ => none

/-- The parser over any number of calls, up to the first that returns `ParsingCompleted`
or `ParsingError`: characters, and how many the call has behind each. -/
def system : Transition Parsing (UInt8 × Nat) :=
  .deterministic ⟨.fresh, .empty⟩ fun s input => behind (step s input.1 input.2)

/-- A call that waits for more, or that an exception ends, leaves a state of the system. -/
theorem reachable_consume {s : Parsing} (reachable : system.Reachable s) (text : Str)
    (goesOn : (consume s text).result = none ∨
      (consume s text).result = some .lengthError) :
    system.Reachable (consume s text).state := by
  induction text generalizing s with
  | nil => exact reachable
  | cons input text ih =>
      rw [consume, Machine.consume] at goesOn ⊢
      cases taken : step s input text.length with
      | next next =>
          rw [taken] at goesOn
          have moved : system.step s (input, text.length) next := congrArg behind taken
          exact ih (reachable.step moved) goesOn
      | stop last result =>
          rw [taken] at goesOn
          cases goesOn.resolve_left (Option.some_ne_none result)
          have moved : system.step s (input, text.length) last := congrArg behind taken
          exact reachable.step moved

/-! ## One step -/

section Step

variable {s next : Parsing}

/-- A state of which nothing is asked but that no digits are left. -/
theorem safe_of_plain (hasCase : next.parser.state.hasCase)
    (plain : next.parser.state.inHeader = false ∧ next.parser.state ≠ .post ∧
      next.parser.state ≠ .chunkData)
    (digits : next.parser.state.inSizeLine = false → next.parser.chunkSizeStr = []) :
    next.Safe where
  hasCase := hasCase
  headers inside := absurd inside (by rw [plain.1]; exact Bool.false_ne_true)
  post := fun state => absurd state plain.2.1
  chunkData := fun state => absurd state plain.2.2
  chunkSizeStr := fun outside => digits (Bool.eq_false_iff.mpr outside)

/-- A state inside of a header line. -/
theorem safe_of_header (inside : next.parser.state.inHeader) (headers : next.req.headers ≠ [])
    (digits : next.parser.chunkSizeStr = []) : next.Safe := by
  refine ⟨?_, fun _ => headers, fun post => ?_, fun data => ?_, fun _ => digits⟩
  · revert inside
    cases next.parser.state <;> decide
  · rw [post] at inside
    cases inside
  · rw [data] at inside
    cases inside

/-- `headers.back()` is there, and the last header stays. -/
theorem behind_back {change : HeaderItem → HeaderItem} {state : State}
    (inside : state.inHeader) (digits : s.parser.chunkSizeStr = [])
    (moved : behind (s.back change state) = some next) : next.Safe := by
  rw [back] at moved
  split at moved
  · cases moved
  · cases moved
    exact safe_of_header inside (List.append_ne_nil_of_right_ne_nil _ (List.cons_ne_nil _ _))
      digits

/-- The end of a header, also where reserving its length throws. -/
theorem behind_headerEnd (state : s.parser.state = .headerValue) (headers : s.req.headers ≠ [])
    (digits : s.parser.chunkSizeStr = []) (moved : behind (headerEnd s) = some next) :
    next.Safe := by
  have stays : State.inHeader s.parser.state := by rw [state]; rfl
  simp only [headerEnd] at moved
  repeat' split at moved
  all_goals
    cases moved
  all_goals first
    | exact safe_of_header rfl headers digits
    | exact safe_of_header stays headers digits

/-- A body that is counted has a length. -/
theorem behind_headersEnd {input : UInt8} {left : Nat} (digits : s.parser.chunkSizeStr = [])
    (moved : behind (headersEnd s input left) = some next) : next.Safe := by
  simp only [headersEnd, Parsing.error, Parsing.completed] at moved
  split at moved
  · cases moved
    exact safe_of_plain rfl ⟨rfl, State.noConfusion, State.noConfusion⟩ fun _ => digits
  · split at moved
    · split at moved <;> cases moved
    · next sized =>
      cases moved
      exact ⟨rfl, fun inside => absurd inside Bool.false_ne_true, fun _ => sized,
        State.noConfusion, fun _ => digits⟩

/-- A chunk with data has a size, and its digits are used up, also where reserving them
throws. -/
theorem behind_chunkSizeEnd (state : s.parser.state = .chunkSizeNewLine)
    (moved : behind (chunkSizeEnd s) = some next) : next.Safe := by
  simp only [chunkSizeEnd] at moved
  split at moved
  · cases moved
    refine safe_of_plain ?_ ?_ fun _ => rfl
    all_goals
      simp only [state]
      decide
  · split at moved
    · cases moved
      exact safe_of_plain rfl ⟨rfl, State.noConfusion, State.noConfusion⟩ fun _ => rfl
    · next sized =>
      cases moved
      exact ⟨rfl, fun inside => absurd inside Bool.false_ne_true, State.noConfusion,
        fun _ => sized, fun _ => rfl⟩

/-- Every step keeps what holds in each state. -/
theorem step_safe (safe : s.Safe) {input : UInt8} {left : Nat}
    (moved : behind (step s input left) = some next) : next.Safe := by
  generalize start : s.parser.state = state
  have digits : ¬state.inSizeLine → s.parser.chunkSizeStr = [] := start ▸ safe.chunkSizeStr
  have headers : state.inHeader → s.req.headers ≠ [] := start ▸ safe.headers
  rw [step, start] at moved
  cases state <;> simp only [expect, Parsing.error, Parsing.completed] at moved
  case headerLineStart =>
      have none := digits Bool.false_ne_true
      repeat' split at moved
      · cases moved
        exact safe_of_plain rfl ⟨rfl, State.noConfusion, State.noConfusion⟩ fun _ => none
      · next _ folded =>
        cases moved
        exact safe_of_header rfl folded.1 none
      · cases moved
      · cases moved
        exact safe_of_header rfl
          (List.append_ne_nil_of_right_ne_nil _ (List.cons_ne_nil _ _)) none
  case headerLws | headerName =>
      have none := digits Bool.false_ne_true
      repeat' split at moved
      all_goals first
        | exact behind_back rfl none moved
        | cases moved
      all_goals first
        | exact safe_of_header rfl (headers rfl) none
        | exact safe
  case headerValue =>
      have none := digits Bool.false_ne_true
      repeat' split at moved
      · exact behind_headerEnd start (headers rfl) none moved
      · cases moved
      · exact behind_back rfl none moved
  case expectingNewline_3 => exact behind_headersEnd (digits Bool.false_ne_true) moved
  case chunkSizeNewLine =>
      split at moved
      · exact behind_chunkSizeEnd start moved
      · cases moved
  case post =>
      split at moved
      · cases moved
      · next more =>
        cases moved
        refine ⟨safe.hasCase, safe.headers, fun _ => more, safe.chunkData, safe.chunkSizeStr⟩
  case chunkData =>
      split at moved
      · cases moved
        exact safe_of_plain rfl ⟨rfl, State.noConfusion, State.noConfusion⟩ fun _ =>
          digits Bool.false_ne_true
      · next more =>
        cases moved
        exact ⟨safe.hasCase, safe.headers, safe.post, fun _ => more, safe.chunkSizeStr⟩
  all_goals
    repeat' split at moved
  all_goals
    cases moved
  all_goals first
    | exact safe_of_header rfl (headers rfl) (digits Bool.false_ne_true)
    | exact safe_of_plain rfl ⟨rfl, State.noConfusion, State.noConfusion⟩ fun outside =>
        digits (Bool.eq_false_iff.mp outside)
    | exact safe_of_plain rfl ⟨rfl, State.noConfusion, State.noConfusion⟩ fun _ =>
        digits Bool.false_ne_true
    | exact ⟨safe.hasCase, safe.headers, safe.post, safe.chunkData, safe.chunkSizeStr⟩
    | exact safe_of_plain (by rw [pushChunkSize, start]; rfl)
        (by simp only [pushChunkSize, start]; decide)
        (by simp [pushChunkSize, start, State.inSizeLine])

/-- `headers.back()` is only taken inside of a header line. -/
theorem Safe.back_ne (safe : s.Safe) (input : UInt8) (left : Nat) (last : Parsing) :
    step s input left ≠ .stop last .emptyBack := by
  intro stop
  have none : s.parser.state.inHeader → s.req.headers.getLast? ≠ .none := fun inside =>
    mt List.getLast?_eq_none_iff.mp (safe.headers inside)
  generalize start : s.parser.state = state at none
  rw [step, start] at stop
  cases state <;> simp only [expect, headerEnd, headersEnd, chunkSizeEnd, back, Parsing.error,
    Parsing.completed] at stop
  all_goals
    repeat' split at stop
  all_goals first
    | exact none rfl ‹_›
    | cases stop

/-- A body that is counted has a byte more than are left behind its next one. -/
theorem Safe.post_counts (safe : s.Safe) (state : s.parser.state = .post) (input : UInt8)
    (left : Nat) :
    (step s input left).state.parser.contentSize.toNat + 1 = s.parser.contentSize.toNat := by
  rw [toNat_sub_one (safe.post state), step, state]
  simp only [Parsing.completed]
  split <;> rfl

/-- The same of a chunk. -/
theorem Safe.chunkData_counts (safe : s.Safe) (state : s.parser.state = .chunkData)
    (input : UInt8) (left : Nat) :
    (step s input left).state.parser.chunkSize.toNat + 1 = s.parser.chunkSize.toNat := by
  rw [toNat_sub_one (safe.chunkData state), step, state]
  simp only
  split <;> rfl

end Step

/-! ## Every call -/

theorem fresh_safe : (⟨.fresh, .empty⟩ : Parsing).Safe :=
  safe_of_plain rfl ⟨rfl, State.noConfusion, State.noConfusion⟩ fun _ => rfl

/-- In every state of every call the parser is in a state with a case and has what that
state uses: a last header, and counters that are not zero when they are counted down. -/
theorem reachable_safe {s : Parsing} (reachable : system.Reachable s) :
    s.Safe ∧ (∀ input left last, step s input left ≠ .stop last .emptyBack) ∧
      (s.parser.state = .post → ∀ input left,
        (step s input left).state.parser.contentSize.toNat + 1 = s.parser.contentSize.toNat) ∧
      (s.parser.state = .chunkData → ∀ input left,
        (step s input left).state.parser.chunkSize.toNat + 1 = s.parser.chunkSize.toNat) := by
  have safe : s.Safe := by
    apply reachable.invariant
    · rintro state rfl
      exact fresh_safe
    · intro state event next holds moved
      exact step_safe holds moved
  exact ⟨safe, safe.back_ne, safe.post_counts, safe.chunkData_counts⟩

/-- In front of the second byte of a body: `POST / HTTP/1.1`, `Content-Length: 2`. -/
def twoBytes : Str :=
  strPost ++ [32, 47, 32, 72, 84, 84, 80, 47, 49, 46, 49, 13, 10] ++ contentLength ++
    [58, 32, 50, 13, 10, 13, 10, 97]

theorem twoBytes_safe : (consume ⟨.fresh, .empty⟩ twoBytes).state.Safe :=
  (reachable_safe (reachable_consume (.initial rfl) twoBytes
    (.inl (by decide +kernel)))).1

end Parsing

end Nicenet.Http
