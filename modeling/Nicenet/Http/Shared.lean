import Nicenet.Http.ResponseParser

/-!
# What the two parsers share

Behind the status line, the parser of responses does what the parser of requests does
with a `POST` behind the request line. `asRequest` is the request parser that a response
parser amounts to there; the two take every byte in the same way, so what is known of
headers and bodies of requests holds of those of responses.
-/

namespace Nicenet.Http.Response

open Library

/-- The states behind the status line. -/
def State.isShared : State → Bool
  | .headerLineStart | .headerLws | .headerName | .spaceBeforeHeaderValue | .headerValue
  | .expectingNewline_2 | .expectingNewline_3 | .post | .chunkSize | .chunkExtensionName
  | .chunkExtensionValue | .chunkSizeNewLine | .chunkSizeNewLine_2 | .chunkSizeNewLine_3
  | .chunkTrailerName | .chunkTrailerValue | .chunkDataNewLine_1 | .chunkDataNewLine_2
  | .chunkData => true
  | _ => false

/-- These states under their names in the parser of requests. -/
def State.asRequest : State → Http.State
  | .headerLineStart => .headerLineStart
  | .headerLws => .headerLws
  | .headerName => .headerName
  | .spaceBeforeHeaderValue => .spaceBeforeHeaderValue
  | .headerValue => .headerValue
  | .expectingNewline_2 => .expectingNewline_2
  | .expectingNewline_3 => .expectingNewline_3
  | .post => .post
  | .chunkSize => .chunkSize
  | .chunkExtensionName => .chunkExtensionName
  | .chunkExtensionValue => .chunkExtensionValue
  | .chunkSizeNewLine => .chunkSizeNewLine
  | .chunkSizeNewLine_2 => .chunkSizeNewLine_2
  | .chunkSizeNewLine_3 => .chunkSizeNewLine_3
  | .chunkTrailerName => .chunkTrailerName
  | .chunkTrailerValue => .chunkTrailerValue
  | .chunkDataNewLine_1 => .chunkDataNewLine_1
  | .chunkDataNewLine_2 => .chunkDataNewLine_2
  | .chunkData => .chunkData
  | _ => .responseStatusStart

theorem State.asRequest_eq_start {state : State} :
    state.asRequest = .responseStatusStart ↔ state.isShared = false := by
  cases state <;> simp [State.asRequest, State.isShared]

namespace Parsing

/-- The parser of requests at the same place, with the same headers and content, and
with so many bytes left to it. -/
def asRequest (s : Parsing) (remainSize : Int32) : Http.Parsing where
  parser :=
    ⟨s.parser.state.asRequest, s.parser.contentSize, s.parser.chunkSizeStr,
      s.parser.chunkSize, s.parser.chunked⟩
  req :=
    ⟨strPost, [], s.resp.versionMajor, s.resp.versionMinor, s.resp.headers,
      s.resp.content, s.resp.keepAlive, remainSize, [], []⟩

/-- The status is still the same. -/
def SameStatus (s after : Parsing) : Prop :=
  after.resp.statusCode = s.resp.statusCode ∧ after.resp.status = s.resp.status

/-- Two steps that do the same. -/
inductive Agree (s : Parsing) : Move → Http.Move → Prop where
  | next (after : Parsing) : after.parser.state.isShared → s.SameStatus after →
      Agree s (.next after) (.next (after.asRequest 0))
  | stop (after : Parsing) (result : Stop) (remainSize : Int32) : s.SameStatus after →
      Agree s (.stop after result) (.stop (after.asRequest remainSize) result)

variable {s : Parsing}

theorem agree_error : s.Agree s.error (s.asRequest 0).error := .stop s _ 0 ⟨rfl, rfl⟩

theorem agree_back {change : HeaderItem → HeaderItem} {state : State}
    (shared : state.isShared) :
    s.Agree (s.back change state) ((s.asRequest 0).back change state.asRequest) := by
  have headers : (s.asRequest 0).req.headers = s.resp.headers := rfl
  rw [back, Http.Parsing.back, headers]
  cases s.resp.headers.getLast? with
  | none => exact .stop s _ 0 ⟨rfl, rfl⟩
  | some item => exact .next _ shared ⟨rfl, rfl⟩

theorem agree_headerEnd : s.Agree (headerEnd s) (Http.headerEnd (s.asRequest 0)) := by
  have headers : (s.asRequest 0).req.headers = s.resp.headers := rfl
  have method : (s.asRequest 0).req.method = strPost := rfl
  rw [headerEnd, Http.headerEnd, headers, if_pos (.inl method)]
  cases s.resp.headers.getLast? with
  | none => exact .stop s _ 0 ⟨rfl, rfl⟩
  | some item =>
      simp only
      repeat' split
      · exact .stop _ _ 0 ⟨rfl, rfl⟩
      all_goals exact .next _ rfl ⟨rfl, rfl⟩

theorem keepAlive_asRequest : Http.keepAlive (s.asRequest 0).req = keepAlive s.resp := rfl

theorem agree_headersEnd (input : UInt8) (left : Nat) :
    s.Agree (headersEnd s input) (Http.headersEnd (s.asRequest 0) input left) := by
  have chunked : (s.asRequest 0).parser.chunked = s.parser.chunked := rfl
  have size : (s.asRequest 0).parser.contentSize = s.parser.contentSize := rfl
  simp only [headersEnd, Http.headersEnd, keepAlive_asRequest, chunked, size]
  repeat' split
  · exact .next _ rfl ⟨rfl, rfl⟩
  · exact .stop _ _ _ ⟨rfl, rfl⟩
  · exact .stop _ _ 0 ⟨rfl, rfl⟩
  · exact .next _ rfl ⟨rfl, rfl⟩

theorem agree_chunkSizeEnd :
    s.Agree (chunkSizeEnd s) (Http.chunkSizeEnd (s.asRequest 0)) := by
  have size : (s.asRequest 0).parser.chunkSizeStr = s.parser.chunkSizeStr := rfl
  have content : (s.asRequest 0).req.content = s.resp.content := rfl
  simp only [chunkSizeEnd, Http.chunkSizeEnd, size, content]
  repeat' split
  · exact .stop _ _ 0 ⟨rfl, rfl⟩
  all_goals exact .next _ rfl ⟨rfl, rfl⟩

theorem agree_expect {next : Parsing} (input wanted : UInt8)
    (shared : next.parser.state.isShared) (same : s.SameStatus next) :
    s.Agree (expect s input wanted next)
      (Http.expect (s.asRequest 0) input wanted (next.asRequest 0)) := by
  rw [expect, Http.expect]
  split
  · exact .next next shared same
  · exact agree_error

/-- Behind the first line the two parsers take every byte in the same way. -/
theorem agree_step (shared : s.parser.state.isShared) (input : UInt8) (left : Nat) :
    s.Agree (step s input left) (Http.step (s.asRequest 0) input left) := by
  have state : (s.asRequest 0).parser.state = s.parser.state.asRequest := rfl
  have headers : (s.asRequest 0).req.headers = s.resp.headers := rfl
  rw [step, Http.step, state]
  cases start : s.parser.state <;> rw [start] at shared <;> simp only [State.asRequest]
  case expectingNewline_3 => exact agree_headersEnd input left
  case expectingNewline_2 | spaceBeforeHeaderValue | chunkDataNewLine_1
      | chunkDataNewLine_2 =>
      exact agree_expect _ _ rfl ⟨rfl, rfl⟩
  case headerValue | headerName | headerLws =>
      repeat' split
      all_goals first
        | exact agree_headerEnd
        | exact agree_error
        | exact .next _ (by first | rfl | exact start ▸ shared) ⟨rfl, rfl⟩
        | exact agree_back rfl
  case headerLineStart =>
      rw [headers]
      repeat' split
      all_goals first
        | exact agree_error
        | exact .next _ rfl ⟨rfl, rfl⟩
  case chunkSizeNewLine =>
      split
      · exact agree_chunkSizeEnd
      · exact agree_error
  case post =>
      change s.Agree (if s.parser.contentSize - 1 = 0 then _ else _)
        (if s.parser.contentSize - 1 = 0 then _ else _)
      split
      · exact .stop _ _ _ ⟨rfl, rfl⟩
      · exact .next _ (start ▸ shared) ⟨rfl, rfl⟩
  case chunkData =>
      change s.Agree (if s.parser.chunkSize - 1 = 0 then _ else _)
        (if s.parser.chunkSize - 1 = 0 then _ else _)
      split
      · exact .next _ rfl ⟨rfl, rfl⟩
      · exact .next _ (start ▸ shared) ⟨rfl, rfl⟩
  case chunkSize | chunkExtensionName | chunkExtensionValue | chunkSizeNewLine_2
      | chunkSizeNewLine_3 | chunkTrailerName | chunkTrailerValue =>
      repeat' split
      all_goals first
        | exact agree_error
        | exact .next _ (by first | rfl | exact start ▸ shared) ⟨rfl, rfl⟩
        | exact .stop _ _ _ ⟨rfl, rfl⟩
  all_goals exact absurd shared Bool.false_ne_true

/-- A step in the first line: nothing but the line itself changes, and nothing throws. -/
inductive InLine (s : Parsing) : Move → Prop where
  | next (after : Parsing) :
      after.parser.state.isShared = false ∨ after.parser.state = .headerLineStart →
      after.parser.contentSize = s.parser.contentSize →
      after.parser.chunkSizeStr = s.parser.chunkSizeStr →
      after.resp.content = s.resp.content → InLine s (.next after)
  | stop : InLine s s.error

theorem step_inLine (first : s.parser.state.isShared = false) (input : UInt8) (left : Nat) :
    s.InLine (step s input left) := by
  rw [step]
  cases start : s.parser.state <;> rw [start] at first <;> simp only [expect]
  case responseHttpVersion_newLine =>
      split
      · exact .next _ (.inr rfl) rfl rfl rfl
      · exact .stop
  case responseStatusStart | responseHttpVersion_ht | responseHttpVersion_htt
      | responseHttpVersion_http | responseHttpVersion_slash
      | responseHttpVersion_majorStart | responseHttpVersion_major
      | responseHttpVersion_minorStart | responseHttpVersion_minor
      | responseHttpVersion_statusCodeStart | responseHttpVersion_statusCode
      | responseHttpVersion_statusTextStart | responseHttpVersion_statusText =>
      repeat' split
      all_goals first
        | exact .stop
        | exact .next _ (.inl rfl) rfl rfl rfl
        | exact .next _ (.inl (start ▸ first)) rfl rfl rfl
  all_goals exact absurd first.symm Bool.false_ne_true

/-- Behind the first line the two parsers end with the same result, at the same byte. -/
theorem consume_asRequest (shared : s.parser.state.isShared) (text : Str) :
    (∃ remainSize, Http.consume (s.asRequest 0) text =
      ⟨(consume s text).state.asRequest remainSize, (consume s text).result,
        (consume s text).rest⟩) ∧
      s.SameStatus (consume s text).state := by
  induction text generalizing s with
  | nil => exact ⟨⟨0, rfl⟩, rfl, rfl⟩
  | cons c text ih =>
      have same := agree_step shared c text.length
      rw [consume, Machine.consume, Http.consume, Machine.consume]
      generalize step s c text.length = move at same ⊢
      generalize Http.step (s.asRequest 0) c text.length = other at same ⊢
      cases same with
      | next after still status =>
          obtain ⟨run, kept⟩ := ih still
          exact ⟨run, kept.1.trans status.1, kept.2.trans status.2⟩
      | stop after result remainSize status => exact ⟨⟨remainSize, rfl⟩, status⟩

end Parsing

end Nicenet.Http.Response
