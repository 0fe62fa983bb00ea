import Nicenet.Http.Inverse
import Nicenet.Http.WrittenHead

/-!
# Reading responses back

A response as a server writes it, with a reason phrase that may be empty. The parser
has a state of its own for the first character of the phrase, which takes a carriage
return like any other character, so an empty phrase swallows the end of its line and
what comes behind it. A header that says chunked makes it look for chunks in any content.
Every other response is read back.
-/

namespace Nicenet.Http

open Library

/-- One header has the length of the content, or there is neither. -/
def Sized (headers : List HeaderItem) : Option Str → Prop
  | none => ∀ item ∈ headers, item.isContentLength = false
  | some content => ∃ item, headers.filter HeaderItem.isContentLength = [item] ∧
      IsNumeral 10 item.value ∧ numeral 10 item.value = content.length ∧
      content.length < 2 ^ 31

theorem Sized.reserves {headers : List HeaderItem} {content : Option Str}
    (sized : Sized headers content) {item : HeaderItem} (member : item ∈ headers) :
    item.Reserves := by
  intro length
  cases content with
  | none => exact absurd ((sized item member).symm.trans length) Bool.false_ne_true
  | some content =>
      obtain ⟨only, filtered, wf, value, fits⟩ := sized
      have same : item ∈ headers.filter HeaderItem.isContentLength :=
        List.mem_filter.mpr ⟨member, length⟩
      rw [filtered, List.mem_singleton] at same
      subst same
      rw [atoi_numeral wf (value ▸ fits), value, toSizeT_natCast]
      exact ofNat_le_maxSize (Nat.lt_trans fits (by decide))

/-- Without chunks it is the body that the headers announce. -/
theorem Sized.announced {headers : List HeaderItem} {content : Option Str}
    (sized : Sized headers content) (plain : ∀ item ∈ headers, item.isChunked = false) :
    (content.elim .none Body.sized).Announced strPost headers := by
  cases content with
  | none => exact .inr fun item member => ⟨sized item member, plain item member⟩
  | some content => exact ⟨.inl rfl, plain, sized⟩

/-- A response that declares the length of its content, or that has none. -/
structure WrittenResponse where
  head : ResponseHead
  content : Option Str
  major_fits : numeral 10 head.major < 2 ^ 31
  minor_fits : numeral 10 head.minor < 2 ^ 31
  sized : Sized head.headers content

namespace WrittenResponse

def bytes (response : WrittenResponse) : Str :=
  response.head.bytes ++ response.content.getD []

/-- A fresh parser completes the response at its last byte, whatever comes behind it,
and has the response that was written. -/
def Inverts (response : WrittenResponse) : Prop :=
  ∀ rest : Str,
    let halt := Response.consume ⟨.fresh, .empty⟩ (response.bytes ++ rest)
    let resp := halt.state.resp
    halt.result = some .parsingCompleted ∧ halt.rest = rest ∧
      resp.versionMajor.toInt = numeral 10 response.head.major ∧
      resp.versionMinor.toInt = numeral 10 response.head.minor ∧
      resp.statusCode.toNat = numeral 10 response.head.code ∧
      resp.status = response.head.reason ∧ resp.headers = response.head.headers ∧
      resp.content = response.content.getD []

/-- A response with a reason phrase and without chunks is read back. -/
theorem inverts_of_reason (response : WrittenResponse) (ne : response.head.reason ≠ [])
    (plain : ∀ item ∈ response.head.headers, item.isChunked = false) :
    response.Inverts := by
  intro rest
  have announced := response.sized.announced plain
  have bytes : response.bytes ++ rest =
      response.head.bytes ++ ((response.content.elim .none Body.sized).bytes ++ rest) := by
    cases content : response.content <;> simp [WrittenResponse.bytes, content, Body.bytes]
  have content : (response.content.elim .none Body.sized).content =
      response.content.getD [] := by
    cases response.content <;> rfl
  have small : numeral 10 response.head.code < 2 ^ 32 :=
    Nat.lt_of_le_of_lt response.head.code_high (by decide)
  obtain ⟨⟨remainSize, same⟩, code, reason⟩ := response.head.consume_head ne
    (fun _ => response.sized.reserves) ((response.content.elim .none Body.sized).bytes ++ rest)
  rw [body_completes _ announced rfl rest, ← bytes] at same
  rw [← bytes] at code reason
  simp only
  generalize Response.consume ⟨.fresh, .empty⟩ (response.bytes ++ rest) = halt
    at same code reason ⊢
  obtain ⟨state, result, left⟩ := Machine.Halt.mk.inj same
  have req := congrArg Parsing.req state
  refine ⟨result.symm, left.symm, ?_, ?_, ?_, reason,
    (congrArg HttpRequest.headers req).symm, ?_⟩
  · rw [← toInt_ofNat response.major_fits]
    exact congrArg Int32.toInt (congrArg HttpRequest.versionMajor req).symm
  · rw [← toInt_ofNat response.minor_fits]
    exact congrArg Int32.toInt (congrArg HttpRequest.versionMinor req).symm
  · rw [← UInt32.toNat_ofNat_of_lt' small]
    exact congrArg UInt32.toNat code
  · rw [← content]
    exact (congrArg HttpRequest.content req).symm

/-! ## Chunks -/

/-- The content of a chunked body is shorter than the body, whose first byte belongs to the
size of a chunk. -/
theorem chunked_shorter (contentSize : UInt64) (req : HttpRequest) (empty : req.content = [])
    {body : Str} (completed : (Http.consume ⟨⟨.expectingNewline_3, contentSize, [], 0, true⟩,
      req⟩ (10 :: body)).result = some .parsingCompleted) :
    (Http.consume ⟨⟨.expectingNewline_3, contentSize, [], 0, true⟩,
      req⟩ (10 :: body)).state.req.content.length < body.length := by
  have entered := Machine.consume_next Http.step (step_chunked req contentSize body.length)
  rw [Http.consume, entered] at completed ⊢
  cases body with
  | nil => cases completed
  | cons c body =>
      have first : (Http.step ⟨⟨.chunkSize, contentSize, [], 0, true⟩,
          { req with keepAlive := keepAlive req }⟩ c body.length).state.req.content = [] := by
        simp only [Http.step]
        repeat' split
        all_goals exact empty
      rw [Machine.consume] at completed ⊢
      split
      · next next step =>
        rw [step] at first
        have later := Machine.consume_measure Http.step
          (fun s : Parsing => s.req.content.length) step_content_le next body
        have first : next.req.content = [] := first
        simp only [first, List.length_nil, List.length_cons] at later ⊢
        omega
      · next next result step =>
        rw [step] at first
        have first : next.req.content = [] := first
        simp [first]

/-- With a header that says chunked the content is not read back. -/
theorem not_inverts_of_chunked (response : WrittenResponse)
    (ne : response.head.reason ≠ []) {item : HeaderItem}
    (member : item ∈ response.head.headers) (chunked : item.isChunked) :
    ¬response.Inverts := by
  intro inverts
  obtain ⟨contentSize, parser⟩ :=
    announced_chunked (.inl rfl : HasBody strPost) ⟨item, member, chunked⟩
  obtain ⟨⟨remainSize, same⟩, _⟩ := response.head.consume_head ne
    (fun _ => response.sized.reserves) (response.content.getD [])
  obtain ⟨completed, _, _, _, _, _, _, content⟩ := inverts []
  rw [List.append_nil, WrittenResponse.bytes] at completed content
  rw [parser] at same
  have shorter := chunked_shorter contentSize response.head.parsed rfl
    ((congrArg Machine.Halt.result same).trans completed)
  rw [same] at shorter
  have read : (Response.consume ⟨.fresh, .empty⟩
      (response.head.bytes ++ response.content.getD [])).state.resp.content.length <
        (response.content.getD []).length := shorter
  rw [content] at read
  exact Nat.lt_irrefl _ read

/-- Without a reason phrase the status starts with the carriage return behind it. -/
theorem status_of_empty (response : WrittenResponse) (empty : response.head.reason = []) :
    [13] <+: (Response.consume ⟨.fresh, .empty⟩ response.bytes).state.resp.status := by
  have version := Response.version_passes response.head.major_numeral
    response.head.minor_numeral response.head.code_numeral response.head.code_low
    response.head.code_high
  have bytes : response.bytes = response.head.version ++
      13 :: (10 :: response.head.headers.flatMap HeaderItem.bytes ++ crlf ++
        response.content.getD []) := by
    simp [WrittenResponse.bytes, ResponseHead.bytes, empty, crlf]
  rw [bytes, Response.consume, ResponseHead.version, version,
    Machine.consume_next Response.step rfl]
  exact Response.status_prefix _ _ List.prefix_rfl

/-- A response is read back if and only if its reason phrase is not empty and no header
says chunked. -/
theorem inverts_iff (response : WrittenResponse) :
    response.Inverts ↔ response.head.reason ≠ [] ∧
      ∀ item ∈ response.head.headers, item.isChunked = false := by
  refine ⟨fun inverts => ?_, fun ⟨ne, plain⟩ => response.inverts_of_reason ne plain⟩
  have ne : response.head.reason ≠ [] := by
    intro empty
    have status := response.status_of_empty empty
    have read := (inverts []).2.2.2.2.2.1
    rw [List.append_nil, empty] at read
    rw [read] at status
    exact absurd (List.prefix_nil.mp status) (List.cons_ne_nil 13 [])
  refine ⟨ne, fun item member => Bool.eq_false_iff.mpr fun chunked => ?_⟩
  exact response.not_inverts_of_chunked ne member chunked inverts

/-- `HTTP/1.1 200` without a reason phrase, headers or content. -/
def bare : WrittenResponse where
  head :=
    { major := [49]
      minor := [49]
      code := [50, 48, 48]
      reason := []
      headers := []
      major_numeral := one_numeral
      minor_numeral := one_numeral
      code_numeral := ok_numeral
      code_low := ok_low
      code_high := ok_high
      reason_plain := noReason_plain
      headers_wf := noHeaders_wf }
  content := none
  major_fits := one_fits
  minor_fits := one_fits
  sized := fun _ member => absurd member List.not_mem_nil

/-- The parser reads it to its end and wants more. -/
theorem not_inverts : ¬∀ response : WrittenResponse, response.Inverts := by
  intro every
  have incomplete : (Response.consume ⟨.fresh, .empty⟩ (bare.bytes ++ [])).result = none := by
    decide +kernel
  have completed := (every bare []).1
  rw [incomplete] at completed
  cases completed

end WrittenResponse

end Nicenet.Http
