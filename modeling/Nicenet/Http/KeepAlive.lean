import Nicenet.Http.Completes

/-!
# Several requests on one connection

The parser is not reset when it has completed a request. Behind a request without a
body and behind a chunked one it waits for a line feed, so the next request is an
error; behind a body with a length its counter starts over at 2⁶⁴, so the next
request is taken for more of the body. Only the first request is served.
-/

namespace Nicenet.Http

open Library

/-- Bytes behind the last one of a body are taken as long as the counter lasts. -/
theorem post_waits (req : HttpRequest) {contentSize : UInt64} {text : Str}
    (many : text.length ≤ (contentSize - 1).toNat) :
    (consume ⟨⟨.post, contentSize, [], 0, false⟩, req⟩ text).result = none := by
  induction text generalizing req contentSize with
  | nil => rfl
  | cons c text ih =>
      rw [List.length_cons] at many
      have more : contentSize - 1 ≠ 0 := by
        intro zero
        rw [zero] at many
        exact Nat.not_succ_le_zero _ many
      have less : (contentSize - 1 - 1).toNat = (contentSize - 1).toNat - 1 :=
        UInt64.toNat_sub_of_le _ _ (by
          rw [UInt64.le_iff_toNat_le]
          exact Nat.le_trans (Nat.succ_le_succ (Nat.zero_le _)) many)
      rw [consume, Machine.consume_next step (step_content req more c text.length)]
      exact ih _ (by omega)

/-- The parser that has completed one request does not complete the next. -/
theorem parserAfter_stale (body : Body) (request : WrittenRequest)
    (single : request.bytes.length ≤ networkBufSize) :
    (body.parserAfter.parse request.bytes).result ≠ some .parsingCompleted := by
  obtain ⟨first, rest, bytes, token⟩ := request.bytes_head
  have line : first ≠ 10 := fun same => absurd token (by rw [same]; decide)
  have fails : ∀ {parser : HttpRequestParser} {next : Parsing},
      step ⟨parser, .empty⟩ first rest.length = .stop next .parsingError →
      (parser.parse request.bytes).result ≠ some .parsingCompleted := by
    intro parser next error
    have stop := Machine.consume_stop step error
    rw [HttpRequestParser.parse, consume, bytes, stop]
    simp
  have afterEmpty :
      step ⟨⟨.expectingNewline_3, 0, [], 0, false⟩, .empty⟩ first rest.length =
        .stop ⟨⟨.expectingNewline_3, 0, [], 0, false⟩,
          { HttpRequest.empty with keepAlive := keepAlive .empty }⟩ .parsingError := by
    simp only [step, headersEnd, if_neg line]
    rfl
  cases body with
  | none => exact fails afterEmpty
  | sized content =>
      cases content with
      | nil => exact fails afterEmpty
      | cons c content =>
          have many : request.bytes.length ≤ ((0 : UInt64) - 1).toNat :=
            Nat.le_trans single (by decide)
          have waits : (HttpRequestParser.parse ⟨.post, 0, [], 0, false⟩
              request.bytes).result = none := post_waits .empty many
          rw [Body.parserAfter, waits]
          exact (Option.some_ne_none _).symm
  | chunked body =>
      have afterChunks :
          step ⟨⟨.chunkSizeNewLine_3, 0, [], 0, true⟩, .empty⟩ first rest.length =
            .stop ⟨⟨.chunkSizeNewLine_3, 0, [], 0, true⟩, .empty⟩ .parsingError := by
        simp only [step, if_neg line]
        rfl
      exact fails afterChunks

/-- A request that is served: it is parsed as by a fresh parser, and answered. -/
def Served (request : WrittenRequest) (read : Read HttpRequestParser) : Prop :=
  read.parsed.result = some .parsingCompleted ∧
    read.parsed.request = (HttpRequestParser.fresh.parse request.bytes).request ∧
    read.event.isSome

/-- Requests that arrive on a fresh connection, each whole in a read of its own, are
all served, each in its read. -/
def ServesAll (handles : Str → Bool) (requests : List WrittenRequest) : Prop :=
  List.Forall₂ Served requests
    (runFresh requestParser handles (requests.map WrittenRequest.bytes))

/-- Requests that fit into a read each and, but for the last, keep the connection
alive. -/
structure KeepAlive (requests : List WrittenRequest) : Prop where
  single : ∀ request ∈ requests, request.bytes.length ≤ networkBufSize
  keepAlive : ∀ request ∈ requests.dropLast,
    (HttpRequestParser.fresh.parse request.bytes).request.keepAlive = true

/-- Two requests are not both served. -/
theorem not_servesAll {handles : Str → Bool} {first second : WrittenRequest}
    {requests : List WrittenRequest} (single : second.bytes.length ≤ networkBufSize) :
    ¬ServesAll handles (first :: second :: requests) := by
  intro serves
  rw [ServesAll, List.map_cons, runFresh, run] at serves
  cases serves with
  | cons _ later =>
      split at later
      · rw [List.map_cons, run] at later
        cases later with
        | cons served _ =>
            have completed := served.1
            rw [onRead_parsed] at completed
            rw [first.onRead_whole, buffered_idle rfl] at completed
            exact parserAfter_stale first.body second single completed
      · cases later

/-- The requests of a keep-alive connection are all served exactly if there is at most
one of them. -/
theorem servesAll_iff (handles : Str → Bool) {requests : List WrittenRequest}
    (legal : KeepAlive requests) :
    ServesAll handles requests ↔ requests.length ≤ 1 := by
  constructor
  · intro serves
    rcases requests with _ | ⟨first, _ | ⟨second, requests⟩⟩
    · exact Nat.zero_le 1
    · exact Nat.le_of_eq rfl
    · exact absurd serves (not_servesAll (legal.single second (by simp)))
  · intro short
    rcases requests with _ | ⟨request, requests⟩
    · exact .nil
    · obtain rfl : requests = [] := List.length_eq_zero_iff.mp (by
        rw [List.length_cons] at short
        omega)
      rw [ServesAll, List.map_cons, List.map_nil, request.runFresh_whole]
      refine .cons ?_ .nil
      rw [Served, request.parse_bytes]
      exact ⟨rfl, rfl, rfl⟩

/-- A single request is served. -/
theorem servesAll_single : ServesAll (fun _ => true) [getRoot] :=
  (servesAll_iff (fun _ => true) ⟨by decide, by decide⟩).mpr (by decide)

/-- The second of two equal requests is not. -/
theorem servesAll_twice : KeepAlive [getRoot, getRoot] ∧
    ¬ServesAll (fun _ => true) [getRoot, getRoot] :=
  ⟨⟨by decide, by decide⟩, not_servesAll (by decide)⟩

end Nicenet.Http
