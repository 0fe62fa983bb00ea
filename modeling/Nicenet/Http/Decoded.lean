import Nicenet.Http.Segmented
import Nicenet.Http.WrittenHead

/-!
# Chunked bodies are decoded

A body in chunks behind a head that announces it, in a request or in a response. The
bytes may reach the parser in any number of calls, with more bytes behind them in the
last one; the call with the line feed at the end of the body completes the message, and
the content is that of the chunks put together.
-/

namespace Nicenet.Http

open Library

/-- Chunks with data, the chunk without, and trailers. -/
structure ChunkedBody where
  chunks : List Chunk
  last : Chunk
  trailers : List Trailer
  data_ne : ∀ chunk ∈ chunks, chunk.data ≠ []
  last_empty : last.data = []
  sizes_fit : ∀ chunk ∈ chunks, chunk.data.length < 2 ^ 63

namespace ChunkedBody

def bytes (body : ChunkedBody) : Str :=
  body.chunks.flatMap Chunk.bytes ++ body.last.line ++
    body.trailers.flatMap Trailer.bytes ++ crlf

def content (body : ChunkedBody) : Str := body.chunks.flatMap Chunk.data

/-- A body whose content fits into a vector. -/
def bounded (body : ChunkedBody) (fits : body.content.length < 2 ^ 63) : Chunked where
  chunks := body.chunks
  last := body.last
  trailers := body.trailers
  data_ne := body.data_ne
  last_empty := body.last_empty
  fits := fits

end ChunkedBody

/-- A `POST` or `PUT` with a chunked body. -/
structure ChunkedRequest where
  method : Str
  head : RequestHead
  body : ChunkedBody
  hasBody : HasBody method
  announced : ∃ item ∈ head.headers, item.isChunked

def ChunkedRequest.bytes (request : ChunkedRequest) : Str :=
  request.method ++ request.head.bytes ++ request.body.bytes

structure ChunkedResponse where
  head : ResponseHead
  body : ChunkedBody
  announced : ∃ item ∈ head.headers, item.isChunked

def ChunkedResponse.bytes (response : ChunkedResponse) : Str :=
  response.head.bytes ++ response.body.bytes

/-- The calls before the last one wait for more, and the last one completes with so many
bytes behind it. -/
def CompletesIn {σ : Type} (calls : List (Machine.Halt σ UInt8 Stop)) (count : Nat)
    (following : Str) (holds : σ → Prop) : Prop :=
  ∃ waits last, calls = waits ++ [last] ∧ waits.length = count ∧
    (∀ halt ∈ waits, halt.result = none) ∧ last.result = some .parsingCompleted ∧
    last.rest = following ∧ holds last.state

/-- However the bytes of a request are split over calls, the one with the last byte
completes it with the content of the chunks, and knows the bytes behind them when they
are so few. -/
def ChunkedRequest.Decodes (request : ChunkedRequest) (few : Nat → Prop) : Prop :=
  ∀ (parts : List Str) (tail following : Str),
    request.bytes = parts.flatten ++ tail → tail ≠ [] →
    CompletesIn (Machine.calls step ⟨.fresh, .empty⟩ (parts ++ [tail ++ following]))
      parts.length following fun s =>
        s.req.content = request.body.content ∧
          (few following.length → s.req.remainSize.toInt = following.length)

/-- The same of a response, whose parser does not count the bytes behind it. -/
def ChunkedResponse.Decodes (response : ChunkedResponse) : Prop :=
  ∀ (parts : List Str) (tail following : Str),
    response.bytes = parts.flatten ++ tail → tail ≠ [] →
    CompletesIn
      (Machine.calls Response.step ⟨.fresh, .empty⟩ (parts ++ [tail ++ following]))
      parts.length following fun s => s.resp.content = response.body.content

theorem HasBody.token {method : Str} (body : HasBody method) :
    method ≠ [] ∧ ∀ c ∈ method, isToken c := by
  rcases body with rfl | rfl
  · exact ⟨List.cons_ne_nil _ _, by decide +kernel⟩
  · exact ⟨List.cons_ne_nil _ _, by decide +kernel⟩

/-! ## The body -/

/-- What a message does in one call. -/
theorem CompletesIn.whole {σ : Type} {machine : Machine σ UInt8 Stop} {start : σ}
    {text following : Str} {holds : σ → Prop}
    (completes : CompletesIn (Machine.calls machine start [text]) 0 following holds) :
    (machine.consume start text).result = some .parsingCompleted ∧
      (machine.consume start text).rest = following ∧
      holds (machine.consume start text).state := by
  obtain ⟨waits, last, split, count, _, result, rest, state⟩ := completes
  obtain rfl : waits = [] := List.length_eq_zero_iff.mp count
  rw [Machine.calls_singleton] at split
  cases split
  exact ⟨result, rest, state⟩

theorem ChunkedRequest.Decodes.whole {request : ChunkedRequest} {few : Nat → Prop}
    (decodes : request.Decodes few) (following : Str) :
    let halt := consume ⟨.fresh, .empty⟩ (request.bytes ++ following)
    halt.result = some .parsingCompleted ∧ halt.rest = following ∧
      halt.state.req.content = request.body.content ∧
      (few following.length → halt.state.req.remainSize.toInt = following.length) := by
  have ne : request.bytes ≠ [] := by
    obtain ⟨first, rest, method⟩ := List.exists_cons_of_ne_nil request.hasBody.token.1
    simp [ChunkedRequest.bytes, method]
  exact (decodes [] request.bytes following rfl ne).whole

end Nicenet.Http
