import Nicenet.Http.AcceptedHead

/-!
# The body of an accepted request

The state behind the CR of the empty line tests its LF only where no body follows, and
the extent of the body is what the parser has made of the headers and of the sizes of
chunks. All other bytes of a request that it completes are those of the layout.
-/

namespace Nicenet.Http

open Library

variable {req : HttpRequest} {text : Str} {halt : Parsed} {contentSize : UInt64}

/-! ## The body as it is read -/

/-- A chunk with a size of letters and digits. -/
structure LaxChunk where
  size : Str
  extension : Option Extension
  data : Str
  size_alnum : ∀ c ∈ size, isalnum c
  size_eq : strtol size 16 = data.length

def LaxChunk.line (chunk : LaxChunk) : Str :=
  ended (chunk.size ++ chunk.extension.elim [] Extension.bytes)

def LaxChunk.bytes (chunk : LaxChunk) : Str := chunk.line ++ ended chunk.data

/-- Chunks as the parser counts them. -/
def LaxSequence (content body : Str) : Prop :=
  ∃ (chunks : List LaxChunk) (last : LaxChunk) (trailers : List Trailer),
    (∀ chunk ∈ chunks, chunk.data ≠ []) ∧ last.data = [] ∧
      content = chunks.flatMap LaxChunk.data ∧
      body = chunks.flatMap LaxChunk.bytes ++ last.line ++
        trailers.flatMap Trailer.bytes ++ crlf

/-- The body is the one that the parser reads behind a head. -/
def Head.Reads (head : Head) (content body : Str) : Prop :=
  if head.chunked then LaxSequence content body ∧ content.length < 2 ^ 63
  else body = content ∧ (content.length : Int) = head.contentLength

/-! ## A body with its length -/

theorem step_counted (req : HttpRequest) (contentSize : UInt64) (c : UInt8) (left : Nat) :
    step ⟨⟨.post, contentSize, [], 0, false⟩, req⟩ c left =
      let s : Parsing := ⟨⟨.post, contentSize - 1, [], 0, false⟩,
        { req with content := req.content ++ [c] }⟩
      if contentSize - 1 = 0 then s.completed left else .next s := rfl

/-- The counter runs down to the last byte of the body. -/
theorem post_ends (more : contentSize ≠ 0)
    (completes : Completes ⟨⟨.post, contentSize, [], 0, false⟩, req⟩ text halt) :
    ∃ data, text = data ++ halt.rest ∧ data.length = contentSize.toNat ∧
      halt.state.req.content = req.content ++ data := by
  induction text generalizing contentSize req with
  | nil =>
      obtain ⟨_, _, impossible, _⟩ := completes.step
      cases impossible
  | cons c text ih =>
      have count := toNat_sub_one more
      by_cases last : contentSize - 1 = 0
      · have stop := step_counted req contentSize c text.length
        rw [if_pos last] at stop
        obtain ⟨_, rfl⟩ := Machine.Ends.stopped completes stop
        exact ⟨[c], rfl, by rw [count, last]; rfl, rfl⟩
      · have moved := step_counted req contentSize c text.length
        rw [if_neg last] at moved
        have later := Machine.Ends.after completes moved
        obtain ⟨data, rfl, length, content⟩ := ih last later
        refine ⟨c :: data, rfl, by rw [count, List.length_cons, length], ?_⟩
        rw [content, List.append_assoc, List.singleton_append]

/-! ## A body of chunks -/

theorem not_plain_spec : ∀ c : UInt8, isPlain c = false → isalnum c = false ∧ c ≠ 32 := by
  decide +kernel

/-- The value of an extension or of a trailer, and the CR behind it. -/
theorem plain_ends {state : State} {size : Str}
    (value : state = .chunkExtensionValue ∨ state = .chunkTrailerValue)
    (completes : Completes ⟨⟨state, contentSize, size, 0, true⟩, req⟩ text halt) :
    ∃ word rest, text = word ++ 13 :: rest ∧ (∀ c ∈ word, isPlain c) ∧
      Completes ⟨⟨.chunkSizeNewLine, contentSize, size, 0, true⟩, req⟩ rest halt := by
  have stays : ∀ (input : UInt8) (left : Nat), isPlain input →
      step ⟨⟨state, contentSize, size, 0, true⟩, req⟩ input left =
        .next ⟨⟨state, contentSize, size, 0, true⟩, req⟩ := by
    intro input left plain
    rcases value with rfl | rfl <;> simp [step, isPlain_spec input plain]
  have leaves : ∀ left : Nat, step ⟨⟨state, contentSize, size, 0, true⟩, req⟩ 13 left =
      .next ⟨⟨.chunkSizeNewLine, contentSize, size, 0, true⟩, req⟩ := by
    rcases value with rfl | rfl <;> exact fun _ => rfl
  have refuses : ∀ (input : UInt8) (left : Nat), isPlain input = false → input ≠ 13 →
      ∃ last other, step ⟨⟨state, contentSize, size, 0, true⟩, req⟩ input left =
        .stop last other ∧ other ≠ Stop.parsingCompleted := by
    intro input left plain line
    have refused : step ⟨⟨state, contentSize, size, 0, true⟩, req⟩ input left =
        Parsing.error ⟨⟨state, contentSize, size, 0, true⟩, req⟩ := by
      rcases value with rfl | rfl <;> simp [step, not_plain_spec input plain, line]
    rw [refused]
    exact error_stops _
  exact completes.skip_until stays leaves refuses

/-- The rest of a line with a chunk extension, behind its `;`. -/
theorem extension_ends {size : Str}
    (completes : Completes ⟨⟨.chunkExtensionName, contentSize, size, 0, true⟩, req⟩ text halt) :
    ∃ (extension : Extension) (rest : Str), 59 :: text = extension.bytes ++ 13 :: rest ∧
      Completes ⟨⟨.chunkSizeNewLine, contentSize, size, 0, true⟩, req⟩ rest halt := by
  have stays : ∀ (input : UInt8) (left : Nat), isPlain input →
      step ⟨⟨.chunkExtensionName, contentSize, size, 0, true⟩, req⟩ input left =
        .next ⟨⟨.chunkExtensionName, contentSize, size, 0, true⟩, req⟩ := by
    intro input left plain
    simp [step, isPlain_spec input plain]
  obtain ⟨name, last, rest, rfl, name_plain, stop, named⟩ := completes.skip stays
  by_cases equals : last = 61
  · subst equals
    have valued : Completes ⟨⟨.chunkExtensionValue, contentSize, size, 0, true⟩, req⟩ rest halt :=
      named.after rfl
    obtain ⟨value, rest, rfl, value_plain, line⟩ := plain_ends (.inl rfl) valued
    refine ⟨⟨name, some value, name_plain, fun text same => ?_⟩, rest, ?_, line⟩
    · cases same
      exact value_plain
    · simp [Extension.bytes]
  · by_cases line : last = 13
    · subst line
      exact ⟨⟨name, none, name_plain, by simp⟩, rest, by simp [Extension.bytes], named.after rfl⟩
    · refine absurd ?_ (Completes.no_error named)
      simp [step, not_plain_spec last stop, equals, line]

/-- A line with the size of a chunk. -/
theorem chunkSize_ends
    (completes : Completes ⟨⟨.chunkSize, contentSize, [], 0, true⟩, req⟩ text halt) :
    ∃ (size : Str) (extension : Option Extension) (rest : Str),
      text = size ++ extension.elim [] Extension.bytes ++ 13 :: rest ∧
      (∀ c ∈ size, isalnum c) ∧
      Completes ⟨⟨.chunkSizeNewLine, contentSize, size, 0, true⟩, req⟩ rest halt := by
  have stays : ∀ (size : Str) (input : UInt8) (left : Nat), isalnum input →
      step ⟨⟨.chunkSize, contentSize, size, 0, true⟩, req⟩ input left =
        .next ⟨⟨.chunkSize, contentSize, size ++ [input], 0, true⟩, req⟩ := by
    intro size input left alnum
    simp [step, alnum, Parsing.pushChunkSize]
  obtain ⟨size, last, rest, rfl, alnum, stop, sized⟩ :=
    Machine.Ends.collect stays [] completes
  by_cases semicolon : last = 59
  · subst semicolon
    have named : Completes ⟨⟨.chunkExtensionName, contentSize, size, 0, true⟩, req⟩ rest halt :=
      sized.after rfl
    obtain ⟨extension, rest, written, line⟩ := extension_ends named
    exact ⟨size, some extension, rest, by simp [written], alnum, line⟩
  · by_cases line : last = 13
    · subst line
      exact ⟨size, none, rest, by simp, alnum, sized.after rfl⟩
    · refine absurd ?_ (Completes.no_error sized)
      simp [step, stop, semicolon, line]

theorem step_sized (req : HttpRequest) (contentSize : UInt64) (size : Str) (left : Nat) :
    step ⟨⟨.chunkSizeNewLine, contentSize, size, 0, true⟩, req⟩ 10 left =
      let chunkSize := toSizeT (strtol size 16)
      let s (state : State) : Parsing := ⟨⟨state, contentSize, [], chunkSize, true⟩, req⟩
      if UInt64.ofNat req.content.length + chunkSize > maxSize then
        .stop (s .chunkSizeNewLine) .lengthError
      else if chunkSize = 0 then .next (s .chunkSizeNewLine_2)
      else .next (s .chunkData) := by
  simp only [step, if_true, chunkSizeEnd, Parsing.goto]

/-- The end of a line with the size of a chunk. -/
theorem sized_ends {size : Str}
    (completes : Completes ⟨⟨.chunkSizeNewLine, contentSize, size, 0, true⟩, req⟩ text halt) :
    ∃ rest, text = 10 :: rest ∧
      UInt64.ofNat req.content.length + toSizeT (strtol size 16) ≤ maxSize ∧
      Completes ⟨⟨if toSizeT (strtol size 16) = 0 then .chunkSizeNewLine_2 else .chunkData,
        contentSize, [], toSizeT (strtol size 16), true⟩, req⟩ rest halt := by
  obtain ⟨first, rest, rfl, _⟩ := completes.step
  by_cases newLine : first = 10
  · subst newLine
    have moved := step_sized req contentSize size rest.length
    by_cases long : UInt64.ofNat req.content.length + toSizeT (strtol size 16) > maxSize
    · simp only [if_pos long] at moved
      exact absurd (completes.stopped moved).1 (by decide)
    · simp only [if_neg long] at moved
      refine ⟨rest, rfl, UInt64.not_lt.mp long, completes.after ?_⟩
      rw [moved]
      split <;> rfl
  · exact absurd (if_neg newLine) completes.no_error

theorem step_data (req : HttpRequest) (contentSize chunkSize : UInt64) (c : UInt8)
    (left : Nat) :
    step ⟨⟨.chunkData, contentSize, [], chunkSize, true⟩, req⟩ c left =
      .next ⟨⟨if chunkSize - 1 = 0 then .chunkDataNewLine_1 else .chunkData, contentSize, [],
        chunkSize - 1, true⟩, { req with content := req.content ++ [c] }⟩ := by
  by_cases last : chunkSize - 1 = 0
  · rw [if_pos last]
    exact if_pos last
  · rw [if_neg last]
    exact if_neg last

/-- The counter runs down to the last byte of the chunk. -/
theorem chunkData_ends {chunkSize : UInt64} (more : chunkSize ≠ 0)
    (completes : Completes ⟨⟨.chunkData, contentSize, [], chunkSize, true⟩, req⟩ text halt) :
    ∃ data rest, text = data ++ rest ∧ data.length = chunkSize.toNat ∧
      Completes ⟨⟨.chunkDataNewLine_1, contentSize, [], 0, true⟩,
        { req with content := req.content ++ data }⟩ rest halt := by
  induction text generalizing chunkSize req with
  | nil =>
      obtain ⟨_, _, impossible, _⟩ := completes.step
      cases impossible
  | cons c text ih =>
      have count := toNat_sub_one more
      have later := completes.after (step_data req contentSize chunkSize c text.length)
      by_cases last : chunkSize - 1 = 0
      · rw [if_pos last, last] at later
        exact ⟨[c], text, rfl, by rw [count, last]; rfl, later⟩
      · rw [if_neg last] at later
        obtain ⟨data, rest, rfl, length, line⟩ := ih last later
        refine ⟨c :: data, rest, rfl, by rw [count, List.length_cons, length], ?_⟩
        rw [List.append_assoc, List.singleton_append] at line
        exact line

/-- One chunk: the last one, or one with data. -/
theorem chunk_ends
    (completes : Completes ⟨⟨.chunkSize, contentSize, [], 0, true⟩, req⟩ text halt) :
    ∃ (chunk : LaxChunk) (rest : Str),
      (chunk.data = [] ∧ text = chunk.line ++ rest ∧
        Completes ⟨⟨.chunkSizeNewLine_2, contentSize, [], 0, true⟩, req⟩ rest halt) ∨
      (chunk.data ≠ [] ∧ text = chunk.bytes ++ rest ∧
        (req.content.length < 2 ^ 63 → (req.content ++ chunk.data).length < 2 ^ 63) ∧
        Completes ⟨⟨.chunkSize, contentSize, [], 0, true⟩,
          { req with content := req.content ++ chunk.data }⟩ rest halt) := by
  obtain ⟨size, extension, _, rfl, alnum, sized⟩ := chunkSize_ends completes
  obtain ⟨rest, rfl, reserved, later⟩ := sized_ends sized
  have count := toNat_toSizeT (strtol size 16)
  have nonneg : 0 ≤ strtol size 16 ∧ strtol size 16 < 2 ^ 63 := by
    obtain ⟨value, found, small⟩ := strtol_alnum_bounds 16 alnum
    omega
  by_cases zero : toSizeT (strtol size 16) = 0
  · rw [if_pos zero, zero] at later
    have nothing : strtol size 16 = ([] : Str).length := by
      rw [zero, UInt64.toNat_zero] at count
      simp only [List.length_nil]
      omega
    refine ⟨⟨size, extension, [], alnum, nothing⟩, rest, .inl ⟨rfl, ?_, later⟩⟩
    simp [LaxChunk.line, ended, crlf]
  · rw [if_neg zero] at later
    obtain ⟨data, _, rfl, length, line⟩ := chunkData_ends zero later
    obtain ⟨_, rfl, newLine⟩ := Completes.expect (fun _ _ => rfl) line
    obtain ⟨rest, rfl, next⟩ := Completes.expect (fun _ _ => rfl) newLine
    have all : strtol size 16 = data.length := by omega
    have some : data ≠ [] := by
      rintro rfl
      exact zero (UInt64.toNat_inj.mp length.symm)
    refine ⟨⟨size, extension, data, alnum, all⟩, rest, .inr ⟨some, ?_, fun held => ?_, next⟩⟩
    · simp [LaxChunk.bytes, LaxChunk.line, ended, crlf]
    · have small : data.length < 2 ^ 63 := by omega
      rw [all, toSizeT_natCast] at reserved
      rw [List.length_append]
      exact (reserve_iff held small).mp reserved

/-- The rest of a trailer, behind the first letter of its name. -/
theorem trailer_ends {first : UInt8} (alpha : isalpha first)
    (completes : Completes ⟨⟨.chunkTrailerName, contentSize, [], 0, true⟩, req⟩ text halt) :
    ∃ (trailer : Trailer) (rest : Str), first :: text = trailer.bytes ++ rest ∧
      Completes ⟨⟨.chunkSizeNewLine_2, contentSize, [], 0, true⟩, req⟩ rest halt := by
  have stays : ∀ (input : UInt8) (left : Nat), isalnum input →
      step ⟨⟨.chunkTrailerName, contentSize, [], 0, true⟩, req⟩ input left =
        .next ⟨⟨.chunkTrailerName, contentSize, [], 0, true⟩, req⟩ := by
    intro input left alnum
    simp [step, alnum]
  have refuses : ∀ (input : UInt8) (left : Nat), isalnum input = false → input ≠ 58 →
      ∃ last other, step ⟨⟨.chunkTrailerName, contentSize, [], 0, true⟩, req⟩ input left =
        .stop last other ∧ other ≠ Stop.parsingCompleted := by
    intro input left alnum colon
    simp only [step, alnum, colon]
    exact error_stops _
  obtain ⟨name, _, rfl, name_alnum, named⟩ :=
    completes.skip_until stays (fun _ => rfl) refuses
  obtain ⟨value, _, rfl, value_plain, valued⟩ := plain_ends (.inr rfl) named
  obtain ⟨rest, rfl, _, later⟩ := sized_ends valued
  have whole : ∀ c ∈ first :: name, isalnum c := by
    refine List.forall_mem_cons.mpr ⟨?_, name_alnum⟩
    rw [isalnum, alpha]
    rfl
  refine ⟨⟨first :: name, value, ⟨first, rfl, alpha⟩, whole, value_plain⟩, rest, ?_, later⟩
  simp [Trailer.bytes, crlf]

/-- A line behind the last chunk: the empty line that ends the request, or a trailer. -/
theorem chunkSizeNewLine_2_ends
    (completes : Completes ⟨⟨.chunkSizeNewLine_2, contentSize, [], 0, true⟩, req⟩ text halt) :
    (text = crlf ++ halt.rest ∧ halt.state.req.content = req.content) ∨
      ∃ (trailer : Trailer) (rest : Str), text = trailer.bytes ++ rest ∧
        Completes ⟨⟨.chunkSizeNewLine_2, contentSize, [], 0, true⟩, req⟩ rest halt := by
  obtain ⟨first, text, rfl, _⟩ := completes.step
  by_cases line : first = 13
  · subst line
    have empty : Completes ⟨⟨.chunkSizeNewLine_3, contentSize, [], 0, true⟩, req⟩ text halt :=
      completes.after rfl
    obtain ⟨last, text, rfl, _⟩ := empty.step
    by_cases newLine : last = 10
    · subst newLine
      obtain ⟨_, rfl⟩ := empty.stopped rfl
      exact .inl ⟨rfl, rfl⟩
    · exact absurd (if_neg newLine) empty.no_error
  · by_cases alpha : isalpha first
    · have named : Completes ⟨⟨.chunkTrailerName, contentSize, [], 0, true⟩, req⟩ text halt := by
        refine completes.after ?_
        simp [step, line, alpha, Parsing.goto]
      exact .inr (trailer_ends alpha named)
    · refine absurd ?_ completes.no_error
      simp [step, line, alpha]

theorem trailers_ends
    (completes : Completes ⟨⟨.chunkSizeNewLine_2, contentSize, [], 0, true⟩, req⟩ text halt) :
    ∃ trailers : List Trailer,
      text = trailers.flatMap Trailer.bytes ++ crlf ++ halt.rest ∧
      halt.state.req.content = req.content := by
  -- Every trailer is shorter than the text that it begins.
  induction size : text.length using Nat.strong_induction_on generalizing text with
  | _ length ih =>
      rcases chunkSizeNewLine_2_ends completes with ⟨rfl, content⟩ | ⟨trailer, rest, rfl, later⟩
      · exact ⟨[], rfl, content⟩
      · have shorter : rest.length < length := by
          simp only [Trailer.bytes, crlf, List.length_append, List.length_cons] at size
          omega
        obtain ⟨trailers, rfl, content⟩ := ih rest.length shorter later rfl
        exact ⟨trailer :: trailers, by simp, content⟩

/-- All chunks of a body, and what comes behind them. -/
theorem chunks_ends (held : req.content.length < 2 ^ 63)
    (completes : Completes ⟨⟨.chunkSize, contentSize, [], 0, true⟩, req⟩ text halt) :
    ∃ content body, text = body ++ halt.rest ∧ LaxSequence content body ∧
      halt.state.req.content = req.content ++ content ∧
      (req.content ++ content).length < 2 ^ 63 := by
  induction size : text.length using Nat.strong_induction_on generalizing text req with
  | _ length ih =>
      obtain ⟨chunk, rest, ⟨empty, rfl, later⟩ | ⟨some, rfl, holds, later⟩⟩ :=
        chunk_ends completes
      · obtain ⟨trailers, rfl, content⟩ := trailers_ends later
        refine ⟨[], chunk.line ++ trailers.flatMap Trailer.bytes ++ crlf, by simp,
          ⟨[], chunk, trailers, by simp, empty, rfl, by simp⟩, ?_, ?_⟩
        · rw [content, List.append_nil]
        · rw [List.append_nil]
          exact held
      · have shorter : rest.length < length := by
          simp only [LaxChunk.bytes, ended, crlf, List.length_append, List.length_cons] at size
          omega
        obtain ⟨content, body, rfl, ⟨chunks, last, trailers, more, empty, rfl, rfl⟩, grown,
          small⟩ := ih rest.length shorter (holds held) later rfl
        refine ⟨chunk.data ++ chunks.flatMap LaxChunk.data, _, (List.append_assoc _ _ _).symm,
          ⟨chunk :: chunks, last, trailers, ?_, empty, rfl, by simp⟩, ?_, ?_⟩
        · exact List.forall_mem_cons.mpr ⟨some, more⟩
        · rw [grown, List.append_assoc]
        · rw [← List.append_assoc]
          exact small

/-! ## The end of the headers -/

theorem step_headersEnd (base : HttpRequest) (head : Head) (input : UInt8) (left : Nat) :
    step (base.reading .expectingNewline_3 head) input left =
      let s (state : State) : Parsing :=
        ⟨⟨state, toSizeT head.contentLength, [], 0, head.chunked⟩, { base with
          headers := head.headers
          keepAlive := keepAlive { base with headers := head.headers } }⟩
      if head.chunked then .next (s .chunkSize)
      else if toSizeT head.contentLength = 0 then
        if input = 10 then (s .expectingNewline_3).completed left
        else (s .expectingNewline_3).error
      else .next (s .post) := rfl

/-- Behind the CR of the empty line come a byte and the body that is read. -/
theorem body_ends {base : HttpRequest} {head : Head} (fits : head.Fits)
    (empty : base.content = [])
    (completes : Completes (base.reading .expectingNewline_3 head) text halt) :
    ∃ b body, text = b :: body ++ halt.rest ∧
      head.Reads halt.state.req.content body := by
  obtain ⟨b, text, rfl, _⟩ := completes.step
  have taken := step_headersEnd base head b text.length
  obtain ⟨headers, contentLength, chunked⟩ := head
  refine ⟨b, ?_⟩
  cases chunked with
  | true =>
      have first := completes.after taken
      obtain ⟨content, body, rfl, sequence, all, small⟩ := chunks_ends (by
        rw [show _ = base.content from rfl, empty]
        decide) first
      simp only [empty, List.nil_append] at all small
      rw [all]
      exact ⟨body, rfl, sequence, small⟩
  | false =>
      obtain ⟨nonneg, small⟩ := fits
      have count := toNat_toSizeT contentLength
      simp only [Head.Reads, Bool.false_eq_true, if_false] at nonneg small taken ⊢
      by_cases zero : toSizeT contentLength = 0
      · have nothing : contentLength = 0 := by
          rw [zero, UInt64.toNat_zero] at count
          omega
        rw [if_pos zero] at taken
        by_cases newLine : b = 10
        · rw [if_pos newLine] at taken
          obtain ⟨_, rfl⟩ := completes.stopped taken
          refine ⟨[], rfl, empty.symm, ?_⟩
          rw [show _ = base.content from rfl, empty, nothing]
          rfl
        · rw [if_neg newLine] at taken
          exact absurd (completes.stopped taken).1 (by decide)
      · rw [if_neg zero] at taken
        obtain ⟨data, rfl, length, all⟩ := post_ends zero (completes.after taken)
        rw [empty, List.nil_append] at all
        exact ⟨data, rfl, all.symm, by rw [all]; omega⟩

/-! ## Accepted requests -/

/-- The layout of an accepted request, with one byte that can be any. -/
theorem accepted_layout (completes : Completes ⟨.fresh, .empty⟩ text halt)
    (major : halt.state.req.versionMajor ≥ 1) :
    ∃ (start : RequestLine) (lines : List HeaderLine) (b : UInt8) (body : Str),
      text = ended start.text ++ lines.flatMap (fun line => ended line.text) ++
        13 :: b :: (body ++ halt.rest) ∧
      (∀ line ∈ lines.head?, line.isField) ∧
      (lines.foldl (Head.read start.method) .empty).Fits ∧
      (lines.foldl (Head.read start.method) .empty).Reads halt.state.req.content body := by
  obtain ⟨start, lines, base, rest, rfl, isField, empty, fits, later⟩ :=
    head_ends completes major
  obtain ⟨b, body, rfl, read⟩ := body_ends fits empty later
  exact ⟨start, lines, b, body, rfl, isField, fits, read⟩

end Nicenet.Http
