import Nicenet.Http.Head

/-!
# Chunked bodies

Chunks are read one after the other and their data is appended to the content; the
chunk without data and the trailers end the body. Sizes are counted down in the
parser, in 64 bits.
-/

namespace Nicenet.Http

open Library

variable (req : HttpRequest) (contentSize : UInt64)

theorem chunkSize_passes {text : Str} (digits : ∀ c ∈ text, isDigitOf 16 c) :
    Machine.Passes step ⟨⟨.chunkSize, contentSize, [], 0, true⟩, req⟩ text
      ⟨⟨.chunkSize, contentSize, text, 0, true⟩, req⟩ := by
  have step : ∀ (text : Str) (input : UInt8) (left : Nat), isDigitOf 16 input →
      step ⟨⟨.chunkSize, contentSize, text, 0, true⟩, req⟩ input left =
        .next ⟨⟨.chunkSize, contentSize, text ++ [input], 0, true⟩, req⟩ := by
    intro text input left digit
    simp [step, (hexDigit_spec input digit).1, Parsing.pushChunkSize]
  exact Machine.Passes.collect (fun text =>
    Parsing.mk ⟨.chunkSize, contentSize, text, 0, true⟩ req) step [] digits

theorem extension_passes (extension : Option Extension) (size : Str) :
    Machine.Passes step ⟨⟨.chunkSize, contentSize, size, 0, true⟩, req⟩
      (extension.elim [] Extension.bytes ++ [13])
      ⟨⟨.chunkSizeNewLine, contentSize, size, 0, true⟩, req⟩ := by
  have nameStep : ∀ (input : UInt8) (left : Nat), isPlain input →
      step ⟨⟨.chunkExtensionName, contentSize, size, 0, true⟩, req⟩ input left =
        .next ⟨⟨.chunkExtensionName, contentSize, size, 0, true⟩, req⟩ := by
    intro input left plain
    simp [step, isPlain_spec input plain]
  have valueStep : ∀ (input : UInt8) (left : Nat), isPlain input →
      step ⟨⟨.chunkExtensionValue, contentSize, size, 0, true⟩, req⟩ input left =
        .next ⟨⟨.chunkExtensionValue, contentSize, size, 0, true⟩, req⟩ := by
    intro input left plain
    simp [step, isPlain_spec input plain]
  cases extension with
  | none => exact fun _ => rfl
  | some extension =>
      obtain ⟨name, value, name_plain, value_plain⟩ := extension
      have named := Machine.Passes.skip nameStep name_plain
      have semicolon : Machine.Passes step
          ⟨⟨.chunkSize, contentSize, size, 0, true⟩, req⟩ [59]
          ⟨⟨.chunkExtensionName, contentSize, size, 0, true⟩, req⟩ := fun _ => rfl
      cases value with
      | none =>
          have ended : Machine.Passes step
              ⟨⟨.chunkExtensionName, contentSize, size, 0, true⟩, req⟩ [13]
              ⟨⟨.chunkSizeNewLine, contentSize, size, 0, true⟩, req⟩ := fun _ => rfl
          have passes := semicolon.append (named.append ended)
          simpa [Extension.bytes] using passes
      | some value =>
          have valued := Machine.Passes.skip valueStep (value_plain value rfl)
          have equals : Machine.Passes step
              ⟨⟨.chunkExtensionName, contentSize, size, 0, true⟩, req⟩ [61]
              ⟨⟨.chunkExtensionValue, contentSize, size, 0, true⟩, req⟩ := fun _ => rfl
          have ended : Machine.Passes step
              ⟨⟨.chunkExtensionValue, contentSize, size, 0, true⟩, req⟩ [13]
              ⟨⟨.chunkSizeNewLine, contentSize, size, 0, true⟩, req⟩ := fun _ => rfl
          have passes := semicolon.append
            (named.append (equals.append (valued.append ended)))
          simpa [Extension.bytes] using passes

/-- The end of a line with a size that fits. -/
theorem step_chunkSizeNewLine {size : Str} {value : Nat} (old : UInt64) (left : Nat)
    (sizeEq : strtol size 16 = (value : Int))
    (fits : req.content.length + value < 2 ^ 63) :
    step ⟨⟨.chunkSizeNewLine, contentSize, size, old, true⟩, req⟩ 10 left =
      .next ⟨⟨if value = 0 then .chunkSizeNewLine_2 else .chunkData, contentSize, [],
        UInt64.ofNat value, true⟩, req⟩ := by
  have reserved : ¬UInt64.ofNat req.content.length + UInt64.ofNat value > maxSize :=
    UInt64.not_lt.mpr ((reserve_iff (by omega) (by omega)).mpr fits)
  have zero : UInt64.ofNat value = 0 ↔ value = 0 := ofNat_eq_zero (by omega)
  simp only [step, if_true, chunkSizeEnd, sizeEq, toSizeT_natCast]
  rw [if_neg reserved]
  by_cases empty : value = 0
  · rw [if_pos (zero.mpr empty), if_pos empty]
    rfl
  · rw [if_neg (mt zero.mp empty), if_neg empty]
    rfl

/-- The data of a chunk: its last byte ends it. -/
theorem chunkData_passes {data : Str} (ne : data ≠ []) (fits : data.length < 2 ^ 63) :
    Machine.Passes step
      ⟨⟨.chunkData, contentSize, [], UInt64.ofNat data.length, true⟩, req⟩ data
      ⟨⟨.chunkDataNewLine_1, contentSize, [], 0, true⟩,
        { req with content := req.content ++ data }⟩ := by
  induction data generalizing req with
  | nil => exact absurd rfl ne
  | cons c data ih =>
      have less : UInt64.ofNat (c :: data).length - 1 = UInt64.ofNat data.length := by
        rw [List.length_cons, UInt64.ofNat_add]
        exact UInt64.add_sub_cancel _ _
      have small : data.length < 2 ^ 63 := Nat.lt_of_succ_lt fits
      have step : ∀ left, step ⟨⟨.chunkData, contentSize, [],
          UInt64.ofNat (c :: data).length, true⟩, req⟩ c left =
          .next ⟨⟨if data.length = 0 then .chunkDataNewLine_1 else .chunkData,
            contentSize, [], UInt64.ofNat data.length, true⟩,
            { req with content := req.content ++ [c] }⟩ := by
        intro left
        simp only [step, less, ofNat_eq_zero small, Parsing.pushContent, Parsing.goto]
        split <;> rfl
      by_cases last : data = []
      · subst last
        exact Machine.Passes.symbol step
      · rw [if_neg (mt List.length_eq_zero_iff.mp last)] at step
        have later := ih { req with content := req.content ++ [c] } last small
        rw [List.append_assoc] at later
        exact .cons step later

/-- `strtol` of the size of a chunk is the number of its bytes. -/
theorem strtol_size (chunk : Chunk) (fits : chunk.data.length < 2 ^ 63) :
    strtol chunk.size 16 = (chunk.data.length : Int) := by
  rw [strtol_numeral 16 chunk.size_numeral.2, chunk.size_eq]
  exact Int.min_eq_right (by omega)

/-- The line with the size of a chunk. -/
theorem line_passes (chunk : Chunk)
    (fits : (req.content ++ chunk.data).length < 2 ^ 63) :
    Machine.Passes step ⟨⟨.chunkSize, contentSize, [], 0, true⟩, req⟩ chunk.line
      ⟨⟨if chunk.data.length = 0 then .chunkSizeNewLine_2 else .chunkData, contentSize,
        [], UInt64.ofNat chunk.data.length, true⟩, req⟩ := by
  rw [List.length_append] at fits
  have sized := chunkSize_passes req contentSize chunk.size_numeral.2
  have extended := extension_passes req contentSize chunk.extension chunk.size
  have ended := fun left =>
    step_chunkSizeNewLine req contentSize 0 left (strtol_size chunk (by omega)) fits
  have passes := sized.append (extended.append (Machine.Passes.symbol ended))
  have line : chunk.line =
      chunk.size ++ (chunk.extension.elim [] Extension.bytes ++ [13] ++ [10]) := by
    simp [Chunk.line, crlf]
  rw [line]
  exact passes

/-- A chunk is read and appended to the content. -/
theorem chunk_passes {chunk : Chunk} (ne : chunk.data ≠ [])
    (fits : (req.content ++ chunk.data).length < 2 ^ 63) :
    Machine.Passes step ⟨⟨.chunkSize, contentSize, [], 0, true⟩, req⟩ chunk.bytes
      ⟨⟨.chunkSize, contentSize, [], 0, true⟩,
        { req with content := req.content ++ chunk.data }⟩ := by
  have sized := line_passes req contentSize chunk fits
  rw [if_neg (mt List.length_eq_zero_iff.mp ne)] at sized
  rw [List.length_append] at fits
  have data := chunkData_passes req contentSize ne (by omega)
  have ended : Machine.Passes step
      ⟨⟨.chunkDataNewLine_1, contentSize, [], 0, true⟩,
        { req with content := req.content ++ chunk.data }⟩ crlf
      ⟨⟨.chunkSize, contentSize, [], 0, true⟩,
        { req with content := req.content ++ chunk.data }⟩ := fun _ => rfl
  exact (sized.append data).append ended

theorem chunks_passes {chunks : List Chunk} (ne : ∀ chunk ∈ chunks, chunk.data ≠ [])
    (fits : (req.content ++ chunks.flatMap Chunk.data).length < 2 ^ 63) :
    Machine.Passes step ⟨⟨.chunkSize, contentSize, [], 0, true⟩, req⟩
      (chunks.flatMap Chunk.bytes)
      ⟨⟨.chunkSize, contentSize, [], 0, true⟩,
        { req with content := req.content ++ chunks.flatMap Chunk.data }⟩ := by
  induction chunks generalizing req with
  | nil =>
      rw [List.flatMap_nil, List.flatMap_nil, List.append_nil]
      exact .nil _
  | cons chunk chunks ih =>
      rw [List.flatMap_cons, ← List.append_assoc] at fits
      have first : (req.content ++ chunk.data).length < 2 ^ 63 := by
        rw [List.length_append] at fits
        omega
      have later := ih { req with content := req.content ++ chunk.data }
        (fun other member => ne other (List.mem_cons_of_mem _ member)) fits
      have passes := (chunk_passes req contentSize (ne chunk List.mem_cons_self) first).append
        later
      rw [List.flatMap_cons, List.flatMap_cons, ← List.append_assoc]
      exact passes

theorem trailer_passes (trailer : Trailer) (fits : req.content.length < 2 ^ 63) :
    Machine.Passes step ⟨⟨.chunkSizeNewLine_2, contentSize, [], 0, true⟩, req⟩
      trailer.bytes ⟨⟨.chunkSizeNewLine_2, contentSize, [], 0, true⟩, req⟩ := by
  obtain ⟨name, value, ⟨first, isFirst, alpha⟩, name_alnum, value_plain⟩ := trailer
  obtain ⟨rest, rfl⟩ : ∃ rest, name = first :: rest := List.head?_eq_some_iff.mp isFirst
  have started : ∀ left, step ⟨⟨.chunkSizeNewLine_2, contentSize, [], 0, true⟩, req⟩
      first left = .next ⟨⟨.chunkTrailerName, contentSize, [], 0, true⟩, req⟩ := by
    intro left
    have line : first ≠ 13 := fun same => absurd alpha (by rw [same]; decide)
    simp [step, line, alpha, Parsing.goto]
  have nameStep : ∀ (input : UInt8) (left : Nat), isalnum input →
      step ⟨⟨.chunkTrailerName, contentSize, [], 0, true⟩, req⟩ input left =
        .next ⟨⟨.chunkTrailerName, contentSize, [], 0, true⟩, req⟩ := by
    intro input left alnum
    simp [step, alnum]
  have valueStep : ∀ (input : UInt8) (left : Nat), isPlain input →
      step ⟨⟨.chunkTrailerValue, contentSize, [], 0, true⟩, req⟩ input left =
        .next ⟨⟨.chunkTrailerValue, contentSize, [], 0, true⟩, req⟩ := by
    intro input left plain
    simp [step, isPlain_spec input plain]
  have named := Machine.Passes.skip nameStep
    fun c member => name_alnum c (List.mem_cons_of_mem first member)
  have colon : Machine.Passes step
      ⟨⟨.chunkTrailerName, contentSize, [], 0, true⟩, req⟩ [58]
      ⟨⟨.chunkTrailerValue, contentSize, [], 0, true⟩, req⟩ := fun _ => rfl
  have valued := Machine.Passes.skip valueStep value_plain
  have line : Machine.Passes step
      ⟨⟨.chunkTrailerValue, contentSize, [], 0, true⟩, req⟩ [13]
      ⟨⟨.chunkSizeNewLine, contentSize, [], 0, true⟩, req⟩ := fun _ => rfl
  have nothing : strtol [] 16 = ((0 : Nat) : Int) := by decide
  have ended := fun left => step_chunkSizeNewLine req contentSize 0 left nothing fits
  have passes := (Machine.Passes.symbol started).append (named.append
    (colon.append (valued.append (line.append (.symbol ended)))))
  have bytes : Trailer.bytes ⟨first :: rest, value, ⟨first, isFirst, alpha⟩, name_alnum,
      value_plain⟩ = [first] ++ (rest ++ ([58] ++ (value ++ ([13] ++ [10])))) := by
    simp [Trailer.bytes, crlf]
  rw [bytes]
  exact passes

/-- A chunked body is read to its last line. -/
theorem chunked_passes (body : Chunked) (empty : req.content = []) :
    Machine.Passes step ⟨⟨.chunkSize, contentSize, [], 0, true⟩, req⟩
      (body.chunks.flatMap Chunk.bytes ++ body.last.line ++
        body.trailers.flatMap Trailer.bytes ++ [13])
      ⟨⟨.chunkSizeNewLine_3, contentSize, [], 0, true⟩,
        { req with content := body.chunks.flatMap Chunk.data }⟩ := by
  have chunks := chunks_passes req contentSize body.data_ne
    (by rw [empty, List.nil_append]; exact body.fits)
  rw [empty, List.nil_append] at chunks
  have last := line_passes { req with content := body.chunks.flatMap Chunk.data }
    contentSize body.last (by rw [body.last_empty, List.append_nil]; exact body.fits)
  rw [body.last_empty] at last
  have trailers := Machine.Passes.each (fun _ => Parsing.mk
    ⟨.chunkSizeNewLine_2, contentSize, [], 0, true⟩
    { req with content := body.chunks.flatMap Chunk.data })
    (fun _ trailer (_ : True) => trailer_passes _ contentSize trailer body.fits) []
    (fun trailer (_ : trailer ∈ body.trailers) => trivial)
  have line : Machine.Passes step
      ⟨⟨.chunkSizeNewLine_2, contentSize, [], 0, true⟩,
        { req with content := body.chunks.flatMap Chunk.data }⟩ [13]
      ⟨⟨.chunkSizeNewLine_3, contentSize, [], 0, true⟩,
        { req with content := body.chunks.flatMap Chunk.data }⟩ := fun _ => rfl
  exact ((chunks.append last).append trailers).append line

end Nicenet.Http
