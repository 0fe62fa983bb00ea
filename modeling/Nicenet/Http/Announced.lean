import Nicenet.Http.Accepted

/-!
# Bodies that are announced and bodies that are read

The parser evaluates each header line at its end: `Content-Length` by `atoi`, a transfer
coding if the value is the word `chunked`, both for POST and PUT only. Of the sizes of
chunks it reads what `strtol` makes of them. What it reads is the body that is announced
if and only if the text leaves no room for another reading.
-/

namespace Nicenet.Http

open Library

/-! ## Texts with one reading -/

/-- A `Transfer-Encoding` line, with the lines that continue it up to some line, has the
word `chunked` as its value. -/
def saysChunked (lines : List HeaderLine) : Bool :=
  lines.inits.any fun front =>
    (front.foldl (gather []) []).getLast?.any HeaderItem.isChunked

/-- The sizes of chunks, as `strtol` leads from one to the next. -/
def sizes : Nat → Str → List Str
  | 0, _ => []
  | fuel + 1, text =>
      let size := text.takeWhile isalnum
      let data := (text.dropWhile (· ≠ 10)).tail
      if strtol size 16 = 0 then [size]
      else size :: sizes fuel (data.drop ((strtol size 16).toNat + 2))

/-- The sizes that the walk through a text comes to are numerals that fit. -/
def SizesFit (rest : Str) : Prop :=
  ∀ size ∈ sizes rest.length rest, IsNumeral 16 size ∧ numeral 16 size < 2 ^ 63

instance (rest : Str) : Decidable (SizesFit rest) :=
  inferInstanceAs (Decidable (∀ size ∈ sizes rest.length rest, _))

/-- Lengths in decimal, of one value: zero, or below 2³¹ and that of a POST or PUT. -/
def ClearLength (method : Str) (headers : List HeaderItem) : Prop :=
  ∀ length ∈ lengths headers, IsNumeral 10 length ∧
    (numeral 10 length = 0 ∨ (HasBody method ∧ numeral 10 length < 2 ^ 31)) ∧
    ∀ other ∈ lengths headers, numeral 10 other = numeral 10 length

instance (method : Str) (headers : List HeaderItem) : Decidable (ClearLength method headers) :=
  inferInstanceAs (Decidable (∀ length ∈ lengths headers, _))

/-- A POST or PUT whose last coding is `chunked`, which it says as the parser looks for it,
and chunks with sizes in hexadecimal. -/
def ClearChunks (method : Str) (lines : List HeaderLine) (rest : Str) : Prop :=
  SameWord (finalCoding (fields lines)) strChunked ∧ HasBody method ∧ saysChunked lines ∧
    SizesFit rest

instance (method : Str) (lines : List HeaderLine) (rest : Str) :
    Decidable (ClearChunks method lines rest) :=
  inferInstanceAs (Decidable (_ ∧ _))

/-- Header lines and what is behind them leave one reading of the body. -/
def ClearBody (method : Str) (lines : List HeaderLine) (rest : Str) : Prop :=
  if (fields lines).any HeaderItem.isTransferEncoding then ClearChunks method lines rest
  else ClearLength method (fields lines)

instance (method : Str) (lines : List HeaderLine) (rest : Str) :
    Decidable (ClearBody method lines rest) :=
  inferInstanceAs (Decidable (ite _ _ _))

/-- A text whose lines, the empty one included, end with CR LF and leave one reading of
the body. -/
def Clear (text : Str) : Prop :=
  ∃ (start : RequestLine) (lines : List HeaderLine) (rest : Str),
    (∀ line ∈ lines.head?, line.isField) ∧
      text = ended start.text ++ lines.flatMap (fun line => ended line.text) ++
        crlf ++ rest ∧
      ClearBody start.method lines rest

/-! ## What is evaluated -/

/-- The last header, if it says how long the body is. -/
def lastLength (headers : List HeaderItem) : Int :=
  match (headers.filter HeaderItem.isContentLength).getLast? with
  | none => 0
  | some item => (atoi item.value).toInt

/-- What the parser has made of some header lines. -/
structure Head.Sees (method : Str) (lines : List HeaderLine) (head : Head) : Prop where
  headers : head.headers = lines.foldl (gather []) []
  chunked : head.chunked = true ↔ HasBody method ∧ saysChunked lines
  bodiless : ¬HasBody method → head.contentLength = 0
  counted : HasBody method → head.contentLength = lastLength head.headers

theorem saysChunked_concat (lines : List HeaderLine) (line : HeaderLine) :
    saysChunked (lines ++ [line]) = (saysChunked lines ||
      ((lines ++ [line]).foldl (gather []) []).getLast?.any HeaderItem.isChunked) := by
  simp [saysChunked, List.inits_append]

theorem saysChunked_self {lines : List HeaderLine}
    (last : (lines.foldl (gather []) []).getLast?.any HeaderItem.isChunked) :
    saysChunked lines :=
  List.any_eq_true.mpr ⟨lines, (List.mem_inits _ _).mpr List.prefix_rfl, last⟩

/-- A line that leaves a last header is evaluated at its end. -/
theorem Head.evaluate_push (method : Str) (head : Head) (item : HeaderItem)
    (body : HasBody method) :
    (head.push item).evaluate method =
      { headers := head.headers ++ [item]
        contentLength :=
          if item.isContentLength then (atoi item.value).toInt else head.contentLength
        chunked := head.chunked || item.isChunked } := by
  rw [Head.evaluate, if_pos body]
  simp only [Head.push, List.getLast?_concat]
  by_cases length : item.isContentLength
  · simp [length, HeaderItem.not_isChunked length]
  · by_cases chunked : item.isChunked
    · simp [length, chunked]
    · simp [length, chunked]

theorem lastLength_concat (headers : List HeaderItem) (item : HeaderItem) :
    lastLength (headers ++ [item]) =
      if item.isContentLength then (atoi item.value).toInt else lastLength headers := by
  by_cases length : item.isContentLength <;> simp [lastLength, List.filter_append, length]

namespace Head.Sees

variable {method : Str} {lines : List HeaderLine} {head : Head}

theorem empty (method : Str) : Head.Sees method [] .empty :=
  ⟨rfl, by simp [Head.empty, saysChunked], fun _ => rfl, fun _ => rfl⟩

/-- A line that changes the last header, or adds one. -/
theorem push (sees : head.Sees method lines) {line : HeaderLine} {front : List HeaderItem}
    {item : HeaderItem} (gathered : gather [] head.headers line = front ++ [item])
    (others : item.isContentLength = false → lastLength front = lastLength head.headers) :
    ((Head.mk front head.contentLength head.chunked).push item |>.evaluate method).Sees
      method (lines ++ [line]) := by
  have all : (lines ++ [line]).foldl (gather []) [] = front ++ [item] := by
    rw [List.foldl_append, ← sees.headers]
    exact gathered
  by_cases body : HasBody method
  · rw [Head.evaluate_push method _ item body]
    refine ⟨all.symm, ?_, fun none => absurd body none, fun _ => ?_⟩
    · rw [saysChunked_concat, all, List.getLast?_concat, Option.any_some, Bool.or_eq_true,
        Bool.or_eq_true, sees.chunked]
      simp [body]
    · rw [lastLength_concat]
      by_cases length : item.isContentLength
      · rw [if_pos length, if_pos length]
      · rw [if_neg length, if_neg length, others (Bool.eq_false_iff.mpr length),
          ← sees.counted body]
  · rw [Head.evaluate, if_neg body]
    have unread : head.chunked = false := by
      rw [Bool.eq_false_iff, ne_eq, sees.chunked]
      exact fun both => body both.1
    exact ⟨all.symm, by simp [Head.push, unread, body], fun _ => sees.bodiless body,
      fun has => absurd has body⟩

/-- A line that changes no header. -/
theorem skip (sees : head.Sees method lines) {line : HeaderLine}
    (gathered : gather [] head.headers line = head.headers) :
    head.Sees method (lines ++ [line]) := by
  have all : (lines ++ [line]).foldl (gather []) [] = lines.foldl (gather []) [] := by
    rw [List.foldl_append, ← sees.headers]
    exact gathered
  refine ⟨sees.headers.trans all.symm, ?_, sees.bodiless, sees.counted⟩
  have same : saysChunked (lines ++ [line]) = saysChunked lines := by
    rw [saysChunked_concat, all]
    cases last : (lines.foldl (gather []) []).getLast?.any HeaderItem.isChunked with
    | false => exact Bool.or_false _
    | true => rw [saysChunked_self last, Bool.or_true]
  rw [same]
  exact sees.chunked

/-- One more line. -/
theorem read (sees : head.Sees method lines) (line : HeaderLine) :
    (head.read method line).Sees method (lines ++ [line]) := by
  cases line with
  | field item wf =>
      exact sees.push rfl fun _ => rfl
  | folded space text space_ne space_blank text_plain text_first =>
      rw [Head.read]
      rcases List.eq_nil_or_concat' head.headers with none | ⟨front, item, all⟩
      · rw [none, List.getLast?_nil, ite_self]
        refine sees.skip ?_
        rw [gather, none, List.getLast?_nil]
      · by_cases blank : text = []
        · rw [if_pos blank]
          refine sees.skip ?_
          rw [gather, all, blank]
          simp
        · rw [if_neg blank, all, List.getLast?_concat, List.dropLast_concat]
          refine sees.push ?_ fun length => ?_
          · rw [gather, all]
            simp
          · rw [all, lastLength_concat]
            exact (if_neg (by rw [show item.isContentLength = false from length]; simp)).symm

theorem foldl (method : Str) (lines : List HeaderLine) :
    (lines.foldl (Head.read method) .empty).Sees method lines := by
  induction lines using List.reverseRecOn with
  | nil => exact empty method
  | append_singleton lines line ih =>
      rw [List.foldl_append]
      exact ih.read line

end Head.Sees

/-! ## Values with and without the blanks of folded lines -/

/-- A header as the parser has it, and as it is announced. -/
structure Respaced (item field : HeaderItem) : Prop where
  name : field.name = item.name
  value : item.value.Sublist field.value
  blanks : field.value.filter (· ≠ 32) = item.value.filter (· ≠ 32)

/-- Both readings of header lines, header by header. -/
theorem fields_respaced (lines : List HeaderLine) :
    ∃ pairs : List (HeaderItem × HeaderItem),
      lines.foldl (gather []) [] = pairs.map Prod.fst ∧ fields lines = pairs.map Prod.snd ∧
        ∀ pair ∈ pairs, Respaced pair.1 pair.2 := by
  induction lines using List.reverseRecOn with
  | nil => exact ⟨[], rfl, rfl, List.forall_mem_nil _⟩
  | append_singleton lines line ih =>
      obtain ⟨pairs, here, there, respaced⟩ := ih
      rw [fields] at there
      rw [fields, List.foldl_append, List.foldl_append, here, there]
      cases line with
      | field item wf =>
          refine ⟨pairs ++ [(item, item)], by simp [gather], by simp [gather], ?_⟩
          intro pair member
          rcases List.mem_append.mp member with before | last
          · exact respaced pair before
          · rw [List.mem_singleton.mp last]
            exact ⟨rfl, List.Sublist.refl _, rfl⟩
      | folded space text _ _ _ _ =>
          rcases List.eq_nil_or_concat' pairs with rfl | ⟨front, ⟨item, field⟩, rfl⟩
          · exact ⟨[], rfl, rfl, List.forall_mem_nil _⟩
          · obtain ⟨name, value, blanks⟩ :=
              respaced (item, field) (List.mem_append_right _ List.mem_cons_self)
            refine ⟨front ++ [({ item with value := item.value ++ text },
              { field with value := field.value ++ [32] ++ text })], by simp [gather],
              by simp [gather], ?_⟩
            intro pair member
            rcases List.mem_append.mp member with before | last
            · exact respaced pair (List.mem_append_left _ before)
            · rw [List.mem_singleton.mp last]
              refine ⟨name, ?_, ?_⟩
              · exact (value.trans (List.sublist_append_left _ _)).append (List.Sublist.refl _)
              · simp only [List.filter_append] at blanks ⊢
                rw [blanks]
                simp

/-- What `trim` takes away. -/
theorem trim_spec (text : Str) :
    ∃ front back, text = front ++ trim text ++ back ∧ (∀ c ∈ front, isBlank c) ∧
      ∀ c ∈ back, isBlank c := by
  refine ⟨text.takeWhile isBlank, (text.dropWhile isBlank).rtakeWhile isBlank, ?_,
    fun c member => List.mem_takeWhile_imp member,
    fun c member => List.mem_rtakeWhile_imp member⟩
  rw [trim, List.append_assoc, List.rdropWhile_append_rtakeWhile,
    List.takeWhile_append_dropWhile]

theorem digit_spec : ∀ c : UInt8, isDigitOf 10 c → c ≠ 32 ∧ c ≠ 0 ∧ isspace c = false ∧
    c ≠ 45 ∧ c ≠ 43 := by
  decide +kernel

theorem isBlank_spec : ∀ c : UInt8, isBlank c → c ≠ 0 ∧ isspace c = true ∧
    digitValue c = none := by
  decide +kernel

/-- Digits keep together when blanks go. -/
theorem Respaced.digits {item field : HeaderItem} (respaced : Respaced item field)
    (digits : ∀ c ∈ trim field.value, isDigitOf 10 c) :
    ∃ front back, item.value = front ++ trim field.value ++ back ∧
      (∀ c ∈ front, isBlank c) ∧ ∀ c ∈ back, isBlank c := by
  obtain ⟨front, back, whole, before, behind⟩ := trim_spec field.value
  have part := respaced.value
  have blanks := respaced.blanks
  rw [whole] at part
  obtain ⟨most, after, split, most_part, after_part⟩ := List.sublist_append_iff.mp part
  rw [split] at blanks ⊢
  obtain ⟨first, middle, rfl, first_part, middle_part⟩ := List.sublist_append_iff.mp most_part
  have kept : (trim field.value).filter (· ≠ 32) = trim field.value :=
    List.filter_eq_self.mpr fun c member => decide_eq_true (digit_spec c (digits c member)).1
  have all : middle = trim field.value := by
    refine middle_part.eq_of_length_le ?_
    have sizes := congrArg List.length blanks
    rw [whole] at sizes
    simp only [List.filter_append, List.length_append, kept] at sizes
    have fewer := (first_part.filter (· ≠ 32)).length_le
    have fewerBehind := (after_part.filter (· ≠ 32)).length_le
    have middles := List.length_filter_le (· ≠ 32) middle
    omega
  exact ⟨first, after, by rw [all], fun c member => before c (first_part.subset member),
    fun c member => behind c (after_part.subset member)⟩

/-- A number ends in front of a blank. -/
theorem leadingValue_append {digits back : Str} (value : Nat)
    (all : ∀ c ∈ digits, isDigitOf 10 c) (behind : ∀ c ∈ back, isBlank c) :
    leadingValue 10 value (digits ++ back) = leadingValue 10 value digits := by
  induction digits generalizing value with
  | nil =>
      cases back with
      | nil => rfl
      | cons c back =>
          show leadingValue 10 value (c :: back) = value
          rw [leadingValue, (isBlank_spec c (behind c List.mem_cons_self)).2.2]
  | cons c digits ih =>
      obtain ⟨digit, found, small⟩ :=
        (Option.any_eq_true _ _).mp (all c List.mem_cons_self)
      rw [List.cons_append, leadingValue, leadingValue, found]
      simp only [of_decide_eq_true small, if_true]
      exact ih _ fun other member => all other (List.mem_cons_of_mem _ member)

/-- `atoi` skips blanks in front of a number, and stops at those behind it. -/
theorem atoi_blanks {front digits back : Str} (before : ∀ c ∈ front, isBlank c)
    (wf : IsNumeral 10 digits) (behind : ∀ c ∈ back, isBlank c)
    (fits : numeral 10 digits < 2 ^ 31) :
    (atoi (front ++ digits ++ back)).toInt = numeral 10 digits := by
  obtain ⟨ne, all⟩ := wf
  have whole : cStr (front ++ digits ++ back) = front ++ (digits ++ back) := by
    rw [cStr, List.append_assoc, List.takeWhile_eq_self_iff]
    intro c member
    rw [List.mem_append, List.mem_append] at member
    rcases member with blank | digit | blank
    · exact decide_eq_true (isBlank_spec c (before c blank)).1
    · exact decide_eq_true (digit_spec c (all c digit)).2.1
    · exact decide_eq_true (isBlank_spec c (behind c blank)).1
  obtain ⟨first, more, rfl⟩ := List.exists_cons_of_ne_nil ne
  obtain ⟨_, _, solid, minus, plus⟩ := digit_spec first (all first List.mem_cons_self)
  have skipped : (front ++ (first :: more ++ back)).dropWhile isspace =
      first :: more ++ back := by
    rw [List.dropWhile_append_of_pos fun c member => (isBlank_spec c (before c member)).2.1]
    exact List.dropWhile_cons_of_neg (by rw [solid]; exact Bool.false_ne_true)
  have value : strtol (front ++ first :: more ++ back) 10 = numeral 10 (first :: more) := by
    rw [strtol, whole, skipped, numeral, ← leadingValue_append 0 all behind]
    split
    · rename_i same
      exact absurd (List.cons.inj same).1 minus
    · rename_i same
      exact absurd (List.cons.inj same).1 plus
    · rw [show magnitude 10 (first :: more ++ back) =
        leadingValue 10 0 (first :: more ++ back) from rfl, leadingValue_append 0 all behind]
      exact Int.min_eq_right (by rw [numeral] at fits; omega)
  rw [atoi, value]
  exact Int32.toInt_ofInt_of_le (by omega) (by omega)

/-! ## The sizes of chunks -/

theorem isalnum_line : isalnum 13 = false ∧ isalnum 59 = false := by decide

theorem isPlain_line : ∀ c : UInt8, isPlain c → c ≠ 10 := by decide +kernel

/-- The line of a chunk: its size, and what ends it. -/
theorem LaxChunk.line_spec (chunk : LaxChunk) (rest : Str) :
    (chunk.line ++ rest).takeWhile isalnum = chunk.size ∧
      ((chunk.line ++ rest).dropWhile (· ≠ 10)).tail = rest := by
  obtain ⟨size, extension, data, alnum, _⟩ := chunk
  have inside : 10 ∉ size ++ extension.elim [] Extension.bytes ++ [13] := by
    have every : ∀ c ∈ size ++ extension.elim [] Extension.bytes ++ [13], c ≠ 10 := by
      intro c member
      simp only [List.mem_append] at member
      rcases member with (letter | more) | line
      · exact isPlain_line c (by simp [isPlain, alnum c letter])
      · cases extension with
        | none => exact absurd more List.not_mem_nil
        | some extension =>
            obtain ⟨name, value, name_plain, value_plain⟩ := extension
            rcases List.mem_cons.mp more with rfl | more
            · decide
            · rcases List.mem_append.mp more with named | valued
              · exact isPlain_line c (name_plain c named)
              · cases value with
                | none => exact absurd valued List.not_mem_nil
                | some value =>
                    rcases List.mem_cons.mp valued with rfl | valued
                    · decide
                    · exact isPlain_line c (value_plain value rfl c valued)
      · rw [List.mem_singleton.mp line]
        decide
    exact fun member => every 10 member rfl
  constructor
  · rw [LaxChunk.line, ended, crlf, List.append_assoc, List.append_assoc,
      List.takeWhile_append_of_pos alnum]
    cases extension with
    | none => simp [isalnum_line]
    | some extension => simp [Extension.bytes, isalnum_line]
  · have split : LaxChunk.line ⟨size, extension, data, alnum, ‹_›⟩ ++ rest =
        (size ++ extension.elim [] Extension.bytes ++ [13]) ++ 10 :: rest := by
      simp [LaxChunk.line, ended, crlf]
    rw [split]
    exact Split.behind_append inside

/-- The walk from one size to the next follows the chunks. -/
theorem sizes_chunks {chunks : List LaxChunk} (data : ∀ chunk ∈ chunks, chunk.data ≠ [])
    {last : LaxChunk} (empty : last.data = []) {fuel : Nat} (enough : chunks.length < fuel)
    (rest : Str) :
    sizes fuel (chunks.flatMap LaxChunk.bytes ++ (last.line ++ rest)) =
      chunks.map LaxChunk.size ++ [last.size] := by
  induction chunks generalizing fuel with
  | nil =>
      obtain ⟨fuel, rfl⟩ := Nat.exists_eq_add_one.mpr enough
      obtain ⟨size, _⟩ := last.line_spec rest
      have zero : strtol last.size 16 = 0 := by
        rw [last.size_eq, empty]
        rfl
      simp only [List.flatMap_nil, List.nil_append, sizes, size, zero, if_true, List.map_nil]
  | cons chunk chunks ih =>
      obtain ⟨fuel, rfl⟩ := Nat.exists_eq_add_one.mpr (Nat.zero_lt_of_lt enough)
      obtain ⟨some, others⟩ := List.forall_mem_cons.mp data
      have split : (chunk :: chunks).flatMap LaxChunk.bytes ++ (last.line ++ rest) =
          chunk.line ++ (ended chunk.data ++
            (chunks.flatMap LaxChunk.bytes ++ (last.line ++ rest))) := by
        simp [LaxChunk.bytes]
      obtain ⟨size, behind⟩ := chunk.line_spec (ended chunk.data ++
        (chunks.flatMap LaxChunk.bytes ++ (last.line ++ rest)))
      have more : strtol chunk.size 16 ≠ 0 := by
        rw [chunk.size_eq]
        exact fun zero => some (List.eq_nil_of_length_eq_zero (by omega))
      have count : (strtol chunk.size 16).toNat + 2 = (ended chunk.data).length := by
        rw [chunk.size_eq, ended, List.length_append]
        rfl
      rw [split, sizes]
      simp only [size, behind, if_neg more, count, List.drop_left]
      rw [ih others (Nat.lt_of_succ_lt_succ enough)]
      rfl

/-- A chunk with a numeral for its size is one of those that the parser counts. -/
theorem Chunk.exists_lax (chunk : Chunk) (small : chunk.data.length < 2 ^ 63) :
    ∃ lax : LaxChunk, lax.size = chunk.size ∧ lax.data = chunk.data ∧
      lax.line = chunk.line ∧ lax.bytes = chunk.bytes := by
  refine ⟨⟨chunk.size, chunk.extension, chunk.data, fun c member =>
    (hexDigit_spec c (chunk.size_numeral.2 c member)).1, strtol_size chunk small⟩, rfl, rfl,
    rfl, ?_⟩
  simp [LaxChunk.bytes, Chunk.bytes, LaxChunk.line, Chunk.line, ended]

theorem LaxChunk.exists_chunk (lax : LaxChunk) (wf : IsNumeral 16 lax.size)
    (small : numeral 16 lax.size < 2 ^ 63) :
    ∃ chunk : Chunk, chunk.data = lax.data ∧ chunk.line = lax.line ∧
      chunk.bytes = lax.bytes := by
  have value : numeral 16 lax.size = lax.data.length := by
    have read := lax.size_eq
    rw [strtol_numeral 16 wf.2, Int.min_eq_right (by omega)] at read
    omega
  refine ⟨⟨lax.size, lax.extension, lax.data, wf, value⟩, rfl, rfl, ?_⟩
  simp [LaxChunk.bytes, Chunk.bytes, LaxChunk.line, Chunk.line, ended]

theorem exists_laxes {chunks : List Chunk}
    (fits : ∀ chunk ∈ chunks, chunk.data.length < 2 ^ 63) :
    ∃ laxes : List LaxChunk, laxes.map LaxChunk.size = chunks.map Chunk.size ∧
      laxes.map LaxChunk.data = chunks.map Chunk.data ∧
      laxes.flatMap LaxChunk.bytes = chunks.flatMap Chunk.bytes := by
  induction chunks with
  | nil => exact ⟨[], rfl, rfl, rfl⟩
  | cons chunk chunks ih =>
      obtain ⟨small, others⟩ := List.forall_mem_cons.mp fits
      obtain ⟨laxes, sizes, datas, all⟩ := ih others
      obtain ⟨lax, size, data, _, bytes⟩ := chunk.exists_lax small
      exact ⟨lax :: laxes, by simp [size, sizes], by simp [data, datas], by simp [bytes, all]⟩

theorem exists_chunks {laxes : List LaxChunk}
    (sizes : ∀ lax ∈ laxes, IsNumeral 16 lax.size ∧ numeral 16 lax.size < 2 ^ 63) :
    ∃ chunks : List Chunk, chunks.map Chunk.data = laxes.map LaxChunk.data ∧
      chunks.flatMap Chunk.bytes = laxes.flatMap LaxChunk.bytes := by
  induction laxes with
  | nil => exact ⟨[], rfl, rfl⟩
  | cons lax laxes ih =>
      obtain ⟨⟨wf, small⟩, others⟩ := List.forall_mem_cons.mp sizes
      obtain ⟨chunks, datas, all⟩ := ih others
      obtain ⟨chunk, data, _, bytes⟩ := lax.exists_chunk wf small
      exact ⟨chunk :: chunks, by simp [data, datas], by simp [bytes, all]⟩

theorem length_datas_le (chunks : List Chunk) :
    (chunks.flatMap Chunk.data).length ≤ (chunks.flatMap Chunk.bytes).length := by
  induction chunks with
  | nil => exact Nat.le_refl _
  | cons chunk chunks ih =>
      simp only [List.flatMap_cons, List.length_append, Chunk.bytes]
      omega

/-- A chunk sequence is longer than its content. -/
theorem ChunkSequence.length_lt {content body : Str} (sequence : ChunkSequence content body) :
    content.length < body.length := by
  obtain ⟨chunks, last, trailers, _, _, rfl, rfl⟩ := sequence
  have inside := length_datas_le chunks
  simp only [List.length_append, crlf, List.length_cons]
  omega

/-- The sizes of a body that is read as chunks. -/
theorem sizes_lax {body : Str} {laxes : List LaxChunk} {last : LaxChunk}
    {trailers : List Trailer} (datas : ∀ lax ∈ laxes, lax.data ≠ []) (empty : last.data = [])
    (written : body = laxes.flatMap LaxChunk.bytes ++ last.line ++
      trailers.flatMap Trailer.bytes ++ crlf) (rest : Str) :
    sizes (body ++ rest).length (body ++ rest) = laxes.map LaxChunk.size ++ [last.size] := by
  have enough : laxes.length < (body ++ rest).length := by
    have long : laxes.length ≤ (laxes.flatMap LaxChunk.bytes).length := by
      clear written datas
      induction laxes with
      | nil => exact Nat.le_refl _
      | cons lax laxes ih =>
          simp only [List.flatMap_cons, List.length_append, List.length_cons, LaxChunk.bytes,
            ended, crlf]
          omega
    simp only [written, List.length_append, crlf, List.length_cons]
    omega
  have split : body ++ rest = laxes.flatMap LaxChunk.bytes ++
      (last.line ++ (trailers.flatMap Trailer.bytes ++ crlf ++ rest)) := by
    simp [written]
  rw [split] at enough ⊢
  exact sizes_chunks datas empty enough _

/-- What is read as chunks is a chunk sequence exactly if its sizes are numerals. -/
theorem chunkSequence_iff {content body : Str} (read : LaxSequence content body)
    (small : content.length < 2 ^ 63) (rest : Str) :
    ChunkSequence content body ↔ SizesFit (body ++ rest) := by
  constructor
  · rintro ⟨chunks, last, trailers, datas, empty, rfl, written⟩
    have fits : ∀ chunk ∈ chunks, chunk.data.length < 2 ^ 63 := fun chunk member =>
      Nat.lt_of_le_of_lt (List.Sublist.length_le
        (List.sublist_flatten_of_mem (List.mem_map_of_mem member))) small
    obtain ⟨laxes, names, sames, bytes⟩ := exists_laxes fits
    obtain ⟨lax, size, data, line, _⟩ := last.exists_lax (by rw [empty]; decide)
    have filled : ∀ other ∈ laxes, other.data ≠ [] := by
      intro other member
      have listed : other.data ∈ chunks.map Chunk.data := by
        rw [← sames]
        exact List.mem_map_of_mem member
      obtain ⟨chunk, inside, same⟩ := List.mem_map.mp listed
      rw [← same]
      exact datas chunk inside
    have walk := sizes_lax filled (data.trans empty)
      (written.trans (by rw [bytes, line])) rest
    have all : ∀ chunk ∈ chunks ++ [last], IsNumeral 16 chunk.size ∧
        numeral 16 chunk.size < 2 ^ 63 := by
      intro chunk member
      refine ⟨chunk.size_numeral, ?_⟩
      rw [chunk.size_eq]
      rcases List.mem_append.mp member with inside | final
      · exact fits chunk inside
      · rw [List.mem_singleton.mp final, empty]
        decide
    intro other member
    rw [walk, names, size, ← List.map_singleton, ← List.map_append] at member
    obtain ⟨chunk, inside, rfl⟩ := List.mem_map.mp member
    exact all chunk inside
  · intro fit
    obtain ⟨laxes, last, trailers, datas, empty, rfl, written⟩ := read
    rw [SizesFit, sizes_lax datas empty written] at fit
    obtain ⟨chunks, sames, bytes⟩ := exists_chunks fun lax member =>
      fit lax.size (List.mem_append_left _ (List.mem_map_of_mem member))
    obtain ⟨wf, fits⟩ := fit last.size (List.mem_append_right _ List.mem_cons_self)
    obtain ⟨chunk, data, line, _⟩ := last.exists_chunk wf fits
    refine ⟨chunks, chunk, trailers, ?_, data.trans empty, ?_, ?_⟩
    · intro other member
      have listed : other.data ∈ laxes.map LaxChunk.data := by
        rw [← sames]
        exact List.mem_map_of_mem member
      obtain ⟨lax, inside, same⟩ := List.mem_map.mp listed
      rw [← same]
      exact datas lax inside
    · rw [List.flatMap_def, ← sames, ← List.flatMap_def]
    · rw [written, bytes, line]

/-! ## Announced and read -/

theorem gather_codings (glue : Str) {headers : List HeaderItem} (line : HeaderLine)
    (coded : headers.any HeaderItem.isTransferEncoding) :
    (gather glue headers line).any HeaderItem.isTransferEncoding := by
  cases line with
  | field item wf => simp [gather, coded]
  | folded space text _ _ _ _ =>
      rcases List.eq_nil_or_concat' headers with rfl | ⟨front, item, rfl⟩
      · cases coded
      · rw [List.any_append] at coded
        simp only [gather, List.getLast?_concat, List.dropLast_concat, List.any_append]
        exact coded

/-- A head that says `chunked` has a transfer coding. -/
theorem coded_of_saysChunked {lines : List HeaderLine} (chunked : saysChunked lines) :
    (lines.foldl (gather []) []).any HeaderItem.isTransferEncoding := by
  induction lines using List.reverseRecOn with
  | nil => cases chunked
  | append_singleton lines line ih =>
      rw [saysChunked_concat, Bool.or_eq_true] at chunked
      rcases chunked with before | last
      · rw [List.foldl_append]
        exact gather_codings [] line (ih before)
      · obtain ⟨item, found, coded⟩ := Option.any_eq_true _ _ |>.mp last
        refine List.any_eq_true.mpr ⟨item, List.mem_of_getLast? found, ?_⟩
        rw [HeaderItem.isChunked, Bool.and_eq_true] at coded
        exact coded.1

/-- Both readings have the same transfer codings. -/
theorem any_fields (lines : List HeaderLine) :
    (fields lines).any HeaderItem.isTransferEncoding =
      (lines.foldl (gather []) []).any HeaderItem.isTransferEncoding := by
  obtain ⟨pairs, here, there, respaced⟩ := fields_respaced lines
  have same : ∀ pair ∈ pairs,
      pair.2.isTransferEncoding = pair.1.isTransferEncoding := fun pair member =>
    congrArg (isWord · transferEncoding) (respaced pair member).name
  rw [here, there, List.any_map, List.any_map, Bool.eq_iff_iff, List.any_eq_true,
    List.any_eq_true]
  constructor
  · rintro ⟨pair, member, coded⟩
    exact ⟨pair, member, (same pair member).symm.trans coded⟩
  · rintro ⟨pair, member, coded⟩
    exact ⟨pair, member, (same pair member).trans coded⟩

/-- The last length is read as it is announced, if all of them are numerals that fit. -/
theorem lastLength_of_fields {lines : List HeaderLine} {value : Nat}
    (all : ∀ length ∈ lengths (fields lines), IsNumeral 10 length ∧
      numeral 10 length = value) (fits : value < 2 ^ 31)
    (nothing : lengths (fields lines) = [] → value = 0) :
    lastLength (lines.foldl (gather []) []) = value := by
  obtain ⟨pairs, here, there, respaced⟩ := fields_respaced lines
  have same : ∀ pair ∈ pairs, pair.2.isContentLength = pair.1.isContentLength :=
    fun pair member => congrArg (isWord · contentLength) (respaced pair member).name
  have announced : lengths (fields lines) =
      (pairs.filter fun pair => pair.1.isContentLength).map fun pair => trim pair.2.value := by
    rw [lengths, there, List.filter_map, List.map_map]
    refine congrArg (List.map _) (List.filter_congr same)
  rw [lastLength, here, List.filter_map, List.getLast?_map]
  cases last : (pairs.filter fun pair => pair.1.isContentLength).getLast? with
  | none =>
      rw [List.getLast?_eq_none_iff] at last
      rw [nothing (by rw [announced, last, List.map_nil]),
        show pairs.filter (HeaderItem.isContentLength ∘ Prod.fst) = [] from last]
      rfl
  | some pair =>
      have member := List.mem_of_getLast? last
      obtain ⟨wf, counted⟩ := all (trim pair.2.value) (by
        rw [announced]
        exact List.mem_map_of_mem member)
      obtain ⟨front, back, written, before, behind⟩ :=
        (respaced pair (List.mem_of_mem_filter member)).digits wf.2
      rw [show (pairs.filter (HeaderItem.isContentLength ∘ Prod.fst)).getLast? = some pair
        from last]
      simp only [Option.map_some]
      rw [written, atoi_blanks before wf behind (by rw [counted]; exact fits), counted]

section Sees

variable {method : Str} {lines : List HeaderLine} {head : Head} {content body : Str}

/-- Clear lengths have a value that the parser takes. -/
theorem ClearLength.bounded {value : Nat} (clear : ClearLength method (fields lines))
    (all : ∀ length ∈ lengths (fields lines), numeral 10 length = value)
    (nothing : lengths (fields lines) = [] → value = 0) :
    value = 0 ∨ HasBody method ∧ value < 2 ^ 31 := by
  cases listed : lengths (fields lines) with
  | nil => exact .inl (nothing listed)
  | cons length others =>
      have member : length ∈ lengths (fields lines) := by
        rw [listed]
        exact List.mem_cons_self
      rw [← all length member]
      exact (clear length member).2.1

theorem Head.Sees.contentLength_eq {value : Nat} (sees : head.Sees method lines)
    (clear : ClearLength method (fields lines))
    (all : ∀ length ∈ lengths (fields lines), numeral 10 length = value)
    (nothing : lengths (fields lines) = [] → value = 0) : head.contentLength = value := by
  have bound := clear.bounded all nothing
  by_cases has : HasBody method
  · rw [sees.counted has, sees.headers]
    exact lastLength_of_fields
      (fun length member => ⟨(clear length member).1, all length member⟩) (by omega) nothing
  · rw [sees.bodiless has, bound.resolve_right fun both => has both.1]
    rfl

/-- As many bytes as the parser has counted are announced exactly if the lengths are clear. -/
theorem Head.Sees.lengths_iff (sees : head.Sees method lines) (fits : head.Fits)
    (count : (content.length : Int) = head.contentLength) :
    ((lengths (fields lines) = [] → content = []) ∧ ∀ length ∈ lengths (fields lines),
      IsNumeral 10 length ∧ numeral 10 length = content.length) ↔
      ClearLength method (fields lines) := by
  constructor
  · rintro ⟨nothing, all⟩ length member
    obtain ⟨wf, value⟩ := all length member
    refine ⟨wf, ?_, fun other listed => (all other listed).2.trans value.symm⟩
    rw [value]
    by_cases has : HasBody method
    · have small := fits.2
      exact .inr ⟨has, by omega⟩
    · have zero := sees.bodiless has
      exact .inl (by omega)
  · intro clear
    cases listed : lengths (fields lines) with
    | nil =>
        have zero := sees.contentLength_eq clear (by
          rw [listed]
          exact List.forall_mem_nil _) fun _ => rfl
        exact ⟨fun _ => List.eq_nil_of_length_eq_zero (by omega), List.forall_mem_nil _⟩
    | cons length others =>
        have member : length ∈ lengths (fields lines) := by
          rw [listed]
          exact List.mem_cons_self
        have same := (clear length member).2.2
        have counted := sees.contentLength_eq clear same fun empty =>
          absurd (listed.symm.trans empty) (List.cons_ne_nil _ _)
        rw [← listed]
        refine ⟨fun empty => absurd (listed.symm.trans empty) (List.cons_ne_nil _ _), ?_⟩
        intro other inside
        exact ⟨(clear other inside).1, by rw [same other inside]; omega⟩

/-- What the parser has read as a sequence of chunks is announced exactly if it is clear. -/
theorem Head.Sees.chunks_iff (sees : head.Sees method lines)
    (read : head.Reads content body) (rest : Str) :
    (SameWord (finalCoding (fields lines)) strChunked ∧ ChunkSequence content body) ↔
      ClearChunks method lines (body ++ rest) := by
  rw [Head.Reads] at read
  by_cases chunked : head.chunked
  · rw [if_pos chunked] at read
    rw [chunkSequence_iff read.1 read.2 rest]
    have seen := sees.chunked.mp chunked
    constructor
    · intro reads
      exact ⟨reads.1, seen.1, seen.2, reads.2⟩
    · intro clear
      exact ⟨clear.1, clear.2.2.2⟩
  · rw [if_neg chunked] at read
    constructor
    · rintro ⟨_, sequence⟩
      have longer := sequence.length_lt
      rw [read.1] at longer
      exact absurd longer (Nat.lt_irrefl _)
    · rintro ⟨_, body, word, _⟩
      exact absurd (sees.chunked.mpr ⟨body, word⟩) chunked

end Sees

/-- The body that the parser reads is the one announced exactly if the lines and what is
behind them leave one reading. -/
theorem announce_iff {method : Str} {lines : List HeaderLine} {content body : Str}
    (fits : (lines.foldl (Head.read method) .empty).Fits)
    (read : (lines.foldl (Head.read method) .empty).Reads content body) (rest : Str) :
    Announce (fields lines) content body ↔ ClearBody method lines (body ++ rest) := by
  have sees := Head.Sees.foldl method lines
  generalize lines.foldl (Head.read method) .empty = head at fits read sees
  rw [Announce, ClearBody]
  by_cases coded : (fields lines).any HeaderItem.isTransferEncoding
  · rw [if_pos coded, if_pos coded]
    exact sees.chunks_iff read rest
  · rw [if_neg coded, if_neg coded]
    have unread : ¬head.chunked = true := by
      intro chunked
      rw [any_fields] at coded
      exact coded (coded_of_saysChunked (sees.chunked.mp chunked).2)
    rw [Head.Reads, if_neg unread] at read
    rw [sees.lengths_iff fits read.2, and_iff_right read.1]

/-! ## Accepted requests -/

/-- The bytes that a fresh parser takes. -/
def consumed (text : Str) : Str :=
  text.take (text.length - (consume ⟨.fresh, .empty⟩ text).rest.length)

theorem consumed_append (text : Str) :
    consumed text ++ (consume ⟨.fresh, .empty⟩ text).rest = text :=
  List.suffix_iff_eq_append.mp (Machine.rest_suffix step ⟨.fresh, .empty⟩ text)

/-- What a text has for a body is read off its own lines. -/
theorem clear_iff {text : Str} {start : RequestLine} {lines : List HeaderLine} {b : UInt8}
    {rest : Str} (isField : ∀ line ∈ lines.head?, line.isField)
    (written : text = ended start.text ++ lines.flatMap (fun line => ended line.text) ++
      13 :: b :: rest) :
    Clear text ↔ b = 10 ∧ ClearBody start.method lines rest := by
  constructor
  · rintro ⟨other, others, more, _, same, clear⟩
    rw [written, crlf, List.append_assoc _ [13, 10] more] at same
    obtain ⟨method, rfl, behind⟩ := head_inj same
    obtain ⟨rfl, rfl⟩ := List.cons.inj behind
    exact ⟨rfl, method ▸ clear⟩
  · rintro ⟨rfl, clear⟩
    exact ⟨start, lines, rest, isField, by rw [written]; simp [crlf], clear⟩

/-- The same of a well-formed request. -/
theorem wellFormed_iff {consumed content : Str} {start : RequestLine}
    {lines : List HeaderLine} {b : UInt8} {body : Str}
    (isField : ∀ line ∈ lines.head?, line.isField)
    (written : consumed = ended start.text ++ lines.flatMap (fun line => ended line.text) ++
      13 :: b :: body) :
    WellFormed consumed content ↔ b = 10 ∧ Announce (fields lines) content body := by
  constructor
  · rintro ⟨other, others, more, _, same, announced⟩
    rw [written, crlf, List.append_assoc _ [13, 10] more] at same
    obtain ⟨_, rfl, behind⟩ := head_inj same
    obtain ⟨rfl, rfl⟩ := List.cons.inj behind
    exact ⟨rfl, announced⟩
  · rintro ⟨rfl, announced⟩
    exact ⟨start, lines, body, isField, by rw [written]; simp [crlf], announced⟩

/-- An accepted request is well-formed if and only if its text leaves one reading. -/
theorem Completes.wellFormed_iff {text : Str} {halt : Parsed}
    (completes : Completes ⟨.fresh, .empty⟩ text halt)
    (major : halt.state.req.versionMajor ≥ 1) :
    WellFormed (consumed text) halt.state.req.content ↔ Clear text := by
  obtain ⟨start, lines, b, body, whole, isField, fits, read⟩ :=
    accepted_layout completes major
  have split := consumed_append text
  rw [show consume ⟨.fresh, .empty⟩ text = halt from completes.1] at split
  have taken : consumed text = ended start.text ++
      lines.flatMap (fun line => ended line.text) ++ 13 :: b :: body := by
    apply List.append_cancel_right (split.trans (whole.trans ?_))
    simp
  rw [Http.wellFormed_iff isField taken, clear_iff isField whole,
    announce_iff fits read halt.rest]

/-- A completed request of HTTP/1.0 or later is well-formed if and only if its lines end
with CR LF and leave one reading of its body. -/
theorem consumed_wellFormed_iff {text : Str}
    (completed : (consume ⟨.fresh, .empty⟩ text).result = some .parsingCompleted)
    (major : (consume ⟨.fresh, .empty⟩ text).state.req.versionMajor ≥ 1) :
    WellFormed (consumed text) (consume ⟨.fresh, .empty⟩ text).state.req.content ↔
      Clear text :=
  Completes.wellFormed_iff ⟨rfl, completed⟩ major

/-- The line `POST / HTTP/1.1`, or that of another method. -/
def rootLine (method : Str) (wf : method ≠ [] ∧ ∀ c ∈ method, isToken c) : RequestLine where
  method := method
  uri := [47]
  major := [49]
  minor := [49]
  method_ne := wf.1
  method_token := wf.2
  uri_ne := slash_ne
  uri_plain := by decide +kernel
  uri_blank := by decide +kernel
  major_ne := by decide +kernel
  major_digit := by decide +kernel
  minor_ne := by decide +kernel
  minor_digit := by decide +kernel

/-- A request with one header, with a byte for the LF of its empty line. -/
def single (method : Str) (item : HeaderItem) (b : UInt8) (rest : Str) : Str :=
  method ++ [32, 47, 32, 72, 84, 84, 80, 47, 49, 46, 49, 13, 10] ++ item.bytes ++
    13 :: b :: rest

theorem clear_single {method : Str} {item : HeaderItem}
    (token : method ≠ [] ∧ ∀ c ∈ method, isToken c) (wf : item.WellFormed) (b : UInt8)
    (rest : Str) :
    Clear (single method item b rest) ↔ b = 10 ∧ ClearBody method [.field item wf] rest := by
  refine @clear_iff _ (rootLine method token) [.field item wf] b rest ?_ ?_
  · rintro line same
    cases same
    rfl
  · simp [single, rootLine, RequestLine.text, HeaderLine.text, HeaderItem.bytes, ended, crlf]

/-- `POST / HTTP/1.1` with `Content-Length: 1`, and `a`. -/
theorem consumed_wellFormed_one :
    WellFormed (consumed (single strPost ⟨contentLength, [49]⟩ 10 [97])) [97] := by
  have content : (consume ⟨.fresh, .empty⟩
      (single strPost ⟨contentLength, [49]⟩ 10 [97])).state.req.content = [97] := by
    decide +kernel
  have wellFormed := (consumed_wellFormed_iff (by decide +kernel) (by decide +kernel)).mpr
    ((@clear_single strPost ⟨contentLength, [49]⟩ (by decide +kernel) (by decide +kernel) 10
      [97]).mpr ⟨rfl, by decide +kernel⟩)
  rw [content] at wellFormed
  exact wellFormed

/-- A request that is completed although what was consumed is not well-formed. -/
structure Misread (text : Str) : Prop where
  completed : (consume ⟨.fresh, .empty⟩ text).result = some .parsingCompleted
  major : (consume ⟨.fresh, .empty⟩ text).state.req.versionMajor ≥ 1
  unformed : ¬WellFormed (consumed text) (consume ⟨.fresh, .empty⟩ text).state.req.content

theorem misread_single {method : Str} {item : HeaderItem} {b : UInt8} {rest : Str}
    (token : method ≠ [] ∧ ∀ c ∈ method, isToken c) (wf : item.WellFormed)
    (completed : (consume ⟨.fresh, .empty⟩ (single method item b rest)).result =
      some .parsingCompleted)
    (major : (consume ⟨.fresh, .empty⟩ (single method item b rest)).state.req.versionMajor ≥ 1)
    (unclear : ¬(b = 10 ∧ ClearBody method [.field item wf] rest)) :
    Misread (single method item b rest) := by
  refine ⟨completed, major, fun wellFormed => unclear ?_⟩
  have completes : Completes ⟨.fresh, .empty⟩ (single method item b rest) _ := ⟨rfl, completed⟩
  exact (clear_single token wf b rest).mp ((completes.wellFormed_iff major).mp wellFormed)

/-- Taken as well are: an `X` in the place of the LF; `4294967301` for a length of 5, and
`1x` for one of 1; a length of a GET, whose body is left behind; the size `zz` for the last
chunk. -/
theorem consumed_not_wellFormed :
    Misread (single strPost ⟨contentLength, [49]⟩ 88 [97]) ∧
      Misread (single strPost ⟨contentLength, [52, 50, 57, 52, 57, 54, 55, 51, 48, 49]⟩ 10
        [104, 101, 108, 108, 111]) ∧
      Misread (single strPost ⟨contentLength, [49, 120]⟩ 10 [97]) ∧
      Misread (single [71, 69, 84] ⟨contentLength, [49]⟩ 10 [97]) ∧
      Misread (single strPost ⟨transferEncoding, strChunked⟩ 10 [122, 122, 13, 10, 13, 10]) := by
  refine ⟨?_, ?_, ?_, ?_, ?_⟩ <;>
    exact misread_single (by decide +kernel) (by decide +kernel) (by decide +kernel)
      (by decide +kernel) (by decide +kernel)

end Nicenet.Http
