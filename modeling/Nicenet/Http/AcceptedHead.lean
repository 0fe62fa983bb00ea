import Nicenet.Http.Layout

/-!
# The head of an accepted request

A run that completes a request is read from its start: each state tells which bytes
it lets through to the next one. The states at the end of a line wait for its LF.
-/

namespace Nicenet.Http

open Library

/-- The parser completes a request. -/
abbrev Completes (s : Parsing) (text : Str) (halt : Parsed) : Prop :=
  Machine.Ends step s text .parsingCompleted halt

variable {parser : HttpRequestParser} {req : HttpRequest} {text : Str} {halt : Parsed}

/-- A state that waits for one character gets it. -/
theorem Completes.expect {s next : Parsing} {wanted : UInt8}
    (waits : ∀ input left, step s input left = Http.expect s input wanted next)
    (completes : Completes s text halt) :
    ∃ rest, text = wanted :: rest ∧ Completes next rest halt := by
  obtain ⟨input, rest, rfl, ⟨other, taken, later⟩ | ⟨stopped, _⟩⟩ := completes.step
  · rw [waits, Http.expect] at taken
    split at taken
    · rename_i same
      cases taken
      exact ⟨rest, by rw [same], later⟩
    · cases taken
  · rw [waits] at stopped
    exact absurd stopped expect_ne_completed

theorem error_stops (s : Parsing) :
    ∃ last other, s.error = .stop last other ∧ other ≠ Stop.parsingCompleted :=
  ⟨s, .parsingError, rfl, by decide⟩

theorem Completes.no_error {s : Parsing} {input : UInt8}
    (completes : Completes s (input :: text) halt) : step s input text.length ≠ s.error :=
  fun refused => absurd (completes.stopped refused).1 (by decide)

/-! ## The request line -/

theorem method_ends (completes : Completes ⟨parser.at .requestMethodStart, req⟩ text halt) :
    ∃ word rest, text = word ++ 32 :: rest ∧ word ≠ [] ∧ (∀ c ∈ word, isToken c) ∧
      Completes ⟨parser.at .requestUriStart, { req with method := req.method ++ word }⟩
        rest halt := by
  obtain ⟨first, rest, rfl, taken⟩ := completes.step
  simp only [step, HttpRequestParser.at, Parsing.error] at taken
  by_cases token : isToken first
  · simp only [token, Bool.not_true, Bool.false_eq_true, ↓reduceIte,
      Machine.Move.next.injEq, reduceCtorEq, false_and, or_false] at taken
    obtain ⟨next, rfl, later⟩ := taken
    have stays : ∀ (word : Str) (input : UInt8) (left : Nat), isToken input →
        step ⟨parser.at .requestMethod, { req with method := word }⟩ input left =
          .next ⟨parser.at .requestMethod, { req with method := word ++ [input] }⟩ := by
      intro word input left token
      have blank : input ≠ 32 := fun same => absurd token (by rw [same]; decide)
      simp [step, HttpRequestParser.at, Parsing.pushMethod, token, blank]
    have refuses : ∀ (word : Str) (input : UInt8) (left : Nat), isToken input = false →
        input ≠ 32 → ∃ last other,
          step ⟨parser.at .requestMethod, { req with method := word }⟩ input left =
            .stop last other ∧ other ≠ Stop.parsingCompleted := by
      intro word input left token blank
      simp only [step, HttpRequestParser.at, blank, token, Bool.not_false, ↓reduceIte]
      exact error_stops _
    obtain ⟨word, rest, rfl, all, ends⟩ := Machine.Ends.collect_until stays
      (fun word left => (rfl : step ⟨parser.at .requestMethod, { req with method := word }⟩
        32 left = .next ⟨parser.at .requestUriStart, { req with method := word }⟩))
      refuses (req.method ++ [first]) later
    rw [List.append_assoc] at ends
    exact ⟨first :: word, rest, rfl, List.cons_ne_nil _ _,
      List.forall_mem_cons.mpr ⟨token, all⟩, ends⟩
  · simp [token] at taken

theorem uri_ends (completes : Completes ⟨parser.at .requestUriStart, req⟩ text halt)
    (major : halt.state.req.versionMajor ≥ 1) :
    ∃ word rest, text = word ++ 32 :: rest ∧ word ≠ [] ∧
      (∀ c ∈ word, isControl c = false) ∧ (∀ c ∈ word.tail, c ≠ 32) ∧
      Completes ⟨parser.at .requestHttpVersion_h, { req with uri := req.uri ++ word }⟩
        rest halt := by
  obtain ⟨first, rest, rfl, taken⟩ := completes.step
  simp only [step, HttpRequestParser.at, Parsing.error] at taken
  by_cases plain : isControl first
  · simp [plain] at taken
  · simp only [plain, Bool.false_eq_true, ↓reduceIte, Machine.Move.next.injEq, reduceCtorEq,
      false_and, or_false] at taken
    obtain ⟨next, rfl, later⟩ := taken
    have stays : ∀ (word : Str) (input : UInt8) (left : Nat),
        (input != 32 && !isControl input) = true →
        step ⟨parser.at .requestUri, { req with uri := word }⟩ input left =
          .next ⟨parser.at .requestUri, { req with uri := word ++ [input] }⟩ := by
      intro word input left accepted
      simp only [Bool.and_eq_true, bne_iff_ne, Bool.not_eq_true'] at accepted
      have line : input ≠ 13 := fun same => absurd accepted.2 (by rw [same]; decide)
      simp [step, HttpRequestParser.at, Parsing.pushUri, accepted, line]
    obtain ⟨word, last, rest, rfl, all, stop, ends⟩ :=
      Machine.Ends.collect stays (req.uri ++ [first]) later
    by_cases blank : last = 32
    · subst blank
      have plainWord : ∀ c ∈ word, c ≠ 32 ∧ isControl c = false := fun c member => by
        have accepted := all c member
        simp only [Bool.and_eq_true, bne_iff_ne, Bool.not_eq_true'] at accepted
        exact accepted
      have version : Completes ⟨parser.at .requestHttpVersion_h,
          { req with uri := req.uri ++ [first] ++ word }⟩ rest halt := ends.after rfl
      rw [List.append_assoc] at version
      refine ⟨first :: word, rest, rfl, List.cons_ne_nil _ _, ?_,
        fun c member => (plainWord c member).1, version⟩
      exact List.forall_mem_cons.mpr
        ⟨Bool.eq_false_iff.mpr plain, fun c member => (plainWord c member).2⟩
    · by_cases line : last = 13
      · -- A request of HTTP/0.9 is complete here.
        subst line
        obtain ⟨_, rfl⟩ := ends.stopped rfl
        exact absurd major (show ¬(0 : Int32) ≥ 1 by decide)
      · have control : isControl last = true := by simpa [blank] using stop
        refine absurd ?_ (Completes.no_error ends)
        simp [step, HttpRequestParser.at, blank, line, control]

theorem http_ends (completes : Completes ⟨parser.at .requestHttpVersion_h, req⟩ text halt) :
    ∃ rest, text = [72, 84, 84, 80, 47] ++ rest ∧
      Completes ⟨parser.at .requestHttpVersion_majorStart,
        { req with versionMajor := 0, versionMinor := 0 }⟩ rest halt := by
  obtain ⟨_, rfl, afterH⟩ := completes.expect fun _ _ => rfl
  obtain ⟨_, rfl, afterT⟩ := afterH.expect fun _ _ => rfl
  obtain ⟨_, rfl, afterTt⟩ := afterT.expect fun _ _ => rfl
  obtain ⟨_, rfl, afterP⟩ := afterTt.expect fun _ _ => rfl
  obtain ⟨rest, rfl, afterSlash⟩ := afterP.expect fun _ _ => rfl
  exact ⟨rest, rfl, afterSlash⟩

/-- A number of the version, up to the character behind it. -/
theorem digits_ends {start : Parsing} (reading next : Int32 → Parsing) {exit : UInt8}
    (begins : ∀ c left, step start c left =
      if isDigit c then .next (reading (digit c)) else start.error)
    (reads : ∀ value c left, step (reading value) c left =
      if c = exit then .next (next value)
      else if isDigit c then .next (reading (value * 10 + digit c))
      else (reading value).error)
    (apart : isDigit exit = false) (completes : Completes start text halt) :
    ∃ word value rest, text = word ++ exit :: rest ∧ word ≠ [] ∧
      (∀ c ∈ word, isDigit c) ∧ Completes (next value) rest halt := by
  obtain ⟨first, rest, rfl, taken⟩ := completes.step
  rw [begins] at taken
  by_cases isFirst : isDigit first
  · simp only [isFirst, ↓reduceIte, Machine.Move.next.injEq, reduceCtorEq, false_and,
      or_false] at taken
    obtain ⟨_, rfl, later⟩ := taken
    let value (word : Str) : Int32 :=
      word.foldl (fun value c => value * 10 + digit c) (digit first)
    have stays : ∀ (word : Str) (input : UInt8) (left : Nat), isDigit input →
        step (reading (value word)) input left =
          .next (reading (value (word ++ [input]))) := by
      intro word input left isInput
      have other : input ≠ exit := fun same => by
        rw [same, apart] at isInput
        cases isInput
      simp only [value, List.foldl_append, List.foldl_cons, List.foldl_nil]
      rw [reads, if_neg other, if_pos isInput]
    have leaves : ∀ (word : Str) (left : Nat), step (reading (value word)) exit left =
        .next (next (value word)) := by
      intro word left
      rw [reads, if_pos rfl]
    have refuses : ∀ (word : Str) (input : UInt8) (left : Nat), isDigit input = false →
        input ≠ exit → ∃ last other, step (reading (value word)) input left =
          .stop last other ∧ other ≠ Stop.parsingCompleted := by
      intro word input left isInput other
      rw [reads, if_neg other, if_neg (by rw [isInput]; exact Bool.false_ne_true)]
      exact error_stops _
    obtain ⟨word, rest, rfl, all, ends⟩ :=
      Machine.Ends.collect_until stays leaves refuses [] later
    exact ⟨first :: word, _, rest, rfl, List.cons_ne_nil _ _,
      List.forall_mem_cons.mpr ⟨isFirst, all⟩, ends⟩
  · simp [isFirst, Parsing.error] at taken

/-- The first line of a request, and what the parser keeps of it. -/
theorem requestLine_ends (completes : Completes ⟨.fresh, .empty⟩ text halt)
    (major : halt.state.req.versionMajor ≥ 1) :
    ∃ (line : RequestLine) (uri : Str) (versionMajor versionMinor : Int32) (rest : Str),
      text = ended line.text ++ rest ∧
      Completes ⟨HttpRequestParser.fresh.at .headerLineStart,
        { HttpRequest.empty with
          method := line.method
          uri := uri
          versionMajor := versionMajor
          versionMinor := versionMinor }⟩ rest halt := by
  have start : Completes ⟨HttpRequestParser.fresh.at .requestMethodStart, .empty⟩ text halt :=
    completes
  obtain ⟨method, _, rfl, method_ne, method_token, target⟩ := method_ends start
  obtain ⟨uri, _, rfl, uri_ne, uri_plain, uri_blank, version⟩ := uri_ends target major
  obtain ⟨_, rfl, numbers⟩ := http_ends version
  let req (first second : Int32) : HttpRequest :=
    { HttpRequest.empty with
      method := method
      uri := uri
      versionMajor := first
      versionMinor := second }
  obtain ⟨first, firstValue, _, rfl, first_ne, first_digit, dot⟩ := digits_ends
    (fun value => ⟨HttpRequestParser.fresh.at .requestHttpVersion_major, req value 0⟩)
    (fun value => ⟨HttpRequestParser.fresh.at .requestHttpVersion_minorStart, req value 0⟩)
    (fun _ _ => rfl) (fun _ _ _ => rfl) (by decide) numbers
  obtain ⟨second, secondValue, _, rfl, second_ne, second_digit, line⟩ := digits_ends
    (fun value => ⟨HttpRequestParser.fresh.at .requestHttpVersion_minor, req firstValue value⟩)
    (fun value => ⟨HttpRequestParser.fresh.at .responseHttpVersion_newLine,
      req firstValue value⟩)
    (fun _ _ => rfl) (fun _ _ _ => rfl) (by decide) dot
  obtain ⟨rest, rfl, lines⟩ := line.expect fun _ _ => rfl
  refine ⟨⟨method, uri, first, second, method_ne, method_token, uri_ne, uri_plain, uri_blank,
    first_ne, first_digit, second_ne, second_digit⟩, uri, firstValue, secondValue, rest, ?_,
    lines⟩
  simp [ended, RequestLine.text, crlf]

/-! ## The header lines -/

/-- The headers, and what the parser makes of them for the body. -/
structure Head where
  headers : List HeaderItem
  contentLength : Int
  chunked : Bool
  deriving DecidableEq, Repr

/-- The last header, as it is now, is evaluated. -/
def Head.evaluate (method : Str) (head : Head) : Head :=
  if HasBody method then
    match head.headers.getLast? with
    | none => head
    | some item =>
        if item.isContentLength then
          { head with contentLength := (atoi item.value).toInt }
        else if item.isChunked then { head with chunked := true }
        else head
  else head

/-- One more line. A line of blanks adds nothing. -/
def Head.read (method : Str) (head : Head) : HeaderLine → Head
  | .field item _ => { head with headers := head.headers ++ [item] }.evaluate method
  | .folded _ text _ _ _ _ =>
      if text = [] then head
      else
        match head.headers.getLast? with
        | none => head
        | some item =>
            { head with headers := head.headers.dropLast ++
              [{ item with value := item.value ++ text }] }.evaluate method

def Head.empty : Head := ⟨[], 0, false⟩

/-- The parser and its request with a number of header lines read. -/
def HttpRequest.reading (base : HttpRequest) (state : State) (head : Head) : Parsing :=
  ⟨⟨state, toSizeT head.contentLength, [], 0, head.chunked⟩,
    { base with headers := head.headers }⟩

/-- The length is one that a size can hold. -/
def Head.Fits (head : Head) : Prop :=
  0 ≤ head.contentLength ∧ head.contentLength < 2 ^ 31

variable {base : HttpRequest} {head : Head}

/-- A negative length cannot be reserved. -/
theorem fits_of_reserved {value : Int32} (reserved : toSizeT value.toInt ≤ maxSize) :
    0 ≤ value.toInt ∧ value.toInt < 2 ^ 31 :=
  ⟨(toSizeT_le_maxSize value).mp reserved, value.toInt_lt⟩

/-- A header that is evaluated without an exception announces what `evaluate` says. -/
theorem headerEnd_next {next : Parsing} (fits : head.Fits)
    (taken : headerEnd (base.reading .headerValue head) = .next next) :
    next = base.reading .expectingNewline_2 (head.evaluate base.method) ∧
      (head.evaluate base.method).Fits := by
  rw [Head.evaluate]
  by_cases body : HasBody base.method
  · rw [if_pos body]
    cases last : head.headers.getLast? with
    | none =>
        rw [headerEnd_none body last] at taken
        cases taken
    | some item =>
        by_cases length : item.isContentLength
        · rw [headerEnd_length body last length] at taken
          simp only [if_pos length]
          split at taken
          · cases taken
          · next reserved =>
            cases taken
            exact ⟨rfl, fits_of_reserved (UInt64.not_lt.mp reserved)⟩
        · rw [headerEnd_other body last length] at taken
          simp only [if_neg length]
          by_cases chunked : item.isChunked
          · rw [if_pos chunked] at taken ⊢
            cases taken
            exact ⟨rfl, fits⟩
          · rw [if_neg chunked] at taken ⊢
            cases taken
            exact ⟨rfl, fits⟩
  · rw [headerEnd_bodiless body] at taken
    rw [if_neg body]
    cases taken
    exact ⟨rfl, fits⟩

/-- The head with one more header. -/
def Head.push (head : Head) (item : HeaderItem) : Head :=
  { head with headers := head.headers ++ [item] }

theorem reading_back (base : HttpRequest) (head : Head) (item : HeaderItem)
    (change : HeaderItem → HeaderItem) (state next : State) :
    Parsing.back (base.reading state (head.push item)) change next =
      .next (base.reading next (head.push (change item))) :=
  back_snoc ⟨state, toSizeT head.contentLength, [], 0, head.chunked⟩ base head.headers item
    change state next

/-- The rest of a name, and what comes before its value. -/
theorem name_ends {name : Str}
    (completes : Completes (base.reading .headerName (head.push ⟨name, []⟩)) text halt) :
    ∃ word rest, text = word ++ 58 :: 32 :: rest ∧ (∀ c ∈ word, isToken c) ∧
      Completes (base.reading .headerValue (head.push ⟨name ++ word, []⟩)) rest halt := by
  have stays : ∀ (word : Str) (input : UInt8) (left : Nat), isToken input →
      step (base.reading .headerName (head.push ⟨word, []⟩)) input left =
        .next (base.reading .headerName (head.push ⟨word ++ [input], []⟩)) := by
    intro word input left token
    have colon : input ≠ 58 := fun same => absurd token (by rw [same]; decide)
    have moved := reading_back base head ⟨word, []⟩ (pushName input) .headerName .headerName
    simp only [step, HttpRequest.reading]
    rw [if_neg colon, token]
    exact moved
  have leaves : ∀ (word : Str) (left : Nat),
      step (base.reading .headerName (head.push ⟨word, []⟩)) 58 left =
        .next (base.reading .spaceBeforeHeaderValue (head.push ⟨word, []⟩)) :=
    fun _ _ => rfl
  have refuses : ∀ (word : Str) (input : UInt8) (left : Nat), isToken input = false →
      input ≠ 58 → ∃ last other,
        step (base.reading .headerName (head.push ⟨word, []⟩)) input left =
          .stop last other ∧ other ≠ Stop.parsingCompleted := by
    intro word input left token colon
    simp only [step, HttpRequest.reading]
    rw [if_neg colon, token]
    exact error_stops _
  obtain ⟨word, rest, rfl, all, ends⟩ :=
    Machine.Ends.collect_until stays leaves refuses name completes
  obtain ⟨rest, rfl, later⟩ := Completes.expect (fun _ _ => rfl) ends
  exact ⟨word, rest, rfl, all, later⟩

/-- The rest of a value, and the end of its line. -/
theorem value_ends {name value : Str} (fits : head.Fits)
    (completes : Completes (base.reading .headerValue (head.push ⟨name, value⟩)) text halt) :
    ∃ word rest, text = word ++ 13 :: 10 :: rest ∧ (∀ c ∈ word, isControl c = false) ∧
      ((head.push ⟨name, value ++ word⟩).evaluate base.method).Fits ∧
      Completes (base.reading .headerLineStart
        ((head.push ⟨name, value ++ word⟩).evaluate base.method)) rest halt := by
  have stays : ∀ (word : Str) (input : UInt8) (left : Nat),
      (!isControl input) = true →
      step (base.reading .headerValue (head.push ⟨name, word⟩)) input left =
        .next (base.reading .headerValue (head.push ⟨name, word ++ [input]⟩)) := by
    intro word input left plain
    rw [Bool.not_eq_true'] at plain
    have line : input ≠ 13 := (not_control_spec input plain).1
    have moved := reading_back base head ⟨name, word⟩ (pushValue input)
      .headerValue .headerValue
    simp only [step, HttpRequest.reading]
    rw [if_neg line, plain]
    exact moved
  obtain ⟨word, last, rest, rfl, all, stop, ends⟩ := Machine.Ends.collect stays value completes
  rw [Bool.not_eq_false'] at stop
  by_cases line : last = 13
  · subst line
    have grown : (head.push ⟨name, value ++ word⟩).Fits := fits
    cases taken : headerEnd (base.reading .headerValue (head.push ⟨name, value ++ word⟩)) with
    | next next =>
        obtain ⟨rfl, kept⟩ := headerEnd_next grown taken
        have newLine := ends.after taken
        obtain ⟨rest, rfl, lines⟩ := Completes.expect (fun _ _ => rfl) newLine
        exact ⟨word, rest, rfl, fun c member => by simpa using all c member, kept, lines⟩
    | stop last result =>
        obtain ⟨rfl, _⟩ := ends.stopped taken
        exact absurd taken headerEnd_ne_completed
  · refine absurd ?_ (Completes.no_error ends)
    simp [step, HttpRequest.reading, line, stop]

/-- More of the value before, or nothing but blanks. -/
theorem folded_ends {item : HeaderItem} (fits : head.Fits)
    (completes : Completes (base.reading .headerLws (head.push item)) text halt) :
    ∃ space more rest next, text = space ++ more ++ 13 :: 10 :: rest ∧
      (∀ c ∈ space, c = 32 ∨ c = 9) ∧ (∀ c ∈ more, isControl c = false) ∧
      (∀ c ∈ more.head?, c ≠ 32) ∧
      next = (if more = [] then head.push item
        else (head.push ⟨item.name, item.value ++ more⟩).evaluate base.method) ∧
      next.Fits ∧
      Completes (base.reading .headerLineStart next) rest halt := by
  have stays : ∀ (input : UInt8) (left : Nat), (input == 32 || input == 9) = true →
      step (base.reading .headerLws (head.push item)) input left =
        .next (base.reading .headerLws (head.push item)) := by
    intro input left blank
    simp only [Bool.or_eq_true, beq_iff_eq] at blank
    have line : input ≠ 13 := by
      rcases blank with rfl | rfl <;> decide
    simp only [step, HttpRequest.reading]
    rw [if_neg line, if_pos blank]
  obtain ⟨space, first, rest, rfl, all, stop, ends⟩ := completes.skip stays
  have blanks : ∀ c ∈ space, c = 32 ∨ c = 9 := fun c member => by simpa using all c member
  simp only [Bool.or_eq_false_iff, beq_eq_false_iff_ne] at stop
  by_cases line : first = 13
  · subst line
    have newLine : Completes (base.reading .expectingNewline_2 (head.push item)) rest halt :=
      ends.after rfl
    obtain ⟨rest, rfl, lines⟩ := Completes.expect (fun _ _ => rfl) newLine
    exact ⟨space, [], rest, _, by simp, blanks, by simp, by simp, rfl, fits, lines⟩
  · by_cases control : isControl first
    · refine absurd ?_ (Completes.no_error ends)
      simp [step, HttpRequest.reading, line, stop, control]
    · have moved : step (base.reading .headerLws (head.push item)) first rest.length =
          .next (base.reading .headerValue (head.push (pushValue first item))) := by
        have pushed := reading_back base head item (pushValue first) .headerLws .headerValue
        simp only [step, HttpRequest.reading]
        rw [if_neg line, if_neg (by simp [stop]), if_neg control]
        exact pushed
      obtain ⟨word, rest, rfl, plain, kept, lines⟩ := value_ends fits (ends.after moved)
      refine ⟨space, first :: word, rest, _, by simp, blanks, ?_, ?_, rfl, ?_⟩
      · exact List.forall_mem_cons.mpr ⟨Bool.eq_false_iff.mpr control, plain⟩
      · simpa using stop.1
      · simpa [pushValue, List.append_assoc] using And.intro kept lines

/-- What a folded line adds goes to the last header. -/
theorem read_folded (method : Str) (head : Head) (item : HeaderItem) {space text : Str}
    (space_ne : space ≠ []) (space_blank : ∀ c ∈ space, c = 32 ∨ c = 9)
    (text_plain : ∀ c ∈ text, isControl c = false) (text_first : ∀ c ∈ text.head?, c ≠ 32) :
    (head.push item).read method
        (.folded space text space_ne space_blank text_plain text_first) =
      if text = [] then head.push item
      else (head.push ⟨item.name, item.value ++ text⟩).evaluate method := by
  simp [Head.read, Head.push]

/-- A line with a new header, behind the first letter of its name. -/
theorem fieldLine_ends {first : UInt8} (token : isToken first) (fits : head.Fits)
    (completes : Completes (base.reading .headerName (head.push ⟨[first], []⟩)) text halt) :
    ∃ (line : HeaderLine) (rest : Str), first :: text = ended line.text ++ rest ∧
      line.isField ∧ (head.read base.method line).Fits ∧
      Completes (base.reading .headerLineStart (head.read base.method line)) rest halt := by
  obtain ⟨name, _, rfl, tokens, named⟩ := name_ends completes
  obtain ⟨value, rest, rfl, plain, kept, lines⟩ := value_ends fits named
  have whole : ∀ c ∈ first :: name, isToken c := List.forall_mem_cons.mpr ⟨token, tokens⟩
  refine ⟨.field ⟨first :: name, value⟩ ⟨List.cons_ne_nil _ _, whole, plain⟩, rest, ?_, rfl,
    kept, lines⟩
  simp [ended, HeaderLine.text, crlf]

/-- A folded line, behind its first blank. -/
theorem foldedLine_ends {first : UInt8} (blank : first = 32 ∨ first = 9)
    (ne : head.headers ≠ []) (fits : head.Fits)
    (completes : Completes (base.reading .headerLws head) text halt) :
    ∃ (line : HeaderLine) (rest : Str), first :: text = ended line.text ++ rest ∧
      (head.read base.method line).Fits ∧
      Completes (base.reading .headerLineStart (head.read base.method line)) rest halt := by
  obtain ⟨all, contentLength, chunked⟩ := head
  obtain ⟨headers, item, rfl⟩ : ∃ headers item, all = headers ++ [item] :=
    ⟨_, _, (List.dropLast_append_getLast ne).symm⟩
  have pushed : Completes (base.reading .headerLws
    (Head.push ⟨headers, contentLength, chunked⟩ item)) text halt := completes
  have kept : (Head.mk headers contentLength chunked).Fits := fits
  obtain ⟨space, more, rest, next, rfl, blanks, plain, start, added, fits, lines⟩ :=
    folded_ends kept pushed
  have whole : ∀ c ∈ first :: space, c = 32 ∨ c = 9 := List.forall_mem_cons.mpr ⟨blank, blanks⟩
  rw [← read_folded base.method _ item (List.cons_ne_nil first space) whole plain start] at added
  rw [added] at fits lines
  refine ⟨.folded (first :: space) more (List.cons_ne_nil _ _) whole plain start, rest, ?_, fits,
    lines⟩
  simp [ended, HeaderLine.text, crlf]

theorem step_headerLineStart (base : HttpRequest) (head : Head) (input : UInt8) (left : Nat) :
    step (base.reading .headerLineStart head) input left =
      if input = 13 then .next (base.reading .expectingNewline_3 head)
      else if head.headers ≠ [] ∧ (input = 32 ∨ input = 9) then
        .next (base.reading .headerLws head)
      else if !isToken input then (base.reading .headerLineStart head).error
      else .next (base.reading .headerName (head.push ⟨[input], []⟩)) := rfl

/-- A line of the head: its empty line, or a header line. -/
theorem line_ends (fits : head.Fits)
    (completes : Completes (base.reading .headerLineStart head) text halt) :
    (∃ rest, text = 13 :: rest ∧
        Completes (base.reading .expectingNewline_3 head) rest halt) ∨
      ∃ (line : HeaderLine) (rest : Str), text = ended line.text ++ rest ∧
        (head.headers = [] → line.isField) ∧
        (head.read base.method line).Fits ∧
        Completes (base.reading .headerLineStart (head.read base.method line)) rest halt := by
  obtain ⟨first, rest, rfl, _⟩ := completes.step
  have moved := step_headerLineStart base head first rest.length
  by_cases empty : first = 13
  · rw [if_pos empty] at moved
    exact .inl ⟨rest, by rw [empty], completes.after moved⟩
  · rw [if_neg empty] at moved
    by_cases folds : head.headers ≠ [] ∧ (first = 32 ∨ first = 9)
    · rw [if_pos folds] at moved
      obtain ⟨ne, blank⟩ := folds
      obtain ⟨line, rest, written, kept, later⟩ :=
        foldedLine_ends blank ne fits (completes.after moved)
      exact .inr ⟨line, rest, written, fun none => absurd none ne, kept, later⟩
    · rw [if_neg folds] at moved
      cases token : isToken first with
      | false =>
          rw [token] at moved
          exact absurd moved completes.no_error
      | true =>
          rw [token] at moved
          obtain ⟨line, rest, written, isField, kept, later⟩ :=
            fieldLine_ends token fits (completes.after moved)
          exact .inr ⟨line, rest, written, fun _ => isField, kept, later⟩

/-- All header lines, to the CR of the empty line. -/
theorem lines_ends (fits : head.Fits)
    (completes : Completes (base.reading .headerLineStart head) text halt) :
    ∃ (lines : List HeaderLine) (rest : Str),
      text = lines.flatMap (fun line => ended line.text) ++ 13 :: rest ∧
      (head.headers = [] → ∀ line ∈ lines.head?, line.isField) ∧
      (lines.foldl (Head.read base.method) head).Fits ∧
      Completes (base.reading .expectingNewline_3 (lines.foldl (Head.read base.method) head))
        rest halt := by
  -- Every line is shorter than the text that it begins.
  induction size : text.length using Nat.strong_induction_on generalizing head text with
  | _ length ih =>
      rcases line_ends fits completes with ⟨rest, rfl, empty⟩ |
        ⟨line, rest, rfl, isField, kept, later⟩
      · exact ⟨[], rest, rfl, by simp, fits, empty⟩
      · have shorter : rest.length < length := by
          simp only [ended, crlf, List.length_append, List.length_cons] at size
          omega
        obtain ⟨lines, rest, rfl, _, fits, empty⟩ := ih rest.length shorter kept later rfl
        refine ⟨line :: lines, rest, by simp, ?_, fits, empty⟩
        intro none other first
        cases first
        exact isField none

/-- The head of an accepted request: its lines, and what they announce. -/
theorem head_ends (completes : Completes ⟨.fresh, .empty⟩ text halt)
    (major : halt.state.req.versionMajor ≥ 1) :
    ∃ (start : RequestLine) (lines : List HeaderLine) (base : HttpRequest) (rest : Str),
      text = ended start.text ++ lines.flatMap (fun line => ended line.text) ++ 13 :: rest ∧
      (∀ line ∈ lines.head?, line.isField) ∧ base.content = [] ∧
      (lines.foldl (Head.read start.method) .empty).Fits ∧
      Completes (base.reading .expectingNewline_3
        (lines.foldl (Head.read start.method) .empty)) rest halt := by
  obtain ⟨start, uri, versionMajor, versionMinor, rest, rfl, later⟩ :=
    requestLine_ends completes major
  let base : HttpRequest :=
    { HttpRequest.empty with
      method := start.method
      uri := uri
      versionMajor := versionMajor
      versionMinor := versionMinor }
  have first : Completes (base.reading .headerLineStart .empty) rest halt := later
  have nothing : Head.empty.Fits := ⟨by decide, by decide⟩
  obtain ⟨lines, rest, rfl, isField, fits, empty⟩ := lines_ends nothing first
  exact ⟨start, lines, base, rest, by simp, isField rfl, rfl, fits, empty⟩

end Nicenet.Http
