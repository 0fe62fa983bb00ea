import Nicenet.Http.Written

/-!
# The head of a request

The request line and the headers take the parser from state to state, whatever
comes behind them. Each part has a lemma `_passes`, which says in which parser and
which request it ends; `announce` is what a header line does to the parser.
-/

namespace Nicenet.Http

open Library

def HttpRequestParser.at (parser : HttpRequestParser) (state : State) :
    HttpRequestParser :=
  { parser with state := state }

/-- What the end of a header line does to the parser. -/
def announce (method : Str) (parser : HttpRequestParser) (item : HeaderItem) :
    HttpRequestParser :=
  if HasBody method then
    if item.isContentLength then
      { parser with contentSize := toSizeT (atoi item.value).toInt }
    else if item.isChunked then { parser with chunked := true }
    else parser
  else parser

variable (parser : HttpRequestParser) (req : HttpRequest)

/-! ## The request line -/

theorem method_passes {text : Str} (token : ∀ c ∈ text, isToken c) :
    Machine.Passes step ⟨parser.at .requestMethod, req⟩ text
      ⟨parser.at .requestMethod, { req with method := req.method ++ text }⟩ := by
  refine Machine.Passes.collect (fun text =>
    Parsing.mk (parser.at .requestMethod) { req with method := text }) ?_ req.method token
  intro text input left token
  have blank : input ≠ 32 := fun same => absurd token (by rw [same]; decide)
  simp [step, HttpRequestParser.at, Parsing.pushMethod, token, blank]

theorem uri_passes {text : Str} (plain : ∀ c ∈ text, c ≠ 32 ∧ isControl c = false) :
    Machine.Passes step ⟨parser.at .requestUri, req⟩ text
      ⟨parser.at .requestUri, { req with uri := req.uri ++ text }⟩ := by
  refine Machine.Passes.collect (fun text =>
    Parsing.mk (parser.at .requestUri) { req with uri := text }) ?_ req.uri plain
  rintro text input left ⟨blank, plain⟩
  have line : input ≠ 13 := fun same => absurd plain (by rw [same]; decide)
  simp [step, HttpRequestParser.at, Parsing.pushUri, plain, blank, line]

/-- A digit of a numeral in decimal, as the parser counts it. -/
theorem digit_eq : ∀ c : UInt8, isDigitOf 10 c →
    isDigit c = true ∧ c ≠ 46 ∧ c ≠ 13 ∧
      digit c = Int32.ofNat ((digitValue c).getD 0) := by
  decide +kernel

theorem major_passes {text : Str} (wf : IsNumeral 10 text) :
    Machine.Passes step ⟨parser.at .requestHttpVersion_majorStart, req⟩ text
      ⟨parser.at .requestHttpVersion_major,
        { req with versionMajor := Int32.ofNat (numeral 10 text) }⟩ := by
  refine numeral_passes (fun value => Parsing.mk (parser.at .requestHttpVersion_major)
    { req with versionMajor := Int32.ofNat value }) wf ?_ ?_
  · intro c left digit
    obtain ⟨isDigit, _, _, amount⟩ := digit_eq c digit
    simp [step, HttpRequestParser.at, Parsing.setMajor, Parsing.goto, isDigit, amount]
  · intro value c left digit
    obtain ⟨isDigit, dot, line, amount⟩ := digit_eq c digit
    simp [step, HttpRequestParser.at, Parsing.setMajor, isDigit, dot, amount]

theorem minor_passes {text : Str} (wf : IsNumeral 10 text) :
    Machine.Passes step ⟨parser.at .requestHttpVersion_minorStart, req⟩ text
      ⟨parser.at .requestHttpVersion_minor,
        { req with versionMinor := Int32.ofNat (numeral 10 text) }⟩ := by
  refine numeral_passes (fun value => Parsing.mk (parser.at .requestHttpVersion_minor)
    { req with versionMinor := Int32.ofNat value }) wf ?_ ?_
  · intro c left digit
    obtain ⟨isDigit, _, _, amount⟩ := digit_eq c digit
    simp [step, HttpRequestParser.at, Parsing.setMinor, Parsing.goto, isDigit, amount]
  · intro value c left digit
    obtain ⟨isDigit, dot, line, amount⟩ := digit_eq c digit
    simp [step, HttpRequestParser.at, Parsing.setMinor, isDigit, line, amount]

/-! ## The headers -/

theorem back_snoc (headers : List HeaderItem) (item : HeaderItem)
    (change : HeaderItem → HeaderItem) (state next : State) :
    Parsing.back ⟨parser.at state, { req with headers := headers ++ [item] }⟩ change next =
      .next ⟨parser.at next, { req with headers := headers ++ [change item] }⟩ := by
  simp [Parsing.back, Parsing.goto, HttpRequestParser.at]

theorem headerName_passes (headers : List HeaderItem) (name value : Str) {text : Str}
    (token : ∀ c ∈ text, isToken c) :
    Machine.Passes step
      ⟨parser.at .headerName, { req with headers := headers ++ [⟨name, value⟩] }⟩ text
      ⟨parser.at .headerName,
        { req with headers := headers ++ [⟨name ++ text, value⟩] }⟩ := by
  refine Machine.Passes.collect (fun text => Parsing.mk (parser.at .headerName)
    { req with headers := headers ++ [⟨text, value⟩] }) ?_ name token
  intro text input left token
  have colon : input ≠ 58 := fun same => absurd token (by rw [same]; decide)
  have pushed :=
    back_snoc parser req headers ⟨text, value⟩ (pushName input) .headerName .headerName
  simp only [step, HttpRequestParser.at] at pushed ⊢
  rw [if_neg colon, token]
  exact pushed

theorem headerValue_passes (headers : List HeaderItem) (name value : Str) {text : Str}
    (plain : ∀ c ∈ text, isControl c = false) :
    Machine.Passes step
      ⟨parser.at .headerValue, { req with headers := headers ++ [⟨name, value⟩] }⟩ text
      ⟨parser.at .headerValue,
        { req with headers := headers ++ [⟨name, value ++ text⟩] }⟩ := by
  refine Machine.Passes.collect (fun text => Parsing.mk (parser.at .headerValue)
    { req with headers := headers ++ [⟨name, text⟩] }) ?_ value plain
  intro text input left plain
  have line : input ≠ 13 := fun same => absurd plain (by rw [same]; decide)
  have pushed :=
    back_snoc parser req headers ⟨name, text⟩ (pushValue input) .headerValue .headerValue
  simp only [step, HttpRequestParser.at] at pushed ⊢
  rw [if_neg line, plain]
  exact pushed

theorem announce_at (method : Str) (item : HeaderItem) (state next : State) :
    (announce method (parser.at state) item).at next =
      (announce method parser item).at next := by
  unfold announce
  repeat' split
  all_goals rfl

/-- Without a body, no header is looked at. -/
theorem headerEnd_bodiless {s : Parsing} (body : ¬HasBody s.req.method) :
    headerEnd s = .next (s.goto .expectingNewline_2) :=
  if_neg body

/-- A line of blanks with no header before it. -/
theorem headerEnd_none {s : Parsing} (body : HasBody s.req.method)
    (last : s.req.headers.getLast? = none) : headerEnd s = .stop s .emptyBack := by
  rw [headerEnd, if_pos (show s.req.method = strPost ∨ s.req.method = strPut from body), last]

/-- The end of a header line with a length: it is reserved, unless that throws. -/
theorem headerEnd_length {s : Parsing} {item : HeaderItem} (body : HasBody s.req.method)
    (last : s.req.headers.getLast? = some item) (length : item.isContentLength) :
    headerEnd s =
      if toSizeT (atoi item.value).toInt > maxSize then
        .stop { s with parser := { s.parser with
          contentSize := toSizeT (atoi item.value).toInt } } .lengthError
      else
        .next ({ s with parser := { s.parser with
          contentSize := toSizeT (atoi item.value).toInt } }.goto .expectingNewline_2) := by
  rw [headerEnd, if_pos (show s.req.method = strPost ∨ s.req.method = strPut from body), last]
  simp only [if_pos (show isWord item.name contentLength = true from length)]

/-- The end of any other header line. -/
theorem headerEnd_other {s : Parsing} {item : HeaderItem} (body : HasBody s.req.method)
    (last : s.req.headers.getLast? = some item) (length : ¬item.isContentLength) :
    headerEnd s =
      if item.isChunked then
        .next ({ s with parser := { s.parser with chunked := true } }.goto .expectingNewline_2)
      else .next (s.goto .expectingNewline_2) := by
  rw [headerEnd, if_pos (show s.req.method = strPost ∨ s.req.method = strPut from body), last]
  simp only [if_neg (show ¬isWord item.name contentLength = true from length)]
  rfl

/-- The end of a header line whose announced length can be reserved. -/
theorem headerEnd_eq (headers : List HeaderItem) {item : HeaderItem}
    (fits : HasBody req.method → item.isContentLength →
      toSizeT (atoi item.value).toInt ≤ maxSize) :
    headerEnd ⟨parser, { req with headers := headers ++ [item] }⟩ =
      .next ⟨(announce req.method parser item).at .expectingNewline_2,
        { req with headers := headers ++ [item] }⟩ := by
  have last : (headers ++ [item]).getLast? = some item := by simp
  rw [announce]
  by_cases body : HasBody req.method
  · rw [if_pos body]
    by_cases length : item.isContentLength
    · rw [headerEnd_length body last length, if_neg (UInt64.not_lt.mpr (fits body length)),
        if_pos length]
      rfl
    · rw [headerEnd_other body last length, if_neg length]
      by_cases chunked : item.isChunked
      · rw [if_pos chunked, if_pos chunked]
        rfl
      · rw [if_neg chunked, if_neg chunked]
        rfl
  · rw [headerEnd_bodiless body, if_neg body]
    rfl

/-- A header line is read up to its end. -/
theorem headerText_passes {item : HeaderItem} (wf : item.WellFormed) :
    Machine.Passes step ⟨parser.at .headerLineStart, req⟩
      (item.name ++ [58, 32] ++ item.value)
      ⟨parser.at .headerValue, { req with headers := req.headers ++ [item] }⟩ := by
  obtain ⟨name, value⟩ := item
  obtain ⟨name_ne, name_token, value_plain⟩ := wf
  obtain ⟨first, rest, rfl⟩ := List.exists_cons_of_ne_nil name_ne
  have token := name_token first List.mem_cons_self
  have start : ∀ left, step ⟨parser.at .headerLineStart, req⟩ first left =
      .next ⟨parser.at .headerName,
        { req with headers := req.headers ++ [⟨[first], []⟩] }⟩ := by
    intro left
    have line : first ≠ 13 := fun same => absurd token (by rw [same]; decide)
    have blank : first ≠ 32 := fun same => absurd token (by rw [same]; decide)
    have tab : first ≠ 9 := fun same => absurd token (by rw [same]; decide)
    simp [step, HttpRequestParser.at, Parsing.goto, line, blank, tab, token]
  have named := headerName_passes parser req req.headers [first] []
    fun c member => name_token c (List.mem_cons_of_mem first member)
  have colon : Machine.Passes step
      ⟨parser.at .headerName,
        { req with headers := req.headers ++ [⟨first :: rest, []⟩] }⟩ [58, 32]
      ⟨parser.at .headerValue,
        { req with headers := req.headers ++ [⟨first :: rest, []⟩] }⟩ := fun _ => rfl
  have valued := headerValue_passes parser req req.headers (first :: rest) [] value_plain
  exact ((Machine.Passes.cons start named).append colon).append valued

/-- A header line is read and evaluated. -/
theorem header_passes {item : HeaderItem} (wf : item.WellFormed)
    (fits : HasBody req.method → item.isContentLength →
      toSizeT (atoi item.value).toInt ≤ maxSize) :
    Machine.Passes step ⟨parser.at .headerLineStart, req⟩ item.bytes
      ⟨(announce req.method parser item).at .headerLineStart,
        { req with headers := req.headers ++ [item] }⟩ := by
  have evaluated : ∀ left, step
      ⟨parser.at .headerValue, { req with headers := req.headers ++ [item] }⟩ 13 left =
      .next ⟨(announce req.method parser item).at .expectingNewline_2,
        { req with headers := req.headers ++ [item] }⟩ := by
    intro left
    rw [← announce_at parser req.method item .headerValue]
    exact headerEnd_eq (parser.at .headerValue) req req.headers fits
  have ended : Machine.Passes step
      ⟨(announce req.method parser item).at .expectingNewline_2,
        { req with headers := req.headers ++ [item] }⟩ [10]
      ⟨(announce req.method parser item).at .headerLineStart,
        { req with headers := req.headers ++ [item] }⟩ := fun _ => rfl
  exact (headerText_passes parser req wf).append (.cons evaluated ended)

/-- The headers are read and evaluated one after the other. -/
theorem headers_passes {headers : List HeaderItem}
    (wf : ∀ item ∈ headers, item.WellFormed ∧
      (HasBody req.method → item.isContentLength →
        toSizeT (atoi item.value).toInt ≤ maxSize)) :
    Machine.Passes step ⟨parser.at .headerLineStart, req⟩
      (headers.flatMap HeaderItem.bytes)
      ⟨(headers.foldl (announce req.method) parser).at .headerLineStart,
        { req with headers := req.headers ++ headers }⟩ := by
  let family (done : List HeaderItem) : Parsing :=
    ⟨(done.foldl (announce req.method) parser).at .headerLineStart,
      { req with headers := req.headers ++ done }⟩
  have one : ∀ (done : List HeaderItem) (item : HeaderItem),
      (item.WellFormed ∧ (HasBody req.method → item.isContentLength →
        toSizeT (atoi item.value).toInt ≤ maxSize)) →
      Machine.Passes step (family done) item.bytes (family (done ++ [item])) := by
    rintro done item ⟨wf, fits⟩
    have passes := header_passes (done.foldl (announce req.method) parser)
      { req with headers := req.headers ++ done } wf fits
    rw [List.append_assoc] at passes
    simp only [family, List.foldl_append]
    exact passes
  have passes := Machine.Passes.each family one [] wf
  simp only [family, List.append_nil] at passes
  exact passes

/-! ## The headers that announce a body -/

theorem foldl_announce_none {method : Str} {headers : List HeaderItem}
    (announced : Body.Announced method headers .none) :
    headers.foldl (announce method) parser = parser := by
  induction headers with
  | nil => rfl
  | cons item headers ih =>
      have one : announce method parser item = parser := by
        unfold announce
        rcases announced with bare | neither
        · rw [if_neg bare]
        · obtain ⟨length, chunked⟩ := neither item List.mem_cons_self
          rw [length, chunked]
          simp
      rw [List.foldl_cons, one]
      exact ih (announced.imp_right fun neither other member =>
        neither other (List.mem_cons_of_mem _ member))

theorem foldl_announce_sized {method : Str} {headers : List HeaderItem}
    {item : HeaderItem} (body : HasBody method)
    (plain : ∀ item ∈ headers, item.isChunked = false)
    (only : headers.filter HeaderItem.isContentLength = [item]) :
    headers.foldl (announce method) parser =
      { parser with contentSize := toSizeT (atoi item.value).toInt } := by
  induction headers with
  | nil => exact absurd only (List.cons_ne_nil _ _).symm
  | cons first headers ih =>
      have later : ∀ item ∈ headers, item.isChunked = false :=
        fun other member => plain other (List.mem_cons_of_mem _ member)
      rw [List.foldl_cons]
      by_cases length : first.isContentLength
      · rw [List.filter_cons_of_pos length] at only
        obtain ⟨rfl, none⟩ := List.cons.inj only
        have one : announce method parser first =
            { parser with contentSize := toSizeT (atoi first.value).toInt } := by
          rw [announce, if_pos body, if_pos length]
        rw [one]
        refine foldl_announce_none _ (Or.inr fun other member => ⟨?_, later other member⟩)
        exact Bool.eq_false_iff.mpr (List.filter_eq_nil_iff.mp none other member)
      · rw [List.filter_cons_of_neg length] at only
        have one : announce method parser first = parser := by
          rw [announce, if_pos body, if_neg length, plain first List.mem_cons_self]
          rfl
        rw [one]
        exact ih later only

theorem foldl_announce_chunked {method : Str} {headers : List HeaderItem}
    (body : HasBody method) (unsized : ∀ item ∈ headers, item.isContentLength = false) :
    headers.foldl (announce method) parser =
      { parser with chunked := parser.chunked || headers.any HeaderItem.isChunked } := by
  induction headers generalizing parser with
  | nil => simp
  | cons item headers ih =>
      have one : announce method parser item =
          { parser with chunked := parser.chunked || item.isChunked } := by
        rw [announce, if_pos body, unsized item List.mem_cons_self]
        cases chunked : item.isChunked <;> simp
      rw [List.foldl_cons, one,
        ih _ fun other member => unsized other (List.mem_cons_of_mem _ member),
        List.any_cons, Bool.or_assoc]

/-- No header announces both a length and chunks. -/
theorem HeaderItem.not_isChunked {item : HeaderItem} (length : item.isContentLength) :
    item.isChunked = false := by
  have name := (strCaseCmp_eq_zero _ _).mp (of_decide_eq_true length)
  rw [Bool.eq_false_iff]
  intro chunked
  have other := (strCaseCmp_eq_zero _ _).mp
    (of_decide_eq_true ((Bool.and_eq_true _ _).mp chunked).1)
  exact absurd (name.symm.trans other) (by decide)

/-- Among other headers of a `POST` or `PUT`, one that says chunked is enough. -/
theorem foldl_announce_any {method : Str} {headers : List HeaderItem}
    (parser : HttpRequestParser) (body : HasBody method) :
    ∃ contentSize, headers.foldl (announce method) parser = { parser with
      contentSize := contentSize
      chunked := parser.chunked || headers.any HeaderItem.isChunked } := by
  induction headers generalizing parser with
  | nil => exact ⟨parser.contentSize, by simp⟩
  | cons item headers ih =>
      obtain ⟨contentSize, later⟩ := ih (announce method parser item)
      refine ⟨contentSize, ?_⟩
      rw [List.foldl_cons, later, announce, if_pos body, List.any_cons]
      by_cases length : item.isContentLength
      · rw [if_pos length, HeaderItem.not_isChunked length, Bool.false_or]
      · rw [if_neg length]
        cases chunked : item.isChunked <;> simp

/-- A head that says chunked leaves the parser in front of a chunked body. -/
theorem announced_chunked {method : Str} {headers : List HeaderItem} (body : HasBody method)
    (announced : ∃ item ∈ headers, item.isChunked) :
    ∃ contentSize, (headers.foldl (announce method) .fresh).at .expectingNewline_3 =
      ⟨.expectingNewline_3, contentSize, [], 0, true⟩ := by
  obtain ⟨item, member, chunked⟩ := announced
  have found : headers.any HeaderItem.isChunked = true :=
    List.any_eq_true.mpr ⟨item, member, chunked⟩
  obtain ⟨contentSize, same⟩ := @foldl_announce_any method headers .fresh body
  refine ⟨contentSize, ?_⟩
  rw [same, found]
  rfl

end Nicenet.Http
