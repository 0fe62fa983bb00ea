import Nicenet.Http.WrittenHead

/-!
# Where a request ends

Two requests that differ in their methods alone. The headers that announce a body are
read for `POST` and `PUT` only, so a request with another method ends with its head, and
its body is left for the next request.
-/

namespace Nicenet.Http

open Library

/-- The body that the headers announce, whatever the method is. -/
def Body.Declared (headers : List HeaderItem) : Body → Prop
  | .none => ∀ item ∈ headers, item.isContentLength = false ∧ item.isChunked = false
  | .sized content => (∀ item ∈ headers, item.isChunked = false) ∧
      ∃ item, headers.filter HeaderItem.isContentLength = [item] ∧
        IsNumeral 10 item.value ∧ numeral 10 item.value = content.length
  | .chunked _ => (∃ item ∈ headers, item.isChunked) ∧
      ∀ item ∈ headers, item.isContentLength = false

/-- What comes behind the method of a request. -/
structure MethodlessRequest where
  head : RequestHead
  body : Body
  declared : body.Declared head.headers

/-- The methods a request may have. -/
abbrev Method := { text : Str // text ≠ [] ∧ ∀ c ∈ text, isToken c }

namespace MethodlessRequest

def bytes (request : MethodlessRequest) : Str := request.head.bytes ++ request.body.bytes

/-- What a fresh parser makes of the request with a method, and of what follows it. -/
def parse (request : MethodlessRequest) (method : Method) (rest : Str) : Parsed :=
  consume ⟨.fresh, .empty⟩ (method.val ++ request.bytes ++ rest)

/-- With either method the request is completed, whatever follows it: at the same byte
behind the method, and with the same content. -/
def SameBoundary (request : MethodlessRequest) (first second : Method) : Prop :=
  ∀ rest : Str,
    (request.parse first rest).result = some .parsingCompleted ∧
    (request.parse second rest).result = some .parsingCompleted ∧
    (request.parse first rest).rest = (request.parse second rest).rest ∧
    (request.parse first rest).state.req.content =
      (request.parse second rest).state.req.content

/-- The length that `atoi` takes from the headers, 0 when they do not have one. -/
def length (request : MethodlessRequest) : Int32 :=
  (request.head.headers.find? HeaderItem.isContentLength).elim 0 fun item => atoi item.value

/-- The methods are alike in having a body, or the headers announce none. -/
def Insensitive (request : MethodlessRequest) (first second : Method) : Prop :=
  (HasBody first.val ↔ HasBody second.val) ∨
    request.length = 0 ∧ ∀ item ∈ request.head.headers, item.isChunked = false

/-! ## The length -/

theorem length_of_none {request : MethodlessRequest}
    (none : ∀ item ∈ request.head.headers, item.isContentLength = false) :
    request.length = 0 := by
  have absent : request.head.headers.find? HeaderItem.isContentLength = .none :=
    List.find?_eq_none.mpr fun item member => by rw [none item member]; exact Bool.false_ne_true
  rw [length, absent]
  rfl

theorem length_of_only {request : MethodlessRequest} {item : HeaderItem}
    (only : request.head.headers.filter HeaderItem.isContentLength = [item]) :
    request.length = atoi item.value := by
  rw [length, ← List.head?_filter, only]
  rfl

/-- A length that is not negative can be reserved. -/
theorem reserves {request : MethodlessRequest} (positive : 0 ≤ request.length.toInt) :
    ∀ item ∈ request.head.headers, item.Reserves := by
  intro item member length
  have declared := request.declared
  cases body : request.body with
  | none =>
      rw [body] at declared
      rw [(declared item member).1] at length
      exact absurd length Bool.false_ne_true
  | sized content =>
      rw [body] at declared
      obtain ⟨_, only, filtered, _⟩ := declared
      have same : item ∈ request.head.headers.filter HeaderItem.isContentLength :=
        List.mem_filter.mpr ⟨member, length⟩
      rw [filtered, List.mem_singleton] at same
      rw [toSizeT_le_maxSize, same, ← length_of_only filtered]
      exact positive
  | chunked body' =>
      rw [body] at declared
      rw [declared.2 item member] at length
      exact absurd length Bool.false_ne_true

/-! ## Where the parser stops -/

/-- The parser takes as many bytes of a body as it has read for its length. -/
theorem sized_completes (req : HttpRequest) (empty : req.content = []) {size : Nat}
    {content : Str} (fits : size < 2 ^ 63) (enough : size ≤ content.length) (rest : Str) :
    ∃ s : Parsing, consume ⟨⟨.expectingNewline_3, UInt64.ofNat size, [], 0, false⟩, req⟩
        (10 :: (content ++ rest)) =
      ⟨s, some .parsingCompleted, content.drop size ++ rest⟩ ∧
      s.req.content = content.take size := by
  by_cases none : size = 0
  · subst none
    exact ⟨_, empty_completes req (content ++ rest), empty⟩
  · have announced : UInt64.ofNat size ≠ 0 := mt (ofNat_eq_zero fits).mp none
    have length : (content.take size).length = size := List.length_take_of_le enough
    have taken : content.take size ≠ [] := by
      intro nothing
      rw [nothing] at length
      exact none length.symm
    have body := post_completes { req with keepAlive := keepAlive req } taken
      (by rw [length]; exact fits) (content.drop size ++ rest)
    rw [length, ← List.append_assoc, List.take_append_drop] at body
    refine ⟨_, (Machine.consume_next step (step_post req announced _)).trans body, ?_⟩
    simp only [empty, List.nil_append]

/-- How many bytes of the body a `POST` takes, and what it makes of them. -/
def taken (request : MethodlessRequest) : Nat :=
  match request.body with
  | .none => 0
  | .sized _ => request.length.toInt.toNat
  | .chunked body => body.bytes.length

def decoded (request : MethodlessRequest) : Str :=
  match request.body with
  | .none => []
  | .sized content => content.take request.taken
  | .chunked body => body.chunks.flatMap Chunk.data

/-- A `POST` or `PUT` takes its body. -/
theorem parse_hasBody {request : MethodlessRequest} {method : Method}
    (hasBody : HasBody method.val) (positive : 0 ≤ request.length.toInt) (rest : Str) :
    ∃ s : Parsing, request.parse method rest =
        ⟨s, some .parsingCompleted, request.body.bytes.drop request.taken ++ rest⟩ ∧
      s.req.content = request.decoded := by
  have head := request.head.consume_head method.2.1 method.2.2
    (fun _ => reserves positive) (request.body.bytes ++ rest)
  rw [parse, bytes, ← List.append_assoc, List.append_assoc, head]
  have declared := request.declared
  cases body : request.body with
  | none =>
      rw [body] at declared
      rw [foldl_announce_none _ (.inr declared)]
      simp only [taken, decoded, body]
      exact ⟨_, empty_completes _ rest, rfl⟩
  | sized content =>
      rw [body] at declared
      obtain ⟨plain, item, only, wf, value⟩ := declared
      have size : request.length.toInt = (request.length.toInt.toNat : Int) :=
        (Int.toNat_of_nonneg positive).symm
      have enough : request.length.toInt.toNat ≤ content.length := by
        have most := atoi_le_numeral wf
        rw [← length_of_only only] at most
        omega
      have small := Int32.toInt_lt request.length
      rw [foldl_announce_sized _ hasBody plain only, ← length_of_only only, size,
        toSizeT_natCast]
      simp only [taken, decoded, body]
      exact sized_completes _ rfl (by omega) enough rest
  | chunked chunks =>
      rw [body] at declared
      obtain ⟨⟨item, member, chunked⟩, unsized⟩ := declared
      have found : request.head.headers.any HeaderItem.isChunked = true :=
        List.any_eq_true.mpr ⟨item, member, chunked⟩
      rw [foldl_announce_chunked _ hasBody unsized, found]
      simp only [taken, decoded, body, Body.bytes, List.drop_length]
      exact ⟨_, chunked_completes _ 0 chunks rfl rest, rfl⟩

/-- With another method the body is left behind the request. -/
theorem parse_bodiless (request : MethodlessRequest) {method : Method}
    (bodiless : ¬HasBody method.val) (rest : Str) :
    ∃ s : Parsing, request.parse method rest =
        ⟨s, some .parsingCompleted, request.body.bytes ++ rest⟩ ∧ s.req.content = [] := by
  have head := request.head.consume_head method.2.1 method.2.2
    (fun hasBody => absurd hasBody bodiless) (request.body.bytes ++ rest)
  rw [parse, bytes, ← List.append_assoc, List.append_assoc, head,
    foldl_announce_none _ (.inl bodiless)]
  exact ⟨_, empty_completes _ _, rfl⟩

/-- A length below zero cannot be reserved. -/
theorem step_negative {s : Parsing} {item : HeaderItem} (state : s.parser.state = .headerValue)
    (hasBody : HasBody s.req.method) (last : s.req.headers.getLast? = some item)
    (length : item.isContentLength) (negative : (atoi item.value).toInt < 0) :
    ∃ next, ∀ left, step s 13 left = .stop next .lengthError := by
  have large : toSizeT (atoi item.value).toInt > maxSize := by
    rw [gt_iff_lt, ← UInt64.not_le, toSizeT_le_maxSize]
    exact Int.not_le.mpr negative
  have ends : ∀ left, step s 13 left = headerEnd s := by
    intro left
    rw [step, state]
    rfl
  exact ⟨_, fun left =>
    (ends left).trans ((headerEnd_length hasBody last length).trans (if_pos large))⟩

/-- A `POST` or `PUT` throws at its first length, if that is below zero. -/
theorem consume_negative {head : RequestHead} {method : Method} (hasBody : HasBody method.val)
    {front back : List HeaderItem} {item : HeaderItem}
    (split : head.headers = front ++ item :: back)
    (unsized : ∀ other ∈ front, ¬other.isContentLength) (length : item.isContentLength)
    (negative : (atoi item.value).toInt < 0) (rest : Str) :
    (consume ⟨.fresh, .empty⟩ (method.val ++ (head.bytes ++ rest))).result =
      some .lengthError := by
  have wf : ∀ other ∈ front ++ item :: back, other.WellFormed := split ▸ head.headers_wf
  have line := requestLine_passes method.2.1 method.2.2 head.uri_ne head.uri_plain
    head.major_numeral head.minor_numeral
  have headers := headers_passes .fresh { head.parsed method.val with headers := [] }
    fun other inFront => ⟨wf other (List.mem_append_left _ inFront),
      fun _ length => absurd length (unsized other inFront)⟩
  have text := headerText_passes (front.foldl (announce method.val) .fresh)
    { head.parsed method.val with headers := front }
    (wf item (List.mem_append_right _ List.mem_cons_self))
  obtain ⟨last, stop⟩ := @step_negative
    ⟨(front.foldl (announce method.val) .fresh).at .headerValue,
      { head.parsed method.val with headers := front ++ [item] }⟩
    item rfl hasBody (by simp) length negative
  have bytes : method.val ++ (head.bytes ++ rest) =
      method.val ++ [32] ++ head.uri ++ [32, 72, 84, 84, 80, 47] ++ head.major ++ [46] ++
        head.minor ++ crlf ++ front.flatMap HeaderItem.bytes ++
        (item.name ++ [58, 32] ++ item.value) ++
        13 :: (10 :: back.flatMap HeaderItem.bytes ++ crlf ++ rest) := by
    simp [RequestHead.bytes, split, crlf, HeaderItem.bytes]
  have run := ((line.append headers).append text)
    (13 :: (10 :: back.flatMap HeaderItem.bytes ++ crlf ++ rest))
  rw [bytes, consume, run]
  exact congrArg Machine.Halt.result (Machine.consume_stop step (stop _))

/-- With a length below zero a `POST` or `PUT` throws. -/
theorem parse_negative {request : MethodlessRequest} {method : Method}
    (hasBody : HasBody method.val) (negative : request.length.toInt < 0) (rest : Str) :
    (request.parse method rest).result = some .lengthError := by
  have declared := request.declared
  cases body : request.body with
  | none =>
      rw [body] at declared
      rw [length_of_none fun item member => (declared item member).1] at negative
      exact absurd negative (by decide)
  | chunked chunks =>
      rw [body] at declared
      rw [length_of_none declared.2] at negative
      exact absurd negative (by decide)
  | sized content =>
      rw [body] at declared
      obtain ⟨_, item, only, _⟩ := declared
      rw [length_of_only only] at negative
      obtain ⟨front, back, split, unsized, length, _⟩ := List.filter_eq_cons_iff.mp only
      have stops := consume_negative hasBody split unsized length negative
        (request.body.bytes ++ rest)
      rw [parse, bytes, List.append_assoc, List.append_assoc]
      exact stops

/-! ## Two methods -/

theorem chunked_bytes_ne (body : Chunked) : body.bytes ≠ [] := by
  simp [Chunked.bytes, crlf]

/-- Nothing of the body is taken if the headers announce none. -/
theorem taken_eq_zero {request : MethodlessRequest} (positive : 0 ≤ request.length.toInt) :
    request.taken = 0 ↔
      request.length = 0 ∧ ∀ item ∈ request.head.headers, item.isChunked = false := by
  have declared := request.declared
  rw [taken]
  cases body : request.body with
  | none =>
      rw [body] at declared
      have length := length_of_none fun item member => (declared item member).1
      exact ⟨fun _ => ⟨length, fun item member => (declared item member).2⟩, fun _ => rfl⟩
  | sized content =>
      rw [body] at declared
      have zero : request.length = 0 ↔ request.length.toInt = 0 := Int32.toInt_inj.symm
      change request.length.toInt.toNat = 0 ↔ _
      rw [zero]
      constructor
      · intro none
        exact ⟨by omega, fun item member => declared.1 item member⟩
      · rintro ⟨none, _⟩
        omega
  | chunked chunks =>
      rw [body] at declared
      obtain ⟨⟨item, member, chunked⟩, _⟩ := declared
      constructor
      · intro none
        exact absurd (List.length_eq_zero_iff.mp none) (chunked_bytes_ne chunks)
      · rintro ⟨_, plain⟩
        rw [plain item member] at chunked
        exact absurd chunked Bool.false_ne_true

theorem taken_le {request : MethodlessRequest} (positive : 0 ≤ request.length.toInt) :
    request.taken ≤ request.body.bytes.length := by
  have declared := request.declared
  rw [taken]
  cases body : request.body with
  | none => exact Nat.zero_le _
  | sized content =>
      rw [body] at declared
      obtain ⟨_, item, only, wf, value⟩ := declared
      have most := atoi_le_numeral wf
      rw [← length_of_only only, value] at most
      simp only [Body.bytes]
      omega
  | chunked chunks => exact Nat.le_refl _

theorem decoded_eq_nil {request : MethodlessRequest} (none : request.taken = 0) :
    request.decoded = [] := by
  rw [decoded]
  cases body : request.body with
  | none => rfl
  | sized content => simp only [none, List.take_zero]
  | chunked chunks =>
      simp only [taken, body] at none
      exact absurd (List.length_eq_zero_iff.mp none) (chunked_bytes_ne chunks)

theorem SameBoundary.symm {request : MethodlessRequest} {first second : Method}
    (same : request.SameBoundary first second) : request.SameBoundary second first :=
  fun rest => ⟨(same rest).2.1, (same rest).1, (same rest).2.2.1.symm,
    (same rest).2.2.2.symm⟩

/-- A `POST` that is completed has not read a length below zero. -/
theorem SameBoundary.positive {request : MethodlessRequest} {first second : Method}
    (same : request.SameBoundary first second) (hasBody : HasBody first.val) :
    0 ≤ request.length.toInt := by
  by_contra negative
  have completed := (same []).1
  rw [parse_negative hasBody (Int.not_le.mp negative)] at completed
  cases completed

/-- If a `POST` ends where another method does, it takes nothing of the body. -/
theorem SameBoundary.none_taken {request : MethodlessRequest} {first second : Method}
    (same : request.SameBoundary first second) (positive : 0 ≤ request.length.toInt)
    (hasBody : HasBody first.val) (bodiless : ¬HasBody second.val) : request.taken = 0 := by
  have fits := taken_le positive
  obtain ⟨_, taking, _⟩ := parse_hasBody hasBody positive []
  obtain ⟨_, leaving, _⟩ := request.parse_bodiless bodiless []
  have rests := congrArg List.length (same []).2.2.1
  simp only [taking, leaving, List.append_nil, List.length_drop] at rests
  omega

/-- If nothing of the body is taken, a `POST` ends where another method does. -/
theorem sameBoundary_of_none {request : MethodlessRequest} {first second : Method}
    (hasBody : HasBody first.val) (bodiless : ¬HasBody second.val)
    (positive : 0 ≤ request.length.toInt) (none : request.taken = 0) :
    request.SameBoundary first second := by
  intro rest
  obtain ⟨_, taking, content⟩ := parse_hasBody hasBody positive rest
  obtain ⟨_, leaving, empty⟩ := request.parse_bodiless bodiless rest
  rw [decoded_eq_nil none] at content
  simp only [taking, leaving, none, List.drop_zero, content, empty, and_self]

/-- Where no `POST` or `PUT` reads a length below zero, two methods give the same boundary
and the same content, whatever follows the request, if and only if they are alike in
having a body or the headers announce none. -/
theorem sameBoundary_iff (request : MethodlessRequest) (first second : Method)
    (positive : HasBody first.val ∨ HasBody second.val → 0 ≤ request.length.toInt) :
    request.SameBoundary first second ↔ request.Insensitive first second := by
  by_cases one : HasBody first.val <;> by_cases two : HasBody second.val
  · refine ⟨fun _ => .inl ⟨fun _ => two, fun _ => one⟩, fun _ rest => ?_⟩
    obtain ⟨_, taking, content⟩ := parse_hasBody one (positive (.inl one)) rest
    obtain ⟨_, other, same⟩ := parse_hasBody two (positive (.inr two)) rest
    simp only [taking, other, content, same, and_self]
  · have length := positive (.inl one)
    have none := taken_eq_zero length
    refine ⟨fun same => .inr (none.mp (same.none_taken length one two)), fun alike => ?_⟩
    have announced := alike.resolve_left fun both => two (both.mp one)
    exact sameBoundary_of_none one two length (none.mpr announced)
  · have length := positive (.inr two)
    have none := taken_eq_zero length
    refine ⟨fun same => .inr (none.mp (same.symm.none_taken length two one)), fun alike => ?_⟩
    have announced := alike.resolve_left fun both => one (both.mpr two)
    exact (sameBoundary_of_none two one length (none.mpr announced)).symm
  · refine ⟨fun _ => .inl ⟨fun hasBody => absurd hasBody one,
      fun hasBody => absurd hasBody two⟩, fun _ rest => ?_⟩
    obtain ⟨_, leaving, content⟩ := request.parse_bodiless one rest
    obtain ⟨_, other, same⟩ := request.parse_bodiless two rest
    simp only [leaving, other, content, same, and_self]

def methodGet : Method := ⟨[71, 69, 84], by decide +kernel⟩
def methodPost : Method := ⟨strPost, by decide +kernel⟩

/-- `/ HTTP/1.1` with `Content-Length: 1` and one byte. -/
def oneByte : MethodlessRequest where
  head :=
    { uri := [47]
      major := [49]
      minor := [49]
      headers := [⟨contentLength, [49]⟩]
      uri_ne := slash_ne
      uri_plain := slash_plain
      major_numeral := one_numeral
      minor_numeral := one_numeral
      headers_wf := by decide +kernel }
  body := .sized [71]
  declared := ⟨by decide +kernel, ⟨contentLength, [49]⟩, by decide +kernel, by decide +kernel,
    by decide +kernel⟩

/-- With `POST` for both methods. -/
theorem sameBoundary_post : oneByte.SameBoundary methodPost methodPost :=
  (sameBoundary_iff oneByte methodPost methodPost fun _ => by decide +kernel).mpr (.inl Iff.rfl)

/-- As a `GET` it leaves its body behind it. -/
theorem not_sameBoundary :
    ¬∀ (request : MethodlessRequest) (first second : Method),
      request.SameBoundary first second := by
  intro every
  have rests := (every oneByte methodGet methodPost []).2.2.1
  exact absurd rests (by decide +kernel)

end MethodlessRequest

end Nicenet.Http
