import Nicenet.Http.Segmented
import Nicenet.Http.Shared

/-!
# The lengths of bodies

Both parsers take the length of a body from `atoi` and the size of a chunk from `strtol`,
neither of which tells a number from other text, and reserve so many bytes at once, of
which there may be none. What they use is the number that was written, and nothing throws,
if and only if every length is a numeral below 2³¹ and every size one for which, behind
the content before it, there is memory.
-/

namespace Nicenet.Http

open Library

/-! ## What the parser of requests does -/

namespace Parsing

/-- The value, as far as it has been read, of a header that will give the length. -/
def announced (s : Parsing) : Option Str :=
  if s.parser.state = .headerValue ∧ HasBody s.req.method then
    s.req.headers.getLast?.bind fun item =>
      if item.isContentLength then some item.value else none
  else none

/-- The digits of a chunk size, in the line that gives it. -/
def sizeLine (s : Parsing) : Option Str :=
  match s.parser.state with
  | .chunkSize | .chunkExtensionName | .chunkExtensionValue => some s.parser.chunkSizeStr
  | _ => none

/-- What a step asks `reserve` for, if the vector can be so long. -/
def reserved (s : Parsing) (c : UInt8) : Nat :=
  if c = 13 then
    match s.announced with
    | some value => (toSizeT (atoi value).toInt).toNat
    | none => 0
  else if c = 10 ∧ s.parser.state = .chunkSizeNewLine then
    (UInt64.ofNat s.req.content.length + toSizeT (strtol s.parser.chunkSizeStr 16)).toNat
  else 0

end Parsing

/-- The end of a header that gives the length. -/
theorem step_announced {s : Parsing} {value : Str} (announced : s.announced = some value)
    (left : Nat) :
    step s 13 left =
      if toSizeT (atoi value).toInt > maxSize then
        .stop { s with parser := { s.parser with
          contentSize := toSizeT (atoi value).toInt } } .lengthError
      else
        .next ({ s with parser := { s.parser with
          contentSize := toSizeT (atoi value).toInt } }.goto .expectingNewline_2) := by
  rw [Parsing.announced] at announced
  split at announced
  · next reading =>
    obtain ⟨item, last, found⟩ := Option.bind_eq_some_iff.mp announced
    split at found
    · next length =>
      cases found
      rw [step, reading.1]
      exact headerEnd_length reading.2 last length
    · cases found
  · cases announced

/-- The end of a line that gives the size of a chunk. -/
theorem step_sizeLine {s : Parsing} {size : Str} (line : s.sizeLine = some size)
    (left : Nat) :
    step s 13 left = .next (s.goto .chunkSizeNewLine) ∧ s.parser.chunkSizeStr = size := by
  rw [Parsing.sizeLine] at line
  rw [step]
  split at line
  all_goals
    cases line
  all_goals
    next state =>
      rw [state]
      exact ⟨rfl, rfl⟩

theorem step_newLine {s : Parsing} (state : s.parser.state = .chunkSizeNewLine)
    (left : Nat) : step s 10 left = chunkSizeEnd s := by
  rw [step, state]
  exact if_pos rfl

theorem headerEnd_throws {s last : Parsing} (state : s.parser.state = .headerValue)
    (stop : headerEnd s = .stop last .lengthError) :
    ∃ value, s.announced = some value ∧ toSizeT (atoi value).toInt > maxSize := by
  simp only [headerEnd] at stop
  split at stop
  · next body =>
    split at stop
    · cases stop
    · next item found =>
      split at stop
      · next length =>
        split at stop
        · next large =>
          refine ⟨item.value, ?_, large⟩
          rw [Parsing.announced, if_pos ⟨state, body⟩, found]
          exact if_pos length
        · cases stop
      · split at stop <;> cases stop
  · cases stop

theorem chunkSizeEnd_throws {s last : Parsing} (stop : chunkSizeEnd s = .stop last .lengthError) :
    UInt64.ofNat s.req.content.length + toSizeT (strtol s.parser.chunkSizeStr 16) >
      maxSize := by
  simp only [chunkSizeEnd] at stop
  split at stop
  · next large => exact large
  · split at stop <;> cases stop

/-- Two steps reserve bytes, and may throw. -/
theorem lengthError_cases {s last : Parsing} {c : UInt8} {left : Nat}
    (stop : step s c left = .stop last .lengthError) :
    (c = 13 ∧ ∃ value, s.announced = some value ∧
        toSizeT (atoi value).toInt > maxSize) ∨
      (c = 10 ∧ s.parser.state = .chunkSizeNewLine ∧
        UInt64.ofNat s.req.content.length + toSizeT (strtol s.parser.chunkSizeStr 16) >
          maxSize) := by
  generalize start : s.parser.state = state
  rw [step, start] at stop
  cases state <;> simp only [expect, headersEnd, Parsing.back, Parsing.error,
    Parsing.completed] at stop
  case headerValue =>
      split at stop
      · next line => exact .inl ⟨line, headerEnd_throws start stop⟩
      · repeat' split at stop
        all_goals cases stop
  case chunkSizeNewLine =>
      split at stop
      · next line => exact .inr ⟨line, rfl, chunkSizeEnd_throws stop⟩
      · cases stop
  all_goals
    repeat' split at stop
  all_goals cases stop

theorem step_ne_badAlloc {s last : Parsing} {c : UInt8} {left : Nat} :
    step s c left ≠ .stop last .badAlloc := by
  intro stop
  generalize start : s.parser.state = state
  rw [step, start] at stop
  cases state <;> simp only [expect, headerEnd, headersEnd, chunkSizeEnd, Parsing.back,
    Parsing.error, Parsing.completed] at stop
  all_goals
    repeat' split at stop
  all_goals cases stop

/-- A line that gives a size, or a trailer, comes before its line feed. -/
theorem newLine_cases {s next : Parsing} {c : UInt8} {left : Nat}
    (moved : step s c left = .next next) (state : next.parser.state = .chunkSizeNewLine) :
    c = 13 ∧ next = s.goto .chunkSizeNewLine ∧
      (s.sizeLine = some s.parser.chunkSizeStr ∨
        s.parser.state = .chunkTrailerValue) := by
  generalize start : s.parser.state = old
  rw [step, start] at moved
  cases old <;> simp only [expect, headerEnd, headersEnd, chunkSizeEnd, Parsing.back,
    Parsing.error, Parsing.completed] at moved
  all_goals
    repeat' split at moved
  all_goals
    cases moved
  all_goals first
    | exact ⟨‹_›, rfl, .inr rfl⟩
    | exact ⟨‹_›, rfl, .inl (by rw [Parsing.sizeLine, start])⟩
    | cases state
    | cases start.symm.trans state

/-! ## What has been reserved -/

/-- What is reserved at the end of a header, and of a line with a size. -/
theorem reserved_announced {s : Parsing} {value : Str} (announced : s.announced = some value) :
    s.reserved 13 = (toSizeT (atoi value).toInt).toNat := by
  simp only [Parsing.reserved, announced, ↓reduceIte]

theorem reserved_newLine {s : Parsing} {value : Nat}
    (state : s.parser.state = .chunkSizeNewLine)
    (size : strtol s.parser.chunkSizeStr 16 = value) (below : value < 2 ^ 63)
    (held : s.req.content.length < 2 ^ 63) :
    s.reserved 10 = s.req.content.length + value := by
  have other : ¬(10 : UInt8) = 13 := by decide
  have both : (10 : UInt8) = 10 ∧ s.parser.state = .chunkSizeNewLine := ⟨rfl, state⟩
  rw [Parsing.reserved, if_neg other, if_pos both, size, toSizeT_natCast, ← UInt64.ofNat_add,
    UInt64.toNat_ofNat_of_lt' (by simp only [UInt64.size]; omega)]

theorem reserved_start {s : Parsing} (state : s.parser.state = .responseStatusStart)
    (c : UInt8) : s.reserved c = 0 := by
  simp [Parsing.reserved, Parsing.announced, state]

/-- The content and the bytes that are still to come have memory; only in a line with a
size there are digits of one. -/
def Parsing.Bounded (limit : Nat) (s : Parsing) : Prop :=
  match s.parser.state with
  | .post => s.parser.contentSize ≠ 0 ∧
      s.req.content.length + s.parser.contentSize.toNat ≤ limit
  | .chunkData => s.parser.chunkSizeStr = [] ∧ s.parser.chunkSize ≠ 0 ∧
      s.req.content.length + s.parser.chunkSize.toNat ≤ limit
  | .chunkSize | .chunkExtensionName | .chunkExtensionValue | .chunkSizeNewLine =>
      (∀ c ∈ s.parser.chunkSizeStr, isalnum c) ∧ s.req.content.length ≤ limit
  | .chunkSizeNewLine_2 | .chunkSizeNewLine_3 | .chunkTrailerName | .chunkTrailerValue
  | .chunkDataNewLine_1 | .chunkDataNewLine_2 =>
      s.parser.chunkSizeStr = [] ∧ s.req.content.length ≤ limit
  | _ => s.parser.chunkSizeStr = [] ∧ s.req.content = [] ∧ s.parser.contentSize.toNat ≤ limit

namespace Parsing.Bounded

variable {limit : Nat} {s next : Parsing}

/-- The end of a header reserves a length for which there is memory. -/
theorem headerEnd (state : s.parser.state = .headerValue) (strEmpty : s.parser.chunkSizeStr = [])
    (empty : s.req.content = []) (fits : s.parser.contentSize.toNat ≤ limit)
    (memory : s.reserved 13 ≤ limit) (moved : headerEnd s = .next next) :
    next.Bounded limit := by
  simp only [Http.headerEnd] at moved
  split at moved
  · next body =>
    split at moved
    · cases moved
    · next item last =>
      split at moved
      · next length =>
        have announced : s.announced = some item.value := by
          rw [Parsing.announced, if_pos ⟨state, body⟩, last]
          exact if_pos length
        simp only [Parsing.reserved, announced, ↓reduceIte] at memory
        split at moved
        · cases moved
        · cases moved
          exact ⟨strEmpty, empty, memory⟩
      · split at moved <;>
        · cases moved
          exact ⟨strEmpty, empty, fits⟩
  · cases moved
    exact ⟨strEmpty, empty, fits⟩

/-- The end of the headers leaves the bytes that have been reserved for the content. -/
theorem headersEnd (strEmpty : s.parser.chunkSizeStr = []) (empty : s.req.content = [])
    (fits : s.parser.contentSize.toNat ≤ limit) {c : UInt8} {left : Nat}
    (moved : headersEnd s c left = .next next) : next.Bounded limit := by
  simp only [Http.headersEnd] at moved
  split at moved
  · cases moved
    refine ⟨fun c member => absurd (strEmpty ▸ member) List.not_mem_nil, ?_⟩
    change s.req.content.length ≤ limit
    rw [empty]
    exact Nat.zero_le limit
  · split at moved
    · split at moved <;> cases moved
    · next announced =>
      cases moved
      refine ⟨announced, ?_⟩
      change s.req.content.length + s.parser.contentSize.toNat ≤ limit
      rw [empty, List.length_nil, Nat.zero_add]
      exact fits

/-- The end of a line with a size reserves so many bytes more. -/
theorem chunkSizeEnd (small : limit < 2 ^ 63) (alnum : ∀ c ∈ s.parser.chunkSizeStr, isalnum c)
    (held : s.req.content.length ≤ limit) (state : s.parser.state = .chunkSizeNewLine)
    (memory : s.reserved 10 ≤ limit) (moved : chunkSizeEnd s = .next next) :
    next.Bounded limit := by
  obtain ⟨value, size, below⟩ := strtol_alnum_bounds 16 alnum
  have number := toNat_ofNat_size below
  rw [reserved_newLine state size below (Nat.lt_of_le_of_lt held small)] at memory
  simp only [Http.chunkSizeEnd, size, toSizeT_natCast] at moved
  split at moved
  · cases moved
  · split at moved
    · cases moved
      exact ⟨rfl, held⟩
    · next more =>
      cases moved
      refine ⟨rfl, more, ?_⟩
      change s.req.content.length + (UInt64.ofNat value).toNat ≤ limit
      rw [number]
      exact memory

/-- A byte of the content is one that has been reserved. -/
theorem count {held : Nat} {size : UInt64} (more : size ≠ 0)
    (fits : held + size.toNat ≤ limit) : held + 1 + (size - 1).toNat ≤ limit := by
  have counted := toNat_sub_one more
  omega

/-- A step that goes on keeps what has been reserved, or reserves more. -/
theorem step (small : limit < 2 ^ 63) (bounded : s.Bounded limit) {c : UInt8} {left : Nat}
    (moved : step s c left = .next next) (memory : s.reserved c ≤ limit) :
    next.Bounded limit := by
  generalize start : s.parser.state = state
  rw [Parsing.Bounded, start] at bounded
  rw [Http.step, start] at moved
  cases state <;> simp only [expect, Parsing.back, Parsing.error,
    Parsing.completed] at moved bounded
  case headerValue =>
      split at moved
      · next line =>
        subst line
        exact headerEnd start bounded.1 bounded.2.1 bounded.2.2 memory moved
      · repeat' split at moved
        all_goals
          cases moved
        exact bounded
  case expectingNewline_3 => exact headersEnd bounded.1 bounded.2.1 bounded.2.2 moved
  case chunkSizeNewLine =>
      split at moved
      · next line =>
        subst line
        exact chunkSizeEnd small bounded.1 bounded.2 start memory moved
      · cases moved
  case post =>
      split at moved
      · cases moved
      · next more =>
        cases moved
        rw [Parsing.Bounded]
        simp only [Parsing.pushContent, start, List.length_append, List.length_singleton]
        exact ⟨more, count bounded.1 bounded.2⟩
  case chunkData =>
      split at moved
      · cases moved
        refine ⟨bounded.1, ?_⟩
        have counted := count bounded.2.1 bounded.2.2
        simp only [Parsing.goto, Parsing.pushContent, List.length_append, List.length_singleton]
        omega
      · next more =>
        cases moved
        rw [Parsing.Bounded]
        simp only [Parsing.pushContent, start, List.length_append, List.length_singleton]
        exact ⟨bounded.1, more, count bounded.2.1 bounded.2.2⟩
  case chunkSize =>
      split at moved
      · next alnum =>
        cases moved
        rw [Parsing.Bounded]
        simp only [Parsing.pushChunkSize, start]
        exact ⟨List.forall_mem_append.mpr
          ⟨bounded.1, List.forall_mem_singleton.mpr alnum⟩, bounded.2⟩
      · repeat' split at moved
        all_goals
          cases moved
        all_goals exact bounded
  case chunkTrailerValue | chunkDataNewLine_2 =>
      repeat' split at moved
      all_goals
        cases moved
      all_goals first
        | exact ⟨fun c member => absurd (bounded.1 ▸ member) List.not_mem_nil, bounded.2⟩
        | (rw [Parsing.Bounded, start]; exact bounded)
  all_goals
    repeat' split at moved
  all_goals
    cases moved
  all_goals first
    | exact bounded
    | (simp only [Parsing.Bounded, Parsing.pushMethod, Parsing.pushUri, Parsing.setMajor,
        Parsing.setMinor, start]; exact bounded)

end Parsing.Bounded

/-- The end of a line with a size, when the bytes are reserved and when that throws. -/
theorem chunkSizeEnd_eq {s : Parsing} {value : Nat}
    (size : strtol s.parser.chunkSizeStr 16 = value) (small : value < 2 ^ 63)
    (held : s.req.content.length < 2 ^ 63) :
    (s.req.content.length + value < 2 ^ 63 ∧
        ∃ next, chunkSizeEnd s = .next next ∧ next.parser.chunkSize = UInt64.ofNat value) ∨
      (2 ^ 63 ≤ s.req.content.length + value ∧
        ∃ last, chunkSizeEnd s = .stop last .lengthError) := by
  have reserve := reserve_iff held small
  simp only [chunkSizeEnd, size, toSizeT_natCast]
  by_cases fits : s.req.content.length + value < 2 ^ 63
  · left
    rw [if_neg (UInt64.not_lt.mpr (reserve.mpr fits))]
    refine ⟨fits, ?_⟩
    split
    · exact ⟨_, rfl, rfl⟩
    · exact ⟨_, rfl, rfl⟩
  · right
    rw [if_pos (UInt64.not_le.mp (mt reserve.mp fits))]
    exact ⟨Nat.le_of_not_lt fits, _, rfl⟩

theorem Parsing.Bounded.sizeLine {limit : Nat} {s : Parsing} (bounded : s.Bounded limit)
    {size : Str} (line : s.sizeLine = some size) :
    (∀ c ∈ size, isalnum c) ∧ s.req.content.length ≤ limit := by
  rw [Parsing.sizeLine] at line
  rw [Parsing.Bounded] at bounded
  split at line
  all_goals
    cases line
  all_goals
    next state =>
      rw [state] at bounded
      exact bounded

theorem headed_of_announced {s : Parsing} {value : Str} (announced : s.announced = some value) :
    s.parser.state ≠ .responseStatusStart := by
  intro start
  rw [Parsing.announced, start] at announced
  simp at announced

theorem headed_of_sizeLine {s : Parsing} {size : Str} (line : s.sizeLine = some size) :
    s.parser.state ≠ .responseStatusStart := by
  intro start
  rw [Parsing.sizeLine, start] at line
  cases line

/-! ## Both parsers -/

variable {σ : Type}

/-- A parser of requests or of responses, with what it amounts to among those of
requests. -/
structure LengthReader (σ : Type) where
  machine : Machine σ UInt8 Stop
  fresh : σ
  view : σ → Parsing

def requestReader : LengthReader Parsing := ⟨step, ⟨.fresh, .empty⟩, id⟩

def responseReader : LengthReader Response.Parsing :=
  ⟨Response.step, ⟨.fresh, .empty⟩, fun s => s.asRequest 0⟩

namespace LengthReader

/-- The parser where no block of memory is larger than `limit`. In what state an exception
leaves it is not looked at. -/
def within (reader : LengthReader σ) (limit : Nat) : LengthReader σ :=
  { reader with
    machine := fun s c left =>
      match reader.machine s c left with
      | .next next =>
          if (reader.view s).reserved c ≤ limit then .next next else .stop s .badAlloc
      | .stop last result => .stop last result }

/-- In the text, a header that gives the length has this value, and its line ends behind
`front`. -/
def Announces (reader : LengthReader σ) (text front value : Str) : Prop :=
  ∃ s rest, text = front ++ 13 :: rest ∧
    reader.machine.consume reader.fresh front = ⟨s, none, []⟩ ∧
    (reader.view s).announced = some value

/-- In the text, a line that gives a chunk size has these digits and ends behind `front`,
with so many bytes of content in front of it. -/
def Sizes (reader : LengthReader σ) (text front size : Str) (held : Nat) : Prop :=
  ∃ s rest, text = front ++ 13 :: 10 :: rest ∧
    reader.machine.consume reader.fresh front = ⟨s, none, []⟩ ∧
    (reader.view s).sizeLine = some size ∧ (reader.view s).req.content.length = held

/-- Behind the text, the parser uses the number that the digits say, if they say one for
which there is room, and otherwise it has returned an error. -/
def Takes (reader : LengthReader σ) (text : Str) (base : Nat) (digits : Str) (room : Nat)
    (size : HttpRequestParser → UInt64) : Prop :=
  let halt := reader.machine.consume reader.fresh text
  if IsNumeral base digits ∧ numeral base digits < room then
    halt.result = none ∧ (size (reader.view halt.state).parser).toNat = numeral base digits
  else halt.result = some .parsingError

/-- Every length of the text is the number that was written, or an error, and nothing
throws. -/
structure Exact (reader : LengthReader σ) (text : Str) : Prop where
  lengths : ∀ front value, reader.Announces text front value →
    reader.Takes (front ++ [13]) 10 value (2 ^ 63) (·.contentSize)
  sizes : ∀ front size held, reader.Sizes text front size held →
    reader.Takes (front ++ [13, 10]) 16 size (2 ^ 63 - held) (·.chunkSize)
  safe : (reader.machine.consume reader.fresh text).result ≠ some .lengthError ∧
    (reader.machine.consume reader.fresh text).result ≠ some .badAlloc

/-- Every length of the text is a numeral below 2³¹, every chunk size is a numeral, and
there is memory for each, and for the content that comes before it. -/
structure Fits (reader : LengthReader σ) (limit : Nat) (text : Str) : Prop where
  lengths : ∀ front value, reader.Announces text front value →
    IsNumeral 10 value ∧ numeral 10 value < 2 ^ 31 ∧ numeral 10 value ≤ limit
  sizes : ∀ front size held, reader.Sizes text front size held →
    IsNumeral 16 size ∧ held + numeral 16 size ≤ limit

section Takes

variable {reader : LengthReader σ} {text digits : Str} {base room : Nat}
variable {size : HttpRequestParser → UInt64}

/-- A parser that goes on has taken the number that was written, or another one. -/
theorem takes_iff {s : σ}
    (run : reader.machine.consume reader.fresh text = ⟨s, none, []⟩) :
    reader.Takes text base digits room size ↔
      IsNumeral base digits ∧ numeral base digits < room ∧
        (size (reader.view s).parser).toNat = numeral base digits := by
  simp only [Takes, run]
  by_cases written : IsNumeral base digits ∧ numeral base digits < room
  · simp [written]
  · rw [if_neg written]
    exact iff_of_false nofun fun ⟨wf, fits, _⟩ => written ⟨wf, fits⟩

/-- A parser that throws has not. -/
theorem not_takes {result : Stop}
    (ended : (reader.machine.consume reader.fresh text).result = some result)
    (throws : result ≠ .parsingError) : ¬reader.Takes text base digits room size := by
  intro takes
  simp only [Takes, ended] at takes
  split at takes
  · cases takes.1
  · exact throws (Option.some.inj takes)

end Takes

/-- The parser does what its view does, or is still in front of the headers. -/
structure Follows (reader : LengthReader σ) : Prop where
  uniform : Machine.Uniform reader.machine
  fresh_bounded : ∀ limit, (reader.view reader.fresh).Bounded limit
  fresh_line : (reader.view reader.fresh).parser.state ≠ .chunkSizeNewLine
  step : ∀ s c left, (reader.view s).parser.state ≠ .responseStatusStart →
    (∃ next, reader.machine s c left = .next next ∧
        Http.step (reader.view s) c left = .next (reader.view next)) ∨
      ∃ last other result, reader.machine s c left = .stop last result ∧
        Http.step (reader.view s) c left = .stop other result
  line : ∀ s c left, (reader.view s).parser.state = .responseStatusStart →
    (∀ last result, reader.machine s c left = .stop last result → result = .parsingError) ∧
      ∀ next, reader.machine s c left = .next next →
        (∀ limit, (reader.view s).Bounded limit → (reader.view next).Bounded limit) ∧
          (reader.view next).parser.state ≠ .chunkSizeNewLine

theorem request_follows : requestReader.Follows where
  uniform := step_uniform
  fresh_bounded limit := ⟨rfl, rfl, Nat.zero_le limit⟩
  fresh_line := State.noConfusion
  step s c left _ := by
    change (∃ next, Http.step s c left = .next next ∧ Http.step s c left = .next next) ∨
      ∃ last other result, Http.step s c left = .stop last result ∧
        Http.step s c left = .stop other result
    cases Http.step s c left with
    | next next => exact .inl ⟨next, rfl, rfl⟩
    | stop last result => exact .inr ⟨last, last, result, rfl, rfl⟩
  line s c left state := by
    have error : Http.step s c left = s.error := by
      rw [Http.step, show s.parser.state = .responseStatusStart from state]
    refine ⟨fun last result stop => ?_, fun next moved => ?_⟩
    · cases error.symm.trans stop
      rfl
    · cases error.symm.trans moved

theorem response_follows : responseReader.Follows where
  uniform := Response.step_uniform
  fresh_bounded limit := ⟨rfl, rfl, Nat.zero_le limit⟩
  fresh_line := State.noConfusion
  step s c left state := by
    have shared : s.parser.state.isShared :=
      Bool.not_eq_false _ ▸ mt Response.State.asRequest_eq_start.mpr state
    have same := Response.Parsing.agree_step shared c left
    change (∃ next, Response.step s c left = .next next ∧
        Http.step (s.asRequest 0) c left = .next (next.asRequest 0)) ∨
      ∃ last other result, Response.step s c left = .stop last result ∧
        Http.step (s.asRequest 0) c left = .stop other result
    generalize Response.step s c left = move at same ⊢
    generalize Http.step (s.asRequest 0) c left = other at same ⊢
    cases same with
    | next after _ _ => exact .inl ⟨after, rfl, rfl⟩
    | stop after result _ _ => exact .inr ⟨after, _, result, rfl, rfl⟩
  line s c left state := by
    have moved := Response.Parsing.step_inLine (Response.State.asRequest_eq_start.mp state) c left
    change (∀ last result, Response.step s c left = .stop last result →
        result = .parsingError) ∧
      ∀ next, Response.step s c left = .next next →
        (∀ limit, (s.asRequest 0).Bounded limit → (next.asRequest 0).Bounded limit) ∧
          (next.asRequest 0).parser.state ≠ .chunkSizeNewLine
    generalize Response.step s c left = move at moved ⊢
    cases moved with
    | stop =>
        refine ⟨fun last result stop => ?_, fun next moved => ?_⟩
        · cases stop
          rfl
        · cases moved
    | next after place contentSize str content =>
        refine ⟨fun last result stop => ?_, fun next moved => ?_⟩
        · cases stop
        cases moved
        have here : (after.asRequest 0).parser.state = .responseStatusStart ∨
            (after.asRequest 0).parser.state = .headerLineStart :=
          place.imp Response.State.asRequest_eq_start.mpr (congrArg Response.State.asRequest)
        refine ⟨fun limit bounded => ?_, ?_⟩
        · have head : s.parser.chunkSizeStr = [] ∧ s.resp.content = [] ∧
              s.parser.contentSize.toNat ≤ limit := by
            rw [Parsing.Bounded, show (s.asRequest 0).parser.state = .responseStatusStart
              from state] at bounded
            exact bounded
          rw [← str, ← content, ← contentSize] at head
          rcases here with here | here
          all_goals
            rw [Parsing.Bounded, here]
            exact head
        · rcases here with here | here
          all_goals
            rw [here]
            exact State.noConfusion

namespace Follows

variable {reader : LengthReader σ} {limit : Nat}

theorem uniform_within (follows : reader.Follows) :
    Machine.Uniform (reader.within limit).machine := by
  intro s c left other
  have same := follows.uniform s c left other
  simp only [within]
  cases first : reader.machine s c left with
  | next next =>
      rw [follows.uniform.next first other]
  | stop last result =>
      rw [first] at same
      cases second : reader.machine s c other with
      | next next =>
          rw [second] at same
          cases same
      | stop last result =>
          rw [second] at same
          exact same

/-- Where the view goes on and has the memory to, the parser does. -/
theorem next (follows : reader.Follows) {s : σ} {c : UInt8} {left : Nat} {after : Parsing}
    (headed : (reader.view s).parser.state ≠ .responseStatusStart)
    (moved : Http.step (reader.view s) c left = .next after)
    (memory : (reader.view s).reserved c ≤ limit) :
    ∃ next, (reader.within limit).machine s c left = .next next ∧ reader.view next = after := by
  rcases follows.step s c left headed with ⟨next, same, step⟩ | ⟨_, _, _, _, stop⟩
  · refine ⟨next, ?_, Machine.Move.next.inj (step.symm.trans moved)⟩
    simp only [within, same, if_pos memory]
  · cases stop.symm.trans moved

theorem stop (follows : reader.Follows) {s : σ} {c : UInt8} {left : Nat} {last : Parsing}
    {result : Stop} (headed : (reader.view s).parser.state ≠ .responseStatusStart)
    (moved : Http.step (reader.view s) c left = .stop last result) :
    ∃ other, (reader.within limit).machine s c left = .stop other result := by
  rcases follows.step s c left headed with ⟨next, _, step⟩ | ⟨other, _, _, same, stop⟩
  · cases step.symm.trans moved
  · cases stop.symm.trans moved
    exact ⟨other, by simp only [within, same]⟩

theorem refused (follows : reader.Follows) {s : σ} {c : UInt8} {left : Nat} {after : Parsing}
    (headed : (reader.view s).parser.state ≠ .responseStatusStart)
    (moved : Http.step (reader.view s) c left = .next after)
    (large : limit < (reader.view s).reserved c) :
    (reader.within limit).machine s c left = .stop s .badAlloc := by
  rcases follows.step s c left headed with ⟨next, same, step⟩ | ⟨_, _, _, _, stop⟩
  · simp only [within, same, if_neg (Nat.not_le.mpr large)]
  · cases stop.symm.trans moved

/-- A step that goes on is one of the parser, with the memory for it. -/
theorem of_next {s next : σ} {c : UInt8} {left : Nat}
    (moved : (reader.within limit).machine s c left = .next next) :
    reader.machine s c left = .next next ∧ (reader.view s).reserved c ≤ limit := by
  simp only [within] at moved
  split at moved
  · next after same =>
    split at moved
    · next memory =>
      cases moved
      exact ⟨same, memory⟩
    · cases moved
  · cases moved

/-- A step that throws is one of the parser, or has not the memory to go on. -/
theorem of_stop {s last : σ} {c : UInt8} {left : Nat} {result : Stop}
    (stopped : (reader.within limit).machine s c left = .stop last result) :
    reader.machine s c left = .stop last result ∨
      ∃ next, reader.machine s c left = .next next ∧ limit < (reader.view s).reserved c := by
  simp only [within] at stopped
  split at stopped
  · next after same =>
    split at stopped
    · cases stopped
    · next large => exact .inr ⟨after, same, Nat.lt_of_not_le large⟩
  · next same =>
    cases stopped
    exact .inl same

theorem bounded (follows : reader.Follows) (small : limit < 2 ^ 63) {text : Str} {s : σ}
    (run : (reader.within limit).machine.consume reader.fresh text = ⟨s, none, []⟩) :
    (reader.view s).Bounded limit := by
  refine @Machine.run_keeps σ UInt8 Stop (reader.within limit).machine
    (fun _ s => (reader.view s).Bounded limit) ?_ reader.fresh s (follows.fresh_bounded limit)
    text run
  intro _ s c left next bounded moved
  obtain ⟨moved, memory⟩ := of_next moved
  by_cases start : (reader.view s).parser.state = .responseStatusStart
  · exact ((follows.line s c left start).2 next moved).1 limit bounded
  · rcases follows.step s c left start with ⟨after, same, step⟩ | ⟨_, _, _, stop, _⟩
    · cases same.symm.trans moved
      exact bounded.step small step memory
    · cases stop.symm.trans moved

/-! ## One length -/

/-- A length is taken as it was written if and only if it is a numeral below 2³¹ and there
is memory for it. -/
theorem takes_length (follows : reader.Follows) {front value : Str} {s : σ}
    (run : (reader.within limit).machine.consume reader.fresh front = ⟨s, none, []⟩)
    (announced : (reader.view s).announced = some value) :
    (reader.within limit).Takes (front ++ [13]) 10 value (2 ^ 63) (·.contentSize) ↔
      IsNumeral 10 value ∧ numeral 10 value < 2 ^ 31 ∧ numeral 10 value ≤ limit := by
  have headed := headed_of_announced announced
  have moved := step_announced announced 0
  have more := follows.uniform_within.consume_append (by rw [run]) [13]
  rw [run] at more
  have reserved := toSizeT_le_maxSize (atoi value)
  by_cases large : toSizeT (atoi value).toInt > maxSize
  · rw [if_pos large] at moved
    obtain ⟨last, stop⟩ := follows.stop headed moved
    have ended := congrArg Machine.Halt.result (more.trans (Machine.consume_stop _ stop))
    refine iff_of_false (not_takes ended Stop.noConfusion) fun ⟨wf, below, _⟩ => ?_
    have positive : 0 ≤ (atoi value).toInt := by
      rw [atoi_numeral wf below]
      exact Int.natCast_nonneg _
    exact absurd (reserved.mpr positive) (UInt64.not_le.mpr large)
  rw [if_neg large] at moved
  have positive := reserved.mp (UInt64.not_lt.mp large)
  have high := Int32.toInt_lt (atoi value)
  have taken : (toSizeT (atoi value).toInt).toNat = (atoi value).toInt.toNat := by
    rw [toNat_toSizeT]
    omega
  have size := (reserved_announced announced).trans taken
  by_cases memory : (reader.view s).reserved 13 ≤ limit
  · obtain ⟨next, goes, view⟩ := follows.next headed moved memory
    have used : (reader.view next).parser.contentSize.toNat = (atoi value).toInt.toNat := by
      rw [view]
      exact taken
    rw [takes_iff (more.trans (Machine.consume_next _ goes))]
    change _ ∧ _ ∧ (reader.view next).parser.contentSize.toNat = _ ↔ _
    rw [used]
    refine ⟨fun ⟨wf, below, same⟩ => ⟨wf, by omega, by omega⟩, fun ⟨wf, below, _⟩ => ?_⟩
    rw [atoi_numeral wf below]
    exact ⟨wf, Nat.lt_trans below (by decide), Int.toNat_natCast _⟩
  · have stop := follows.refused headed moved (Nat.lt_of_not_le memory)
    have ended := congrArg Machine.Halt.result (more.trans (Machine.consume_stop _ stop))
    refine iff_of_false (not_takes ended Stop.noConfusion) fun ⟨wf, below, enough⟩ => ?_
    rw [size, atoi_numeral wf below, Int.toNat_natCast] at memory
    exact memory enough

/-- Behind a line with a size only its line feed is missing. -/
theorem sizeLine (follows : reader.Follows) {front size : Str} {s : σ}
    (run : (reader.within limit).machine.consume reader.fresh front = ⟨s, none, []⟩)
    (line : (reader.view s).sizeLine = some size) :
    ∃ behind, (reader.within limit).machine.consume reader.fresh (front ++ [13, 10]) =
        (reader.within limit).machine.consume behind [10] ∧
      reader.view behind = (reader.view s).goto .chunkSizeNewLine := by
  have none : (reader.view s).reserved 13 ≤ limit := by
    have absent : (reader.view s).announced = none := by
      rw [Parsing.announced, if_neg fun reading => ?_]
      rw [Parsing.sizeLine, reading.1] at line
      cases line
    simp [Parsing.reserved, absent]
  obtain ⟨behind, goes, view⟩ :=
    follows.next (headed_of_sizeLine line) (step_sizeLine line 1).1 none
  refine ⟨behind, ?_, view⟩
  rw [follows.uniform_within.consume_append (by rw [run]), run]
  exact Machine.consume_next _ goes

/-- A chunk size is taken as it was written if and only if it is a numeral for which
there is memory. -/
theorem takes_size (follows : reader.Follows) (small : limit < 2 ^ 63) {front size : Str}
    {s : σ} (run : (reader.within limit).machine.consume reader.fresh front = ⟨s, none, []⟩)
    (line : (reader.view s).sizeLine = some size) :
    (reader.within limit).Takes (front ++ [13, 10]) 16 size
        (2 ^ 63 - (reader.view s).req.content.length) (·.chunkSize) ↔
      IsNumeral 16 size ∧ (reader.view s).req.content.length + numeral 16 size ≤ limit := by
  obtain ⟨alnum, held⟩ := (follows.bounded small run).sizeLine line
  obtain ⟨value, strtol, below⟩ := strtol_alnum_bounds 16 alnum
  obtain ⟨behind, more, view⟩ := follows.sizeLine run line
  have newLine : (reader.view behind).parser.state = .chunkSizeNewLine := by
    rw [view]
    rfl
  have here : (reader.view behind).parser.state ≠ .responseStatusStart := by
    rw [newLine]
    exact State.noConfusion
  have content : (reader.view behind).req.content = (reader.view s).req.content := by
    rw [view]
    rfl
  have digits : (reader.view behind).parser.chunkSizeStr = size := by
    rw [view]
    exact (step_sizeLine line 1).2
  have room : (reader.view behind).req.content.length < 2 ^ 63 := by
    rw [content]
    omega
  have strtol := digits.symm ▸ strtol
  have again := step_newLine newLine 0
  have asked := reserved_newLine newLine strtol below room
  rw [content] at asked
  have most : IsNumeral 16 size → value = min (2 ^ 63 - 1) (numeral 16 size) := by
    intro wf
    have number := strtol_numeral 16 wf.2
    rw [digits] at strtol
    omega
  rcases chunkSizeEnd_eq strtol below room with
    ⟨fits, after, reserved, chunkSize⟩ | ⟨large, last, throws⟩
  · by_cases memory : (reader.view behind).reserved 10 ≤ limit
    · obtain ⟨next, went, taken⟩ := follows.next here (again.trans reserved) memory
      have used : (reader.view next).parser.chunkSize.toNat = value := by
        rw [taken, chunkSize, toNat_ofNat_size below]
      rw [takes_iff (more.trans (Machine.consume_next _ went))]
      change _ ∧ _ ∧ (reader.view next).parser.chunkSize.toNat = _ ↔ _
      rw [used]
      refine ⟨fun ⟨wf, _, same⟩ => ⟨wf, by omega⟩, fun ⟨wf, enough⟩ => ?_⟩
      have number := most wf
      exact ⟨wf, by omega, by omega⟩
    · have stop := follows.refused here (again.trans reserved) (Nat.lt_of_not_le memory)
      have ended := congrArg Machine.Halt.result (more.trans (Machine.consume_stop _ stop))
      refine iff_of_false (not_takes ended Stop.noConfusion) fun ⟨wf, enough⟩ => ?_
      have number := most wf
      omega
  · obtain ⟨other, stop⟩ := follows.stop here (again.trans throws)
    have ended := congrArg Machine.Halt.result (more.trans (Machine.consume_stop _ stop))
    refine iff_of_false (not_takes ended Stop.noConfusion) fun ⟨wf, enough⟩ => ?_
    have number := most wf
    rw [content] at large
    omega

/-! ## All lengths -/

/-- A trailer reserves nothing. -/
theorem trailer_reserves (small : limit < 2 ^ 63) {s : Parsing} (bounded : s.Bounded limit)
    (state : s.parser.state = .chunkTrailerValue) :
    (s.goto .chunkSizeNewLine).reserved 10 ≤ limit := by
  rw [Parsing.Bounded, state] at bounded
  have zero : strtol (s.goto .chunkSizeNewLine).parser.chunkSizeStr 16 = (0 : Nat) := by
    rw [show (s.goto .chunkSizeNewLine).parser.chunkSizeStr = [] from bounded.1]
    decide +kernel
  rw [reserved_newLine rfl zero (by decide) (Nat.lt_of_le_of_lt bounded.2 small)]
  exact bounded.2

/-- What is reserved behind a size for which there is memory. -/
theorem numeral_reserves (small : limit < 2 ^ 63) {s : Parsing}
    (wf : IsNumeral 16 s.parser.chunkSizeStr)
    (enough : s.req.content.length + numeral 16 s.parser.chunkSizeStr ≤ limit) :
    (s.goto .chunkSizeNewLine).reserved 10 ≤ limit := by
  have number : strtol s.parser.chunkSizeStr 16 =
      (numeral 16 s.parser.chunkSizeStr : Int) := by
    rw [strtol_numeral 16 wf.2]
    exact Int.min_eq_right (by omega)
  have held : (s.goto .chunkSizeNewLine).req.content.length < 2 ^ 63 := by
    change s.req.content.length < 2 ^ 63
    omega
  rw [@reserved_newLine (s.goto .chunkSizeNewLine) _ rfl number (by omega) held]
  exact enough

/-- What a vector cannot hold is more than there is memory for. -/
theorem reserved_large {s last : Parsing} {c : UInt8} {left : Nat} (small : limit < 2 ^ 63)
    (stop : Http.step s c left = .stop last .lengthError) : limit < s.reserved c := by
  rcases lengthError_cases stop with ⟨rfl, value, announced, large⟩ | ⟨rfl, state, large⟩
  · rw [reserved_announced announced]
    have above := mt (le_maxSize_iff _).mpr (UInt64.not_le.mpr large)
    omega
  · have other : ¬(10 : UInt8) = 13 := by decide
    have both : (10 : UInt8) = 10 ∧ s.parser.state = .chunkSizeNewLine := ⟨rfl, state⟩
    rw [Parsing.reserved, if_neg other, if_pos both]
    have above := mt (le_maxSize_iff _).mpr (UInt64.not_le.mpr large)
    omega

/-- A step that throws asks for more than there is. -/
theorem throws_large (follows : reader.Follows) (small : limit < 2 ^ 63) {s last : σ}
    {c : UInt8} {left : Nat} {result : Stop}
    (stop : (reader.within limit).machine s c left = .stop last result)
    (throws : result = .lengthError ∨ result = .badAlloc) :
    (reader.view s).parser.state ≠ .responseStatusStart ∧
      limit < (reader.view s).reserved c := by
  by_cases start : (reader.view s).parser.state = .responseStatusStart
  · rcases of_stop stop with same | ⟨next, _, large⟩
    · rw [(follows.line s c left start).1 last result same] at throws
      rcases throws with impossible | impossible <;> cases impossible
    · rw [reserved_start start] at large
      exact absurd large (Nat.not_lt_zero _)
  · refine ⟨start, ?_⟩
    rcases of_stop stop with same | ⟨next, _, large⟩
    · rcases follows.step s c left start with ⟨_, moved, _⟩ | ⟨_, other, _, stopped, view⟩
      · cases moved.symm.trans same
      · cases stopped.symm.trans same
        rcases throws with rfl | rfl
        · exact reserved_large small view
        · exact absurd view step_ne_badAlloc
    · exact large

/-- Where every length fits, nothing throws. -/
theorem safe (follows : reader.Follows) (small : limit < 2 ^ 63) {text : Str}
    (fits : (reader.within limit).Fits limit text) {result : Stop}
    (throws : result = .lengthError ∨ result = .badAlloc) :
    ((reader.within limit).machine.consume reader.fresh text).result ≠ some result := by
  intro stopped
  obtain ⟨front, c, s, split, run, stop⟩ := follows.uniform_within.last_step stopped
  generalize ((reader.within limit).machine.consume reader.fresh text).rest = rest at split stop
  obtain ⟨headed, large⟩ := follows.throws_large small stop throws
  refine absurd large (Nat.not_lt.mpr ?_)
  by_cases header : c = 13
  · subst header
    cases announced : (reader.view s).announced with
    | none => simp [Parsing.reserved, announced]
    | some value =>
        obtain ⟨wf, below, enough⟩ := fits.lengths front value ⟨s, rest, split, run, announced⟩
        have number := toNat_toSizeT (atoi value).toInt
        rw [atoi_numeral wf below] at number
        rw [reserved_announced announced, atoi_numeral wf below]
        omega
  by_cases line : c = 10 ∧ (reader.view s).parser.state = .chunkSizeNewLine
  swap
  · rw [Parsing.reserved, if_neg header, if_neg line]
    exact Nat.zero_le limit
  obtain ⟨rfl, state⟩ := line
  -- The line feed comes behind the end of a line with a size, or of a trailer.
  rcases List.eq_nil_or_concat front with rfl | ⟨front, c, rfl⟩
  · cases run
    exact absurd state follows.fresh_line
  rw [List.concat_eq_append] at split run
  obtain ⟨before, earlier, moved⟩ := follows.uniform_within.consume_snoc run
  have bounded := follows.bounded small earlier
  obtain ⟨moved, _⟩ := of_next (moved 0)
  by_cases first : (reader.view before).parser.state = .responseStatusStart
  · exact absurd state ((follows.line before c 0 first).2 s moved).2
  rcases follows.step before c 0 first with ⟨after, same, step⟩ | ⟨_, _, _, same, _⟩
  · cases same.symm.trans moved
    obtain ⟨rfl, view, line | trailer⟩ := newLine_cases step state
    · obtain ⟨wf, enough⟩ := fits.sizes front _ _ ⟨before, rest,
        by rw [split, List.append_assoc]; rfl, earlier, line, rfl⟩
      rw [view]
      exact numeral_reserves small wf enough
    · rw [view]
      exact trailer_reserves small bounded trailer
  · cases same.symm.trans moved

/-- The lengths of a text are those that were written if and only if they fit. -/
theorem exact_iff (follows : reader.Follows) (small : limit < 2 ^ 63) (text : Str) :
    (reader.within limit).Exact text ↔ (reader.within limit).Fits limit text := by
  constructor
  · intro exact_
    refine ⟨fun front value announces => ?_, fun front size held sizes => ?_⟩
    · obtain ⟨s, rest, split, run, announced⟩ := id announces
      exact (follows.takes_length run announced).mp (exact_.lengths front value announces)
    · obtain ⟨s, rest, split, run, line, rfl⟩ := id sizes
      exact (follows.takes_size small run line).mp (exact_.sizes front size _ sizes)
  · intro fits
    refine ⟨fun front value announces => ?_, fun front size held sizes => ?_,
      follows.safe small fits (.inl rfl), follows.safe small fits (.inr rfl)⟩
    · obtain ⟨s, rest, split, run, announced⟩ := id announces
      exact (follows.takes_length run announced).mpr (fits.lengths front value announces)
    · obtain ⟨s, rest, split, run, line, rfl⟩ := id sizes
      exact (follows.takes_size small run line).mpr (fits.sizes front size _ sizes)

end Follows

/-- In either parser every length is the number that was written, and nothing throws, if
and only if every `Content-Length` is a numeral below 2³¹, every chunk size is a numeral
and there is memory for them. A vector never asks for 2⁶³ bytes, so the largest block may
be taken to be smaller. -/
theorem lengths_exact_iff (limit : Fin (2 ^ 63)) (text : Str) :
    ((requestReader.within limit).Exact text ↔
        (requestReader.within limit).Fits limit text) ∧
      ((responseReader.within limit).Exact text ↔
        (responseReader.within limit).Fits limit text) :=
  ⟨request_follows.exact_iff limit.isLt text, response_follows.exact_iff limit.isLt text⟩

/-- `POST / HTTP/1.1` with `Content-Length: -1`. -/
def minusOne : Str :=
  strPost ++ [32, 47, 32, 72, 84, 84, 80, 47, 49, 46, 49, 13, 10] ++ contentLength ++
    [58, 32, 45, 49, 13]

/-- Its length is stored as 2⁶⁴ - 1, and reserving so many bytes throws. -/
theorem not_lengths_exact :
    ¬∀ (limit : Fin (2 ^ 63)) (text : Str), (requestReader.within limit).Exact text := by
  intro every
  have throws : ((requestReader.within (2 ^ 63 - 1)).machine.consume ⟨.fresh, .empty⟩
      minusOne).result = some .lengthError := by
    decide +kernel
  exact (every ⟨2 ^ 63 - 1, by decide⟩ minusOne).safe.1 throws

end LengthReader

end Nicenet.Http
