import Mathlib.Data.List.DropRight
import Nicenet.Http.ResponseHead
import Nicenet.Http.Segmented

/-!
# The numbers of the first line

Versions and status codes are read into 32 bits, digit by digit, for as long as digits
come. What a parser has read of a number is what the digits at the end of its input say,
modulo 2³²; so it is the number that was written if and only if that fits.
-/

namespace Nicenet.Http

open Library

/-! ## Digits at the end of a text -/

/-- The digits at the end of a text. -/
def lastDigits (text : Str) : Str := text.rtakeWhile isDigit

/-- The text in front of them. -/
def beforeDigits (text : Str) : Str := text.rdropWhile isDigit

theorem before_append_last (text : Str) : beforeDigits text ++ lastDigits text = text :=
  List.rdropWhile_append_rtakeWhile

theorem lastDigits_snoc {c : UInt8} (digit : isDigit c = true) (text : Str) :
    lastDigits (text ++ [c]) = lastDigits text ++ [c] :=
  List.rtakeWhile_concat_pos isDigit text c digit

theorem beforeDigits_snoc {c : UInt8} (digit : isDigit c = true) (text : Str) :
    beforeDigits (text ++ [c]) = beforeDigits text :=
  List.rdropWhile_concat_pos isDigit text c digit

theorem lastDigits_end {c : UInt8} (other : isDigit c = false) (text : Str) :
    lastDigits (text ++ [c]) = [] :=
  List.rtakeWhile_concat_neg isDigit text c (by rw [other]; exact Bool.false_ne_true)

theorem isDigitOf_ten : ∀ c : UInt8, isDigit c = true →
    isDigitOf 10 c = true ∧ digit c = Int32.ofNat ((digitValue c).getD 0) ∧
      Response.codeDigit c = UInt32.ofNat ((digitValue c).getD 0) := by
  decide +kernel

/-- The next digit of a number. -/
theorem numeral_snoc {text : Str} (digits : ∀ c ∈ text, isDigit c = true) {c : UInt8}
    (digit : isDigit c = true) :
    numeral 10 (text ++ [c]) = numeral 10 text * 10 + (digitValue c).getD 0 := by
  have front : ∀ other ∈ text, isDigitOf 10 other :=
    fun other member => (isDigitOf_ten other (digits other member)).1
  have all : ∀ other ∈ text ++ [c], isDigitOf 10 other :=
    List.forall_mem_append.mpr
      ⟨front, List.forall_mem_singleton.mpr (isDigitOf_ten c digit).1⟩
  rw [numeral, numeral, leadingValue_eq_foldl 0 all, leadingValue_eq_foldl 0 front,
    List.foldl_append, List.foldl_cons, List.foldl_nil]

theorem numeral_append_le {front back : Str} (digits : ∀ c ∈ front ++ back, isDigit c = true) :
    numeral 10 front ≤ numeral 10 (front ++ back) := by
  induction back using List.reverseRecOn with
  | nil => rw [List.append_nil]
  | append_singleton back c ih =>
      rw [← List.append_assoc] at digits ⊢
      have shorter := ih fun other member => digits other (List.mem_append_left _ member)
      rw [numeral_snoc (fun other member => digits other (List.mem_append_left _ member))
        (digits c (by simp))]
      omega

/-! ## Counting digits -/

variable {σ ι : Type}

/-- A machine that reads a number: it starts behind a character that is no digit, and
goes on with digits, which it counts. -/
structure Counts (machine : Machine σ UInt8 Stop) (fresh : σ) (starts loops : σ → Prop)
    (value : σ → ι) (ofNat : Nat → ι) : Prop where
  uniform : Machine.Uniform machine
  fresh_starts : ¬starts fresh
  fresh_loops : ¬loops fresh
  enters : ∀ {s next : σ} {c : UInt8} {left : Nat}, machine s c left = .next next →
    starts next → isDigit c = false
  reads : ∀ {s next : σ} {c : UInt8} {left : Nat}, machine s c left = .next next →
    loops next → isDigit c = true ∧
      (starts s ∧ value next = ofNat ((digitValue c).getD 0) ∨
        loops s ∧ ∀ number, value s = ofNat number →
          value next = ofNat (number * 10 + (digitValue c).getD 0))

namespace Counts

variable {machine : Machine σ UInt8 Stop} {fresh : σ} {starts loops : σ → Prop}
  {value : σ → ι} {ofNat : Nat → ι}

/-- Where a run has come to in a number: with every digit, it has counted those so far. -/
structure Reached (machine : Machine σ UInt8 Stop) (fresh : σ) (starts loops : σ → Prop)
    (value : σ → ι) (ofNat : Nat → ι) (text : Str) (s : σ) : Prop where
  run : machine.consume fresh text = ⟨s, none, []⟩
  start : starts s → lastDigits text = []
  loop : loops s → lastDigits text ≠ [] ∧ ∀ front back : Str,
    lastDigits text = front ++ back → front ≠ [] →
      ∃ at_, machine.consume fresh (beforeDigits text ++ front) = ⟨at_, none, []⟩ ∧
        loops at_ ∧ value at_ = ofNat (numeral 10 front)

theorem reached (counts : Counts machine fresh starts loops value ofNat) {text : Str} {s : σ}
    (run : machine.consume fresh text = ⟨s, none, []⟩) :
    Reached machine fresh starts loops value ofNat text s := by
  refine Machine.run_keeps machine ?_ ?_ run
  · intro done s c left next reached moved
    have longer : machine.consume fresh (done ++ [c]) = ⟨next, none, []⟩ := by
      rw [counts.uniform.consume_append (by rw [reached.run]), reached.run]
      exact machine.consume_next (counts.uniform.next moved 0)
    refine ⟨longer, fun starts => lastDigits_end (counts.enters moved starts) done, ?_⟩
    intro loops
    obtain ⟨digit, amount⟩ := counts.reads moved loops
    have digits : ∀ c ∈ lastDigits done, isDigit c = true :=
      fun c member => List.mem_rtakeWhile_imp member
    rw [lastDigits_snoc digit, beforeDigits_snoc digit]
    refine ⟨List.append_ne_nil_of_right_ne_nil _ (List.cons_ne_nil c []), ?_⟩
    intro front back split ne
    rcases List.eq_nil_or_concat back with rfl | ⟨back, last, rfl⟩
    · rw [List.append_nil] at split
      subst split
      refine ⟨next, ?_, loops, ?_⟩
      · rw [← List.append_assoc, before_append_last]
        exact longer
      · rw [numeral_snoc digits digit]
        rcases amount with ⟨starts, amount⟩ | ⟨loops, amount⟩
        · rw [reached.start starts, amount]
          exact congrArg ofNat (Nat.zero_add _).symm
        · obtain ⟨some, before⟩ := reached.loop loops
          obtain ⟨at_, run, _, number⟩ := before (lastDigits done) [] (by simp) some
          rw [before_append_last, reached.run] at run
          cases run
          exact amount _ number
    · rw [List.concat_eq_append, ← List.append_assoc] at split
      obtain ⟨shorter, _⟩ := List.append_inj' split rfl
      rcases amount with ⟨starts, _⟩ | ⟨loops, _⟩
      · rw [reached.start starts] at shorter
        exact absurd (List.append_eq_nil_iff.mp shorter.symm).1 ne
      · exact (reached.loop loops).2 front back shorter ne
  · exact ⟨rfl, fun starts => absurd starts counts.fresh_starts,
      fun loops => absurd loops counts.fresh_loops⟩

/-- Behind a part of the digits the machine has counted that part. -/
theorem part {text : Str} {s : σ} (counts : Counts machine fresh starts loops value ofNat)
    (run : machine.consume fresh text = ⟨s, none, []⟩) (inLoop : loops s) {front back : Str}
    (split : lastDigits text = front ++ back) (ne : front ≠ []) :
    ∃ at_, machine.consume fresh (beforeDigits text ++ front) = ⟨at_, none, []⟩ ∧
      loops at_ ∧ value at_ = ofNat (numeral 10 front) :=
  ((counts.reached run).loop inLoop).2 front back split ne

/-- Behind all of them it has counted all. -/
theorem whole {text : Str} {s : σ} (counts : Counts machine fresh starts loops value ofNat)
    (run : machine.consume fresh text = ⟨s, none, []⟩) (inLoop : loops s) :
    value s = ofNat (numeral 10 (lastDigits text)) := by
  obtain ⟨ne, parts⟩ := (counts.reached run).loop inLoop
  obtain ⟨at_, again, _, number⟩ := parts (lastDigits text) [] (List.append_nil _).symm ne
  rw [before_append_last, run] at again
  cases again
  exact number

end Counts

/-! ## The five numbers -/

/-- A step of the parser of requests that comes to a version or goes on in it. -/
theorem step_version {s next : Parsing} {c : UInt8} {left : Nat}
    (moved : step s c left = .next next) :
    match next.parser.state with
    | .requestHttpVersion_majorStart => isDigit c = false
    | .requestHttpVersion_minorStart => isDigit c = false
    | .requestHttpVersion_major => isDigit c = true ∧
        (s.parser.state = .requestHttpVersion_majorStart ∧
            next.req.versionMajor = digit c ∨
          s.parser.state = .requestHttpVersion_major ∧
            next.req.versionMajor = s.req.versionMajor * 10 + digit c)
    | .requestHttpVersion_minor => isDigit c = true ∧
        (s.parser.state = .requestHttpVersion_minorStart ∧
            next.req.versionMinor = digit c ∨
          s.parser.state = .requestHttpVersion_minor ∧
            next.req.versionMinor = s.req.versionMinor * 10 + digit c)
    | _ => True := by
  generalize start : s.parser.state = state
  rw [step, start] at moved
  cases state <;> simp only [expect, headerEnd, headersEnd, chunkSizeEnd, Parsing.back,
    Parsing.error, Parsing.completed] at moved
  all_goals
    repeat' split at moved
  all_goals
    cases moved
  all_goals simp only [Parsing.goto, Parsing.setMajor, Parsing.setMinor, Parsing.pushMethod,
    Parsing.pushUri, Parsing.pushContent, Parsing.pushChunkSize, start]
  all_goals first
    | exact ⟨‹_›, .inl ⟨trivial, trivial⟩⟩
    | exact ⟨‹_›, .inr ⟨trivial, trivial⟩⟩
    | subst c; decide

/-- The same of the parser of responses. -/
theorem Response.step_number {s next : Response.Parsing} {c : UInt8} {left : Nat}
    (moved : Response.step s c left = .next next) :
    match next.parser.state with
    | .responseHttpVersion_majorStart => isDigit c = false
    | .responseHttpVersion_minorStart => isDigit c = false
    | .responseHttpVersion_statusCodeStart => isDigit c = false
    | .responseHttpVersion_major => isDigit c = true ∧
        (s.parser.state = .responseHttpVersion_majorStart ∧
            next.resp.versionMajor = digit c ∨
          s.parser.state = .responseHttpVersion_major ∧
            next.resp.versionMajor = s.resp.versionMajor * 10 + digit c)
    | .responseHttpVersion_minor => isDigit c = true ∧
        (s.parser.state = .responseHttpVersion_minorStart ∧
            next.resp.versionMinor = digit c ∨
          s.parser.state = .responseHttpVersion_minor ∧
            next.resp.versionMinor = s.resp.versionMinor * 10 + digit c)
    | .responseHttpVersion_statusCode => isDigit c = true ∧
        (s.parser.state = .responseHttpVersion_statusCodeStart ∧
            next.resp.statusCode = codeDigit c ∨
          s.parser.state = .responseHttpVersion_statusCode ∧
            next.resp.statusCode = s.resp.statusCode * 10 + codeDigit c)
    | _ => True := by
  generalize start : s.parser.state = state
  rw [Response.step, start] at moved
  cases state <;> simp only [expect, headerEnd, headersEnd, chunkSizeEnd, Parsing.back,
    Parsing.error, Parsing.completed] at moved
  all_goals
    repeat' split at moved
  all_goals
    cases moved
  all_goals simp only [Parsing.goto, Parsing.setMajor, Parsing.setMinor, Parsing.setCode,
    Parsing.pushStatus, Parsing.pushContent, Parsing.pushChunkSize, start]
  all_goals first
    | exact ⟨‹_›, .inl ⟨trivial, trivial⟩⟩
    | exact ⟨‹_›, .inr ⟨trivial, trivial⟩⟩
    | subst c; decide

/-- A digit more of a number that is counted in an `int`. -/
theorem int_digit {c : UInt8} (isDigit : isDigit c = true) {old new : Int32}
    (amount : new = old * 10 + digit c) (number : Nat) (before : old = Int32.ofNat number) :
    new = Int32.ofNat (number * 10 + (digitValue c).getD 0) := by
  rw [amount, before, (isDigitOf_ten c isDigit).2.1, Int32.ofNat_add, Int32.ofNat_mul]
  rfl

/-- The same in an `unsigned int`. -/
theorem unsigned_digit {c : UInt8} (isDigit : isDigit c = true) {old new : UInt32}
    (amount : new = old * 10 + Response.codeDigit c) (number : Nat)
    (before : old = UInt32.ofNat number) :
    new = UInt32.ofNat (number * 10 + (digitValue c).getD 0) := by
  rw [amount, before, (isDigitOf_ten c isDigit).2.2, UInt32.ofNat_add, UInt32.ofNat_mul]
  rfl

/-- A machine that counts in an `int`. -/
theorem counts_int {machine : Machine σ UInt8 Stop} {fresh : σ} {starts loops : σ → Prop}
    {value : σ → Int32} (uniform : Machine.Uniform machine) (fresh_starts : ¬starts fresh)
    (fresh_loops : ¬loops fresh)
    (enters : ∀ {s next : σ} {c : UInt8} {left : Nat}, machine s c left = .next next →
      starts next → isDigit c = false)
    (reads : ∀ {s next : σ} {c : UInt8} {left : Nat}, machine s c left = .next next →
      loops next → isDigit c = true ∧ (starts s ∧ value next = digit c ∨
        loops s ∧ value next = value s * 10 + digit c)) :
    Counts machine fresh starts loops value Int32.ofNat := by
  refine ⟨uniform, fresh_starts, fresh_loops, enters, fun moved inLoop => ?_⟩
  obtain ⟨isDigit, amount⟩ := reads moved inLoop
  refine ⟨isDigit, amount.imp ?_ ?_⟩
  · rintro ⟨start, first⟩
    exact ⟨start, first.trans (isDigitOf_ten _ isDigit).2.1⟩
  · rintro ⟨inLoop, more⟩
    exact ⟨inLoop, int_digit isDigit more⟩

theorem requestMajor_counts : Counts step ⟨.fresh, .empty⟩
    (fun s => s.parser.state = .requestHttpVersion_majorStart)
    (fun s => s.parser.state = .requestHttpVersion_major) (fun s => s.req.versionMajor)
    Int32.ofNat := by
  apply counts_int step_uniform State.noConfusion State.noConfusion
  all_goals
    intro s next c left moved state
    have version := step_version moved
    rw [state] at version
    exact version

theorem requestMinor_counts : Counts step ⟨.fresh, .empty⟩
    (fun s => s.parser.state = .requestHttpVersion_minorStart)
    (fun s => s.parser.state = .requestHttpVersion_minor) (fun s => s.req.versionMinor)
    Int32.ofNat := by
  apply counts_int step_uniform State.noConfusion State.noConfusion
  all_goals
    intro s next c left moved state
    have version := step_version moved
    rw [state] at version
    exact version

namespace Response

theorem major_counts : Counts step ⟨.fresh, .empty⟩
    (fun s => s.parser.state = .responseHttpVersion_majorStart)
    (fun s => s.parser.state = .responseHttpVersion_major) (fun s => s.resp.versionMajor)
    Int32.ofNat := by
  apply counts_int step_uniform State.noConfusion State.noConfusion
  all_goals
    intro s next c left moved state
    have number := step_number moved
    rw [state] at number
    exact number

theorem minor_counts : Counts step ⟨.fresh, .empty⟩
    (fun s => s.parser.state = .responseHttpVersion_minorStart)
    (fun s => s.parser.state = .responseHttpVersion_minor) (fun s => s.resp.versionMinor)
    Int32.ofNat := by
  apply counts_int step_uniform State.noConfusion State.noConfusion
  all_goals
    intro s next c left moved state
    have number := step_number moved
    rw [state] at number
    exact number

theorem code_counts : Counts step ⟨.fresh, .empty⟩
    (fun s => s.parser.state = .responseHttpVersion_statusCodeStart)
    (fun s => s.parser.state = .responseHttpVersion_statusCode) (fun s => s.resp.statusCode)
    UInt32.ofNat where
  uniform := step_uniform
  fresh_starts := State.noConfusion
  fresh_loops := State.noConfusion
  enters moved state := by
    have number := step_number moved
    rw [state] at number
    exact number
  reads moved state := by
    have number := step_number moved
    rw [state] at number
    refine ⟨number.1, number.2.imp ?_ ?_⟩
    · rintro ⟨start, first⟩
      exact ⟨start, first.trans (isDigitOf_ten _ number.1).2.2⟩
    · rintro ⟨inLoop, more⟩
      exact ⟨inLoop, unsigned_digit number.1 more⟩

end Response

/-- What a parser has of a number that it is reading, when a text has brought it there. -/
def readsIn (machine : Machine σ UInt8 Stop) (fresh : σ) (loops : σ → Prop)
    [DecidablePred loops] (value : σ → Int) (text : Str) : Option Int :=
  let halt := machine.consume fresh text
  if halt.result = none ∧ loops halt.state then some (value halt.state) else none

theorem readsIn_eq_some {machine : Machine σ UInt8 Stop} {fresh : σ} {loops : σ → Prop}
    [DecidablePred loops] {value : σ → Int} {text : Str} {number : Int} :
    readsIn machine fresh loops value text = some number ↔
      ∃ s, machine.consume fresh text = ⟨s, none, []⟩ ∧ loops s ∧ value s = number := by
  rw [readsIn]
  constructor
  · intro reads
    split at reads
    · next running =>
      cases reads
      refine ⟨(machine.consume fresh text).state, ?_, running.2, rfl⟩
      rw [← running.1, ← machine.rest_of_none running.1]
    · cases reads
  · rintro ⟨s, run, inLoop, rfl⟩
    simp only [run, inLoop, and_self, if_true]

inductive Number where
  | requestMajor
  | requestMinor
  | responseMajor
  | responseMinor
  | responseCode
  deriving DecidableEq, Repr

namespace Number

/-- What a fresh parser has of the number, when the text has brought it there. -/
def reads : Number → Str → Option Int
  | .requestMajor => readsIn step ⟨.fresh, .empty⟩
      (fun s => s.parser.state = .requestHttpVersion_major) fun s => s.req.versionMajor.toInt
  | .requestMinor => readsIn step ⟨.fresh, .empty⟩
      (fun s => s.parser.state = .requestHttpVersion_minor) fun s => s.req.versionMinor.toInt
  | .responseMajor => readsIn Response.step ⟨.fresh, .empty⟩
      (fun s => s.parser.state = .responseHttpVersion_major)
      fun s => s.resp.versionMajor.toInt
  | .responseMinor => readsIn Response.step ⟨.fresh, .empty⟩
      (fun s => s.parser.state = .responseHttpVersion_minor)
      fun s => s.resp.versionMinor.toInt
  | .responseCode => readsIn Response.step ⟨.fresh, .empty⟩
      (fun s => s.parser.state = .responseHttpVersion_statusCode)
      fun s => s.resp.statusCode.toNat

/-- The parser that reads the number has not returned. -/
def GoesOn : Number → Str → Prop
  | .requestMajor, text | .requestMinor, text =>
      (consume ⟨.fresh, .empty⟩ text).result = none
  | .responseMajor, text | .responseMinor, text | .responseCode, text =>
      (Response.consume ⟨.fresh, .empty⟩ text).result = none

/-- Behind the text, this character takes the parser out of the number. -/
def Leaves (number : Number) (text : Str) (exit : UInt8) : Prop :=
  (number.reads text).isSome ∧ number.GoesOn (text ++ [exit]) ∧
    number.reads (text ++ [exit]) = none

instance (number : Number) (text : Str) : Decidable (number.GoesOn text) :=
  match number with
  | .requestMajor | .requestMinor => inferInstanceAs (Decidable (_ = _))
  | .responseMajor | .responseMinor | .responseCode => inferInstanceAs (Decidable (_ = _))

instance (number : Number) (text : Str) (exit : UInt8) : Decidable (number.Leaves text exit) :=
  inferInstanceAs (Decidable (_ ∧ _ ∧ _))

/-- The first number that does not fit: of an `int`, or of an `unsigned int`. -/
def limit : Number → Nat
  | .responseCode => 2 ^ 32
  | _ => 2 ^ 31

/-- The numbers that may be written. -/
def Accepts : Number → Nat → Prop
  | .responseCode, written => 100 ≤ written ∧ written ≤ 999
  | _, _ => True

/-- The parser has the number that the last digits of the text say, ten times what it had
of them before each further digit fits, and the number may be written. -/
def Exact (number : Number) (text : Str) : Prop :=
  number.reads text = some (numeral 10 (lastDigits text) : Int) ∧
    (∀ front back : Str, lastDigits text = front ++ back → front ≠ [] → back ≠ [] →
      ∃ value : Int, number.reads (beforeDigits text ++ front) = some value ∧
        -number.limit ≤ value * 10 ∧ value * 10 < number.limit) ∧
    number.Accepts (numeral 10 (lastDigits text))

end Number

/-- A number that is counted is exact if and only if it fits. -/
theorem Counts.exact_iff {machine : Machine σ UInt8 Stop} {fresh : σ}
    {starts loops : σ → Prop} {value : σ → ι} {ofNat : Nat → ι}
    (counts : Counts machine fresh starts loops value ofNat) [DecidablePred loops]
    (toInt : ι → Int) {limit : Nat}
    (fits : ∀ number, toInt (ofNat number) = number ↔ number < limit) {text : Str}
    (reading : (readsIn machine fresh loops (fun s => toInt (value s)) text).isSome) :
    (readsIn machine fresh loops (fun s => toInt (value s)) text =
        some (numeral 10 (lastDigits text) : Int) ∧
      ∀ front back : Str, lastDigits text = front ++ back → front ≠ [] → back ≠ [] →
        ∃ number : Int, readsIn machine fresh loops (fun s => toInt (value s))
            (beforeDigits text ++ front) = some number ∧
          -limit ≤ number * 10 ∧ number * 10 < limit) ↔
      numeral 10 (lastDigits text) < limit := by
  obtain ⟨number, reads⟩ := Option.isSome_iff_exists.mp reading
  obtain ⟨s, run, inLoop, amount⟩ := readsIn_eq_some.mp reads
  have digits : ∀ c ∈ lastDigits text, isDigit c = true :=
    fun c member => List.mem_rtakeWhile_imp member
  rw [counts.whole run inLoop] at amount
  constructor
  · rintro ⟨exact, _⟩
    rw [reads, Option.some.injEq] at exact
    exact (fits _).mp (amount.trans exact)
  · intro small
    refine ⟨?_, fun front back split ne more => ?_⟩
    · rw [reads, ← amount, (fits _).mpr small]
    · obtain ⟨at_, before, inLoop, counted⟩ := counts.part run inLoop split ne
      obtain ⟨c, back, rfl⟩ := List.exists_cons_of_ne_nil more
      rw [split] at digits small
      have next := numeral_snoc (fun other member => digits other
        (List.mem_append_left _ member)) (digits c (by simp))
      have longer := @numeral_append_le (front ++ [c]) back
        (by rw [List.append_assoc]; exact digits)
      rw [List.append_assoc, List.singleton_append, next] at longer
      refine ⟨numeral 10 front, readsIn_eq_some.mpr ⟨at_, before, inLoop, ?_⟩, ?_, ?_⟩
      · rw [counted]
        exact (fits _).mpr (by omega)
      · omega
      · omega

namespace Number

theorem int_fits (number : Nat) : (Int32.ofNat number).toInt = number ↔ number < 2 ^ 31 := by
  refine ⟨fun same => ?_, Int32.toInt_ofNat_of_lt⟩
  have most := Int32.toInt_lt (Int32.ofNat number)
  omega

theorem unsigned_fits (number : Nat) :
    ((UInt32.ofNat number).toNat : Int) = number ↔ number < 2 ^ 32 := by
  have size : UInt32.size = 2 ^ 32 := rfl
  rw [UInt32.toNat_ofNat']
  omega

theorem reads_responseCode {text : Str} {number : Int} :
    responseCode.reads text = some number ↔
      ∃ s, Response.consume ⟨.fresh, .empty⟩ text = ⟨s, none, []⟩ ∧
        s.parser.state = .responseHttpVersion_statusCode ∧
        (s.resp.statusCode.toNat : Int) = number := by
  rw [reads]
  exact readsIn_eq_some

/-- A status code that the parser leaves is in the range it checks. -/
theorem code_inRange {text : Str} {exit : UInt8} (leaves : responseCode.Leaves text exit) :
    ∃ code : Nat, responseCode.reads text = some (code : Int) ∧ 100 ≤ code ∧ code ≤ 999 := by
  obtain ⟨reading, goesOn, left⟩ := leaves
  obtain ⟨number, reads⟩ := Option.isSome_iff_exists.mp reading
  obtain ⟨s, run, state, _⟩ := reads_responseCode.mp reads
  refine ⟨s.resp.statusCode.toNat, reads_responseCode.mpr ⟨s, run, state, rfl⟩, ?_⟩
  have more : Response.consume ⟨.fresh, .empty⟩ (text ++ [exit]) =
      Response.consume s [exit] := by
    rw [Response.consume] at run
    rw [Response.consume, Response.step_uniform.consume_append (by rw [run]), run]
    rfl
  have move : Response.step s exit 0 =
      if isDigit exit then .next (s.setCode (s.resp.statusCode * 10 + Response.codeDigit exit))
      else if s.resp.statusCode < 100 ∨ s.resp.statusCode > 999 then s.error
      else if exit = 32 then .next (s.goto .responseHttpVersion_statusTextStart)
      else s.error := by
    rw [Response.step, state]
  by_cases digit : isDigit exit
  · rw [if_pos digit] at move
    have stays := more.trans (Machine.consume_next Response.step move)
    rw [reads_responseCode.mpr ⟨_, stays, state, rfl⟩] at left
    cases left
  rw [if_neg digit] at move
  by_cases outside : s.resp.statusCode < 100 ∨ s.resp.statusCode > 999
  · rw [if_pos outside] at move
    rw [GoesOn, more, Response.consume, Machine.consume_stop Response.step move] at goesOn
    cases goesOn
  · obtain ⟨low, high⟩ := not_or.mp outside
    exact ⟨Nat.le_of_not_lt low, Nat.le_of_not_lt high⟩

/-- A number that a parser leaves is the one that was written, and was computed without
an overflow, if and only if it fits. -/
theorem exact_iff_fits (number : Number) {text : Str} {exit : UInt8}
    (leaves : number.Leaves text exit) :
    number.Exact text ↔ numeral 10 (lastDigits text) < number.limit := by
  cases number with
  | requestMajor =>
      simp only [Exact, Accepts, and_true]
      exact requestMajor_counts.exact_iff Int32.toInt int_fits leaves.1
  | requestMinor =>
      simp only [Exact, Accepts, and_true]
      exact requestMinor_counts.exact_iff Int32.toInt int_fits leaves.1
  | responseMajor =>
      simp only [Exact, Accepts, and_true]
      exact Response.major_counts.exact_iff Int32.toInt int_fits leaves.1
  | responseMinor =>
      simp only [Exact, Accepts, and_true]
      exact Response.minor_counts.exact_iff Int32.toInt int_fits leaves.1
  | responseCode =>
      have counted := Response.code_counts.exact_iff (fun code => (code.toNat : Int))
        unsigned_fits leaves.1
      obtain ⟨code, reads, low, high⟩ := code_inRange leaves
      refine ⟨fun ⟨same, products, _⟩ => counted.mp ⟨same, products⟩, fun small => ?_⟩
      obtain ⟨same, products⟩ := counted.mpr small
      refine ⟨same, products, ?_⟩
      have written : code = numeral 10 (lastDigits text) :=
        Int.ofNat.inj (Option.some.inj (reads.symm.trans same))
      rw [← written]
      exact ⟨low, high⟩

/-- `G / HTTP/`, with this behind it. -/
def afterSlash (digits : Str) : Str := [71, 32, 47, 32, 72, 84, 84, 80, 47] ++ digits

/-- A version that fits. -/
theorem exact_one : requestMajor.Leaves (afterSlash [49]) 46 ∧
    requestMajor.Exact (afterSlash [49]) := by
  have leaves : requestMajor.Leaves (afterSlash [49]) 46 := by decide +kernel
  exact ⟨leaves, (exact_iff_fits requestMajor leaves).mpr (by decide +kernel)⟩

/-- The version `4294967297`, which is read as 1. -/
def wrappedMajor : Str := afterSlash [52, 50, 57, 52, 57, 54, 55, 50, 57, 55]

/-- `HTTP/1.1 4294967496`, with a status code that is read as 200. -/
def wrappedCode : Str :=
  [72, 84, 84, 80, 47, 49, 46, 49, 32, 52, 50, 57, 52, 57, 54, 55, 52, 57, 54]

/-- A version and a status code that wrap around. -/
theorem not_exact :
    (requestMajor.Leaves wrappedMajor 46 ∧ ¬requestMajor.Exact wrappedMajor) ∧
      responseCode.Leaves wrappedCode 32 ∧ ¬responseCode.Exact wrappedCode := by
  refine ⟨⟨by decide +kernel, fun exact_ => ?_⟩, by decide +kernel, fun exact_ => ?_⟩
  · exact absurd exact_.1 (by decide +kernel)
  · exact absurd exact_.1 (by decide +kernel)

end Number

end Nicenet.Http
