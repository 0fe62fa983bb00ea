import Nicenet.Http.Connection
import Nicenet.Http.Written

/-!
# Bytes left behind a completed request

A read that finds bytes in `m_buffer` gives the parser the front of `m_buffer` and
the new bytes, but only as many of them as are new; what is left is then looked
for at the end of the new bytes. So bytes are neither lost nor read again exactly
as long as no read starts with bytes in `m_buffer`.
-/

namespace Nicenet.Http

variable {π : Type} {parser : RequestParser π} {handles : Str → Bool}

/-- The bytes that `parse` took from the front of its text. -/
def Read.consumed (read : Read π) : Str :=
  read.text.take (read.text.length - read.parsed.rest.length)

def Read.Completed (read : Read π) : Prop :=
  read.parsed.result = some .parsingCompleted

/-- The account of the received bytes, `pending` being those not consumed yet:
each read consumes from the front of the pending and the new bytes, a completed
request may drop a NUL behind it, and `m_buffer` then holds what is pending, all of
which the next read gives to `parse` in front of the new bytes. -/
def Accounts : Str → List (Read π) → Prop
  | _, [] => True
  | pending, read :: reads => ∃ dropped rest,
      pending ++ read.data = read.consumed ++ dropped ++ rest ∧
      (dropped = [] ∨ dropped = [0] ∧ read.Completed) ∧
      (read.Completed → read.after.buffer = rest ∧
        ∀ next ∈ reads.head?, next.text = read.after.buffer ++ next.data) ∧
      Accounts rest reads

/-- The first read of a run. -/
theorem head_run {conn : HttpConnection π} {reads : List Str} {read : Read π}
    (first : read ∈ (run parser handles conn reads).head?) :
    ∃ data, read = onRead parser handles conn data := by
  cases reads with
  | nil => simp [run] at first
  | cons data reads =>
      rw [run, List.head?_cons, Option.mem_some] at first
      exact ⟨data, first.symm⟩

/-- Bytes that the next read should see keep it from being as long as its data. -/
theorem buffer_of_next {conn : HttpConnection π} {data : Str}
    (whole : (onRead parser handles conn data).text =
      conn.buffer ++ (onRead parser handles conn data).data) :
    conn.buffer = [] := by
  have length := congrArg List.length whole
  rw [onRead_text_length, onRead_data, List.length_append] at length
  exact List.length_eq_zero_iff.mp (by omega)

/-- A read that is followed by one that sees all of `m_buffer` leaves nothing in
it. -/
theorem IdleRead.buffer_eq {conn : HttpConnection π} {data second : Str}
    {read : Read π} (step : IdleRead parser handles conn data read)
    (again : read.again = true)
    (whole : read.Completed →
      (onRead parser handles read.after second).text =
        read.after.buffer ++ (onRead parser handles read.after second).data) :
    read.after.buffer = [] := by
  cases step with
  | waits => rfl
  | completes result => exact buffer_of_next (whole result)
  | fails => exact absurd again Bool.false_ne_true

/-- Accounts hold only where no read starts with bytes in `m_buffer`. -/
theorem idle_of_accounts {conn : HttpConnection π} {reads : List Str} {pending : Str}
    (idle : conn.buffer = []) (legal : ∀ data ∈ reads, IsChunk data)
    (accounts : Accounts pending (run parser handles conn reads)) :
    ∀ read ∈ run parser handles conn reads, read.before.buffer = [] := by
  induction reads generalizing conn pending with
  | nil =>
      intro read member
      exact absurd member List.not_mem_nil
  | cons data reads ih =>
      have step := onRead_idle parser handles idle
        (legal data List.mem_cons_self)
      have later : ∀ data ∈ reads, IsChunk data :=
        fun other member => legal other (List.mem_cons_of_mem _ member)
      rw [run] at accounts ⊢
      obtain ⟨dropped, rest, _, _, next, accounts⟩ := accounts
      intro read member
      rcases List.mem_cons.mp member with rfl | member
      · rw [onRead_before, idle]
      · split at member
        · next again =>
          rw [if_pos again] at accounts next
          cases reads with
          | nil => exact absurd member List.not_mem_nil
          | cons second reads =>
              have kept := step.buffer_eq again fun completed =>
                (next completed).2 _ (by rw [run, List.head?_cons]; rfl)
              exact ih kept later accounts read member
        · exact absurd member List.not_mem_nil

/-- An idle read accounts for its bytes. -/
theorem IdleRead.accounts {conn : HttpConnection π} {data : Str} {read : Read π}
    (step : IdleRead parser handles conn data read) :
    ∃ dropped rest,
      data = read.consumed ++ dropped ++ rest ∧
      (dropped = [] ∨ dropped = [0] ∧ read.Completed) ∧
      (read.Completed → read.after.buffer = rest) ∧
      (read.again = true → read.after.buffer = rest) := by
  have whole := List.suffix_iff_eq_append.mp (parser.rest_suffix conn.parser data)
  cases step with
  | waits result =>
      have rest := parser.rest_of_none conn.parser data result
      refine ⟨[], [], ?_, Or.inl rfl, fun _ => rfl, fun _ => rfl⟩
      rw [List.append_nil, Read.consumed, rest, List.length_nil, Nat.sub_zero,
        List.take_length, List.append_nil]
  | @completes dropped kept result rest nul =>
      refine ⟨dropped, kept, ?_, ?_, fun _ => rfl, fun _ => rfl⟩
      · rw [List.append_assoc, ← rest]
        exact whole.symm
      · exact nul.imp_right fun zero => ⟨zero, result⟩
  | fails result stops =>
      refine ⟨[], (parser.parse conn.parser data).rest, ?_, Or.inl rfl, ?_, ?_⟩
      · rw [List.append_nil]
        exact whole.symm
      · intro completed
        exact absurd (Option.some.inj (result.symm.trans completed)) stops
      · intro again
        exact absurd again Bool.false_ne_true

/-- Where no read starts with bytes in `m_buffer` the accounts hold. -/
theorem accounts_of_idle {conn : HttpConnection π} {reads : List Str}
    (legal : ∀ data ∈ reads, IsChunk data)
    (idle : ∀ read ∈ run parser handles conn reads, read.before.buffer = []) :
    Accounts [] (run parser handles conn reads) := by
  induction reads generalizing conn with
  | nil => trivial
  | cons data reads ih =>
      rw [run] at idle ⊢
      have empty : conn.buffer = [] := by
        have first := idle _ List.mem_cons_self
        rwa [onRead_before] at first
      obtain ⟨dropped, rest, account, nul, completed, kept⟩ :=
        (onRead_idle parser handles empty
          (legal data List.mem_cons_self)).accounts
      refine ⟨dropped, rest, ?_, nul, fun done => ⟨completed done, ?_⟩, ?_⟩
      · rw [onRead_data, List.nil_append]
        exact account
      · intro next member
        split at member
        · next again =>
          obtain ⟨second, rfl⟩ := head_run member
          have nothing := idle _ (List.mem_cons_of_mem _ (by
            rw [if_pos again]
            exact List.mem_of_mem_head? member))
          rw [onRead_before] at nothing
          rw [nothing, List.nil_append, onRead_text, buffered_idle nothing, onRead_data]
        · simp at member
      · split
        · next again =>
          rw [if_pos again] at idle
          cases reads with
          | nil => trivial
          | cons second reads =>
              have nothing : rest = [] := by
                rw [← kept again]
                have next := idle _ (List.mem_cons_of_mem _ (by
                  rw [run]
                  exact List.mem_cons_self))
                rwa [onRead_before] at next
              rw [nothing]
              exact ih (fun other member => legal other (List.mem_cons_of_mem _ member))
                fun read member => idle read (List.mem_cons_of_mem _ member)
        · trivial

variable (parser : RequestParser π) (handles : Str → Bool) in
/-- Whatever the parser, received bytes are accounted for exactly if no read starts
with bytes in `m_buffer`. -/
theorem accounts_iff {reads : List Str} (legal : ∀ data ∈ reads, IsChunk data) :
    Accounts [] (runFresh parser handles reads) ↔
      ∀ read ∈ runFresh parser handles reads, read.before.buffer = [] :=
  ⟨idle_of_accounts rfl legal, accounts_of_idle legal⟩

/-- A request whose last byte comes in a second read leaves nothing behind. -/
theorem accounts_split :
    Accounts [] (runFresh requestParser (fun _ => true) [getRoot.bytes.take 17, [10]]) :=
  (accounts_iff requestParser (fun _ => true) (by decide)).mpr (by decide +kernel)

/-- The first byte of a second request is kept, but the next read does not pass it
on together with what it has read. -/
theorem accounts_pipelined :
    (∀ data ∈ [getRoot.bytes ++ [71], [69]], IsChunk data) ∧
    ¬Accounts [] (runFresh requestParser (fun _ => true)
      [getRoot.bytes ++ [71], [69]]) := by
  refine ⟨by decide, fun accounts => ?_⟩
  have idle := idle_of_accounts rfl (by decide) accounts
  exact absurd idle (by decide +kernel)

end Nicenet.Http
