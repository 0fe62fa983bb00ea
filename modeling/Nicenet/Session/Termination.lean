import Nicenet.Session.Settled

/-!
# Termination of `parseMsg`

The size that a frame announces is what a call consumes before it calls itself.
A call on a session without a message therefore stays on the same bytes when a
frame announces no bytes at all, and every other call uses up its chunk.
-/

namespace Nicenet

open Library

variable (transport : Transport) (heap : Heap)

/-- Each recursive call of a call is on a strictly shorter rest of the chunk. -/
def Descends (message : Message) (data : List UInt8) : Prop :=
  ∀ fuel, ∀ call ∈ (transport.parseMsg heap fuel message data).calls,
    call.2 < call.1

/-- A call returns after at most `len` recursive calls. -/
def Returns (message : Message) (data : List UInt8) : Prop :=
  ∃ accepted, (transport.parseMsg heap (data.length + 1) message data).exit =
    .ret accepted

theorem Reachable.settled {message : Message}
    (reachable : Reachable transport heap message) :
    ∃ received, Settled message received := by
  induction reachable with
  | init => exact ⟨[], Settled.init⟩
  | @call before chunk accepted _ legal exit ih =>
      obtain ⟨received, settled⟩ := ih
      rw [Transport.parseMsg_eq] at exit ⊢
      cases accepted with
      | true =>
          obtain ⟨taken, pending, strips, waits, holds⟩ :=
            settled.accepted heap legal exit
          exact ⟨_, .stream strips waits holds⟩
      | false => exact ⟨[], settled.rejected heap legal exit⟩

section Descent

variable {message : Message} {pending received data : List UInt8}

/-- As long as every recursive call gets less, a call that is still recursing
has used up a byte for each of its activations. -/
theorem length_of_recursing (fuel : Nat) {rest : List UInt8}
    (exit : (parseMsg heap fuel message data).exit = .recurse rest)
    (descends : ∀ call ∈ (parseMsg heap fuel message data).calls,
      call.2 < call.1) : rest.length + fuel ≤ data.length := by
  induction fuel generalizing message data with
  | zero =>
      simp only [parseMsg, Activation.recurse_exit, Exit.recurse.injEq] at exit
      subst exit
      exact Nat.le_refl _
  | succ fuel ih =>
      generalize body : (parseMsgBody heap message data).exit = result at exit
      cases result with
      | ret accepted =>
          rw [parseMsg_of_ret heap fuel body, body] at exit
          exact Exit.noConfusion exit
      | recurse next =>
          rw [parseMsg_of_recurse heap fuel body] at exit descends
          have first := descends (data.length, next.length) (by
            simp [Activation.calling])
          have later := ih exit fun call member => descends call (by
            simp [Activation.calling, member])
          simp only at first
          omega
      | fault fault =>
          rw [parseMsg_of_fault heap fuel body, body] at exit
          exact Exit.noConfusion exit

/-- Without a frame of size zero ahead the recursive calls descend. -/
theorem descends_fresh (fuel : Nat) (null : message.buff = .null)
    (chunk : IsChunk data) (progress : ¬frames.Stalls data) :
    ∀ call ∈ (parseMsg heap fuel message data).calls, call.2 < call.1 := by
  induction fuel generalizing message data with
  | zero =>
      intro call member
      exact absurd member List.not_mem_nil
  | succ fuel ih =>
      have done (same : parseMsg heap (fuel + 1) message data =
          parseMsgBody heap message data) :
          ∀ call ∈ (parseMsg heap (fuel + 1) message data).calls,
            call.2 < call.1 := by
        rw [same, parseMsgBody_calls]
        exact fun call member => absurd member List.not_mem_nil
      have step := parseMsgBody_step heap (.null null) chunk
      cases step with
      | wait _ _ exit => exact done (parseMsg_of_ret heap fuel exit)
      | reject _ _ exit => exact done (parseMsg_of_ret heap fuel exit)
      | frame _ ready _ after exit =>
          rw [frames.stalls_iff_of_ready ready, not_or] at progress
          by_cases more : frames.size data < data.length
          · rw [if_pos more] at exit
            rw [parseMsg_of_recurse heap fuel exit]
            intro call member
            simp only [Activation.calling, parseMsgBody_calls, List.nil_append,
              List.mem_cons] at member
            rcases member with rfl | member
            · simp only [List.length_drop]
              have := progress.1
              omega
            · exact ih after (chunk.drop more) progress.2 call member
          · rw [if_neg more] at exit
            exact done (parseMsg_of_ret heap fuel exit)
      | crash nonempty => exact absurd rfl nonempty
      | overrun nonempty => exact absurd rfl nonempty

theorem Descends.iff_fresh (null : message.buff = .null) (chunk : IsChunk data) :
    Descends transport heap message data ↔ ¬frames.Stalls data := by
  rw [Descends, Transport.parseMsg_eq]
  constructor
  · intro descends stalls
    obtain ⟨rest, exit⟩ :=
      parseMsg_stalls heap (data.length + 1) null chunk stalls
    have := length_of_recursing heap (data.length + 1) exit (descends _)
    omega
  · intro progress fuel
    exact descends_fresh heap fuel null chunk progress

/-- A call with one activation makes no recursive calls. -/
theorem Descends.ofBody
    (once : ∀ fuel, parseMsg heap (fuel + 1) message data =
      parseMsgBody heap message data) : Descends transport heap message data := by
  rw [Descends, Transport.parseMsg_eq]
  rintro (_ | fuel) call member
  · exact absurd member List.not_mem_nil
  · rw [once, parseMsgBody_calls] at member
    exact absurd member List.not_mem_nil

/-- A call on a session without a message returns unless it stalls. -/
theorem returns_fresh (null : message.buff = .null) (chunk : IsChunk data)
    (progress : ¬frames.Stalls data) : Returns transport heap message data := by
  rw [Returns, Transport.parseMsg_eq]
  obtain ⟨_, _, _, _, ⟨_, exit, _⟩ | ⟨_, exit, _⟩⟩ :=
    parseMsg_fresh heap (data.length + 1) null chunk progress (Nat.lt_succ_self _)
  · exact ⟨true, exit⟩
  · exact ⟨false, exit⟩

/-- A call on pending bytes returns unless it completes their frame. -/
theorem returns_pending_iff (holds : Holds message pending) (nonempty : pending ≠ [])
    (chunk : IsChunk data) :
    Returns transport heap message data ↔ ¬Completes message data := by
  rw [Returns, Transport.parseMsg_eq, completes_iff holds,
    parseMsg_pending heap holds chunk nonempty]
  have step := parseMsgBody_step heap holds chunk
  cases step with
  | wait waits _ exit =>
      exact iff_of_true ⟨true, exit⟩ fun whole => whole.2.not_waits waits
  | reject rejects _ exit =>
      exact iff_of_true ⟨false, exit⟩ fun whole => whole.2.not_rejects rejects
  | frame fresh => exact absurd fresh nonempty
  | crash nonempty ready _ _ exit =>
      refine iff_of_false ?_ fun whole => whole ⟨nonempty, ready⟩
      rw [exit]
      exact fun ⟨_, returned⟩ => Exit.noConfusion returned
  | overrun nonempty _ ready _ _ exit =>
      refine iff_of_false ?_ fun whole => whole ⟨nonempty, ready⟩
      rw [exit]
      exact fun ⟨_, returned⟩ => Exit.noConfusion returned

end Descent

/-- A call descends unless it starts without a message and meets a frame of size
zero; and it returns unless, besides, it completes a frame begun before. -/
theorem parseMsg_terminates_iff {message : Message} {data : List UInt8}
    (reachable : Reachable transport heap message) (chunk : IsChunk data) :
    (Descends transport heap message data ↔
      ¬(message.buff = .null ∧ frames.Stalls data)) ∧
    (Descends transport heap message data ∧ Returns transport heap message data ↔
      ¬(message.buff = .null ∧ frames.Stalls data) ∧
        ¬Completes message data) := by
  obtain ⟨received, settled⟩ := reachable.settled
  cases settled with
  | @stream taken pending strips waits holds =>
      by_cases empty : pending = []
      · subst empty
        have null := holds.buff_null
        have descends := Descends.iff_fresh transport heap null chunk
        have partway : ¬Completes message data := by
          rw [completes_iff holds]
          exact fun completes => completes.1 rfl
        simp only [descends, null, true_and, partway, not_false_eq_true, and_true,
          and_iff_left_iff_imp]
        exact returns_fresh transport heap null chunk
      · have once := parseMsg_pending heap holds chunk empty
        have descends := Descends.ofBody transport heap once
        have moving : ¬(message.buff = .null ∧ frames.Stalls data) :=
          fun stuck => holds.buff_ne_null empty stuck.1
        refine ⟨iff_of_true descends moving, ?_⟩
        rw [and_iff_right descends, and_iff_right moving]
        exact returns_pending_iff transport heap holds empty chunk
  | @oversize memory buff oversize =>
      have body := parseMsgBody_oversize heap buff oversize chunk
      have once : ∀ fuel, parseMsg heap (fuel + 1) message data =
          parseMsgBody heap message data := fun fuel =>
        parseMsg_of_ret heap fuel (by rw [body, Activation.finish_exit])
      have descends := Descends.ofBody transport heap once
      have moving : ¬(message.buff = .null ∧ frames.Stalls data) := by
        rintro ⟨null, _⟩
        rw [buff] at null
        exact Buff.noConfusion null
      have partway : ¬Completes message data := by
        simp only [Completes, buff]
        omega
      refine ⟨iff_of_true descends moving, ?_⟩
      refine iff_of_true ⟨descends, false, ?_⟩ ⟨moving, partway⟩
      rw [Transport.parseMsg_eq, once, body, Activation.finish_exit]

/-- A whole frame in one chunk is parsed in a single activation. -/
theorem parseMsg_terminates_whole :
    Descends .tcp (Heap.filled 0) Message.empty [6, 0, 0, 0, 1, 0] ∧
      Returns .tcp (Heap.filled 0) Message.empty [6, 0, 0, 0, 1, 0] :=
  (parseMsg_terminates_iff .tcp (Heap.filled 0) .init (by
    simp [IsChunk, networkBufSize])).2.mpr
      ⟨fun stuck => absurd stuck.2
        (show ¬frames.Stalls [[6, 0, 0, 0, 1, 0]].flatten from
          frames.not_stalls_flatten (by decide)), id⟩

/-- On four bytes of zero a session without a message calls itself with all of
them again. -/
theorem parseMsg_terminates_zero_size :
    Reachable .tcp (Heap.filled 0) Message.empty ∧ IsChunk [0, 0, 0, 0] ∧
      ¬Descends .tcp (Heap.filled 0) Message.empty [0, 0, 0, 0] ∧
      ¬Returns .tcp (Heap.filled 0) Message.empty [0, 0, 0, 0] := by
  refine ⟨.init, by simp [IsChunk, networkBufSize], ?_, ?_⟩
  · intro descends
    exact absurd (descends 1 (4, 4) (by decide)) (by decide)
  · rintro ⟨accepted, exit⟩
    have recursing : (parseMsg (Heap.filled 0) 5 Message.empty [0, 0, 0, 0]).exit =
        .recurse [0, 0, 0, 0] := by decide
    exact Exit.noConfusion (recursing.symm.trans exit)

end Nicenet
