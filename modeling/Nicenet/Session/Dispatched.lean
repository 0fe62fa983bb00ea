import Mathlib.Data.List.Forall2
import Nicenet.Session.Settled

/-!
# The messages that `parseMsg` posts

No branch of `parseMsg` asks whether a frame has room for the header of a message. The
constructor of `Message` keeps nothing of a shorter one, and where the size has come in
pieces the buffer is built by hand.
-/

namespace Nicenet

open Library

/-- The session comes, in this chunk or with the bytes that it holds, to the size of a frame
that is too short for a header. -/
def MeetsShort (message : Message) (data : List UInt8) : Prop :=
  ∃ pending taken rest, Holds message pending ∧ frames.Strips (pending ++ data) taken rest ∧
    (pending = [] ∨ taken = []) ∧ 4 ≤ rest.length ∧ frames.size rest < 6

/-- A message that is the frame it was posted for, with its header. -/
def Carries (message : Message) (frame : List UInt8) : Prop :=
  message.buff = .heap frame ∧ message.getSize.toNat = frames.size frame ∧
    6 ≤ frames.size frame ∧ frames.size frame ≤ msgSize

theorem Holds.unique {message : Message} {pending others : List UInt8}
    (holds : Holds message pending) (holds' : Holds message others) : pending = others := by
  cases holds with
  | null null =>
      cases holds' with
      | null => rfl
      | scratch aliased => cases null.symm.trans aliased
      | body buff => cases null.symm.trans buff
  | scratch aliased =>
      cases holds' with
      | null null => cases aliased.symm.trans null
      | scratch => rfl
      | body buff => cases aliased.symm.trans buff
  | body buff =>
      cases holds' with
      | null null => cases buff.symm.trans null
      | scratch aliased => cases buff.symm.trans aliased
      | body other =>
          cases buff.symm.trans other
          rfl

/-- The frames of a stream without short ones are posted as they are. -/
theorem carries_dispatched {data frame : List UInt8} {taken : List (List UInt8)}
    {rest : List UInt8} (strips : frames.Strips data taken rest)
    (long : ∀ before reached, frames.Strips data before reached → 4 ≤ reached.length →
      6 ≤ frames.size reached) (member : frame ∈ taken) :
    Carries (dispatched frame) frame := by
  obtain ⟨before, reached, front, ready, rfl⟩ := strips.of_mem member
  have size := long before reached front ready.1
  have length : (reached.take (frames.size reached)).length = frames.size reached := by
    rw [List.length_take, Nat.min_eq_left ready.2.2]
  have same : frames.size (reached.take (frames.size reached)) = frames.size reached := by
    rw [frames_size, readWord_take (Nat.le_trans (by decide) size), ← frames_size]
  rw [dispatched, if_neg (by omega)]
  exact ⟨rfl, rfl, by omega, by rw [same]; exact ready.2.1⟩

section Call

variable (heap : Heap) {message : Message} {received data : List UInt8}

/-- Every message that a call posts is a frame of the stream with its header, and a call
that sees the size of a shorter frame returns false. -/
def Dispatches (message : Message) (received data : List UInt8) : Prop :=
  ∀ done pending, frames.Strips received done pending → frames.Waits pending →
    (∃ taken rest, frames.Strips (pending ++ data) taken rest ∧
      List.Forall₂ Carries (parseMsg heap (data.length + 1) message data).posted taken) ∧
    ∀ taken rest, frames.Strips (pending ++ data) taken rest → pending = [] ∨ taken = [] →
      4 ≤ rest.length → frames.size rest < 6 →
        (parseMsg heap (data.length + 1) message data).exit = .ret false

theorem not_short {stream : List UInt8} (rejects : frames.Rejects stream) :
    ¬frames.size stream < 6 := fun short =>
  absurd (Nat.lt_trans rejects.2 short) (by decide)

theorem carried_buff {posted : List Message} {taken : List (List UInt8)}
    (carried : List.Forall₂ Carries posted taken) {message : Message}
    (member : message ∈ posted) : message.buff ≠ .null := by
  have both : List.Forall₂ (fun message frame => message.buff ≠ .null ∧
      Carries message frame) posted taken := by
    refine carried.imp fun message frame carries => ⟨?_, carries⟩
    rw [carries.1]
    exact Buff.noConfusion
  exact ((List.forall₂_and_left _ _).mp both).1 message member

/-- A short frame in the chunk is posted without a buffer, or waited for. -/
theorem meets_fresh {taken others : List (List UInt8)} {rest : List UInt8}
    (null : message.buff = .null) (chunk : IsChunk data)
    (ahead : frames.Strips data taken rest) (short : frames.size rest < 6)
    (carried : List.Forall₂ Carries
      (parseMsg heap (data.length + 1) message data).posted others)
    (exit : (parseMsg heap (data.length + 1) message data).exit = .ret false) : False := by
  by_cases stalls : frames.Stalls data
  · obtain ⟨_, recursing⟩ := parseMsg_stalls heap (data.length + 1) null chunk stalls
    cases exit.symm.trans recursing
  · obtain ⟨all, last, strips, posted, ⟨_, returned, _⟩ | ⟨rejects, _⟩⟩ :=
      parseMsg_fresh heap (data.length + 1) null chunk stalls (Nat.lt_succ_self _)
    · cases exit.symm.trans returned
    · obtain ⟨later, rfl, left⟩ :=
        strips.passes (fun ready => ready.not_rejects rejects) ahead
      cases left with
      | refl => exact not_short rejects short
      | @frame _ _ later _ _ =>
          -- The constructor of the message has kept nothing of it.
          have dropped : dispatched (rest.take (frames.size rest)) = Message.empty :=
            if_pos (Nat.lt_of_le_of_lt (List.length_take_le _ _) short)
          have member : Message.empty ∈
              (parseMsg heap (data.length + 1) message data).posted := by
            rw [posted, ← dropped]
            exact List.mem_map_of_mem (List.mem_append_right _ List.mem_cons_self)
          exact carried_buff carried member rfl

/-- Without a short frame in the chunk everything posted is a frame. -/
theorem posts_fresh (null : message.buff = .null) (chunk : IsChunk data)
    (long : ∀ before reached, frames.Strips data before reached → 4 ≤ reached.length →
      6 ≤ frames.size reached) :
    ∃ taken rest, frames.Strips data taken rest ∧
      List.Forall₂ Carries (parseMsg heap (data.length + 1) message data).posted taken := by
  have progress : ¬frames.Stalls data := by
    rintro ⟨before, reached, strips, header, zero⟩
    have := long before reached strips header
    omega
  obtain ⟨taken, rest, strips, posted, _⟩ :=
    parseMsg_fresh heap (data.length + 1) null chunk progress (Nat.lt_succ_self _)
  refine ⟨taken, rest, strips, ?_⟩
  rw [posted, List.forall₂_map_left_iff, List.forall₂_same]
  exact fun frame member => carries_dispatched strips long member

/-- With bytes of earlier calls nothing is posted: the end of the frame is a fault. -/
theorem pending_posted {pending : List UInt8} (holds : Holds message pending)
    (chunk : IsChunk data) (some : pending ≠ []) :
    (parseMsgBody heap message data).posted = [] := by
  have step := parseMsgBody_step heap holds chunk
  cases step with
  | wait _ posted => exact posted
  | reject _ posted => exact posted
  | frame fresh => exact absurd fresh some
  | crash _ _ _ posted => exact posted
  | overrun _ _ _ _ posted => exact posted

/-- A short frame that has been begun is not refused. -/
theorem pending_accepts {pending : List UInt8} (holds : Holds message pending)
    (chunk : IsChunk data) (some : pending ≠ [])
    (short : frames.size (pending ++ data) < 6) :
    (parseMsgBody heap message data).exit ≠ .ret false := by
  intro exit
  have step := parseMsgBody_step heap holds chunk
  cases step with
  | wait _ _ returned => cases exit.symm.trans returned
  | reject rejects => exact absurd short (not_short rejects)
  | frame fresh => exact absurd fresh some
  | crash _ _ _ _ faults => cases exit.symm.trans faults
  | overrun _ _ _ _ _ faults => cases exit.symm.trans faults

theorem Settled.dispatches_iff (settled : Settled message received) (chunk : IsChunk data) :
    Dispatches heap message received data ↔ ¬MeetsShort message data := by
  cases settled with
  | @stream done pending front waits holds =>
      constructor
      · rintro every ⟨_, taken, rest, held, ahead, next, header, short⟩
        cases holds.unique held
        obtain ⟨⟨others, more, _, carried⟩, refused⟩ := every done pending front waits
        have exit := refused taken rest ahead next header short
        by_cases empty : pending = []
        · subst empty
          rw [List.nil_append] at ahead
          exact meets_fresh heap holds.buff_null chunk ahead short carried exit
        · cases next.resolve_left empty
          cases ahead
          rw [parseMsg_pending heap holds chunk empty] at exit
          exact pending_accepts heap holds chunk empty short exit
      · intro long done' pending' front' waits'
        obtain ⟨_, rfl⟩ := front.unique front' (fun ready => ready.not_waits waits)
          fun ready => ready.not_waits waits'
        refine ⟨?_, fun taken rest ahead next header short =>
          absurd ⟨pending, taken, rest, holds, ahead, next, header, short⟩ long⟩
        by_cases empty : pending = []
        · subst empty
          exact posts_fresh heap holds.buff_null chunk fun before reached ahead header =>
            Nat.not_lt.mp fun short =>
              long ⟨[], before, reached, holds, ahead, .inl rfl, header, short⟩
        · refine ⟨[], _, .refl _, ?_⟩
          rw [parseMsg_pending heap holds chunk empty, pending_posted heap holds chunk empty]
          exact .nil
  | oversize buff oversize =>
      have once := parseMsgBody_oversize heap buff oversize chunk
      have call := parseMsg_of_ret heap data.length (by rw [once, Activation.finish_exit])
      rw [once] at call
      refine iff_of_true ?_ ?_
      · intro done pending _ _
        rw [call]
        exact ⟨⟨[], _, .refl _, .nil⟩, fun _ _ _ _ _ _ => rfl⟩
      · rintro ⟨pending, _, _, holds, _⟩
        cases holds with
        | null null => cases buff.symm.trans null
        | scratch aliased => cases buff.symm.trans aliased
        | body other whole _ _ limit => omega

end Call

/-! ## Every call of a run -/

section Run

variable (transport : Transport) (heap : Heap)

/-- Every message that a call of a run posts is a frame of the stream, with a buffer of the
size that the frame announces and with its header, and each call that sees a shorter size,
as a whole or in pieces, returns false. -/
def DispatchesFull (chunks : List (List UInt8)) : Prop :=
  ∀ feed ∈ feeds transport heap Message.empty [] chunks,
    ∀ done pending, frames.Strips feed.received done pending → frames.Waits pending →
      (∃ taken rest, frames.Strips (pending ++ feed.chunk) taken rest ∧
        List.Forall₂ Carries feed.call.posted taken) ∧
      ∀ taken rest, frames.Strips (pending ++ feed.chunk) taken rest →
        pending = [] ∨ taken = [] → 4 ≤ rest.length → frames.size rest < 6 →
          feed.call.exit = .ret false

/-- Only messages with a header are dispatched on every stream on which the parser does not
come to a shorter frame. -/
theorem dispatchesFull_iff (chunks : List (List UInt8))
    (legal : ∀ chunk ∈ chunks, IsChunk chunk) :
    DispatchesFull transport heap chunks ↔
      ∀ feed ∈ feeds transport heap Message.empty [] chunks,
        ¬MeetsShort feed.before feed.chunk := by
  refine forall₂_congr fun feed member => ?_
  obtain ⟨settled, chunk, call⟩ :=
    feeds_settled transport heap Settled.init legal feed member
  rw [call, ← settled.dispatches_iff heap chunk]
  exact Iff.rfl

theorem not_meetsShort_frame : ¬MeetsShort Message.empty [6, 0, 0, 0, 7, 0] := by
  rintro ⟨pending, taken, rest, holds, ahead, _, header, short⟩
  cases Holds.unique holds (.null rfl)
  cases ahead with
  | refl => exact absurd short (by decide)
  | frame _ behind =>
      have nothing : ([6, 0, 0, 0, 7, 0] : List UInt8).drop
          (frames.size [6, 0, 0, 0, 7, 0]) = [] := by decide
      have empty := behind.length_le
      simp only [List.nil_append, nothing, List.length_nil] at empty
      omega

/-- One frame in one chunk. -/
theorem dispatchesFull_frame :
    DispatchesFull .tcp (Heap.filled 0) [[6, 0, 0, 0, 7, 0]] := by
  refine (dispatchesFull_iff .tcp (Heap.filled 0) _ (by
    simp [IsChunk, networkBufSize])).mpr ?_
  intro feed member
  have only : feed.before = Message.empty ∧ feed.chunk = [6, 0, 0, 0, 7, 0] := by
    rw [feeds, List.mem_cons] at member
    rcases member with rfl | later
    · exact ⟨rfl, rfl⟩
    · split at later <;> exact absurd later List.not_mem_nil
  rw [only.1, only.2]
  exact not_meetsShort_frame

/-- A frame of five bytes in one chunk. -/
theorem not_dispatchesFull :
    ¬DispatchesFull .tcp (Heap.filled 0) [[5, 0, 0, 0, 7]] := by
  intro every
  obtain ⟨_, refused⟩ := every _ List.mem_cons_self [] [] (.refl []) waits_nil
  have exit := refused [] [5, 0, 0, 0, 7] (.refl _) (.inl rfl) (by decide) (by decide)
  exact absurd exit (by decide)

end Run

end Nicenet
