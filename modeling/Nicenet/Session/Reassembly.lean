import Nicenet.Session.Settled

/-!
# Reassembly of the frames sent

The frames sent are one stream, and the network cuts it anywhere. A frame that
lies in one chunk is posted; a frame with bytes in two chunks ends the run, since
the message that should take it over is a null pointer. So a run posts exactly
the frames sent if no chunk boundary lies inside a frame.
-/

namespace Nicenet

open Library

variable (transport : Transport) (heap : Heap)

/-- `m_PreMsg` behind a run. -/
def leftover : Message → List Feed → Message
  | before, [] => before
  | _, feed :: run => leftover feed.call.preMsg run

/-- A run over the chunks posts exactly the frames sent: every call returns
true without a null pointer used, the posted messages own the bytes of the
frames one after the other, and nothing is left in `m_PreMsg`. -/
structure Reassembles (sent chunks : List (List UInt8)) : Prop where
  returns : ∀ feed ∈ feeds transport heap Message.empty [] chunks,
    feed.call.exit = .ret true
  sound : ∀ feed ∈ feeds transport heap Message.empty [] chunks,
    feed.call.exit ≠ .fault .nullDeref
  posted : (feeds transport heap Message.empty [] chunks).flatMap
    (fun feed => feed.call.posted.map Message.buff) = sent.map Buff.heap
  ends : (leftover Message.empty
    (feeds transport heap Message.empty [] chunks)).buff = .null

theorem IsFrame.whole {frame : List UInt8} (framed : IsFrame frame) :
    frames.header ≤ frame.length ∧ frames.size frame = frame.length ∧
      frame.length ≤ frames.limit := by
  obtain ⟨long, limit, announced⟩ := framed
  exact ⟨Nat.le_trans (by decide) long, announced, limit⟩

theorem IsFrame.dispatched {frame : List UInt8} (framed : IsFrame frame) :
    (dispatched frame).buff = .heap frame := by
  rw [Nicenet.dispatched, if_neg (Nat.not_lt.mpr framed.1)]

section Cutting

variable {before : Message} {received pending : List UInt8}
variable {chunks sent : List (List UInt8)}

theorem feeds_of_accepted {chunk : List UInt8}
    (exit : (parseMsg heap (chunk.length + 1) before chunk).exit = .ret true) :
    feeds transport heap before received (chunk :: chunks) =
      ⟨before, received, chunk, parseMsg heap (chunk.length + 1) before chunk⟩ ::
        feeds transport heap
          (parseMsg heap (chunk.length + 1) before chunk).preMsg
          (received ++ chunk) chunks := by
  simp only [feeds, Transport.parseMsg_eq, exit]

/-- All calls of a run return true if the first does, and then those behind it. -/
theorem feeds_return_cons_iff {chunk : List UInt8} :
    (∀ feed ∈ feeds transport heap before received (chunk :: chunks),
      feed.call.exit = .ret true) ↔
      (parseMsg heap (chunk.length + 1) before chunk).exit = .ret true ∧
        ∀ feed ∈ feeds transport heap
          (parseMsg heap (chunk.length + 1) before chunk).preMsg (received ++ chunk) chunks,
          feed.call.exit = .ret true := by
  constructor
  · intro returns
    have exit := returns ⟨before, received, chunk,
      parseMsg heap (chunk.length + 1) before chunk⟩ (by
        simp [feeds])
    simp only at exit
    rw [feeds_of_accepted transport heap exit] at returns
    exact ⟨exit, fun feed member => returns feed (List.mem_cons_of_mem _ member)⟩
  · rintro ⟨exit, returns⟩ feed member
    rw [feeds_of_accepted transport heap exit] at member
    rcases List.mem_cons.mp member with rfl | member
    · exact exit
    · exact returns feed member

theorem leftover_cons {chunk : List UInt8}
    (exit : (parseMsg heap (chunk.length + 1) before chunk).exit = .ret true) :
    leftover before (feeds transport heap before received (chunk :: chunks)) =
      leftover (parseMsg heap (chunk.length + 1) before chunk).preMsg
        (feeds transport heap (parseMsg heap (chunk.length + 1) before chunk).preMsg
          (received ++ chunk) chunks) := by
  rw [feeds_of_accepted transport heap exit, leftover]

/-- A session that holds bytes never gets rid of them while its calls return
true. -/
theorem leftover_of_pending (holds : Holds before pending) (nonempty : pending ≠ [])
    (legal : ∀ chunk ∈ chunks, IsChunk chunk)
    (returns : ∀ feed ∈ feeds transport heap before received chunks,
      feed.call.exit = .ret true) :
    (leftover before (feeds transport heap before received chunks)).buff ≠
      .null := by
  induction chunks generalizing before received pending with
  | nil => exact holds.buff_ne_null nonempty
  | cons chunk chunks ih =>
      obtain ⟨exit, returns⟩ := (feeds_return_cons_iff transport heap).mp returns
      rw [leftover_cons transport heap exit]
      have chunkLegal := legal chunk List.mem_cons_self
      have once := parseMsg_pending heap holds chunkLegal nonempty chunk.length
      have step := parseMsgBody_step heap holds chunkLegal
      rw [once] at exit
      cases step with
      | wait _ _ _ later =>
          rw [← once] at later
          exact ih later (List.append_ne_nil_of_left_ne_nil nonempty chunk)
            (fun other inside => legal other (List.mem_cons_of_mem _ inside)) returns
      | reject _ _ other => rw [other] at exit; simp at exit
      | frame fresh => exact absurd fresh nonempty
      | crash _ _ _ _ other => rw [other] at exit; simp at exit
      | overrun _ _ _ _ _ other => rw [other] at exit; simp at exit

/-- A call on a session without a message that returns true has taken frames off the
chunk and holds the rest. -/
theorem strips_of_returns {chunk : List UInt8} (null : before.buff = .null)
    (legal : IsChunk chunk)
    (exit : (parseMsg heap (chunk.length + 1) before chunk).exit = .ret true) :
    ∃ taken rest, frames.Strips chunk taken rest ∧
      Holds (parseMsg heap (chunk.length + 1) before chunk).preMsg rest := by
  have moving : ¬frames.Stalls chunk := by
    intro stalls
    obtain ⟨rest, recursing⟩ :=
      parseMsg_stalls heap (chunk.length + 1) null legal stalls
    rw [recursing] at exit
    exact Exit.noConfusion exit
  obtain ⟨taken, rest, strips, _, ⟨_, _, holds⟩ | ⟨_, other, _⟩⟩ :=
    parseMsg_fresh heap (chunk.length + 1) null legal moving (Nat.lt_succ_self _)
  · exact ⟨taken, rest, strips, holds⟩
  · rw [other] at exit
    simp at exit

/-- If every call returns true and nothing is left, no frame was split. -/
theorem groups_of_returns (null : before.buff = .null)
    (framed : ∀ frame ∈ sent, IsFrame frame)
    (legal : ∀ chunk ∈ chunks, IsChunk chunk)
    (cut : chunks.flatten = sent.flatten)
    (returns : ∀ feed ∈ feeds transport heap before received chunks,
      feed.call.exit = .ret true)
    (ends : (leftover before
      (feeds transport heap before received chunks)).buff = .null) :
    ∃ groups : List (List (List UInt8)),
      groups.flatten = sent ∧ groups.map List.flatten = chunks := by
  induction chunks generalizing before received sent with
  | nil =>
      refine ⟨[], ?_, rfl⟩
      cases sent with
      | nil => rfl
      | cons frame sent =>
          have long := (framed frame List.mem_cons_self).1
          have length := congrArg List.length cut
          simp only [List.flatten_nil, List.flatten_cons, List.length_nil,
            List.length_append] at length
          omega
  | cons chunk chunks ih =>
      have restLegal : ∀ chunk ∈ chunks, IsChunk chunk :=
        fun other inside => legal other (List.mem_cons_of_mem _ inside)
      obtain ⟨exit, returns⟩ := (feeds_return_cons_iff transport heap).mp returns
      rw [leftover_cons transport heap exit] at ends
      obtain ⟨taken, rest, strips, holds⟩ :=
        strips_of_returns heap null (legal chunk List.mem_cons_self) exit
      by_cases empty : rest = []
      · subst empty
        have sizes : ∀ frame ∈ sent, frames.header ≤ frame.length ∧
            frames.size frame = frame.length := fun frame member =>
          ⟨(framed frame member).whole.1, (framed frame member).whole.2.1⟩
        obtain ⟨others, sentEq, restEq⟩ := strips.aligned sizes (by
          rw [← cut, List.flatten_cons])
        obtain ⟨groups, flat, chunked⟩ := ih holds.buff_null
          (fun frame member => framed frame (by
            rw [sentEq]
            exact List.mem_append_right _ member))
          restLegal restEq returns ends
        refine ⟨taken :: groups, ?_, ?_⟩
        · rw [List.flatten_cons, flat, sentEq]
        · have whole := strips.flatten
          rw [List.append_nil] at whole
          rw [List.map_cons, chunked, whole]
      · exact absurd ends
          (leftover_of_pending transport heap holds empty restLegal returns)

/-- A chunk of whole frames is posted frame by frame, and nothing is left of it. -/
theorem parseMsg_group {group : List (List UInt8)} (null : before.buff = .null)
    (framed : ∀ frame ∈ group, IsFrame frame) (legal : IsChunk group.flatten) :
    (parseMsg heap (group.flatten.length + 1) before group.flatten).exit = .ret true ∧
      (parseMsg heap (group.flatten.length + 1) before group.flatten).posted =
        group.map dispatched ∧
      (parseMsg heap (group.flatten.length + 1) before group.flatten).preMsg.buff =
        .null := by
  have whole := fun frame member => (framed frame member).whole
  obtain ⟨taken, rest, strips, posted, result⟩ :=
    parseMsg_fresh heap (group.flatten.length + 1) null legal
      (frames.not_stalls_flatten whole) (Nat.lt_succ_self _)
  have direct := Framing.Strips.ofFrames whole []
  rw [List.append_nil] at direct
  have stopped : ¬frames.Ready rest := by
    rcases result with ⟨waits, _⟩ | ⟨rejects, _⟩
    · exact fun ready => ready.not_waits waits
    · exact fun ready => ready.not_rejects rejects
  obtain ⟨takenEq, restEq⟩ := strips.unique direct stopped
    (fun ready => ready.not_waits waits_nil)
  subst takenEq restEq
  rcases result with ⟨_, exit, holds⟩ | ⟨rejects, _⟩
  · exact ⟨exit, posted, holds.buff_null⟩
  · exact absurd rejects waits_nil.not_rejects

/-- Chunks of whole frames are posted frame by frame. -/
theorem reassembles_groups {groups : List (List (List UInt8))}
    (null : before.buff = .null)
    (framed : ∀ frame ∈ groups.flatten, IsFrame frame)
    (legal : ∀ chunk ∈ groups.map List.flatten, IsChunk chunk) :
    (∀ feed ∈ feeds transport heap before received (groups.map List.flatten),
      feed.call.exit = .ret true) ∧
    (feeds transport heap before received (groups.map List.flatten)).flatMap
      (fun feed => feed.call.posted.map Message.buff) =
        groups.flatten.map Buff.heap ∧
    (leftover before (feeds transport heap before received
      (groups.map List.flatten))).buff = .null := by
  induction groups generalizing before received with
  | nil =>
      refine ⟨?_, rfl, null⟩
      intro feed member
      exact absurd member List.not_mem_nil
  | cons group groups ih =>
      have groupFramed : ∀ frame ∈ group, IsFrame frame :=
        fun frame member => framed frame (by simp [member])
      obtain ⟨exit, posted, empty⟩ :=
        parseMsg_group heap null groupFramed (legal group.flatten (by simp))
      obtain ⟨returns, later, ends⟩ := ih empty
        (fun frame member => framed frame (by
          rw [List.flatten_cons]
          exact List.mem_append_right _ member))
        (fun chunk member => legal chunk (List.mem_cons_of_mem _ member))
      have buffers : (group.map dispatched).map Message.buff = group.map Buff.heap := by
        rw [List.map_map]
        apply List.map_congr_left
        intro frame member
        exact (groupFramed frame member).dispatched
      rw [List.map_cons]
      refine ⟨(feeds_return_cons_iff transport heap).mpr ⟨exit, returns⟩, ?_, ?_⟩
      · rw [feeds_of_accepted transport heap exit, List.flatMap_cons, later, posted,
          buffers, List.flatten_cons, List.map_append]
      · rw [leftover_cons transport heap exit]
        exact ends

end Cutting

/-- The frames sent are the messages posted exactly when every chunk is made of
whole frames. -/
theorem reassembles_iff (sent chunks : List (List UInt8))
    (framed : ∀ frame ∈ sent, IsFrame frame)
    (legal : ∀ chunk ∈ chunks, IsChunk chunk)
    (cut : chunks.flatten = sent.flatten) :
    Reassembles transport heap sent chunks ↔
      ∃ groups : List (List (List UInt8)),
        groups.flatten = sent ∧ groups.map List.flatten = chunks := by
  constructor
  · intro reassembles
    exact groups_of_returns transport heap rfl framed legal cut reassembles.returns
      reassembles.ends
  · rintro ⟨groups, rfl, rfl⟩
    obtain ⟨returns, posted, ends⟩ :=
      reassembles_groups transport heap
        (show Message.empty.buff = .null from rfl) framed legal
    refine ⟨returns, ?_, posted, ends⟩
    intro feed member
    rw [returns feed member]
    exact Exit.noConfusion

/-- Two frames in one chunk are both posted. -/
theorem reassembles_coalesced :
    Reassembles .tcp (Heap.filled 0) [[6, 0, 0, 0, 1, 0], [7, 0, 0, 0, 2, 0, 9]]
      [[6, 0, 0, 0, 1, 0, 7, 0, 0, 0, 2, 0, 9]] :=
  (reassembles_iff .tcp (Heap.filled 0) [[6, 0, 0, 0, 1, 0], [7, 0, 0, 0, 2, 0, 9]]
    [[6, 0, 0, 0, 1, 0, 7, 0, 0, 0, 2, 0, 9]] (by
      simp [IsFrame, msgSize]
      decide) (by simp [IsChunk, networkBufSize]) rfl).mpr
    ⟨[[[6, 0, 0, 0, 1, 0], [7, 0, 0, 0, 2, 0, 9]]], rfl, rfl⟩

/-- A frame whose last byte comes in a second chunk is not posted: the null
message that should take it over is used. -/
theorem reassembles_split :
    (∀ frame ∈ [[6, 0, 0, 0, 1, 0]], IsFrame frame) ∧
      (∀ chunk ∈ [[6, 0, 0, 0, 1], [0]], IsChunk chunk) ∧
      ¬Reassembles .tcp (Heap.filled 0) [[6, 0, 0, 0, 1, 0]]
        [[6, 0, 0, 0, 1], [0]] := by
  refine ⟨?_, ?_, ?_⟩
  · simp [IsFrame, msgSize]
    decide
  · simp [IsChunk, networkBufSize]
  · intro reassembles
    exact absurd reassembles.sound (by decide)

end Nicenet
