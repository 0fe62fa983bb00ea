import Nicenet.Send.Queue
import Nicenet.Serial.Size
import Nicenet.Session.Reassembly

/-!
# What is sent, and what is refused

No function on the way from `sendMessage` to the transport asks how long a message is.
`parseMsg` does: a frame that announces more than `MSG_SIZE` bytes is refused, in whatever
chunks it comes.
-/

namespace Nicenet

open Library

/-- A message that has no buffer, or one that holds the `getSize()` bytes it announces, its
header among them. -/
def Message.Whole (msg : Message) : Prop :=
  match msg.buff with
  | .null => True
  | .writePoint => False
  | .heap memory => 6 ≤ (readWord memory).toNat ∧ (readWord memory).toNat ≤ memory.length

/-- What the two overloads of `sendMessage` put on a transport. -/
inductive Emitted : List UInt8 → Prop where
  | message {msg : Message} : msg.Whole → Emitted msg.sized
  | serializable {α : Type} {heap : Heap} {ty : Ty α} {id : UInt16} {p : α} {msg msg_ : Message} :
      ty.toMsg heap id p msg = .ok msg_ → Emitted msg_.sized

theorem Message.Whole.sized {msg : Message} (whole : msg.Whole) :
    msg.sized = [] ∨ 6 ≤ msg.sized.length ∧
      (readWord msg.sized).toNat = msg.sized.length := by
  obtain ⟨buff, writePoint, readPoint⟩ := msg
  cases buff with
  | null => exact .inl rfl
  | writePoint => exact whole.elim
  | heap memory =>
      obtain ⟨header, inside⟩ := whole
      have length : (memory.take (readWord memory).toNat).length = (readWord memory).toNat := by
        rw [List.length_take, Nat.min_eq_left inside]
      refine .inr ⟨?_, ?_⟩
      · rw [Message.sized, Message.bytes, Message.getSize_heap, length]
        exact header
      · rw [Message.sized, Message.bytes, Message.getSize_heap, length,
          readWord_take (by omega)]

/-- `toMsg` builds whole messages, when it gets to their end. -/
theorem toMsg_whole {α : Type} {heap : Heap} {ty : Ty α} {id : UInt16} {p : α}
    {msg msg_ : Message} (built : ty.toMsg heap id p msg = .ok msg_) : msg_.Whole := by
  by_cases room : 6 + ty.written p ≤ ty.bufferSize p
  · rw [toMsg_ok heap ty id p msg room] at built
    cases built
    have header : 6 ≤ ty.bufferSize p := by omega
    have small : ty.bufferSize p < 2 ^ 32 := UInt32.toNat_lt _
    have length := length_headerMemory heap id header
    have inside : 6 + (ty.insert p).flatten.length ≤
        (headerMemory heap (ty.bufferSize p) id).length := by
      rw [length]
      exact room
    have word : (readWord (Bytes.overwrite (headerMemory heap (ty.bufferSize p) id) 6
        (ty.insert p).flatten)).toNat = ty.bufferSize p := by
      rw [readWord_overwrite (by decide) inside, readWord_headerMemory heap id header,
        UInt32.toNat_ofNat_of_lt' small]
    refine ⟨?_, ?_⟩
    · rw [word]
      exact header
    · rw [Bytes.length_overwrite inside, length]
      exact Nat.le_of_eq word
  · rw [toMsg_outOfRange heap ty id p msg (by omega)] at built
    cases built

/-- Nothing, or a frame that starts with its own length. -/
theorem Emitted.framed {frame : List UInt8} (emitted : Emitted frame) :
    frame = [] ∨ 6 ≤ frame.length ∧ (readWord frame).toNat = frame.length := by
  cases emitted with
  | message whole => exact whole.sized
  | serializable built => exact (toMsg_whole built).sized

/-- An emitted message that fits the buffer is a frame. -/
theorem Emitted.isFrame {frame : List UInt8} (emitted : Emitted frame) (chunk : IsChunk frame) :
    IsFrame frame := by
  rcases emitted.framed with rfl | ⟨six, word⟩
  · cases chunk.1
  · exact ⟨six, Nat.le_trans chunk.2 (by decide), word⟩

/-! ## The limit of `parseMsg` -/

/-- Chunks are not empty. -/
theorem chunks_eq_nil {chunks : List (List UInt8)} (legal : ∀ chunk ∈ chunks, IsChunk chunk)
    (empty : chunks.flatten = []) : chunks = [] := by
  cases chunks with
  | nil => rfl
  | cons chunk chunks =>
      have filled := (legal chunk List.mem_cons_self).1
      rw [List.flatten_cons] at empty
      rw [(List.append_eq_nil_iff.mp empty).1] at filled
      cases filled

section Limit

variable (heap : Heap) {message : Message} {pending data behind frame : List UInt8}

/-- A call on a part of a frame returns false exactly if it has seen the length of a frame
above the limit. If it returns true, it holds all of the part, or the frame is complete. -/
theorem parseMsg_part (holds : Holds message pending) (chunk : IsChunk data)
    (split : frame = pending ++ data ++ behind)
    (word : (readWord frame).toNat = frame.length) (six : 6 ≤ frame.length) :
    ((parseMsg heap (data.length + 1) message data).exit = .ret false ↔
        4 ≤ (pending ++ data).length ∧ msgSize < frame.length) ∧
      ((parseMsg heap (data.length + 1) message data).exit = .ret true →
        behind = [] ∨
          Holds (parseMsg heap (data.length + 1) message data).preMsg (pending ++ data)) ∧
      ((parseMsg heap (data.length + 1) message data).exit = .ret true ∨
        4 ≤ (pending ++ data).length) := by
  have size : 4 ≤ (pending ++ data).length →
      (readWord (pending ++ data)).toNat = frame.length := by
    intro header
    rw [← word, split, readWord_append _ header]
  have length : frame.length = (pending ++ data).length + behind.length := by
    rw [split, List.length_append]
  have step := parseMsgBody_step heap holds chunk
  cases step with
  | wait waits posted exit after =>
      rw [parseMsg_of_ret heap data.length exit]
      refine ⟨iff_of_false ?_ ?_, fun _ => .inr after, .inl exit⟩
      · rw [exit]
        simp
      · rintro ⟨header, above⟩
        have limit : (readWord (pending ++ data)).toNat ≤ msgSize := by
          rcases waits with short | ⟨limit, -⟩
          · exact absurd header (Nat.not_le_of_lt short)
          · exact limit
        rw [size header] at limit
        omega
  | reject rejects posted exit =>
      rw [parseMsg_of_ret heap data.length exit]
      obtain ⟨header, above⟩ := rejects
      rw [frames_limit, frames_size, size header] at above
      refine ⟨iff_of_true exit ⟨header, above⟩, fun accepted => ?_, .inr header⟩
      rw [exit] at accepted
      simp at accepted
  | frame fresh ready posted after exit =>
      subst fresh
      obtain ⟨header, limit, inside⟩ := ready
      rw [frames_header] at header
      rw [List.nil_append] at size length
      rw [frames_limit, frames_size, size header] at limit
      rw [frames_size, size header] at inside
      have all : behind = [] := List.eq_nil_of_length_eq_zero (by omega)
      have exit : (parseMsgBody heap message data).exit = .ret true := by
        rw [exit, frames_size, size header, if_neg (by omega)]
      rw [parseMsg_of_ret heap data.length exit]
      refine ⟨iff_of_false ?_ (by omega), fun _ => .inl all, .inl exit⟩
      rw [exit]
      simp
  | crash nonempty ready _ posted exit =>
      rw [parseMsg_of_fault heap data.length exit]
      obtain ⟨header, limit, -⟩ := ready
      rw [frames_limit, frames_size, size header] at limit
      refine ⟨iff_of_false ?_ (by omega), fun accepted => ?_, .inr header⟩
      · rw [exit]
        simp
      · rw [exit] at accepted
        cases accepted
  | overrun nonempty few ready short posted exit =>
      obtain ⟨header, -, -⟩ := ready
      rw [frames_size, size header] at short
      omega

/-- A run over the chunks of a frame has a call that returns false exactly if the frame is
above the limit. -/
theorem feeds_refuse_iff (transport : Transport) {received : List UInt8}
    {chunks : List (List UInt8)} (holds : Holds message pending)
    (legal : ∀ chunk ∈ chunks, IsChunk chunk) (split : frame = pending ++ chunks.flatten)
    (word : (readWord frame).toNat = frame.length) (six : 6 ≤ frame.length)
    (unseen : pending.length < 4 ∨ frame.length ≤ msgSize) :
    (∃ feed ∈ feeds transport heap message received chunks, feed.call.exit = .ret false) ↔
      msgSize < frame.length := by
  induction chunks generalizing message pending received with
  | nil =>
      rw [List.flatten_nil, List.append_nil] at split
      refine iff_of_false (by simp [feeds]) ?_
      rw [split] at unseen six ⊢
      omega
  | cons data chunks ih =>
      rw [List.flatten_cons, ← List.append_assoc] at split
      have chunk := legal data List.mem_cons_self
      obtain ⟨refused, accepted, seen⟩ := parseMsg_part heap holds chunk split word six
      have length : frame.length = (pending ++ data).length + chunks.flatten.length := by
        rw [split, List.length_append]
      cases exit : (parseMsg heap (data.length + 1) message data).exit with
      | ret returned =>
          cases returned with
          | false =>
              refine iff_of_true ⟨⟨message, received, data, _⟩, ?_, exit⟩ (refused.mp exit).2
              simp only [feeds, Transport.parseMsg_eq]
              exact List.mem_cons_self
          | true =>
              have below : ¬(4 ≤ (pending ++ data).length ∧ msgSize < frame.length) := by
                rw [← refused, exit]
                simp
              rw [feeds_of_accepted transport heap exit, List.exists_mem_cons_iff, exit]
              simp only [Exit.ret.injEq, Bool.true_eq_false, false_or]
              rcases accepted exit with done | holds
              · cases chunks_eq_nil (fun chunk member =>
                  legal chunk (List.mem_cons_of_mem _ member)) done
                refine iff_of_false (by simp [feeds]) ?_
                rw [List.flatten_nil, List.length_nil] at length
                omega
              · exact ih holds (fun chunk member => legal chunk (List.mem_cons_of_mem _ member))
                  split (by omega)
      | recurse rest =>
          have header := seen.resolve_left (by simp [exit])
          refine iff_of_false (by simp [feeds, exit]) fun above => ?_
          have returned := refused.mpr ⟨header, above⟩
          rw [exit] at returned
          cases returned
      | fault fault =>
          have header := seen.resolve_left (by simp [exit])
          refine iff_of_false (by simp [feeds, exit]) fun above => ?_
          have returned := refused.mpr ⟨header, above⟩
          rw [exit] at returned
          cases returned

/-- In whatever chunks an emitted frame comes to a session between two frames, `parseMsg`
refuses it exactly if it is above the limit. -/
theorem Emitted.refused_iff (emitted : Emitted frame) (null : message.buff = .null)
    (transport : Transport) {received : List UInt8} {chunks : List (List UInt8)}
    (legal : ∀ chunk ∈ chunks, IsChunk chunk) (split : chunks.flatten = frame) :
    (∃ feed ∈ feeds transport heap message received chunks, feed.call.exit = .ret false) ↔
      msgSize < frame.length := by
  rcases emitted.framed with rfl | ⟨six, word⟩
  · cases chunks_eq_nil legal split
    exact iff_of_false (by simp [feeds]) (by simp)
  · exact feeds_refuse_iff heap transport (.null null) legal (by rw [split]; rfl) word six
      (.inl (by simp))

end Limit

end Nicenet
