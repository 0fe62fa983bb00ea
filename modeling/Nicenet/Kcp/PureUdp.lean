import Nicenet.Kcp.Datagram

/-!
# Messages outside of KCP

`doSend` puts the type in front of a message and nothing else. The receivers expect a uid
and a length there and take the bytes of the message, or of the receive buffer behind it,
for both.
-/

namespace Nicenet.Kcp

open Library

variable {ι : Type}

/-- Whose `handleMessage` is called: that of the session registered for the uid on the
server, that of the only session on the client. -/
def Side.Finds (sessions : Uid → Option ι) (session : ι) : Side → Uid → Prop
  | .server, uid => sessions uid = some session
  | .client, _ => True

/-- What `doSend` sends reaches the session, and the message arrives as it was. -/
def Arrives (side : Side) (heap : Heap) (buffer : Buffer) (sessions : Uid → Option ι)
    (session : ι) (msg : Message) : Prop :=
  ∃ datagram uid recvMsg rearmed,
    KcpSession.doSend false msg true = some (.datagram datagram) ∧
    side.handler heap (buffer.receive datagram) (bytesRecvd datagram) =
      .ok ⟨.message uid recvMsg, rearmed⟩ ∧
    side.Finds sessions session uid ∧ recvMsg.sized = msg.sized

/-- The length that the receiver reads: the bytes of the message from the 64th on, or what
the buffer holds there. -/
def lengthRead (buffer : Buffer) (msg : Message) : Nat :=
  (buffer.receive (4 :: msg.sized)).len.toNat

section Layout

variable {memory : List UInt8}

theorem receive_cStr (buffer : Buffer) (short : memory.length + 65 ≤ networkBufSize) :
    ∃ rest, (buffer.receive (4 :: memory)).cStr = [4] ++ memory ++ rest := by
  have fits : (4 :: memory).length ≤ networkBufSize := by
    rw [List.length_cons]
    omega
  exact ⟨buffer.bytes.drop (4 :: memory).length ++ [0], by
    rw [Buffer.cStr, buffer.receive_bytes fits, List.append_assoc]
    rfl⟩

theorem receive_uid (buffer : Buffer) (short : memory.length + 65 ≤ networkBufSize)
    (long : publicKeySize ≤ memory.length) :
    (buffer.receive (4 :: memory)).uid = memory.take publicKeySize := by
  obtain ⟨rest, cStr⟩ := receive_cStr buffer short
  rw [Buffer.uid, cStr, Bytes.slice_append_left rest (by simp; omega), Bytes.slice]
  rfl

/-- A copy of at least its length starts with the message. -/
theorem copied_sized (buffer : Buffer) (short : memory.length + 65 ≤ networkBufSize)
    {size : Nat} (word : (readWord memory).toNat = memory.length) (six : 6 ≤ memory.length)
    (long : memory.length ≤ size) (inside : size ≤ networkBufSize) :
    (copied (Bytes.slice (buffer.receive (4 :: memory)).cStr 1 size)).sized = memory := by
  have length : (Bytes.slice (buffer.receive (4 :: memory)).cStr 1 size).length = size :=
    Bytes.length_slice (by rw [Buffer.length_cStr]; omega)
  obtain ⟨rest, cStr⟩ := receive_cStr buffer short
  have starts : Bytes.slice (buffer.receive (4 :: memory)).cStr 1 size =
      memory ++ rest.take (size - memory.length) := by
    rw [cStr, Bytes.slice, List.append_assoc]
    simp only [List.singleton_append, List.drop_one, List.tail_cons]
    rw [List.take_append, List.take_of_length_le long]
  rw [copied, if_neg (by omega), Message.sized, Message.getSize_heap, Message.bytes]
  simp only
  rw [starts, readWord_append _ (by omega), word, List.take_left]

theorem sized_word {msg : Message} (owned : msg.Owned) (six : 6 ≤ msg.sized.length) :
    (readWord msg.sized).toNat = msg.sized.length := by
  obtain ⟨buff, writePoint, readPoint⟩ := msg
  cases buff with
  | null => exact absurd six (by simp [Message.sized, Message.bytes])
  | writePoint => exact owned.elim
  | heap memory =>
      have size : (readWord memory).toNat = memory.length := owned.1
      simp only [Message.sized, Message.bytes, Message.getSize_heap, size, List.take_length]

theorem sized_copied_le (data : List UInt8) : (copied data).sized.length ≤ data.length := by
  rw [copied]
  split
  · exact Nat.zero_le _
  · rw [Message.sized, List.length_take]
    exact Nat.min_le_right _ _

end Layout

theorem doSend_pureUdp (msg : Message) :
    KcpSession.doSend false msg true = some (.datagram (4 :: msg.sized)) := rfl

/-- What the receiver makes of a datagram that `doSend` has sent. -/
theorem handler_receive (side : Side) (heap : Heap) (buffer : Buffer) {msg : Message}
    (short : msg.sized.length + 65 ≤ networkBufSize) :
    side.handler heap (buffer.receive (4 :: msg.sized)) (bytesRecvd (4 :: msg.sized)) =
      if publicKeySize < msg.sized.length then
        if lengthRead buffer msg < msg.sized.length - publicKeySize then
          .ok ⟨.nothing, false⟩
        else if networkBufSize < lengthRead buffer msg then .error .outOfRange
        else .ok ⟨.message (msg.sized.take publicKeySize)
          (copied (Bytes.slice (buffer.receive (4 :: msg.sized)).cStr 1
            (lengthRead buffer msg))), true⟩
      else .ok ⟨.nothing, true⟩ := by
  have type : (buffer.receive (4 :: msg.sized)).packetType = 4 := by
    obtain ⟨rest, cStr⟩ := receive_cStr buffer short
    rw [Buffer.packetType, cStr]
    rfl
  have size : bytesRecvd (4 :: msg.sized) = msg.sized.length + 1 := by
    rw [bytesRecvd, List.length_cons]
    omega
  rw [handler_message heap side type, receiveMessage_eq, size]
  by_cases long : publicKeySize < msg.sized.length
  · rw [if_pos (by omega), if_pos long, receive_uid buffer short (by omega)]
    rfl
  · rw [if_neg (by omega), if_neg long]

/-- A message makes the round trip exactly if it is longer than a uid, starts with one of
the session's when it goes to the server, and its bytes behind that hold a length from
its own up to the size of the buffer. -/
theorem arrives_iff (side : Side) (heap : Heap) (buffer : Buffer)
    (sessions : Uid → Option ι) (session : ι) {msg : Message} (owned : msg.Owned)
    (six : 6 ≤ msg.sized.length) (short : msg.sized.length ≤ networkBufSize - 65) :
    Arrives side heap buffer sessions session msg ↔
      publicKeySize < msg.sized.length ∧
        side.Finds sessions session (msg.sized.take publicKeySize) ∧
        msg.sized.length ≤ lengthRead buffer msg ∧
        lengthRead buffer msg ≤ networkBufSize := by
  have room : msg.sized.length + 65 ≤ networkBufSize := by
    rw [networkBufSize] at short ⊢
    omega
  have handler := handler_receive side heap buffer room
  constructor
  · rintro ⟨datagram, uid, recvMsg, rearmed, sent, handled, finds, same⟩
    cases (doSend_pureUdp msg).symm.trans sent
    rw [handler] at handled
    split at handled
    · next long =>
      split at handled
      · cases handled
      · split at handled
        · cases handled
        · next inside =>
          cases handled
          refine ⟨long, finds, ?_, by omega⟩
          have copied := sized_copied_le
            (Bytes.slice (buffer.receive (4 :: msg.sized)).cStr 1 (lengthRead buffer msg))
          rw [same, Bytes.length_slice (by rw [Buffer.length_cStr]; omega)] at copied
          exact copied
    · cases handled
  · rintro ⟨long, finds, most, inside⟩
    rw [if_pos long, if_neg (by omega), if_neg (by omega)] at handler
    refine ⟨_, _, _, _, doSend_pureUdp msg, handler, finds, ?_⟩
    exact copied_sized buffer room (sized_word owned six) six most inside

/-- A message of 68 bytes whose last four hold its length once more. -/
def repeated : Message :=
  ⟨.heap ([68, 0, 0, 0, 1, 0] ++ List.replicate 58 7 ++ [68, 0, 0, 0]), 6, 6⟩

/-- It reaches the session registered for its first bytes. -/
theorem arrives_repeated :
    Arrives .server (.filled 0) .fresh
      (fun uid => if uid = repeated.sized.take publicKeySize then some () else none) ()
      repeated :=
  (arrives_iff .server (.filled 0) .fresh _ () (show repeated.Owned by
      simp only [Message.Owned, repeated]
      decide +kernel) (by decide +kernel) (by decide +kernel)).mpr
    ⟨by decide +kernel, if_pos rfl, by decide +kernel, by decide +kernel⟩

/-- A message of six bytes does not. -/
theorem arrives_fails :
    ¬∀ (side : Side) (heap : Heap) (buffer : Buffer) (uid : Uid)
      (sessions : Uid → Option Unit) (session : Unit) (msg : Message),
      sessions uid = some session → msg.Owned → 6 ≤ msg.sized.length →
      msg.sized.length ≤ networkBufSize - 65 →
      Arrives side heap buffer sessions session msg := by
  intro every
  obtain ⟨datagram, uid, recvMsg, rearmed, sent, handled, _⟩ :=
    every .server (.filled 0) .fresh (List.replicate publicKeySize 7) (fun _ => some ()) ()
      ⟨.heap [6, 0, 0, 0, 1, 0], 6, 6⟩ rfl (by
        simp only [Message.Owned]
        decide +kernel) (by decide) (by decide)
  cases (doSend_pureUdp _).symm.trans sent
  rw [handler_receive _ _ _ (by decide), if_neg (by decide)] at handled
  cases handled

end Nicenet.Kcp
