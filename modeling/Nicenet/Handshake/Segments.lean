import Nicenet.Handshake.Freshness

/-!
# Handshakes in segments

Over TCP each message of the handshake is passed by one `write_some` and one `read_some`.
Either may transfer a part of what it is given, and neither side asks for the rest: a short
read ends the handshake, a short write is taken for a whole one.
-/

namespace Nicenet

open Library Openings

/-- The sizes of the two messages. -/
def challengeSize : Nat := publicKeySize + 8 + hashSize + signSize
def replySize : Nat := publicKeySize + signSize

/-- What the four calls transfer: the server's `async_write_some` and the client's
`read_some` of the challenge, the client's `write_some` and the server's `read_some` of the
reply. `behind` is what the client has sent behind its reply by then. -/
structure Transfers where
  written : Nat
  received : Nat
  replied : Nat
  read : Nat
  behind : List UInt8
  deriving DecidableEq, Repr

/-- Calls transfer one byte at least, and no more than is offered or available. -/
def Transfers.Legal (t : Transfers) : Prop :=
  1 ≤ t.written ∧ t.written ≤ challengeSize ∧ 1 ≤ t.received ∧ t.received ≤ t.written ∧
    1 ≤ t.replied ∧ t.replied ≤ replySize ∧ 1 ≤ t.read ∧ t.read ≤ replySize ∧
    t.read ≤ t.replied + t.behind.length

instance (t : Transfers) : Decidable t.Legal :=
  inferInstanceAs (Decidable (_ ∧ _ ∧ _ ∧ _ ∧ _ ∧ _ ∧ _ ∧ _ ∧ _))

/-- What a handshake leaves: `m_isInit` of the client, and the uid under which the server
has posted `addSession`. -/
structure Connected where
  m_isInit : Bool
  added : Option (List UInt8)
  deriving DecidableEq, Repr

section Segments

variable {crypto : Crypto} (server client : Server crypto) (session : Opened)

/-- The bytes that the server reads as the reply. -/
def Transfers.answer (t : Transfers) (packet : List UInt8) : List UInt8 :=
  (packet.take t.replied ++ t.behind).take t.read

/-- `TcpSessionC::init` and `TcpSessionS::init2`, between them the network. -/
def handshake (now : UInt64) (nonce : Nat) (t : Transfers) : Connected :=
  match TcpSessionC.init client now ((session.sent.take t.written).take t.received) nonce with
  | none => ⟨false, none⟩
  | some packet => ⟨true, TcpSessionS.init2 server session.hash (t.answer packet)⟩

/-- The client is connected, and the server adds the session. -/
def Connects (now : UInt64) (nonce : Nat) (t : Transfers) : Prop :=
  (handshake server client session now nonce t).m_isInit = true ∧
    (handshake server client session now nonce t).added.isSome = true

variable {server client session}

theorem init_short {now : UInt64} {nonce : Nat} {received : List UInt8}
    (short : received.length < challengeSize) :
    TcpSessionC.init client now received nonce = none := by
  simp only [TcpSessionC.init, reply]
  exact if_pos short

theorem init2_short {hash_ packet : List UInt8} (short : packet.length < replySize) :
    TcpSessionS.init2 server hash_ packet = none := by
  simp only [TcpSessionS.init2, accept]
  exact if_pos (Nat.lt_of_lt_of_le short (by decide))

/-- 128 bytes are enough for the server, if their signature is. -/
theorem init2_isSome {hash_ packet : List UInt8} (length : packet.length = replySize) :
    (TcpSessionS.init2 server hash_ packet).isSome = checkSign server packet hash_ := by
  have long : ¬packet.length < 0 + publicKeySize + signSize := by
    rw [length]
    decide
  simp only [TcpSessionS.init2, accept, Transport.tag, List.length_nil, if_neg long,
    List.take_zero, ne_eq, not_true_eq_false, if_false, List.drop_zero]
  cases checkSign server packet hash_ <;> rfl

/-- The handshake comes to its end exactly if the client's read returns the whole challenge
and the server's read 128 bytes, which are the whole reply or what else `checkSign` takes. -/
theorem connects_iff (genuine : crypto.Genuine) (other : client.publicKey ≠ server.publicKey)
    (wrote : Wrote .tcp server session) (now : UInt64) {nonce : Nat}
    {signature : List UInt8}
    (signed : crypto.sign client.privateKey session.hash nonce = some signature)
    {t : Transfers} (legal : t.Legal) :
    Connects server client session now nonce t ↔
      t.received = challengeSize ∧ t.read = replySize ∧
        (t.replied = replySize ∨
          checkSign server (t.answer (client.publicKey ++ signature)) session.hash = true) := by
  obtain ⟨_, written, _, received, _, replied, _, read, available⟩ := legal
  have size : session.sent.length = challengeSize := by
    obtain ⟨hash, _, written⟩ := wrote
    exact length_challenge genuine written
  have hashes : session.hash.length = hashSize := by
    rw [wrote.1, length_challengeHash genuine]
  have packetSize : (client.publicKey ++ signature).length = replySize := by
    rw [List.length_append, client.length_publicKey genuine, genuine.length_sign signed]
    rfl
  by_cases whole : t.received = challengeSize
  · have all : (session.sent.take t.written).take t.received = session.sent := by
      rw [List.take_take, List.take_of_length_le]
      omega
    have packet : TcpSessionC.init client now ((session.sent.take t.written).take t.received)
        nonce = some (client.publicKey ++ signature) := by
      rw [all]
      exact reply_isSome genuine wrote other now signed
    have length : (t.answer (client.publicKey ++ signature)).length = t.read := by
      simp only [Transfers.answer, List.length_take, List.length_append] at packetSize ⊢
      omega
    simp only [Connects, handshake, packet, true_and]
    by_cases full : t.read = replySize
    · rw [init2_isSome (length.trans full)]
      refine ⟨fun checked => ⟨whole, full, .inr checked⟩, ?_⟩
      rintro ⟨-, -, unsplit | checked⟩
      · have same : t.answer (client.publicKey ++ signature) =
            client.publicKey ++ signature := by
          rw [Transfers.answer, unsplit, ← packetSize, List.take_length, full, ← packetSize,
            List.take_left]
        rw [same, ← init2_isSome packetSize]
        have accepted : TcpSessionS.init2 server session.hash (client.publicKey ++ signature) =
            _ := accept_reply genuine other hashes hashes signed
        rw [accepted, if_pos rfl]
        rfl
      · exact checked
    · rw [init2_short (by omega)]
      simp [full]
  · have none : TcpSessionC.init client now ((session.sent.take t.written).take t.received)
        nonce = none := by
      apply init_short
      rw [List.length_take]
      omega
    simp [Connects, handshake, none, whole]

end Segments

theorem sampleOpened_wrote (time : UInt64) :
    Wrote .tcp sampleServer (sampleOpened time) :=
  ⟨rfl, 0, rfl⟩

/-- Each message in one piece, with a byte behind the reply. -/
theorem connects_whole :
    Connects sampleServer sampleClient (sampleOpened 0) 0 0 ⟨168, 168, 128, 128, [0]⟩ :=
  (connects_iff sample_genuine sample_other (sampleOpened_wrote 0) 0 rfl (by decide)).mpr
    ⟨rfl, rfl, .inl rfl⟩

/-- The client's read returns the first segment of a challenge that comes in two. -/
theorem connects_fails :
    ¬∀ (crypto : Crypto) (server client : Server crypto) (session : Opened) (now : UInt64)
      (nonce : Nat) (t : Transfers), crypto.Genuine → client.publicKey ≠ server.publicKey →
      Wrote .tcp server session →
      (crypto.sign client.privateKey session.hash nonce).isSome → t.Legal →
      Connects server client session now nonce t := by
  intro every
  have connects := every sample sampleServer sampleClient (sampleOpened 0) 0 0
    ⟨168, 100, 128, 128, []⟩ sample_genuine sample_other (sampleOpened_wrote 0) rfl (by decide)
  have refused : (handshake sampleServer sampleClient (sampleOpened 0) 0 0
      ⟨168, 100, 128, 128, []⟩).m_isInit = false := by
    rw [handshake, init_short (by decide +kernel)]
  exact Bool.false_ne_true (refused.symm.trans connects.1)

end Nicenet
