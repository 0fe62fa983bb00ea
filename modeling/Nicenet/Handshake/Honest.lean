import Nicenet.Handshake.Freshness

/-!
# Honest handshakes

A client whose clock is near the server's finds the challenge in order, and the server
accepts the reply: the offsets at which one side reads are those at which the other has
written.
-/

namespace Nicenet

open Library

/-- `m_uid` of a client once its `init` is through: over TCP the key in the challenge, over
KCP its own. -/
def Transport.clientUid {crypto : Crypto} (transport : Transport) (client : Server crypto)
    (data_ : List UInt8) : List UInt8 :=
  match transport with
  | .tcp => data_.take publicKeySize
  | .kcp => client.publicKey

/-- `m_conv` of a KCP client. -/
def KcpSessionC.m_conv (data_ : List UInt8) : UInt32 :=
  readWord (Bytes.slice data_ (publicKeySize + 8) 4)

/-- Ten seconds are added to the server's time and taken off it: the clocks do not differ by
more, and the numbers do not leave the range of a `ui64`. -/
def Close (serverTime now : UInt64) : Prop :=
  10 ≤ serverTime.toNat ∧ serverTime.toNat + 10 < 2 ^ 64 ∧
    now.toNat ≤ serverTime.toNat + 10 ∧ serverTime.toNat ≤ now.toNat + 10

namespace Openings

variable {transport : Transport} {crypto : Crypto} {server client : Server crypto}
variable {session : Opened}

theorem close_iff {serverTime now : UInt64} (close : Close serverTime now) :
    ¬(now > serverTime + 10 ∨ now < serverTime - 10) := by
  obtain ⟨low, high, above, below⟩ := close
  have sum : (serverTime + 10).toNat = serverTime.toNat + 10 := by
    rw [UInt64.toNat_add]
    exact Nat.mod_eq_of_lt high
  have difference : (serverTime - 10).toNat = serverTime.toNat - 10 :=
    UInt64.toNat_sub_of_le _ _ (UInt64.le_iff_toNat_le.mpr low)
  rw [gt_iff_lt, UInt64.lt_iff_toNat_lt, UInt64.lt_iff_toNat_lt, sum, difference]
  omega

/-- Over KCP, it reads the conversation number. -/
theorem wrote_conv (genuine : crypto.Genuine) (wrote : Wrote .kcp server session) :
    KcpSessionC.m_conv session.sent = session.conv := by
  obtain ⟨_, nonce, written⟩ := wrote
  obtain ⟨signature, _, sent⟩ := challenge_eq_some.mp written
  have front : (server.publicKey ++ longBytes session.time).length = publicKeySize + 8 := by
    rw [List.length_append, server.length_publicKey genuine, length_longBytes]
  have field : Bytes.slice session.sent (publicKeySize + 8) 4 = wordBytes session.conv := by
    rw [← sent, challengeHead, List.append_assoc]
    exact Bytes.slice_append _ front (length_wordBytes _)
  rw [KcpSessionC.m_conv, field, ← List.append_nil (wordBytes _), readWord_wordBytes]

/-- In every run, a client with a key of its own and a clock near the server's finds the
challenge of a session in order, the session accepts its reply as coming from its key, and
over KCP both have the same number and uid. -/
theorem honest_agrees (genuine : crypto.Genuine) (other : client.publicKey ≠ server.publicKey)
    {start now : UInt64} {s : Openings} {index nonce : Nat}
    (reachable : (system transport server start).Reachable s)
    (found : s.sessions[index]? = some session) (waits : session.presented = false)
    (close : Close session.time now)
    (signs : (crypto.sign client.privateKey session.hash nonce).isSome) :
    checkServerSign transport client now session.sent = 0 ∧
      ∃ packet next, reply transport client now session.sent nonce = some packet ∧
        s.step transport server (.present index packet) = some next ∧
        next.sessions[index]? =
          some { session with presented := true, uid := some client.publicKey } ∧
        (transport = .kcp → KcpSessionC.m_conv session.sent = session.conv ∧
          transport.clientUid client session.sent = client.publicKey) := by
  have wrote := reachable_wrote reachable session (List.mem_of_getElem? found)
  have length : session.hash.length = hashSize := by
    rw [wrote.1, length_challengeHash genuine]
  obtain ⟨signature, signed⟩ := Option.isSome_iff_exists.mp signs
  have accepted : accept transport server session.hash
      (transport.tag ++ client.publicKey ++ signature) = some client.publicKey := by
    rw [accept_reply genuine other length length signed, if_pos rfl]
  have presented : s.step transport server
      (.present index (transport.tag ++ client.publicKey ++ signature)) =
      some { s with sessions := s.sessions.set index { session with
        presented := true
        uid := some client.publicKey } } := by
    simp only [step, found, waits, accepted]
    rfl
  refine ⟨?_, _, _, reply_isSome genuine wrote other now signed, presented, ?_, ?_⟩
  · rw [checkServerSign_eq genuine wrote other, if_neg (close_iff close)]
  · have inside : index < s.sessions.length := (List.getElem?_eq_some_iff.mp found).1
    exact List.getElem?_set_self inside
  · rintro rfl
    exact ⟨wrote_conv genuine wrote, rfl⟩

/-- A KCP session opened at second 20. -/
def sampleKcp : Opened :=
  ⟨20, 3, challengeHash .kcp sampleServer 20 3,
    (challenge .kcp sampleServer 20 3 0).getD [], false, none⟩

/-- A client whose clock is five seconds ahead. -/
theorem honest_agrees_ahead :
    checkServerSign .kcp sampleClient 25 sampleKcp.sent = 0 ∧
      ∃ packet next, reply .kcp sampleClient 25 sampleKcp.sent 0 = some packet ∧
        step .kcp sampleServer ⟨20, [sampleKcp]⟩ (.present 0 packet) = some next ∧
        next.sessions[0]? =
          some { sampleKcp with presented := true, uid := some sampleClient.publicKey } ∧
        (Transport.kcp = .kcp → KcpSessionC.m_conv sampleKcp.sent = sampleKcp.conv ∧
          Transport.kcp.clientUid sampleClient sampleKcp.sent = sampleClient.publicKey) := by
  have taken : Transition.run (step .kcp sampleServer) ⟨20, []⟩ [.open 3 0] =
      some ⟨20, [sampleKcp]⟩ := by
    decide +kernel
  have close : Close sampleKcp.time 25 := by
    rw [Close]
    decide
  exact honest_agrees sample_genuine sample_other (Transition.reachable_run taken) rfl rfl
    close rfl

end Openings

end Nicenet
