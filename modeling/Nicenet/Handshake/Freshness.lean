import Mathlib.Data.Set.Function
import Nicenet.Handshake.Challenge
import Nicenet.Library.Transition

/-!
# Freshness of challenges

Apart from the key of the server, a challenge holds the time in seconds and, over KCP,
the index of a worker. A reply to one challenge is accepted on another session exactly
when these are the same, so it can be replayed within the second.
-/

namespace Nicenet

open Library

/-- `WORK_THREAD_COUNT`. -/
def workThreadCount : Nat := 8

theorem workThreadCount_pos : 0 < workThreadCount := by
  decide

/-- A session that waits for the reply to its challenge: when it was opened and with
what conversation number, its `m_hash`, the challenge sent, and `m_uid` once a reply
has been presented. -/
structure Opened where
  time : UInt64
  conv : UInt32
  hash : List UInt8
  sent : List UInt8
  presented : Bool
  uid : Option (List UInt8)
  deriving DecidableEq, Repr

/-- A server as far as its handshakes go: the clock and the sessions opened. -/
structure Openings where
  now : UInt64
  sessions : List Opened
  deriving DecidableEq, Repr

namespace Openings

inductive Event where
  | tick (now : UInt64)
  | open (conv : UInt32) (nonce : Nat)
  | present (index : Nat) (packet : List UInt8)
  deriving DecidableEq, Repr

variable (transport : Transport) {crypto : Crypto} (server : Server crypto)

/-- A session is opened, unless its challenge cannot be signed. -/
def opened (s : Openings) (conv : UInt32) (nonce : Nat) : Openings :=
  match challenge transport server s.now conv nonce with
  | none => s
  | some sent =>
      { s with sessions := s.sessions ++ [⟨s.now, conv,
        challengeHash transport server s.now conv, sent, false, none⟩] }

def step (s : Openings) : Event → Option Openings
  | .tick now => some { s with now := now }
  | .open conv nonce =>
      if conv.toNat < workThreadCount then some (s.opened transport server conv nonce)
      else none
  | .present index packet =>
      match s.sessions[index]? with
      | none => none
      | some session =>
          if session.presented then none
          else
            some { s with sessions := s.sessions.set index { session with
              presented := true
              uid := accept transport server session.hash packet } }

/-- Clock ticks, accepts and replies, in any order; anyone may present any packet. -/
def system (now : UInt64) : Transition Openings Event :=
  .deterministic ⟨now, []⟩ (step transport server)

/-- What a session keeps of its opening. -/
def Wrote (session : Opened) : Prop :=
  session.hash = challengeHash transport server session.time session.conv ∧
    ∃ nonce, challenge transport server session.time session.conv nonce = some session.sent

/-- Two sessions whose challenges are told apart by nothing. -/
def Same : Transport → Opened → Opened → Prop
  | .tcp, first, second => first.time = second.time
  | .kcp, first, second => first.time = second.time ∧ first.conv = second.conv

/-- A relation between any two sessions of a server. -/
def Pairs (s : Openings) (relation : Opened → Opened → Prop) : Prop :=
  ∀ (i j : Nat) (first second : Opened), i ≠ j → s.sessions[i]? = some first →
    s.sessions[j]? = some second → relation first second

/-- Every reply a client gives to one session is refused on the other. -/
def Refuses (client : Server crypto) (first second : Opened) : Prop :=
  ∀ now nonce packet, reply transport client now first.sent nonce = some packet →
    accept transport server second.hash packet = none

variable {transport server}

theorem opened_wrote {s : Openings} {conv : UInt32} {nonce : Nat}
    (wrote : ∀ session ∈ s.sessions, Wrote transport server session) :
    ∀ session ∈ (s.opened transport server conv nonce).sessions,
      Wrote transport server session := by
  rw [opened]
  cases written : challenge transport server s.now conv nonce with
  | none => exact wrote
  | some sent =>
      exact List.forall_mem_append.mpr
        ⟨wrote, List.forall_mem_singleton.mpr ⟨rfl, nonce, written⟩⟩

theorem step_wrote {s next : Openings} {event : Event}
    (wrote : ∀ session ∈ s.sessions, Wrote transport server session)
    (taken : s.step transport server event = some next) :
    ∀ session ∈ next.sessions, Wrote transport server session := by
  cases event with
  | tick now =>
      cases taken
      exact wrote
  | «open» conv nonce =>
      simp only [step] at taken
      split at taken
      · cases taken
        exact opened_wrote wrote
      · cases taken
  | present index packet =>
      simp only [step] at taken
      cases found : s.sessions[index]? with
      | none =>
          rw [found] at taken
          cases taken
      | some old =>
          simp only [found] at taken
          split at taken
          · cases taken
          · cases taken
            intro session member
            rcases List.mem_or_eq_of_mem_set member with kept | changed
            · exact wrote session kept
            · rw [changed]
              exact wrote old (List.mem_of_getElem? found)

theorem reachable_wrote {now : UInt64} {s : Openings}
    (reachable : (system transport server now).Reachable s) :
    ∀ session ∈ s.sessions, Wrote transport server session := by
  apply reachable.invariant
  · rintro s rfl
    exact fun _ member => absurd member List.not_mem_nil
  · intro s event next wrote taken
    exact step_wrote wrote taken

theorem longBytes_inj {first second : UInt64} :
    longBytes first = longBytes second ↔ first = second := by
  refine ⟨fun same => ?_, fun same => by rw [same]⟩
  have value := congrArg Bytes.toNat same
  rw [longBytes, longBytes, Bytes.toNat_ofNat_of_lt (UInt64.toNat_lt first),
    Bytes.toNat_ofNat_of_lt (UInt64.toNat_lt second)] at value
  exact UInt64.toNat_inj.mp value

theorem wordBytes_inj {first second : UInt32} :
    wordBytes first = wordBytes second ↔ first = second := by
  refine ⟨fun same => ?_, fun same => by rw [same]⟩
  have value := congrArg Bytes.toNat same
  rw [wordBytes, wordBytes, Bytes.toNat_ofNat_of_lt (UInt32.toNat_lt first),
    Bytes.toNat_ofNat_of_lt (UInt32.toNat_lt second)] at value
  exact UInt32.toNat_inj.mp value

/-- Sessions are told apart by what their hashes are taken of. -/
theorem same_iff (server : Server crypto) {first second : Opened} :
    Same transport first second ↔
      challengeHead transport server first.time first.conv =
        challengeHead transport server second.time second.conv := by
  cases transport with
  | tcp =>
      simp only [Same, challengeHead, Transport.conv, List.append_nil]
      rw [List.append_cancel_left_eq, longBytes_inj]
  | kcp =>
      simp only [Same, challengeHead, Transport.conv, List.append_assoc]
      rw [List.append_cancel_left_eq, ← longBytes_inj, ← wordBytes_inj]
      constructor
      · rintro ⟨time, conv⟩
        rw [time, conv]
      · intro same
        exact List.append_inj same (by rw [length_longBytes, length_longBytes])

variable {client : Server crypto} {first second : Opened}

/-- A client signs the hash of the challenge it replies to. -/
theorem reply_signature (genuine : crypto.Genuine) (wrote : Wrote transport server first)
    {now : UInt64} {nonce : Nat} {packet : List UInt8}
    (replied : reply transport client now first.sent nonce = some packet) :
    ∃ signature, crypto.sign client.privateKey first.hash nonce = some signature ∧
      packet = transport.tag ++ client.publicKey ++ signature := by
  obtain ⟨hash, _, written⟩ := wrote
  have whole : first.sent.take (transport.headSize + hashSize + signSize) = first.sent :=
    List.take_of_length_le (Nat.le_of_eq (length_challenge genuine written))
  simp only [reply, length_challenge genuine written, Nat.lt_irrefl, if_false, whole,
    challenge_hash genuine written, ← hash] at replied
  split at replied
  · cases replied
  · obtain ⟨signature, signed, packet⟩ := Option.map_eq_some_iff.mp replied
    exact ⟨signature, signed, packet.symm⟩

/-- The client reads the time that the server has written. -/
theorem wrote_time (genuine : crypto.Genuine) (wrote : Wrote transport server first) :
    readLong first.sent publicKeySize = first.time := by
  obtain ⟨_, nonce, written⟩ := wrote
  obtain ⟨signature, _, sent⟩ := challenge_eq_some.mp written
  have field : Bytes.slice first.sent publicKeySize 8 = longBytes first.time := by
    rw [← sent, challengeHead, List.append_assoc, List.append_assoc]
    exact Bytes.slice_append _ (server.length_publicKey genuine) (length_longBytes _)
  rw [readLong, field, longBytes, Bytes.toNat_ofNat_of_lt (UInt64.toNat_lt first.time),
    UInt64.ofNat_toNat]

/-- The signature of a challenge is accepted. -/
theorem wrote_verify (genuine : crypto.Genuine) (wrote : Wrote transport server first) :
    crypto.verify server.publicKey first.hash
      (Bytes.slice first.sent (transport.headSize + hashSize) signSize) = true := by
  obtain ⟨hash, nonce, written⟩ := wrote
  rw [server.paired, hash, genuine.verify_sign (length_challengeHash genuine)
    (length_challengeHash genuine) (challenge_signature genuine written)]

/-- `checkServerSign` objects to the time at most. -/
theorem checkServerSign_eq (genuine : crypto.Genuine) (wrote : Wrote transport server first)
    (other : client.publicKey ≠ server.publicKey) (now : UInt64) :
    checkServerSign transport client now first.sent =
      if now > first.time + 10 ∨ now < first.time - 10 then 2 else 0 := by
  have verified := wrote_verify genuine wrote
  have time := wrote_time genuine wrote
  obtain ⟨hash, nonce, written⟩ := wrote
  have computed : crypto.sha3 (challengeHead transport server first.time first.conv) =
      first.hash := hash.symm
  simp only [checkServerSign, challenge_publicKey genuine written,
    challenge_head genuine written, challenge_hash genuine written, if_neg other, ← hash,
    verified, computed, time, ne_eq, not_true_eq_false, if_false]

/-- A client with another key than the server's replies to every challenge, when its
signature succeeds. -/
theorem reply_isSome (genuine : crypto.Genuine) (wrote : Wrote transport server first)
    (other : client.publicKey ≠ server.publicKey) (now : UInt64) {nonce : Nat}
    {signature : List UInt8}
    (signed : crypto.sign client.privateKey first.hash nonce = some signature) :
    reply transport client now first.sent nonce =
      some (transport.tag ++ client.publicKey ++ signature) := by
  have checked : checkServerSign transport client now first.sent ≠ 1 := by
    rw [checkServerSign_eq genuine wrote other]
    split <;> decide
  obtain ⟨hash, _, written⟩ := wrote
  have whole : first.sent.take (transport.headSize + hashSize + signSize) = first.sent :=
    List.take_of_length_le (Nat.le_of_eq (length_challenge genuine written))
  simp only [reply, length_challenge genuine written, Nat.lt_irrefl, if_false, whole,
    checked, challenge_hash genuine written, ← hash, signed, Option.map_some]

/-- A reply is accepted by the sessions with the hash that was signed. -/
theorem accept_reply (genuine : crypto.Genuine)
    (other : client.publicKey ≠ server.publicKey) {hash hash_ signature : List UInt8}
    {nonce : Nat} (length : hash.length = hashSize) (length_ : hash_.length = hashSize)
    (signed : crypto.sign client.privateKey hash nonce = some signature) :
    accept transport server hash_ (transport.tag ++ client.publicKey ++ signature) =
      if hash_ = hash then some client.publicKey else none := by
  have key := client.length_publicKey genuine
  have size := genuine.length_sign signed
  have verified : crypto.verify client.publicKey hash_ signature = true ↔ hash_ = hash := by
    rw [client.paired]
    exact genuine.verify_sign length length_ signed
  have field : Bytes.slice (client.publicKey ++ signature) publicKeySize signSize =
      signature := by
    have field := Bytes.slice_append [] key size
    rwa [List.append_nil] at field
  have front : (client.publicKey ++ signature).take publicKeySize = client.publicKey := by
    rw [← key, List.take_left]
  have long : ¬(transport.tag ++ (client.publicKey ++ signature)).length <
      transport.tag.length + publicKeySize + signSize := by
    simp only [List.length_append, key, size]
    omega
  rw [List.append_assoc]
  simp only [accept, if_neg long, List.take_left, List.drop_left, ne_eq, not_true_eq_false,
    if_false, checkSign, front, field, if_neg other.symm, ← verified]

/-- Hashes tell the challenges of a server apart. -/
def Distinguishes (transport : Transport) (server : Server crypto) : Prop :=
  Set.InjOn crypto.sha3 {data | ∃ now conv, data = challengeHead transport server now conv}

/-- Between two sessions, replies are refused unless the challenges are the same. -/
theorem refuses_iff (genuine : crypto.Genuine) (distinguishes : Distinguishes transport server)
    (other : client.publicKey ≠ server.publicKey)
    (signs : ∀ hash, ∃ nonce, (crypto.sign client.privateKey hash nonce).isSome)
    (wrote : Wrote transport server first) (wrote' : Wrote transport server second) :
    Refuses transport server client first second ↔ ¬Same transport first second := by
  have length : first.hash.length = hashSize := by
    rw [wrote.1, length_challengeHash genuine]
  have length' : second.hash.length = hashSize := by
    rw [wrote'.1, length_challengeHash genuine]
  have hashes : second.hash = first.hash ↔ Same transport first second := by
    rw [same_iff server, wrote.1, wrote'.1]
    constructor
    · intro same
      exact (distinguishes ⟨_, _, rfl⟩ ⟨_, _, rfl⟩ same).symm
    · intro same
      rw [challengeHash, challengeHash, same]
  rw [← hashes]
  constructor
  · intro refuses
    obtain ⟨nonce, some⟩ := signs first.hash
    obtain ⟨signature, signed⟩ := Option.isSome_iff_exists.mp some
    have refused := refuses 0 nonce _ (reply_isSome genuine wrote other 0 signed)
    rw [accept_reply genuine other length length' signed] at refused
    rintro same
    rw [if_pos same] at refused
    cases refused
  · intro differ now nonce packet replied
    obtain ⟨signature, signed, rfl⟩ := reply_signature genuine wrote replied
    rw [accept_reply genuine other length length' signed, if_neg differ]

/-- In every run, replies are refused by all other sessions exactly if no two sessions
were opened in the same second (over KCP: for the same worker). -/
theorem fresh_iff (genuine : crypto.Genuine) (distinguishes : Distinguishes transport server)
    (other : client.publicKey ≠ server.publicKey)
    (signs : ∀ hash, ∃ nonce, (crypto.sign client.privateKey hash nonce).isSome)
    {now : UInt64} {s : Openings} (reachable : (system transport server now).Reachable s) :
    s.Pairs (Refuses transport server client) ↔
      s.Pairs fun first second => ¬Same transport first second := by
  have wrote := reachable_wrote reachable
  have pair : ∀ {i j : Nat} {first second : Opened}, s.sessions[i]? = some first →
      s.sessions[j]? = some second →
        (Refuses transport server client first second ↔ ¬Same transport first second) :=
    fun found found' => refuses_iff genuine distinguishes other signs
      (wrote _ (List.mem_of_getElem? found)) (wrote _ (List.mem_of_getElem? found'))
  constructor
  · intro fresh i j first second apart found found'
    exact (pair found found').mp (fresh i j first second apart found found')
  · intro fresh i j first second apart found found'
    exact (pair found found').mpr (fresh i j first second apart found found')

/-! ## A second with two sessions -/

/-- A block of a fixed size that starts with some bytes. -/
def pad (size : Nat) (data : List UInt8) : List UInt8 :=
  (data ++ List.replicate size 0).take size

@[simp] theorem length_pad (size : Nat) (data : List UInt8) :
    (pad size data).length = size := by
  simp [pad]

theorem pad_self {size : Nat} {data : List UInt8} (length : data.length = size) :
    pad size data = data := by
  rw [pad, ← length, List.take_left]

theorem take_pad {size limit : Nat} (within : limit ≤ size) (data : List UInt8) :
    (pad size data).take limit = pad limit data := by
  rw [pad, pad, List.take_take, Nat.min_eq_left within, List.take_append, List.take_append,
    List.take_replicate, List.take_replicate, Nat.min_eq_left, Nat.min_eq_left]
  all_goals omega

/-- Functions that show what they have hashed and signed. -/
def sample : Crypto where
  sha3 data := pad hashSize (data.drop publicKeySize)
  publicKey privateKey := pad publicKeySize privateKey
  sign privateKey hash _ := some (pad hashSize hash ++ pad 32 privateKey)
  verify publicKey hash signature := signature = hash ++ publicKey.take 32

theorem sample_genuine : sample.Genuine where
  length_sha3 _ := length_pad _ _
  length_publicKey _ := length_pad _ _
  length_sign := by
    rintro _ _ _ _ ⟨⟩
    rw [List.length_append, length_pad, length_pad]
    rfl
  verify_sign := by
    rintro privateKey hash nonce _ other length length' ⟨⟩
    have half : (pad publicKeySize privateKey).take 32 = pad 32 privateKey :=
      take_pad (by decide) privateKey
    simp only [sample, half, pad_self length, decide_eq_true_iff, List.append_cancel_right_eq]
    exact eq_comm

/-- The time and the conversation number are all that is hashed. -/
theorem sample_distinguishes (transport : Transport) (server : Server sample) :
    Distinguishes transport server := by
  have hash : ∀ now conv, sample.sha3 (challengeHead transport server now conv) =
      pad hashSize (longBytes now ++ transport.conv conv) := by
    intro now conv
    have key : (challengeHead transport server now conv).drop publicKeySize =
        longBytes now ++ transport.conv conv := by
      rw [challengeHead, List.append_assoc, ← server.length_publicKey sample_genuine,
        List.drop_left]
    exact congrArg (pad hashSize) key
  have length : ∀ now conv, (longBytes now ++ transport.conv conv).length =
      transport.headSize - publicKeySize := by
    intro now conv
    cases transport <;> simp [Transport.conv, Transport.headSize, publicKeySize]
  have within : transport.headSize - publicKeySize ≤ hashSize := by
    cases transport <;> decide
  rintro _ ⟨now, conv, rfl⟩ _ ⟨now', conv', rfl⟩ same
  rw [hash, hash] at same
  have front := congrArg (List.take (transport.headSize - publicKeySize)) same
  rw [take_pad within, take_pad within, pad_self (length now conv),
    pad_self (length now' conv')] at front
  simp only [challengeHead, List.append_assoc, front]

def sampleServer : Server sample := ⟨[1], _, rfl⟩

def sampleClient : Server sample := ⟨[2], _, rfl⟩

theorem sample_other : sampleClient.publicKey ≠ sampleServer.publicKey := by
  decide +kernel

theorem sample_signs (hash : List UInt8) :
    ∃ nonce, (sample.sign sampleClient.privateKey hash nonce).isSome := ⟨0, rfl⟩

/-- A session opened at a time. -/
def sampleOpened (time : UInt64) : Opened :=
  ⟨time, 0, challengeHash .tcp sampleServer time 0,
    ((challenge .tcp sampleServer time 0 0).getD []), false, none⟩

/-- Two sessions, opened one second after the other. -/
theorem fresh_apart :
    Pairs ⟨1, [sampleOpened 0, sampleOpened 1]⟩ (Refuses .tcp sampleServer sampleClient) := by
  have taken : Transition.run (step .tcp sampleServer) ⟨0, []⟩
      [.open 0 0, .tick 1, .open 0 0] = some ⟨1, [sampleOpened 0, sampleOpened 1]⟩ := by
    decide +kernel
  refine (fresh_iff sample_genuine (sample_distinguishes .tcp sampleServer) sample_other
    sample_signs (Transition.reachable_run taken)).mpr ?_
  rintro (_ | _ | i) (_ | _ | j) first second apart ⟨⟩ ⟨⟩
  · exact absurd rfl apart
  · exact (by decide : (0 : UInt64) ≠ 1)
  · exact (by decide : (1 : UInt64) ≠ 0)
  · exact absurd rfl apart

/-- Two sessions opened in the same second have the same challenge, so a reply to the
first is accepted on the second. -/
theorem fresh_fails :
    ¬∀ (transport : Transport) (crypto : Crypto) (server client : Server crypto),
      crypto.Genuine → Distinguishes transport server →
      client.publicKey ≠ server.publicKey → ∀ (now : UInt64) (s : Openings),
      (system transport server now).Reachable s →
      s.Pairs (Refuses transport server client) := by
  intro every
  have taken : Transition.run (step .tcp sampleServer) ⟨0, []⟩ [.open 0 0, .open 0 0] =
      some ⟨0, [sampleOpened 0, sampleOpened 0]⟩ := by
    decide +kernel
  have reachable := Transition.reachable_run taken
  have wrote := reachable_wrote reachable (sampleOpened 0) List.mem_cons_self
  have refuses := every .tcp sample sampleServer sampleClient sample_genuine
    (sample_distinguishes .tcp sampleServer) sample_other 0 _ reachable 0 1 (sampleOpened 0)
    (sampleOpened 0) (by decide) rfl rfl
  exact (refuses_iff sample_genuine (sample_distinguishes .tcp sampleServer) sample_other
    sample_signs wrote wrote).mp refuses rfl

end Openings

end Nicenet
