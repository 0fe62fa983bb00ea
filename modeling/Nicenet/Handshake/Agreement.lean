import Mathlib.Data.Set.Function
import Mathlib.Logic.Function.Basic
import Nicenet.Handshake.Honest

/-!
# Agreement

Parties with keys of their own serve and connect over both transports, with the same key if
they like, and everything between them is in other hands. A session with the uid of a party
has been answered by that party for a challenge of this very server, and a challenge with
the key of a party that somebody has answered is one of that party.

Two things are beyond an attacker: to sign for a party, and to find two heads of challenges
with one hash.
-/

namespace Nicenet

open Library

/-- A party: the handshakes it serves over each transport, and the challenges that it has
replied to as a client. -/
structure Party where
  serving : Transport → Openings
  answered : List (Transport × List UInt8)

namespace Party

/-- The size of a challenge. -/
def size (transport : Transport) : Nat := transport.headSize + hashSize + signSize

/-- The bytes of a challenge that are hashed, and the hash in it. -/
def head (entry : Transport × List UInt8) : List UInt8 := entry.2.take entry.1.headSize

def hash (entry : Transport × List UInt8) : List UInt8 :=
  Bytes.slice entry.2 entry.1.headSize hashSize

/-- What happens at a party: one of the events of its servers, or `init` of a client gets
some bytes. -/
inductive Act where
  | serve (transport : Transport) (event : Openings.Event)
  | connect (transport : Transport) (now : UInt64) (received : List UInt8) (nonce : Nat)
  deriving DecidableEq, Repr

section System

variable {π : Type} {crypto : Crypto} (keys : π → Server crypto)

/-- Any party may take a step with any bytes. -/
def system [DecidableEq π] : Transition (π → Party) (π × Act) where
  initial net := ∃ clock : π → Transport → UInt64,
    net = fun p => ⟨fun transport => ⟨clock p transport, []⟩, []⟩
  step net event next :=
    let (p, act) := event
    match act with
    | .serve transport event => ∃ openings,
        ((net p).serving transport).step transport (keys p) event = some openings ∧
        next = Function.update net p { net p with
          serving := Function.update (net p).serving transport openings }
    | .connect transport now received nonce =>
        (reply transport (keys p) now received nonce).isSome = true ∧
        next = Function.update net p { net p with
          answered := (net p).answered ++ [(transport, received.take (size transport))] }

/-- A party with a public key has signed a hash: in a challenge, or in a reply. -/
def Signed (net : π → Party) (publicKey hash_ : List UInt8) : Prop :=
  ∃ p, (keys p).publicKey = publicKey ∧
    ((∃ transport, ∃ session ∈ ((net p).serving transport).sessions, session.hash = hash_) ∨
      ∃ entry ∈ (net p).answered, hash entry = hash_)

/-- Of a party, only its own signatures are found, and what is hashed is in a set. -/
def Secure (hashed : Set (List UInt8)) (net : π → Party) (event : π × Act) : Prop :=
  let (p, act) := event
  match act with
  | .serve transport (.open conv _) =>
      challengeHead transport (keys p) ((net p).serving transport).now conv ∈ hashed
  | .serve transport (.present index packet) =>
      ∀ session, ((net p).serving transport).sessions[index]? = some session → ∀ q,
        crypto.verify (keys q).publicKey session.hash
            (Bytes.slice (packet.drop transport.tag.length) publicKeySize signSize) = true →
          Signed keys net (keys q).publicKey session.hash
  | .serve _ (.tick _) => True
  | .connect transport _ received _ =>
      let entry := (transport, received.take (size transport))
      head entry ∈ hashed ∧ ∀ q,
        crypto.verify (keys q).publicKey (hash entry)
            (Bytes.slice entry.2 (transport.headSize + hashSize) signSize) = true →
          Signed keys net (keys q).publicKey (hash entry)

end System

/-! ## What is signed -/

section Signed

variable {crypto : Crypto} {transport : Transport}

/-- A packet is accepted for a key other than the server's, and a signature by it. -/
theorem accept_cases {server : Server crypto} {hash_ packet uid : List UInt8}
    (accepted : accept transport server hash_ packet = some uid) :
    server.publicKey ≠ uid ∧ crypto.verify uid hash_
      (Bytes.slice (packet.drop transport.tag.length) publicKeySize signSize) = true := by
  rw [accept] at accepted
  split at accepted
  · cases accepted
  · split at accepted
    · cases accepted
    · dsimp only at accepted
      split at accepted
      · next checked =>
        cases accepted
        rw [checkSign] at checked
        split at checked
        · cases checked
        · next other => exact ⟨other, checked⟩
      · cases accepted

/-- A challenge is replied to if it has another key than the client's, the hash of its
head, and a signature by the key. -/
theorem reply_cases {client : Server crypto} {now : UInt64} {received : List UInt8}
    {nonce : Nat} (replied : (reply transport client now received nonce).isSome = true) :
    let entry := (transport, received.take (size transport))
    entry.2.length = size transport ∧ client.publicKey ≠ entry.2.take publicKeySize ∧
      crypto.sha3 (head entry) = hash entry ∧
      crypto.verify (entry.2.take publicKeySize) (hash entry)
        (Bytes.slice entry.2 (transport.headSize + hashSize) signSize) = true := by
  rw [reply] at replied
  dsimp only at replied
  split at replied
  · cases replied
  · next long =>
    split at replied
    · cases replied
    · next checked =>
      have length : (received.take (size transport)).length = size transport :=
        List.length_take_of_le (Nat.le_of_not_lt long)
      rw [checkServerSign] at checked
      split at checked
      · exact absurd rfl checked
      · next other =>
        dsimp only at checked
        split at checked
        · exact absurd rfl checked
        · next hashes =>
          split at checked
          · exact absurd rfl checked
          · next verified =>
            exact ⟨length, other, not_not.mp hashes, not_not.mp verified⟩

/-- What an event makes of a session: it keeps it but for the uid, which a packet has given
it, or it has opened it. -/
theorem step_sessions {server : Server crypto} {s next : Openings} {event : Openings.Event}
    (taken : s.step transport server event = some next) :
    (∀ session ∈ next.sessions,
      (∃ old ∈ s.sessions, old.time = session.time ∧ old.conv = session.conv ∧
        old.hash = session.hash ∧ (old.uid = session.uid ∨ ∃ index packet,
          event = .present index packet ∧ s.sessions[index]? = some old ∧
          accept transport server old.hash packet = session.uid)) ∨
      (session.time = s.now ∧ session.uid = none ∧
        session.hash = challengeHash transport server session.time session.conv ∧
        ∃ nonce, event = .open session.conv nonce)) ∧
    ∀ old ∈ s.sessions, ∃ session ∈ next.sessions,
      session.time = old.time ∧ session.conv = old.conv ∧ session.hash = old.hash := by
  have kept {old : Opened} (member : old ∈ s.sessions) :
      ∃ other ∈ s.sessions, other.time = old.time ∧ other.conv = old.conv ∧
        other.hash = old.hash ∧ (other.uid = old.uid ∨ ∃ index packet,
          event = .present index packet ∧ s.sessions[index]? = some other ∧
          accept transport server other.hash packet = old.uid) :=
    ⟨old, member, rfl, rfl, rfl, .inl rfl⟩
  cases event with
  | tick now =>
      cases taken
      exact ⟨fun session member => .inl (kept member),
        fun old member => ⟨old, member, rfl, rfl, rfl⟩⟩
  | «open» conv nonce =>
      simp only [Openings.step] at taken
      split at taken
      · cases taken
        rw [Openings.opened]
        cases challenge transport server s.now conv nonce with
        | none =>
            exact ⟨fun session member => .inl (kept member),
              fun old member => ⟨old, member, rfl, rfl, rfl⟩⟩
        | some sent =>
            refine ⟨List.forall_mem_append.mpr ⟨fun session member => .inl (kept member),
              List.forall_mem_singleton.mpr (.inr ⟨rfl, rfl, rfl, nonce, rfl⟩)⟩,
              fun old member => ⟨old, List.mem_append_left _ member, rfl, rfl, rfl⟩⟩
      · cases taken
  | present index packet =>
      simp only [Openings.step] at taken
      cases found : s.sessions[index]? with
      | none =>
          rw [found] at taken
          cases taken
      | some old =>
          simp only [found] at taken
          split at taken
          · cases taken
          · cases taken
            have inside := (List.getElem?_eq_some_iff.mp found).1
            refine ⟨fun session member => .inl ?_, fun other member => ?_⟩
            · rcases List.mem_or_eq_of_mem_set member with same | changed
              · exact kept same
              · rw [changed]
                exact ⟨old, List.mem_of_getElem? found, rfl, rfl, rfl,
                  .inr ⟨index, packet, rfl, found, rfl⟩⟩
            · obtain ⟨place, at_place⟩ := List.mem_iff_getElem?.mp member
              by_cases same : index = place
              · rw [← same, found] at at_place
                cases at_place
                exact ⟨_, List.mem_of_getElem? (List.getElem?_set_self inside), rfl, rfl, rfl⟩
              · exact ⟨other, List.mem_of_getElem? (by rw [List.getElem?_set_ne same, at_place]),
                  rfl, rfl, rfl⟩

end Signed

/-! ## Every run -/

section Runs

variable {π : Type} {crypto : Crypto} {keys : π → Server crypto}
variable {hashed : Set (List UInt8)} {net next : π → Party} {transport : Transport}

/-- A party with a public key has opened a session with a head. -/
def Issued (keys : π → Server crypto) (net : π → Party) (transport : Transport)
    (publicKey head_ : List UInt8) : Prop :=
  ∃ p, (keys p).publicKey = publicKey ∧ ∃ session ∈ ((net p).serving transport).sessions,
    head_ = challengeHead transport (keys p) session.time session.conv

/-- A party with a public key has replied to a challenge with a head. -/
def Replied (keys : π → Server crypto) (net : π → Party) (transport : Transport)
    (publicKey head_ : List UInt8) : Prop :=
  ∃ p, (keys p).publicKey = publicKey ∧ ∃ data_, (transport, data_) ∈ (net p).answered ∧
    head_ = head (transport, data_)

/-- What the parties have kept of their handshakes. -/
structure Recorded (keys : π → Server crypto) (hashed : Set (List UInt8)) (net : π → Party) :
    Prop where
  sessions : ∀ p transport, ∀ session ∈ ((net p).serving transport).sessions,
    session.hash = challengeHash transport (keys p) session.time session.conv ∧
      challengeHead transport (keys p) session.time session.conv ∈ hashed
  answered : ∀ p, ∀ entry ∈ (net p).answered,
    entry.2.length = size entry.1 ∧ (keys p).publicKey ≠ entry.2.take publicKeySize ∧
      crypto.sha3 (head entry) = hash entry ∧ head entry ∈ hashed

/-- A step forgets no session and no reply. -/
structure Extends (net next : π → Party) : Prop where
  sessions : ∀ p transport, ∀ old ∈ ((net p).serving transport).sessions,
    ∃ session ∈ ((next p).serving transport).sessions,
      session.time = old.time ∧ session.conv = old.conv
  answered : ∀ p, (net p).answered ⊆ (next p).answered

theorem Issued.extends {publicKey head_ : List UInt8} (extend : Extends net next)
    (issued : Issued keys net transport publicKey head_) :
    Issued keys next transport publicKey head_ := by
  obtain ⟨p, key, old, member, head⟩ := issued
  obtain ⟨session, kept, time, conv⟩ := extend.sessions p transport old member
  exact ⟨p, key, session, kept, by rw [head, time, conv]⟩

theorem Replied.extends {publicKey head_ : List UInt8} (extend : Extends net next)
    (replied : Replied keys net transport publicKey head_) :
    Replied keys next transport publicKey head_ := by
  obtain ⟨p, key, data_, member, head⟩ := replied
  exact ⟨p, key, data_, extend.answered p member, head⟩

theorem challengeHead_key (genuine : crypto.Genuine) (server : Server crypto) (now : UInt64)
    (conv : UInt32) : (challengeHead transport server now conv).take publicKeySize =
      server.publicKey := by
  rw [challengeHead, List.append_assoc, ← server.length_publicKey genuine, List.take_left]

theorem head_key (entry : Transport × List UInt8) :
    (head entry).take publicKeySize = entry.2.take publicKeySize := by
  rw [head, List.take_take, Nat.min_eq_left]
  cases entry.1 <;> decide

theorem length_head {entry : Transport × List UInt8} (length : entry.2.length = size entry.1) :
    (head entry).length = entry.1.headSize := by
  rw [head, List.length_take, length, size]
  omega

theorem headSize_inj {first second : Transport} (same : first.headSize = second.headSize) :
    first = second := by
  cases first <;> cases second
  · rfl
  · cases same
  · cases same
  · rfl

/-- A hash signed is one of a head: in a challenge it starts with the key of the signer, in a
reply with another one. -/
theorem Recorded.signed (genuine : crypto.Genuine) (recorded : Recorded keys hashed net)
    {publicKey hash_ : List UInt8} (signed : Signed keys net publicKey hash_) :
    ∃ transport, ∃ head_ ∈ hashed, crypto.sha3 head_ = hash_ ∧
      head_.length = transport.headSize ∧
      ((head_.take publicKeySize = publicKey ∧ Issued keys net transport publicKey head_) ∨
        (head_.take publicKeySize ≠ publicKey ∧ Replied keys net transport publicKey head_)) := by
  obtain ⟨p, key, ⟨transport, session, member, same⟩ | ⟨⟨transport, data_⟩, member, same⟩⟩ := signed
  · obtain ⟨hashes, inside⟩ := recorded.sessions p transport session member
    refine ⟨transport, _, inside, hashes.symm.trans same, length_challengeHead genuine, .inl ?_⟩
    refine ⟨?_, p, key, session, member, rfl⟩
    rw [challengeHead_key genuine, key]
  · obtain ⟨length, other, hashes, inside⟩ := recorded.answered p _ member
    refine ⟨transport, _, inside, hashes.trans same, length_head length, .inr ?_⟩
    refine ⟨?_, p, key, data_, member, rfl⟩
    rw [head_key, ← key]
    exact other.symm

/-- What a signature of a head says: it is by the server named in it, or by a client that
has replied to it. -/
theorem Recorded.agrees (genuine : crypto.Genuine) (collides : Set.InjOn crypto.sha3 hashed)
    (recorded : Recorded keys hashed net) {publicKey head_ : List UInt8} (inside : head_ ∈ hashed)
    (length : head_.length = transport.headSize)
    (signed : Signed keys net publicKey (crypto.sha3 head_)) :
    if head_.take publicKeySize = publicKey then Issued keys net transport publicKey head_
    else Replied keys net transport publicKey head_ := by
  obtain ⟨way, other, within, hashes, size, cases⟩ := recorded.signed genuine signed
  cases collides within inside hashes
  cases headSize_inj (size.symm.trans length)
  rcases cases with ⟨own, issued⟩ | ⟨foreign, replied⟩
  · rw [if_pos own]
    exact issued
  · rw [if_neg foreign]
    exact replied

/-- A session with the uid of a party has been answered by it, and a challenge answered that
has the key of a party is one of its challenges. -/
structure Agreed (keys : π → Server crypto) (net : π → Party) : Prop where
  accepted : ∀ p transport, ∀ session ∈ ((net p).serving transport).sessions, ∀ q,
    session.uid = some (keys q).publicKey →
      Replied keys net transport (keys q).publicKey
        (challengeHead transport (keys p) session.time session.conv)
  answered : ∀ p, ∀ entry ∈ (net p).answered, ∀ q,
    entry.2.take publicKeySize = (keys q).publicKey →
      Issued keys net entry.1 (keys q).publicKey (head entry)

variable [DecidableEq π] {event : π × Act}

theorem extends_step (step : (system keys).step net event next) : Extends net next := by
  obtain ⟨p, act⟩ := event
  cases act with
  | serve transport event =>
      obtain ⟨openings, taken, rfl⟩ := step
      refine ⟨fun other way old member => ?_, fun other => ?_⟩
      · by_cases same : other = p
        · subst same
          rw [Function.update_self]
          by_cases along : way = transport
          · subst along
            dsimp only
            rw [Function.update_self]
            obtain ⟨session, kept, time, conv, -⟩ := (step_sessions taken).2 old member
            exact ⟨session, kept, time, conv⟩
          · dsimp only
            rw [Function.update_of_ne along]
            exact ⟨old, member, rfl, rfl⟩
        · rw [Function.update_of_ne same]
          exact ⟨old, member, rfl, rfl⟩
      · by_cases same : other = p
        · subst same
          rw [Function.update_self]
          exact List.Subset.refl _
        · rw [Function.update_of_ne same]
          exact List.Subset.refl _
  | connect transport now received nonce =>
      obtain ⟨-, rfl⟩ := step
      refine ⟨fun other way old member => ?_, fun other => ?_⟩
      · by_cases same : other = p
        · subst same
          rw [Function.update_self]
          exact ⟨old, member, rfl, rfl⟩
        · rw [Function.update_of_ne same]
          exact ⟨old, member, rfl, rfl⟩
      · by_cases same : other = p
        · subst same
          rw [Function.update_self]
          exact List.subset_append_left _ _
        · rw [Function.update_of_ne same]
          exact List.Subset.refl _

/-- Where a session comes from. -/
theorem session_origin (step : (system keys).step net event next) {p : π}
    {session : Opened} (member : session ∈ ((next p).serving transport).sessions) :
    (∃ old ∈ ((net p).serving transport).sessions, old.time = session.time ∧
      old.conv = session.conv ∧ old.hash = session.hash ∧
      (old.uid = session.uid ∨ ∃ index packet,
        event = (p, .serve transport (.present index packet)) ∧
        ((net p).serving transport).sessions[index]? = some old ∧
        accept transport (keys p) old.hash packet = session.uid)) ∨
    (session.time = ((net p).serving transport).now ∧ session.uid = none ∧
      session.hash = challengeHash transport (keys p) session.time session.conv ∧
      ∃ nonce, event = (p, .serve transport (.open session.conv nonce))) := by
  have kept (member : session ∈ ((net p).serving transport).sessions) :
      ∃ old ∈ ((net p).serving transport).sessions, old.time = session.time ∧
        old.conv = session.conv ∧ old.hash = session.hash ∧
        (old.uid = session.uid ∨ ∃ index packet,
          event = (p, .serve transport (.present index packet)) ∧
          ((net p).serving transport).sessions[index]? = some old ∧
          accept transport (keys p) old.hash packet = session.uid) :=
    ⟨session, member, rfl, rfl, rfl, .inl rfl⟩
  obtain ⟨acting, act⟩ := event
  cases act with
  | serve way event =>
      obtain ⟨openings, taken, rfl⟩ := step
      by_cases same : p = acting
      · subst same
        rw [Function.update_self] at member
        by_cases along : transport = way
        · subst along
          dsimp only at member
          rw [Function.update_self] at member
          rcases (step_sessions taken).1 session member with
            ⟨old, before, time, conv, hash, uid⟩ | ⟨time, uid, hash, nonce, event⟩
          · refine .inl ⟨old, before, time, conv, hash, ?_⟩
            rcases uid with uid | ⟨index, packet, event, found, accepted⟩
            · exact .inl uid
            · exact .inr ⟨index, packet, by rw [event], found, accepted⟩
          · exact .inr ⟨time, uid, hash, nonce, by rw [event]⟩
        · dsimp only at member
          rw [Function.update_of_ne along] at member
          exact .inl (kept member)
      · rw [Function.update_of_ne same] at member
        exact .inl (kept member)
  | connect way now received nonce =>
      obtain ⟨-, rfl⟩ := step
      by_cases same : p = acting
      · subst same
        rw [Function.update_self] at member
        exact .inl (kept member)
      · rw [Function.update_of_ne same] at member
        exact .inl (kept member)

/-- Where a reply comes from. -/
theorem answered_origin (step : (system keys).step net event next) {p : π}
    {entry : Transport × List UInt8} (member : entry ∈ (next p).answered) :
    entry ∈ (net p).answered ∨ ∃ now received nonce,
      event = (p, .connect entry.1 now received nonce) ∧
      entry.2 = received.take (size entry.1) ∧
      (reply entry.1 (keys p) now received nonce).isSome = true := by
  obtain ⟨acting, act⟩ := event
  cases act with
  | serve way event =>
      obtain ⟨openings, taken, rfl⟩ := step
      by_cases same : p = acting
      · subst same
        rw [Function.update_self] at member
        exact .inl member
      · rw [Function.update_of_ne same] at member
        exact .inl member
  | connect way now received nonce =>
      obtain ⟨replied, rfl⟩ := step
      by_cases same : p = acting
      · subst same
        rw [Function.update_self] at member
        rcases List.mem_append.mp member with before | new
        · exact .inl before
        · cases List.mem_singleton.mp new
          exact .inr ⟨now, received, nonce, rfl, rfl, replied⟩
      · rw [Function.update_of_ne same] at member
        exact .inl member

theorem Recorded.step (recorded : Recorded keys hashed net)
    (step : (system keys).step net event next) (secure : Secure keys hashed net event) :
    Recorded keys hashed next := by
  refine ⟨fun p transport session member => ?_, fun p entry member => ?_⟩
  · rcases session_origin step member with
      ⟨old, before, time, conv, hash, -⟩ | ⟨time, -, hash, nonce, rfl⟩
    · rw [← time, ← conv, ← hash]
      exact recorded.sessions p transport old before
    · refine ⟨hash, ?_⟩
      rw [time]
      exact secure
  · rcases answered_origin step member with before | ⟨now, received, nonce, rfl, whole, replied⟩
    · exact recorded.answered p entry before
    · obtain ⟨transport, data_⟩ := entry
      dsimp only at whole
      subst whole
      obtain ⟨length, other, hashes, -⟩ := reply_cases replied
      exact ⟨length, other, hashes, secure.1⟩

theorem Agreed.step (genuine : crypto.Genuine) (collides : Set.InjOn crypto.sha3 hashed)
    (recorded : Recorded keys hashed net) (agreed : Agreed keys net)
    (step : (system keys).step net event next) (secure : Secure keys hashed net event) :
    Agreed keys next := by
  have extend := extends_step step
  refine ⟨fun p transport session member q uid => ?_, fun p entry member q key => ?_⟩
  · rcases session_origin step member with
      ⟨old, before, time, conv, hash, same | ⟨index, packet, rfl, found, accepted⟩⟩ |
        ⟨-, none, -⟩
    · rw [← time, ← conv]
      exact (agreed.accepted p transport old before q (same.trans uid)).extends extend
    · obtain ⟨other, verified⟩ := accept_cases (accepted.trans uid)
      obtain ⟨hashes, inside⟩ := recorded.sessions p transport old before
      have signed := secure old found q verified
      rw [hashes] at signed
      have agrees := recorded.agrees genuine collides inside (length_challengeHead genuine) signed
      rw [challengeHead_key genuine, if_neg other] at agrees
      rw [← time, ← conv]
      exact agrees.extends extend
    · rw [none] at uid
      cases uid
  · rcases answered_origin step member with before | ⟨now, received, nonce, rfl, whole, replied⟩
    · exact (agreed.answered p entry before q key).extends extend
    · obtain ⟨transport, data_⟩ := entry
      dsimp only at whole
      subst whole
      obtain ⟨length, other, hashes, verified⟩ := reply_cases replied
      obtain ⟨inside, unforged⟩ := secure
      dsimp only at key verified
      rw [key] at verified
      have signed := unforged q verified
      rw [← hashes] at signed
      have agrees := recorded.agrees genuine collides inside (length_head length) signed
      rw [head_key, if_pos key] at agrees
      exact agrees.extends extend

theorem agreed_of_reachable (genuine : crypto.Genuine)
    (collides : Set.InjOn crypto.sha3 hashed)
    (reachable : ((system keys).guarded (Secure keys hashed)).Reachable net) :
    Recorded keys hashed net ∧ Agreed keys net := by
  apply reachable.invariant
  · rintro net ⟨clock, rfl⟩
    exact ⟨⟨fun _ _ _ member => absurd member List.not_mem_nil,
      fun _ _ member => absurd member List.not_mem_nil⟩,
      fun _ _ _ member => absurd member List.not_mem_nil,
      fun _ _ member => absurd member List.not_mem_nil⟩
  · rintro net event next ⟨recorded, agreed⟩ ⟨step, secure⟩
    exact ⟨recorded.step step secure, agreed.step genuine collides recorded step secure⟩

/-- Whatever an attacker does with the network, as long as it neither signs for a party nor
finds a collision: a session whose uid is the key of a party is with another party, which has
replied to a challenge with the server's key, the time and the number of this very
session; and a challenge with the key of a party that somebody has replied to has the time
and the number of a session of that party. A signature made over one transport, or as a
server, is of no use over the other one, or as a client. -/
theorem handshake_agrees (genuine : crypto.Genuine) (collides : Set.InjOn crypto.sha3 hashed)
    (reachable : ((system keys).guarded (Secure keys hashed)).Reachable net) (p q : π)
    (transport : Transport) :
    (∀ session ∈ ((net p).serving transport).sessions,
      session.uid = some (keys q).publicKey →
        (keys q).publicKey ≠ (keys p).publicKey ∧
          Replied keys net transport (keys q).publicKey
            (challengeHead transport (keys p) session.time session.conv)) ∧
      ∀ data_, (transport, data_) ∈ (net p).answered →
        data_.take publicKeySize = (keys q).publicKey →
          Issued keys net transport (keys q).publicKey (data_.take transport.headSize) := by
  obtain ⟨recorded, agreed⟩ := agreed_of_reachable genuine collides reachable
  refine ⟨fun session member uid => ?_, fun data_ member => agreed.answered p _ member q⟩
  have replied := agreed.accepted p transport session member q uid
  refine ⟨?_, replied⟩
  obtain ⟨client, key, data_, answered, same⟩ := replied
  have other := (recorded.answered client _ answered).2.1
  rw [← head_key, ← same, challengeHead_key genuine, key] at other
  exact other

end Runs

section Sample

open Openings (sample sampleServer sampleClient sampleOpened sample_genuine)

/-- A server and a client. -/
def sampleKeys : Bool → Server sample
  | true => sampleServer
  | false => sampleClient

/-- The challenge of the server, and the reply of the client. -/
def sampleSent : List UInt8 := (sampleOpened 20).sent

def samplePacket : List UInt8 := (reply .tcp sampleClient 20 sampleSent 0).getD []

/-- The only head hashed. -/
def sampleHead : List UInt8 := challengeHead .tcp sampleServer 20 0

/-- The server has accepted the client. -/
theorem handshake_agrees_one : ∃ net : Bool → Party,
    ((system sampleKeys).guarded (Secure sampleKeys {sampleHead})).Reachable net ∧
      Replied sampleKeys net .tcp sampleClient.publicKey sampleHead := by
  have begun : ((system sampleKeys).guarded (Secure sampleKeys {sampleHead})).Reachable
      fun _ => ⟨fun _ => ⟨20, []⟩, []⟩ := .initial ⟨fun _ _ => 20, rfl⟩
  have opened := begun.step (show ((system sampleKeys).guarded _).step _
      (true, .serve .tcp (.open 0 0)) _ from
    ⟨⟨⟨20, [sampleOpened 20]⟩, by decide +kernel, rfl⟩, rfl⟩)
  have replied := opened.step (show ((system sampleKeys).guarded _).step _
      (false, .connect .tcp 20 sampleSent 0) _ from
    ⟨⟨by decide +kernel, rfl⟩, by decide +kernel, Bool.forall_bool.mpr
      ⟨fun verified => absurd verified (by decide +kernel),
        fun _ => ⟨true, rfl, .inl ⟨.tcp, _, List.mem_singleton.mpr rfl, by decide +kernel⟩⟩⟩⟩)
  have accepted := replied.step (show ((system sampleKeys).guarded _).step _
      (true, .serve .tcp (.present 0 samplePacket)) _ from
    ⟨⟨⟨20, [{ sampleOpened 20 with presented := true, uid := some sampleClient.publicKey }]⟩,
      by decide +kernel, rfl⟩, by
        rintro session ⟨⟩
        exact Bool.forall_bool.mpr
          ⟨fun _ => ⟨false, rfl, .inr ⟨_, List.mem_singleton.mpr rfl, by decide +kernel⟩⟩,
            fun verified => absurd verified (by decide +kernel)⟩⟩)
  exact ⟨_, accepted, (handshake_agrees sample_genuine (Set.injOn_singleton _ _) accepted true
    false .tcp).1 { sampleOpened 20 with presented := true, uid := some sampleClient.publicKey }
      (List.mem_singleton.mpr rfl) rfl |>.2⟩

end Sample

end Party

end Nicenet
