import Mathlib.Data.List.Nodup
import Nicenet.Kcp.Transport

/-!
# A KCP server with its handshakes

One server and whatever datagrams come in, from whatever endpoints. A reply names no session:
it gets the one that waits for its endpoint, if there is one, and the buffer it is read from
still has the bytes of earlier datagrams. Nevertheless each session gets one reply at most, and
that reply is judged as `accept` judges it.
-/

namespace Nicenet.Kcp

open Library

/-- A server. `opened` has what `init` has sent to a session and what has come back,
`challenged` the sessions with a challenge in order, and `posted` the tasks of datagrams;
`received` only records the datagrams, as far as they fit into a buffer. -/
structure Serving (ι : Type) where
  now : UInt64
  server : KcpServer ι
  opened : ι → Option Opened
  challenged : List ι
  receivers : Receivers
  posted : List Action
  given : ι → Given
  received : List (Endpoint × List UInt8)

namespace Serving

variable {ι : Type}

def fresh (now : UInt64) : Serving ι where
  now := now
  server := .fresh
  opened _ := none
  challenged := []
  receivers := .start .server
  posted := []
  given _ := .fresh
  received := []

/-- A reply has been taken for a session, with the uid that it gives. -/
def replied (uid : Option Uid) (opened : Opened) : Opened :=
  { opened with presented := true, uid := uid }

def m_hash (s : Serving ι) (session : ι) : List UInt8 :=
  ((s.opened session).map Opened.hash).getD []

/-- The tasks that a handler posts for datagrams of the types 3 and 4. -/
def posts : Action → List Action
  | .input workerIndex uid data_ => [.input workerIndex uid data_]
  | .message uid recvMsg => [.message uid recvMsg]
  | .hello | .reply _ | .nothing => []

section Steps

variable (table : ι → Identity) {crypto : Crypto} (keys : Server crypto) (heap : Heap)

/-- What `startReceive` makes of a reply for a session with some hash. -/
def checked (hash_ : List UInt8) (data_ : Option (List UInt8)) : Option Uid :=
  data_.bind fun data_ =>
    if checkSign keys data_ hash_ then some (data_.take publicKeySize) else none

/-- The challenge of `init`, for the worker that the session is on. -/
def challenge (s : Serving ι) (session : ι) (nonce : Nat) : Option Opened :=
  (KcpSessionS.init keys s.now (table session).m_conv nonce).map fun sent =>
    ⟨s.now, (table session).m_conv,
      challengeHash .kcp keys s.now (table session).m_conv, sent, false, none⟩

variable [DecidableEq ι]

/-- A session of its own for a hello. -/
def hello (s : Serving ι) (session : ι) (nonce : Nat) : Serving ι :=
  let opened := s.challenge table keys session nonce
  { s with
    server := s.server.init session
    opened := Function.update s.opened session opened
    challenged := s.challenged ++ (opened.map fun _ => session).toList }

/-- A reply for the session that waits for its endpoint. -/
def reply (s : Serving ι) (endpoint : Endpoint) (data_ : Option (List UInt8)) : Serving ι :=
  match s.server.preSessions endpoint with
  | none => { s with server := s.server.reply endpoint false }
  | some ks =>
      let uid := checked keys (s.m_hash ks) data_
      { s with
        server := s.server.reply endpoint uid.isSome
        opened := Function.update s.opened ks ((s.opened ks).map (replied uid)) }

/-- A datagram has been read. -/
def perform (s : Serving ι) (endpoint : Endpoint) (session : ι) (nonce : Nat) :
    Action → Serving ι
  | .hello => s.hello table keys session nonce
  | .reply data_ => s.reply keys endpoint data_
  | action => { s with posted := s.posted ++ posts action }

/-- The table has of a session where its hello comes from, and the uid that it gets. -/
def Fits (s : Serving ι) (endpoint : Endpoint) (session : ι) : Action → Prop
  | .hello => s.server.created session = false ∧ (table session).endpoint = endpoint
  | .reply data_ => ∀ ks uid, s.server.preSessions endpoint = some ks →
      checked keys (s.m_hash ks) data_ = some uid → (table ks).uid = uid
  | _ => True

/-- What happens to the registry apart from datagrams. A challenge that could not be signed
is not sent. -/
def Internal (s : Serving ι) : KcpServer.Event ι → Prop
  | .hello _ | .reply _ _ => False
  | .sent session => (s.opened session).isSome
  | _ => True

inductive Event (ι : Type) where
  | tick (now : UInt64)
  | server (event : KcpServer.Event ι)
  | arrive (index : Nat) (endpoint : Endpoint) (datagram : List UInt8) (session : ι) (nonce : Nat)
  | run (index : Nat) (milliSeconds : UInt64)
  deriving DecidableEq, Repr

/-- Every order of the steps, up to a copy that leaves its buffer. -/
def system (now : UInt64) : Transition (Serving ι) (Event ι) where
  initial s := s = fresh now
  step s event next :=
    match event with
    | .tick now => next = { s with now := now }
    | .server event => s.Internal event ∧ ∃ server, s.server.step table event = some server ∧
        next = { s with server := server }
    | .arrive index endpoint datagram session nonce => ∃ buffer handled receivers,
        s.receivers[index]? = some buffer ∧
        KcpServerImpl.startReceive heap (buffer.receive datagram) (bytesRecvd datagram) =
          .ok handled ∧
        Receivers.step .server heap s.receivers (index, datagram) = some receivers ∧
        s.Fits table keys endpoint session handled.action ∧
        next = { s.perform table keys endpoint session nonce handled.action with
          receivers := receivers
          received := s.received ++ [(endpoint, datagram.take networkBufSize)] }
    | .run index milliSeconds => ∃ action, s.posted[index]? = some action ∧
        next = { s with
          posted := s.posted.eraseIdx index
          given := s.server.deliver milliSeconds s.given action }

end Steps

/-! ## What a reply says -/

section Handlers

variable {crypto : Crypto} {keys : Server crypto} {heap : Heap} {buffer : Buffer}
variable {datagram : List UInt8} {handled : Handled}

theorem receive_take (buffer : Buffer) (datagram : List UInt8) :
    buffer.receive (datagram.take networkBufSize) = buffer.receive datagram := by
  simp only [Buffer.receive, List.take_take, Nat.min_self]

/-- The buffer starts with the datagram, as far as it fits. -/
theorem receive_holds (buffer : Buffer) (datagram : List UInt8) :
    datagram.take networkBufSize <+: (buffer.receive datagram).bytes := by
  rw [← receive_take, Buffer.receive_bytes _ (List.length_take_le _ _)]
  exact List.prefix_append _ _

theorem length_received (datagram : List UInt8) :
    (datagram.take networkBufSize).length = bytesRecvd datagram :=
  List.length_take

/-- What a datagram has been for what the handler does with it. -/
inductive Reads (buffer : Buffer) (bytesRecvd : Nat) : Action → Prop where
  | hello : Reads buffer bytesRecvd .hello
  | reply (type : buffer.packetType = 2) :
      Reads buffer bytesRecvd (.reply (if bytesRecvd ≥ publicKeySize + signSize + 1 then
        some (Bytes.slice buffer.cStr 1 (publicKeySize + signSize)) else none))
  | input (type : buffer.packetType = 3) (long : ikcpOverhead ≤ bytesRecvd)
      (inside : buffer.workerIndex.toNat < workThreadCount) :
      Reads buffer bytesRecvd (.input ⟨buffer.workerIndex.toNat, inside⟩ buffer.uid
        (Bytes.slice buffer.cStr (1 + publicKeySize) (bytesRecvd - 1 - publicKeySize)))
  | message (type : buffer.packetType = 4) (long : 1 + publicKeySize < bytesRecvd)
      (recvMsg : Message) : Reads buffer bytesRecvd (.message buffer.uid recvMsg)
  | nothing : Reads buffer bytesRecvd .nothing

theorem startReceive_reads {bytesRecvd : Nat}
    (handles : KcpServerImpl.startReceive heap buffer bytesRecvd = .ok handled) :
    Reads buffer bytesRecvd handled.action := by
  rw [KcpServerImpl.startReceive] at handles
  split at handles
  · cases handles
    exact .hello
  · split at handles
    · next type =>
      cases handles
      exact .reply type
    · split at handles
      · next input =>
        cases handles
        rw [receiveInput]
        split
        · next inside => exact .input input.1 input.2 inside
        · exact .nothing
      · split at handles
        · next message =>
          rw [receiveMessage_eq] at handles
          split at handles
          · cases handles
            exact .nothing
          · split at handles
            · cases handles
            · cases handles
              exact .message message.1 message.2 _
        · cases handles
          exact .nothing

/-- Only the key and the signature are looked at. -/
theorem checkSign_take (data_ hash_ : List UInt8) :
    checkSign keys (data_.take (publicKeySize + signSize)) hash_ = checkSign keys data_ hash_ := by
  have key : (data_.take (publicKeySize + signSize)).take publicKeySize =
      data_.take publicKeySize := by
    rw [List.take_take, Nat.min_eq_left (Nat.le_add_right _ _)]
  have signature : Bytes.slice (data_.take (publicKeySize + signSize)) publicKeySize signSize =
      Bytes.slice data_ publicKeySize signSize := by
    rw [Bytes.slice, Bytes.slice, List.drop_take, Nat.add_sub_cancel_left, List.take_take,
      Nat.min_self]
  rw [checkSign, checkSign, key, signature]

/-- Whatever the buffer has had before, a reply is judged by the bytes of its datagram. -/
theorem checked_reply (hash_ : List UInt8) (type : (buffer.receive datagram).packetType = 2) :
    checked keys hash_ (if bytesRecvd datagram ≥ publicKeySize + signSize + 1 then
      some (Bytes.slice (buffer.receive datagram).cStr 1 (publicKeySize + signSize)) else none) =
      accept .kcp keys hash_ (datagram.take networkBufSize) := by
  have holds := receive_holds buffer datagram
  have length := length_received datagram
  generalize datagram.take networkBufSize = received at holds length
  rw [← length, accept]
  have tag : Transport.kcp.tag = [2] := rfl
  by_cases short : received.length < publicKeySize + signSize + 1
  · rw [if_neg (by omega), if_pos (by rw [tag, List.length_singleton]; omega)]
    rfl
  · have nonempty : received ≠ [] := List.ne_nil_of_length_pos (by omega)
    rw [packetType_eq holds nonempty] at type
    cases received with
    | nil => exact absurd rfl nonempty
    | cons first received =>
        obtain rfl : first = 2 := type
        have front : Bytes.slice (2 :: received) 1 (publicKeySize + signSize) =
            received.take (publicKeySize + signSize) := rfl
        have long : ¬(2 :: received).length < Transport.kcp.tag.length + publicKeySize +
            signSize := by
          rw [tag, List.length_singleton]
          exact fun fewer => short (by omega)
        rw [if_pos (Nat.le_of_not_lt short), slice_cStr holds (by omega), front, if_neg long,
          if_neg (by rw [tag]; exact fun other => other rfl), checked, Option.bind_some,
          checkSign_take, List.take_take, Nat.min_eq_left (Nat.le_add_right _ _)]
        rfl

theorem checked_accept {data_ : Option (List UInt8)} (hash_ : List UInt8)
    (handles : KcpServerImpl.startReceive heap (buffer.receive datagram)
      (bytesRecvd datagram) = .ok handled) (action : handled.action = .reply data_) :
    checked keys hash_ data_ = accept .kcp keys hash_ (datagram.take networkBufSize) := by
  have reads := startReceive_reads handles
  rw [action] at reads
  cases reads with
  | reply type => exact checked_reply hash_ type

end Handlers

end Serving

/-! ## Sessions without a reply -/

namespace KcpServer

variable {ι : Type} {table : ι → Identity} {s next : KcpServer ι}

/-- The challenge of a session is being sent, or its reply may still come. -/
def Waits (s : KcpServer ι) (session : ι) : Prop :=
  s.sending session = true ∨ ∃ endpoint, s.preSessions endpoint = some session

/-- No session begins to wait. -/
structure Calm (s next : KcpServer ι) : Prop where
  created : next.created = s.created
  sending : next.sending = s.sending
  preSessions : ∀ {endpoint session}, next.preSessions endpoint = some session →
    s.preSessions endpoint = some session

theorem Calm.waits (calm : Calm s next) {session : ι} (waits : next.Waits session) :
    s.Waits session := by
  rw [Waits, calm.sending] at waits
  exact waits.imp_right fun ⟨endpoint, found⟩ => ⟨endpoint, calm.preSessions found⟩

theorem update_none {endpoint other : Endpoint} {session : ι}
    (found : Function.update s.preSessions endpoint none other = some session) :
    s.preSessions other = some session := by
  rcases update_preSessions found with ⟨-, value⟩ | before
  · cases value
  · exact before

theorem reply_calm (s : KcpServer ι) (endpoint : Endpoint) (accepted : Bool) :
    Calm s (s.reply endpoint accepted) := by
  rw [reply]
  cases s.preSessions endpoint with
  | none => exact ⟨rfl, rfl, update_none⟩
  | some session => cases accepted <;> exact ⟨rfl, rfl, update_none⟩

variable [DecidableEq ι]

theorem Frame.calm (frame : Frame s next) : Calm s next where
  created := frame.created
  sending := frame.sending
  preSessions found := by rwa [frame.preSessions] at found

/-- Only a hello and the end of a send make a session wait. -/
theorem step_calm {event : Event ι} (taken : s.step table event = some next)
    (hello : ∀ session, event ≠ .hello session) (sent : ∀ session, event ≠ .sent session) :
    Calm s next := by
  cases step_takes taken with
  | hello new => exact absurd rfl (hello _)
  | sent sending => exact absurd rfl (sent _)
  | expired waits => exact ⟨rfl, rfl, update_none⟩
  | reply => exact s.reply_calm _ _
  | close created => exact (s.close_frame _).calm
  | timeout running => exact (s.removeSelf_frame _).calm
  | @main task tasks waiting =>
      have calm : Calm { s with main := tasks } ({ s with main := tasks }.runMain table task) :=
        (runMain_frame _ _).calm
      exact ⟨calm.created, calm.sending, calm.preSessions⟩
  | @worker worker task tasks waiting =>
      let popped := { s with workers := Function.update s.workers worker tasks }
      have calm : Calm popped (popped.runWorker table worker task) := (runWorker_frame _ _ _).calm
      exact ⟨calm.created, calm.sending, calm.preSessions⟩

theorem init_waits {session other : ι} (waits : (s.init other).Waits session) :
    s.Waits session ∨ session = other := by
  by_cases same : session = other
  · exact .inr same
  · simpa only [Waits, init, Function.update_of_ne same, same, or_false] using waits

theorem init2_waits {session other : ι} (sending : s.sending other = true)
    (waits : (s.init2 table other).Waits session) : s.Waits session := by
  rcases waits with sends | ⟨endpoint, found⟩
  · by_cases same : session = other
    · exact .inl (same ▸ sending)
    · simp only [init2, Function.update_of_ne same] at sends
      exact .inl sends
  · rcases update_preSessions found with ⟨-, value⟩ | before
    · cases value
      exact .inl sending
    · exact .inr ⟨endpoint, before⟩

/-- A session whose reply has been taken does not wait for another one. -/
theorem Once.reply_waits (once : s.Once table) {endpoint : Endpoint} {accepted : Bool} {ks : ι}
    (found : s.preSessions endpoint = some ks) : ¬(s.reply endpoint accepted).Waits ks := by
  have home := once.homed endpoint ks found
  have places := once.places_le ks
  rw [KcpServer.places, home, found, mark_self] at places
  have calm := s.reply_calm endpoint accepted
  have erased : (s.reply endpoint accepted).preSessions endpoint = none := by
    rw [reply, found]
    cases accepted <;> exact Function.update_self _ _ _
  rintro (sending | ⟨other, again⟩)
  · rw [calm.sending] at sending
    rw [sending, Bool.toNat_true] at places
    omega
  · have same : other = endpoint := (once.homed other ks (calm.preSessions again)).symm.trans home
    rw [same, erased] at again
    cases again

end KcpServer

/-! ## Every run -/

namespace Serving

variable {ι : Type} [DecidableEq ι] {table : ι → Identity} {crypto : Crypto} {keys : Server crypto}
variable {heap : Heap} {now : UInt64} {s next : Serving ι}

/-- What a session has of its challenge, and that it has no uid while it waits for a reply. -/
structure Kept (table : ι → Identity) (keys : Server crypto) (s : Serving ι) : Prop where
  registry : (KcpServer.system table).Reachable s.server
  written : ∀ {session opened}, s.opened session = some opened →
    s.server.created session = true ∧ opened.conv = (table session).m_conv ∧
      opened.hash = challengeHash .kcp keys opened.time opened.conv
  waiting : ∀ {session}, s.server.Waits session → ∀ opened ∈ s.opened session,
    opened.presented = false ∧ opened.uid = none
  asked : ∀ {endpoint session}, s.server.preSessions endpoint = some session →
    (s.opened session).isSome = true

theorem kept_fresh : (fresh now : Serving ι).Kept table keys where
  registry := .initial rfl
  written found := by cases found
  waiting _ _ found := by cases found
  asked found := by cases found

/-- The handshakes go on as far as the registry has them. -/
theorem Kept.calm (kept : s.Kept table keys) {server : KcpServer ι}
    (reachable : (KcpServer.system table).Reachable server)
    (calm : KcpServer.Calm s.server server) : Kept table keys { s with server := server } where
  registry := reachable
  written found := by
    have written := kept.written found
    rwa [← calm.created] at written
  waiting waits := kept.waiting (calm.waits waits)
  asked found := kept.asked (calm.preSessions found)

theorem Kept.server (kept : s.Kept table keys) {event : KcpServer.Event ι} {server : KcpServer ι}
    (internal : s.Internal event) (taken : s.server.step table event = some server) :
    Kept table keys { s with server := server } := by
  have reachable : (KcpServer.system table).Reachable server := .step kept.registry taken
  cases event with
  | hello session => exact internal.elim
  | sent session =>
      obtain ⟨sending, ⟨⟩⟩ := Option.ite_none_right_eq_some.mp taken
      refine ⟨reachable, kept.written,
        fun waits => kept.waiting (KcpServer.init2_waits sending waits),
        fun {endpoint other} found => ?_⟩
      rcases KcpServer.update_preSessions found with ⟨-, value⟩ | before
      · cases value
        exact internal
      · exact kept.asked before
  | expired | close | timeout | main | worker =>
      exact kept.calm reachable (KcpServer.step_calm taken (by simp) (by simp))
  | reply => exact internal.elim

theorem Kept.unknown (kept : s.Kept table keys) {session : ι}
    (new : s.server.created session = false) : s.opened session = none := by
  cases found : s.opened session with
  | none => rfl
  | some opened => cases new.symm.trans (kept.written found).1

theorem Kept.hello (kept : s.Kept table keys) {session : ι}
    (new : s.server.created session = false) (nonce : Nat) :
    (s.hello table keys session nonce).Kept table keys := by
  have reachable := KcpServer.reachable_init kept.registry new
  have unknown := kept.unknown new
  have created : ∀ {other}, s.server.created other = true →
      (s.server.init session).created other = true := by
    intro other before
    have differ : other ≠ session := by
      rintro rfl
      cases new.symm.trans before
    exact (Function.update_of_ne differ _ _).trans before
  refine ⟨reachable, fun {other} opened found => ?_, fun {other} waits opened found => ?_,
    fun {endpoint other} found => ?_⟩
  · simp only [Serving.hello, Function.update_apply] at found
    split at found
    · next same =>
      obtain ⟨sent, -, rfl⟩ := Option.map_eq_some_iff.mp found
      rw [same]
      exact ⟨Function.update_self _ _ _, rfl, rfl⟩
    · obtain ⟨before, written⟩ := kept.written found
      exact ⟨created before, written⟩
  · simp only [Serving.hello, Option.mem_def, Function.update_apply] at found
    split at found
    · obtain ⟨sent, -, rfl⟩ := Option.map_eq_some_iff.mp found
      exact ⟨rfl, rfl⟩
    · next differ =>
      exact kept.waiting ((KcpServer.init_waits waits).resolve_right differ) opened found
  · have asked := kept.asked found
    have differ : other ≠ session := by
      rintro rfl
      rw [unknown] at asked
      cases asked
    simp only [Serving.hello, Function.update_of_ne differ]
    exact asked

theorem Kept.reply (kept : s.Kept table keys) (endpoint : Endpoint)
    (data_ : Option (List UInt8)) : (s.reply keys endpoint data_).Kept table keys := by
  have reachable := KcpServer.reachable_reply kept.registry endpoint
  rw [Serving.reply]
  cases found : s.server.preSessions endpoint with
  | none => exact kept.calm (reachable _) (s.server.reply_calm _ _)
  | some ks =>
      have calm := s.server.reply_calm endpoint (checked keys (s.m_hash ks) data_).isSome
      refine ⟨reachable _, fun {session} opened found => ?_, fun {session} waits opened other => ?_,
        fun {other session} waits => ?_⟩
      · rw [calm.created]
        simp only [Function.update_apply] at found
        split at found
        · next same =>
          obtain ⟨before, asked, rfl⟩ := Option.map_eq_some_iff.mp found
          have written := kept.written asked
          rw [same]
          exact written
        · exact kept.written found
      · have differ : session ≠ ks := by
          rintro rfl
          exact (KcpServer.reachable_once kept.registry).reply_waits found waits
        simp only [Function.update_of_ne differ] at other
        exact kept.waiting (calm.waits waits) opened other
      · have asked := kept.asked (calm.preSessions waits)
        simp only [Function.update_apply]
        split
        · next same =>
          rw [same] at asked
          rwa [Option.isSome_map]
        · exact asked

theorem Kept.step {event : Event ι} (kept : s.Kept table keys)
    (taken : (system table keys heap now).step s event next) : next.Kept table keys := by
  cases event with
  | tick now =>
      obtain rfl := taken
      exact ⟨kept.registry, kept.written, kept.waiting, kept.asked⟩
  | server event =>
      obtain ⟨internal, server, taken, rfl⟩ := taken
      exact kept.server internal taken
  | arrive index endpoint datagram session nonce =>
      obtain ⟨buffer, handled, receivers, -, -, -, fits, rfl⟩ := taken
      have kept : (s.perform table keys endpoint session nonce handled.action).Kept table keys := by
        cases action : handled.action with
        | hello =>
            rw [action] at fits
            exact kept.hello fits.1 nonce
        | reply data_ => exact kept.reply endpoint data_
        | input | message | nothing =>
            exact ⟨kept.registry, kept.written, kept.waiting, kept.asked⟩
      exact ⟨kept.registry, kept.written, kept.waiting, kept.asked⟩
  | run index milliSeconds =>
      obtain ⟨action, -, rfl⟩ := taken
      exact ⟨kept.registry, kept.written, kept.waiting, kept.asked⟩

theorem kept_of_reachable (reachable : (system table keys heap now).Reachable s) :
    s.Kept table keys := by
  apply reachable.invariant
  · rintro s rfl
    exact kept_fresh
  · exact fun s event next kept taken => kept.step taken

/-! ## The handshakes of a server -/

/-- The sessions with a challenge are those of `openings`, in the same order. -/
structure Mirrors (s : Serving ι) (openings : Openings) : Prop where
  now : openings.now = s.now
  sessions : openings.sessions.map some = s.challenged.map s.opened
  challenged : ∀ session, session ∈ s.challenged ↔ (s.opened session).isSome = true
  nodup : s.challenged.Nodup

omit [DecidableEq ι] in
theorem toNat_m_conv (session : ι) :
    (table session).m_conv.toNat = (table session).worker.val := by
  rw [Identity.m_conv, UInt32.toNat_ofNat']
  exact Nat.mod_eq_of_lt (Nat.lt_trans (table session).worker.isLt (by decide))

omit [DecidableEq ι] in
/-- What `openings` does for the worker of a session is its challenge. -/
theorem opened_challenge {openings : Openings} (same : openings.now = s.now) (session : ι)
    (nonce : Nat) :
    openings.opened .kcp keys (table session).m_conv nonce = { openings with
      sessions := openings.sessions ++ (s.challenge table keys session nonce).toList } := by
  obtain ⟨now, sessions⟩ := openings
  obtain rfl : now = s.now := same
  rw [Openings.opened, challenge, KcpSessionS.init]
  cases Nicenet.challenge .kcp keys s.now (table session).m_conv nonce with
  | none => rw [Option.map_none, Option.toList_none, List.append_nil]
  | some sent => rfl

/-- A hello opens a session, if its challenge can be signed. -/
theorem Mirrors.hello {openings : Openings} (mirrors : s.Mirrors openings)
    {session : ι} (unknown : s.opened session = none) (nonce : Nat) :
    (s.hello table keys session nonce).Mirrors
      (openings.opened .kcp keys (table session).m_conv nonce) := by
  have new : session ∉ s.challenged := by
    rw [mirrors.challenged, unknown]
    exact Bool.false_ne_true
  have same : ∀ opened, s.challenged.map (Function.update s.opened session opened) =
      s.challenged.map s.opened := by
    intro opened
    rw [mirrors.nodup.map_update, if_neg new]
  rw [opened_challenge mirrors.now session nonce, Serving.hello]
  cases s.challenge table keys session nonce with
  | none =>
      have unchanged : Function.update s.opened session none = s.opened :=
        Function.update_eq_self_iff.mpr unknown.symm
      simp only [Option.map_none, Option.toList_none, List.append_nil, unchanged]
      exact ⟨mirrors.now, mirrors.sessions, mirrors.challenged, mirrors.nodup⟩
  | some opened =>
      refine ⟨mirrors.now, ?_, fun other => ?_, ?_⟩
      · simp only [Option.map_some, Option.toList_some, List.map_append, mirrors.sessions, same,
          List.map_singleton, Function.update_self]
      · simp only [Option.map_some, Option.toList_some, List.mem_append, List.mem_singleton,
          mirrors.challenged, Function.update_apply]
        split
        · next same => simp [same]
        · next differ => simp [differ]
      · refine List.nodup_append.mpr ⟨mirrors.nodup, List.nodup_singleton _, ?_⟩
        rintro other member last single rfl
        rw [Option.map_some, Option.toList_some, List.mem_singleton] at single
        exact new (single ▸ member)

/-- A reply that finds a session is presented to it. -/
theorem Mirrors.reply {openings : Openings} (mirrors : s.Mirrors openings) {endpoint : Endpoint}
    {ks : ι} {opened : Opened} {data_ : Option (List UInt8)} {packet : List UInt8}
    (found : s.server.preSessions endpoint = some ks) (asked : s.opened ks = some opened)
    (unanswered : opened.presented = false)
    (judged : checked keys opened.hash data_ = accept .kcp keys opened.hash packet) :
    ∃ event later, openings.step .kcp keys event = some later ∧
      (s.reply keys endpoint data_).Mirrors later := by
  have member : ks ∈ s.challenged := by
    rw [mirrors.challenged, asked]
    rfl
  have there : openings.sessions[s.challenged.idxOf ks]? = some opened := by
    have entry := congrArg (·[s.challenged.idxOf ks]?) mirrors.sessions
    simp only [List.getElem?_map, List.getElem?_idxOf member, Option.map_some, asked] at entry
    obtain ⟨other, there, same⟩ := Option.map_eq_some_iff.mp entry
    rw [there, Option.some.inj same]
  have hash : s.m_hash ks = opened.hash := by
    rw [m_hash, asked]
    rfl
  refine ⟨.present (s.challenged.idxOf ks) packet, { openings with
    sessions := openings.sessions.set (s.challenged.idxOf ks)
      (replied (accept .kcp keys opened.hash packet) opened) }, ?_, ?_⟩
  · simp only [Openings.step, there, unanswered, Bool.false_eq_true, if_false]
    rfl
  · simp only [Serving.reply, found, hash, judged, asked, Option.map_some]
    refine ⟨mirrors.now, ?_, fun session => ?_, mirrors.nodup⟩
    · rw [List.map_set, mirrors.sessions, mirrors.nodup.map_update, if_pos member]
    · simp only [mirrors.challenged, Function.update_apply]
      split
      · next same => rw [same, asked]; rfl
      · rfl

/-- Every step of a server is one of its handshakes, or leaves them as they are. -/
theorem Mirrors.step {event : Event ι} {openings : Openings} (mirrors : s.Mirrors openings)
    (kept : s.Kept table keys)
    (taken : (system table keys heap now).step s event next) :
    next.Mirrors openings ∨ ∃ event later, openings.step .kcp keys event = some later ∧
      next.Mirrors later := by
  cases event with
  | tick now =>
      obtain rfl := taken
      exact .inr ⟨.tick now, _, rfl, rfl, mirrors.sessions, mirrors.challenged, mirrors.nodup⟩
  | server event =>
      obtain ⟨-, server, -, rfl⟩ := taken
      exact .inl ⟨mirrors.now, mirrors.sessions, mirrors.challenged, mirrors.nodup⟩
  | arrive index endpoint datagram session nonce =>
      obtain ⟨buffer, handled, receivers, -, handles, -, fits, rfl⟩ := taken
      suffices step : (s.perform table keys endpoint session nonce handled.action).Mirrors
          openings ∨ ∃ event later, openings.step .kcp keys event = some later ∧
            (s.perform table keys endpoint session nonce handled.action).Mirrors later by
        rcases step with mirrors | ⟨event, later, taken, mirrors⟩
        · exact .inl ⟨mirrors.now, mirrors.sessions, mirrors.challenged, mirrors.nodup⟩
        · exact .inr ⟨event, later, taken, mirrors.now, mirrors.sessions, mirrors.challenged,
            mirrors.nodup⟩
      cases action : handled.action with
      | hello =>
          rw [action] at fits
          have inside : (table session).m_conv.toNat < workThreadCount := by
            rw [toNat_m_conv]
            exact (table session).worker.isLt
          refine .inr ⟨.open (table session).m_conv nonce, _, if_pos inside,
            mirrors.hello (kept.unknown fits.1) nonce⟩
      | reply data_ =>
          cases found : s.server.preSessions endpoint with
          | none =>
              left
              rw [perform, Serving.reply, found]
              exact ⟨mirrors.now, mirrors.sessions, mirrors.challenged, mirrors.nodup⟩
          | some ks =>
              obtain ⟨opened, asked⟩ := Option.isSome_iff_exists.mp (kept.asked found)
              exact .inr (mirrors.reply found asked
                (kept.waiting (.inr ⟨endpoint, found⟩) opened asked).1
                (checked_accept opened.hash handles action))
      | input | message | nothing =>
          exact .inl ⟨mirrors.now, mirrors.sessions, mirrors.challenged, mirrors.nodup⟩
  | run index milliSeconds =>
      obtain ⟨action, -, rfl⟩ := taken
      exact .inl ⟨mirrors.now, mirrors.sessions, mirrors.challenged, mirrors.nodup⟩

/-- Whatever datagrams arrive, from wherever, and in every order of the steps: the handshakes
of the server are those of a run of `Openings`, in which every session gets one reply at
most and is judged by the bytes of that reply alone. -/
theorem handshakes_refine (reachable : (system table keys heap now).Reachable s) :
    ∃ openings, (Openings.system .kcp keys now).Reachable openings ∧ s.Mirrors openings := by
  induction reachable with
  | initial first =>
      obtain rfl := first
      exact ⟨⟨now, []⟩, .initial rfl, rfl, rfl, fun _ => iff_of_false List.not_mem_nil
        Bool.false_ne_true, List.nodup_nil⟩
  | step reachable taken ih =>
      obtain ⟨openings, opened, mirrors⟩ := ih
      rcases mirrors.step (kept_of_reachable reachable) taken with same | ⟨event, later, step, next⟩
      · exact ⟨openings, opened, same⟩
      · exact ⟨later, opened.step step, next⟩

/-- A datagram has been read from one of the receivers, which waits again. -/
theorem arrived (reachable : (system table keys heap now).Reachable s) {index : Nat}
    {endpoint : Endpoint} {datagram : List UInt8} {session : ι} {nonce : Nat} {buffer : Buffer}
    {action : Action} (there : s.receivers[index]? = some buffer)
    (handles : KcpServerImpl.startReceive heap (buffer.receive datagram) (bytesRecvd datagram) =
      .ok ⟨action, true⟩)
    (fits : s.Fits table keys endpoint session action) :
    (system table keys heap now).Reachable
      { s.perform table keys endpoint session nonce action with
        receivers := s.receivers.set index (buffer.receive datagram)
        received := s.received ++ [(endpoint, datagram.take networkBufSize)] } := by
  have received : Receivers.step .server heap s.receivers (index, datagram) =
      some (s.receivers.set index (buffer.receive datagram)) := by
    simp only [Receivers.step, there, Side.handler, handles, Receivers.rearmed, if_true]
  exact reachable.step (show (system table keys heap now).step s
    (.arrive index endpoint datagram session nonce) _ from
      ⟨buffer, ⟨action, true⟩, _, there, handles, received, fits, rfl⟩)

section OneClient

open Openings (sample sampleServer sampleClient)

/-- A client at port 1000 with a key of its own. -/
def sampleTable (_ : Unit) : Identity :=
  ⟨⟨[127, 0, 0, 1], 1000⟩, ⟨0, workThreadCount_pos⟩, 0, sampleClient.publicKey⟩

def sampleSent : List UInt8 := (KcpSessionS.init sampleServer 20 0 0).getD []

def samplePacket : List UInt8 := (KcpSessionC.init sampleClient 20 sampleSent 0).getD []

/-- Its session when the challenge has been made, and when its reply has been taken. -/
def sampleOpened (uid : Option Uid) : Opened :=
  ⟨20, 0, challengeHash .kcp sampleServer 20 0, sampleSent, uid.isSome, uid⟩

/-- A server with this session. -/
def single (server : KcpServer Unit) (uid : Option Uid) (receivers : Receivers)
    (posted : List Action) (given : Given) (received : List (Endpoint × List UInt8)) :
    Serving Unit :=
  ⟨20, server, fun _ => some (sampleOpened uid), [()], receivers, posted, fun _ => given, received⟩

abbrev OneClient := system sampleTable sampleServer (.filled 0) 20

theorem update_unit {α : Type} (f : Unit → α) (value : α) :
    Function.update f () value = fun _ => value := by
  funext session
  exact Function.update_self _ _ _

/-- The client has said hello, and its challenge has been sent. -/
theorem one_challenged : OneClient.Reachable
    (single (KcpServer.init2 sampleTable (KcpServer.init .fresh ()) ()) none
      ((Receivers.start .server).set 0 (Buffer.fresh.receive [1])) [] .fresh
      [((sampleTable ()).endpoint, [1])]) := by
  have signed : (fresh 20).challenge sampleTable sampleServer () 0 = some (sampleOpened none) := by
    decide +kernel
  have handles : KcpServerImpl.startReceive (.filled 0) (Buffer.fresh.receive [1])
      (bytesRecvd [1]) = .ok ⟨.hello, true⟩ := by
    rw [KcpServerImpl.startReceive, if_pos (by decide +kernel)]
  have begun : OneClient.Reachable (fresh 20) := .initial rfl
  have asked := @arrived _ _ _ _ _ _ _ _ begun 0 _ _ () 0 .fresh _ rfl handles ⟨rfl, rfl⟩
  rw [perform, hello, signed, fresh, update_unit] at asked
  exact asked.step (show OneClient.step _ (.server (.sent ())) _ from ⟨rfl, _, rfl, rfl⟩)

variable {server : KcpServer Unit} {receivers : Receivers} {posted : List Action} {given : Given}
variable {received : List (Endpoint × List UInt8)}

theorem single_reply {endpoint : Endpoint} {data_ : Option (List UInt8)} {uid : Uid}
    (waits : server.preSessions endpoint = some ())
    (accepted : checked sampleServer (challengeHash .kcp sampleServer 20 0) data_ = some uid) :
    (single server none receivers posted given received).reply sampleServer endpoint data_ =
      single (server.reply endpoint true) (some uid) receivers posted given received := by
  have hash : (single server none receivers posted given received).m_hash () =
      challengeHash .kcp sampleServer 20 0 := rfl
  have waits : (single server none receivers posted given received).server.preSessions endpoint =
      some () := waits
  rw [reply, waits]
  simp only [hash, accepted, update_unit]
  rfl

/-- Its reply is accepted, and its worker takes the session. -/
theorem one_running : ∃ server receivers, OneClient.Reachable
    (single server (some sampleClient.publicKey) receivers [] .fresh
      [((sampleTable ()).endpoint, [1]), ((sampleTable ()).endpoint, samplePacket)]) ∧
      receivers[2]? = some .fresh ∧
      server.runningSessions (sampleTable ()).worker (sampleTable ()).uid = some () := by
  have data_ : Bytes.slice (Buffer.fresh.receive samplePacket).cStr 1
      (publicKeySize + signSize) = samplePacket.drop 1 := by
    decide +kernel
  have handles : KcpServerImpl.startReceive (.filled 0) (Buffer.fresh.receive samplePacket)
      (bytesRecvd samplePacket) = .ok ⟨.reply (some (samplePacket.drop 1)), true⟩ := by
    rw [KcpServerImpl.startReceive, if_neg (by decide +kernel), if_pos (by decide +kernel),
      if_pos (by decide +kernel), data_]
  have known : checked sampleServer (challengeHash .kcp sampleServer 20 0)
      (some (samplePacket.drop 1)) = some sampleClient.publicKey := by
    decide +kernel
  have whole : samplePacket.take networkBufSize = samplePacket := by decide +kernel
  have replied := @arrived _ _ _ _ _ _ _ _ one_challenged 1 (sampleTable ()).endpoint _ () 0 .fresh
    _ rfl handles (by
      rintro session uid - accepted
      exact Option.some.inj (known.symm.trans accepted))
  rw [perform, single_reply rfl known, whole] at replied
  have added := replied.step (show OneClient.step _ (.server .main) _ from ⟨trivial, _, rfl, rfl⟩)
  have running := added.step (show OneClient.step _
    (.server (.worker (sampleTable ()).worker)) _ from ⟨trivial, _, rfl, rfl⟩)
  exact ⟨_, _, running, rfl, by decide +kernel⟩

/-- The handshakes of this server are those of one session that has got its reply. -/
theorem handshakes_refine_one : ∃ openings : Openings,
    (Openings.system .kcp sampleServer 20).Reachable openings ∧
      openings.sessions = [sampleOpened (some sampleClient.publicKey)] := by
  obtain ⟨server, receivers, running, -⟩ := one_running
  obtain ⟨openings, opened, mirrors⟩ := handshakes_refine running
  refine ⟨openings, opened, List.map_injective_iff.mpr (Option.some_injective _) ?_⟩
  exact mirrors.sessions

end OneClient

end Serving

end Nicenet.Kcp
