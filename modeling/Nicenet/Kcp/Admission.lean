import Mathlib.Data.List.Perm.Basic
import Nicenet.Kcp.Serving

/-!
# Who is admitted to a KCP server

Datagrams are handled by whatever session their uid names, wherever they come from. What can be
relied on is where sessions come from, and that nothing reaches them that has not been received.
-/

namespace Nicenet.Kcp

open Library

namespace KcpServer

variable {ι : Type} {s next : KcpServer ι} {session other : ι}

/-- The session has gone on to the main service: it is going to be added, it is found by its
uid, its worker is going to take it, or runs it. -/
inductive Added (s : KcpServer ι) (session : ι) : Prop where
  | posted (waiting : .add session ∈ s.main)
  | registered {uid : Uid} (found : s.sessions uid = some session)
  | inserted {worker : Worker} (waiting : .insert session ∈ s.workers worker)
  | running {worker : Worker} {uid : Uid} (found : s.runningSessions worker uid = some session)

theorem Added.transfer (added : next.Added other)
    (main : .add other ∈ next.main → .add other ∈ s.main)
    (sessions : ∀ {uid}, next.sessions uid = some other → s.sessions uid = some other)
    (workers : next.workers = s.workers) (running : next.runningSessions = s.runningSessions) :
    s.Added other := by
  cases added with
  | posted waiting => exact .posted (main waiting)
  | registered found => exact .registered (sessions found)
  | inserted waiting => exact .inserted (workers ▸ waiting)
  | running found => exact .running (running ▸ found)

/-- Removals add no session. -/
theorem mem_removal (waiting : .add other ∈ s.main ++ s.removal session) :
    .add other ∈ s.main := by
  refine (List.mem_append.mp waiting).resolve_right ?_
  rw [removal]
  split
  · exact List.not_mem_nil
  · simp

theorem added_postWorker {worker : Worker} {task : WorkerTask ι}
    (added : (s.postWorker worker task).Added other) : s.Added other ∨ task = .insert other := by
  cases added with
  | posted waiting => exact .inl (.posted waiting)
  | registered found => exact .inl (.registered found)
  | running found => exact .inl (.running found)
  | inserted waiting =>
      simp only [postWorker, Function.update_apply] at waiting
      split at waiting
      · rcases List.mem_append.mp waiting with before | last
        · exact .inl (.inserted before)
        · exact .inr (List.mem_singleton.mp last).symm
      · exact .inl (.inserted waiting)

variable {table : ι → Identity}

/-- A worker runs the sessions of its tasks. -/
theorem added_runWorker {worker : Worker} {task : WorkerTask ι} {tasks : List (WorkerTask ι)}
    (waiting : s.workers worker = task :: tasks)
    (added : ({ s with workers := Function.update s.workers worker tasks }.runWorker table worker
      task).Added other) : s.Added other := by
  have frame : ∀ {next : KcpServer ι}, next.Added other →
      (.add other ∈ next.main → .add other ∈ s.main) → next.sessions = s.sessions →
      next.workers = Function.update s.workers worker tasks →
      next.runningSessions = Function.update s.runningSessions worker
        (task.apply table (s.runningSessions worker)) → s.Added other := by
    intro next added main sessions workers running
    cases added with
    | posted waiting => exact .posted (main waiting)
    | registered found => exact .registered (sessions ▸ found)
    | inserted behind =>
        rw [workers, Function.update_apply] at behind
        split at behind
        · exact .inserted (waiting ▸ List.mem_cons_of_mem _ behind)
        · exact .inserted behind
    | @running home uid found =>
        rw [running, Function.update_apply] at found
        split at found
        · cases task with
          | insert session =>
              simp only [WorkerTask.apply, Function.update_apply] at found
              split at found
              · cases found
                exact .inserted (waiting ▸ List.mem_cons_self)
              · exact .running found
          | erase session =>
              simp only [WorkerTask.apply, Function.update_apply] at found
              split at found
              · cases found
              · exact .running found
        · exact .running found
  cases task with
  | insert session =>
      refine frame added (fun waiting => ?_) rfl rfl rfl
      exact (List.mem_append.mp waiting).resolve_right (by simp)
  | erase session => exact frame added id rfl rfl rfl

variable [DecidableEq ι]

theorem added_removeSelf (added : (s.removeSelf session).Added other) : s.Added other := by
  rw [removeSelf_eq] at added
  exact added.transfer mem_removal id rfl rfl

theorem added_close (added : (s.close session).Added other) : s.Added other := by
  rw [close_eq] at added
  exact added.transfer mem_removal id rfl rfl

theorem added_removeSession {uid : Uid} {serialID : UInt64}
    (added : (s.removeSession table uid serialID).Added other) : s.Added other := by
  have sessions : ∀ {uid'}, (s.removeSession table uid serialID).sessions uid' = some other →
      s.sessions uid' = some other := removeSession_sessions s
  cases registered : s.sessions uid with
  | none =>
      rwa [removeSession_none _ registered] at added
  | some current =>
      by_cases same : (table current).serialID = serialID
      · subst same
        rw [removeSession_same registered] at added sessions
        exact added.transfer mem_removal sessions rfl rfl
      · rwa [removeSession_other registered same] at added

theorem added_addSession {uid : Uid} (added : (s.addSession uid session).Added other) :
    s.Added other ∨ other = session := by
  have sessions : (s.addSession uid session).sessions =
      Function.update s.sessions uid (some session) := addSession_sessions s uid session
  by_cases same : other = session
  · exact .inr same
  · have before : ∀ {uid'}, (s.addSession uid session).sessions uid' = some other →
        s.sessions uid' = some other := by
      intro uid' found
      rw [sessions, Function.update_apply] at found
      split at found
      · exact absurd (Option.some.inj found).symm same
      · exact found
    left
    cases registered : s.sessions uid with
    | none =>
        rw [addSession_none registered] at added before
        exact added.transfer id before rfl rfl
    | some old =>
        rw [addSession_some registered] at added before
        exact added.transfer mem_removal before rfl rfl

/-- The main service adds the sessions of its tasks. -/
theorem added_runMain {task : MainTask ι} (added : (s.runMain table task).Added other) :
    s.Added other ∨ task = .add other := by
  cases task with
  | add session =>
      rcases added_postWorker added with added | posted
      · exact (added_addSession added).imp_right fun same => congrArg MainTask.add same.symm
      · cases posted
        exact .inr rfl
  | remove session =>
      rcases added_postWorker added with added | posted
      · exact .inl (added_removeSession added)
      · cases posted
  | ready session => exact .inl added

/-- A session is added by a reply that is accepted. -/
theorem step_added {event : Event ι} (taken : s.step table event = some next)
    (added : next.Added other) :
    s.Added other ∨ ∃ endpoint, event = .reply endpoint true ∧
      s.preSessions endpoint = some other := by
  cases step_takes taken with
  | hello new => exact .inl (added.transfer id id rfl rfl)
  | sent sending => exact .inl (added.transfer id id rfl rfl)
  | expired waits => exact .inl (added.transfer id id rfl rfl)
  | @reply endpoint accepted =>
      rw [reply] at added
      cases found : s.preSessions endpoint with
      | none =>
          rw [found] at added
          exact .inl (added.transfer id id rfl rfl)
      | some ks =>
          rw [found] at added
          cases accepted with
          | false => exact .inl (added.transfer id id rfl rfl)
          | true =>
              by_cases same : ks = other
              · exact .inr ⟨endpoint, rfl, found.trans (congrArg some same)⟩
              · refine .inl (added.transfer (fun waiting => ?_) id rfl rfl)
                refine (List.mem_append.mp waiting).resolve_right fun last => ?_
                cases List.mem_singleton.mp last
                exact same rfl
  | close created => exact .inl (added_close added)
  | timeout running => exact .inl (added_removeSelf added)
  | @main task tasks waiting =>
      left
      rcases added_runMain added with added | rfl
      · exact added.transfer (fun behind => waiting ▸ List.mem_cons_of_mem _ behind) id rfl rfl
      · exact .posted (waiting ▸ List.mem_cons_self)
  | worker waiting => exact .inl (added_runWorker waiting added)

end KcpServer

namespace Serving

/-! ## What a datagram is for -/

/-- The type and the uid that a datagram starts with. -/
def Names (type : UInt8) (uid : Uid) (datagram : List UInt8) : Prop :=
  datagram.take (1 + publicKeySize) = type :: uid

instance (type : UInt8) (uid : Uid) (datagram : List UInt8) :
    Decidable (Names type uid datagram) :=
  inferInstanceAs (Decidable (_ = _))

/-- The bytes of a datagram for the control block of a session. -/
def inputFor (identity : Identity) (datagram : List UInt8) : Option (List UInt8) :=
  if Names 3 identity.uid datagram ∧ ikcpOverhead ≤ datagram.length ∧
      (UInt16.ofNat (Bytes.toNat (Bytes.slice datagram (publicKeySize + 1) 2))).toNat =
        identity.worker.val then
    some (datagram.drop (1 + publicKeySize))
  else none

/-- A message for a session, outside of KCP. -/
def MessageFor (identity : Identity) (datagram : List UInt8) : Prop :=
  Names 4 identity.uid datagram ∧ 1 + publicKeySize < datagram.length

instance (identity : Identity) : DecidablePred (MessageFor identity) :=
  fun _ => inferInstanceAs (Decidable (_ ∧ _))

/-- The bytes of a task for the control block of a session. -/
def inputOf (identity : Identity) : Action → Option (List UInt8)
  | .input workerIndex uid data_ =>
      if workerIndex = identity.worker ∧ uid = identity.uid then some data_ else none
  | .hello | .reply _ | .message _ _ | .nothing => none

/-- A task with a message for a session. -/
def isMessage (identity : Identity) : Action → Bool
  | .message uid _ => uid = identity.uid
  | .hello | .reply _ | .input _ _ _ | .nothing => false

theorem filterMap_one {α β : Type} (f : α → Option β) (entry : α) :
    [entry].filterMap f = (f entry).toList := by
  rw [List.filterMap_cons]
  cases f entry <;> rfl

theorem filterMap_posts (identity : Identity) (action : Action) :
    (posts action).filterMap (inputOf identity) = (inputOf identity action).toList := by
  cases action with
  | input => rw [posts, filterMap_one]
  | hello | reply | message | nothing => rfl

theorem countP_posts (identity : Identity) (action : Action) :
    (posts action).countP (isMessage identity) = (isMessage identity action).toNat := by
  cases action with
  | message uid recvMsg =>
      rw [posts, List.countP_singleton]
      cases isMessage identity (.message uid recvMsg) <;> rfl
  | hello | reply | input | nothing => rfl

section Datagrams

variable {heap : Heap} {buffer : Buffer} {datagram : List UInt8} {handled : Handled}
variable {identity : Identity}

theorem names_received (buffer : Buffer) (enough : 1 + publicKeySize ≤ bytesRecvd datagram) :
    Names (buffer.receive datagram).packetType (buffer.receive datagram).uid
      (datagram.take networkBufSize) := by
  have holds := receive_holds buffer datagram
  rw [← length_received] at enough
  generalize datagram.take networkBufSize = received at holds enough
  have nonempty : received ≠ [] := List.ne_nil_of_length_pos (by omega)
  rw [uid_eq holds enough, packetType_eq holds nonempty, Names]
  cases received with
  | nil => exact absurd rfl nonempty
  | cons first received =>
      rw [Nat.add_comm, List.take_succ_cons]
      rfl

/-- What a handler posts for the control block of a session is what its datagram has for
it. -/
theorem inputOf_received {data_ : List UInt8}
    (handles : KcpServerImpl.startReceive heap (buffer.receive datagram)
      (bytesRecvd datagram) = .ok handled)
    (input : inputOf identity handled.action = some data_) :
    inputFor identity (datagram.take networkBufSize) = some data_ := by
  have reads := startReceive_reads handles
  generalize handled.action = action at reads input
  cases reads with
  | hello | reply | message | nothing => cases input
  | input type long inside =>
      have sizes : publicKeySize = 64 ∧ ikcpOverhead = 89 := ⟨rfl, rfl⟩
      have names := names_received buffer (show 1 + publicKeySize ≤ bytesRecvd datagram by omega)
      obtain ⟨⟨worker, uid⟩, same⟩ := Option.ite_none_right_eq_some.mp input
      have holds := receive_holds buffer datagram
      rw [type, uid] at names
      rw [← length_received] at long same
      generalize datagram.take networkBufSize = received at *
      have index : (buffer.receive datagram).workerIndex = UInt16.ofNat (Bytes.toNat
          (Bytes.slice received (publicKeySize + 1) 2)) := by
        rw [Buffer.workerIndex, slice_cStr holds (by omega)]
      have whole : Bytes.slice received (1 + publicKeySize)
          (received.length - 1 - publicKeySize) = received.drop (1 + publicKeySize) := by
        rw [Bytes.slice, Nat.sub_sub, ← List.length_drop, List.take_length]
      rw [slice_cStr holds (by omega), whole] at same
      have home : (UInt16.ofNat (Bytes.toNat
          (Bytes.slice received (publicKeySize + 1) 2))).toNat = identity.worker.val := by
        rw [← index]
        exact congrArg Fin.val worker
      rw [inputFor, if_pos ⟨names, long, home⟩, same]

/-- A message that a handler posts for a session is announced by its datagram. -/
theorem isMessage_received
    (handles : KcpServerImpl.startReceive heap (buffer.receive datagram)
      (bytesRecvd datagram) = .ok handled) (message : isMessage identity handled.action = true) :
    MessageFor identity (datagram.take networkBufSize) := by
  have reads := startReceive_reads handles
  generalize handled.action = action at reads message
  cases reads with
  | hello | reply | input | nothing => cases message
  | message type long recvMsg =>
      have names := names_received buffer (Nat.le_of_lt long)
      rw [type, of_decide_eq_true message] at names
      exact ⟨names, (length_received datagram).symm ▸ long⟩

end Datagrams

/-! ## Every run -/

section Runs

variable {ι : Type} [DecidableEq ι] {table : ι → Identity} {crypto : Crypto} {keys : Server crypto}
variable {heap : Heap} {now : UInt64} {s next : Serving ι}

/-- A reply has given the session its uid. -/
def Known (s : Serving ι) (session : ι) : Prop :=
  ∃ opened, s.opened session = some opened ∧ opened.uid.isSome = true

/-- A datagram from the endpoint of a session has been its reply: with its uid, a key that is
not the server's, and a signature of its challenge by that key. -/
def Admitted (table : ι → Identity) (keys : Server crypto) (s : Serving ι) (session : ι) : Prop :=
  ∃ opened packet, s.opened session = some opened ∧
    ((table session).endpoint, packet) ∈ s.received ∧
    accept .kcp keys (challengeHash .kcp keys opened.time (table session).m_conv) packet =
      some (table session).uid

/-- Sessions get their uid from replies, and nothing gets to a session before. -/
structure Admits (table : ι → Identity) (keys : Server crypto) (s : Serving ι) : Prop where
  added : ∀ {session}, s.server.Added session → s.Known session
  given : ∀ {session}, s.given session ≠ .fresh → s.Known session
  judged : ∀ {session opened uid}, s.opened session = some opened → opened.uid = some uid →
    (table session).uid = uid ∧ ∃ packet, ((table session).endpoint, packet) ∈ s.received ∧
      accept .kcp keys opened.hash packet = some uid

/-- What a session has been given, and what waits for it, has been received. -/
structure Counted (table : ι → Identity) (s : Serving ι) : Prop where
  inputs : ∀ session data_,
    (s.posted.filterMap (inputOf (table session))).count data_ +
        (s.given session).inputs.count data_ ≤
      (s.received.filterMap fun entry => inputFor (table session) entry.2).count data_
  handled : ∀ session, s.posted.countP (isMessage (table session)) +
      (s.given session).handled.length ≤
    s.received.countP fun entry => MessageFor (table session) entry.2

/-! ### Tasks that run -/

/-- A task gives what it has to a session that it names, or leaves it alone. -/
theorem deliver_cases {server : KcpServer ι} (reachable : (KcpServer.system table).Reachable server)
    (milliSeconds : UInt64) (given : ι → Given) (action : Action) (session : ι) :
    server.deliver milliSeconds given action session = given session ∨
      server.Added session ∧
        ((∃ data_, inputOf (table session) action = some data_ ∧
          server.deliver milliSeconds given action session =
            (given session).input data_ milliSeconds) ∨
        ∃ recvMsg, isMessage (table session) action = true ∧
          server.deliver milliSeconds given action session =
            (given session).handleMessage recvMsg) := by
  cases action with
  | hello | reply | nothing => exact .inl rfl
  | input workerIndex uid data_ =>
      rw [KcpServer.deliver]
      cases found : server.runningSessions workerIndex uid with
      | none => exact .inl rfl
      | some other =>
          by_cases same : session = other
          · subst same
            obtain ⟨worker, home⟩ := (KcpServer.reachable_housed reachable).running found
            refine .inr ⟨.running found, .inl ⟨data_, ?_, Function.update_self _ _ _⟩⟩
            exact if_pos ⟨worker.symm, home.symm⟩
          · exact .inl (Function.update_of_ne same _ _)
  | message uid recvMsg =>
      rw [KcpServer.deliver]
      cases found : server.sessions uid with
      | none => exact .inl rfl
      | some other =>
          by_cases same : session = other
          · subst same
            have home := ((KcpServer.reachable_once reachable).registered found).1
            exact .inr ⟨.registered found, .inr ⟨recvMsg, decide_eq_true home.symm,
              Function.update_self _ _ _⟩⟩
          · exact .inl (Function.update_of_ne same _ _)

theorem Admits.run (kept : s.Kept table keys) (admits : s.Admits table keys) (index : Nat)
    (milliSeconds : UInt64) (action : Action) :
    Admits table keys { s with
      posted := s.posted.eraseIdx index
      given := s.server.deliver milliSeconds s.given action } where
  added := admits.added
  judged := admits.judged
  given {session} more := by
    rcases deliver_cases kept.registry milliSeconds s.given action session with same | ⟨added, -⟩
    · exact admits.given (same ▸ more)
    · exact admits.added added

theorem Counted.run (kept : s.Kept table keys) (counted : s.Counted table) {index : Nat}
    (milliSeconds : UInt64) {action : Action} (waiting : s.posted[index]? = some action) :
    Counted table { s with
      posted := s.posted.eraseIdx index
      given := s.server.deliver milliSeconds s.given action } := by
  obtain ⟨inside, entry⟩ := List.getElem?_eq_some_iff.mp waiting
  have perm := List.getElem_cons_eraseIdx_perm inside
  rw [entry] at perm
  have cases := deliver_cases kept.registry milliSeconds s.given action
  constructor
  · intro session data_
    have bound := counted.inputs session data_
    rw [← (perm.filterMap _).count_eq, List.filterMap_cons] at bound
    rcases cases session with same | ⟨-, ⟨other, input, same⟩ | ⟨recvMsg, -, same⟩⟩
    · dsimp only
      rw [same]
      refine Nat.le_trans (Nat.add_le_add_right ?_ _) bound
      cases inputOf (table session) action with
      | none => exact Nat.le_refl _
      | some other => exact List.count_le_count_cons
    · rw [input, List.count_cons] at bound
      dsimp only
      rw [same, Given.input, List.count_append, List.count_singleton]
      omega
    · dsimp only
      rw [same, Given.handleMessage]
      refine Nat.le_trans (Nat.add_le_add_right ?_ _) bound
      cases inputOf (table session) action with
      | none => exact Nat.le_refl _
      | some other => exact List.count_le_count_cons
  · intro session
    have bound := counted.handled session
    rw [← perm.countP_eq, List.countP_cons] at bound
    dsimp only
    rcases cases session with same | ⟨-, ⟨other, -, same⟩ | ⟨recvMsg, message, same⟩⟩
    · rw [same]
      omega
    · rw [same, Given.input]
      dsimp only
      omega
    · rw [if_pos message] at bound
      rw [same, Given.handleMessage, List.length_append, List.length_singleton]
      omega

/-! ### Datagrams -/

theorem perform_posted (endpoint : Endpoint) (session : ι) (nonce : Nat) (action : Action) :
    (s.perform table keys endpoint session nonce action).posted = s.posted ++ posts action := by
  cases action with
  | hello => exact (List.append_nil _).symm
  | reply data_ =>
      rw [perform, reply]
      split
      · exact (List.append_nil _).symm
      · exact (List.append_nil _).symm
  | input | message | nothing => rfl

theorem perform_given (endpoint : Endpoint) (session : ι) (nonce : Nat) (action : Action) :
    (s.perform table keys endpoint session nonce action).given = s.given := by
  cases action with
  | reply data_ =>
      rw [perform, reply]
      split
      · rfl
      · rfl
  | hello | input | message | nothing => rfl

omit [DecidableEq ι] in
theorem Counted.arrive (counted : s.Counted table) {buffer : Buffer} {datagram : List UInt8}
    {handled : Handled} (handles : KcpServerImpl.startReceive heap (buffer.receive datagram)
      (bytesRecvd datagram) = .ok handled)
    (posted : next.posted = s.posted ++ posts handled.action) (given : next.given = s.given)
    {endpoint : Endpoint}
    (received : next.received = s.received ++ [(endpoint, datagram.take networkBufSize)]) :
    next.Counted table := by
  constructor
  · intro session data_
    have bound := counted.inputs session data_
    have one : ((posts handled.action).filterMap (inputOf (table session))).count data_ ≤
        ([(endpoint, datagram.take networkBufSize)].filterMap
          fun entry => inputFor (table session) entry.2).count data_ := by
      rw [filterMap_posts, filterMap_one]
      cases input : inputOf (table session) handled.action with
      | none => exact Nat.zero_le _
      | some other => rw [inputOf_received handles input]
    rw [posted, given, received, List.filterMap_append, List.filterMap_append, List.count_append,
      List.count_append]
    omega
  · intro session
    have bound := counted.handled session
    have one : (posts handled.action).countP (isMessage (table session)) ≤
        [(endpoint, datagram.take networkBufSize)].countP
          fun entry => MessageFor (table session) entry.2 := by
      rw [countP_posts, List.countP_singleton]
      cases message : isMessage (table session) handled.action with
      | false => exact Nat.zero_le _
      | true => rw [if_pos (decide_eq_true (isMessage_received handles message))]; rfl
    rw [posted, given, received, List.countP_append, List.countP_append]
    omega

/-- A session that waits for a reply is not known yet. -/
theorem Kept.known_perform (kept : s.Kept table keys) {endpoint : Endpoint} {session other : ι}
    (nonce : Nat) {action : Action} (fits : s.Fits table keys endpoint session action)
    (known : s.Known other) : (s.perform table keys endpoint session nonce action).Known other := by
  obtain ⟨opened, asked, uid⟩ := known
  cases action with
  | hello =>
      have differ : other ≠ session := by
        rintro rfl
        cases (kept.unknown fits.1).symm.trans asked
      exact ⟨opened, (Function.update_of_ne differ _ _).trans asked, uid⟩
  | reply data_ =>
      rw [perform, Serving.reply]
      cases found : s.server.preSessions endpoint with
      | none => exact ⟨opened, asked, uid⟩
      | some ks =>
          have differ : other ≠ ks := by
            rintro rfl
            rw [(kept.waiting (.inr ⟨endpoint, found⟩) opened asked).2] at uid
            cases uid
          exact ⟨opened, (Function.update_of_ne differ _ _).trans asked, uid⟩
  | input | message | nothing => exact ⟨opened, asked, uid⟩

/-- The registry goes on without a reply. -/
theorem Admits.server (admits : s.Admits table keys) {event : KcpServer.Event ι}
    {server : KcpServer ι} (internal : s.Internal event)
    (taken : s.server.step table event = some server) :
    Admits table keys { s with server := server } where
  given := admits.given
  judged := admits.judged
  added added := by
    rcases KcpServer.step_added taken added with before | ⟨endpoint, rfl, -⟩
    · exact admits.added before
    · exact internal.elim

/-- What a reply makes of the session that it gets. -/
theorem Admits.reply (kept : s.Kept table keys) (admits : s.Admits table keys)
    {endpoint : Endpoint} {session : ι} {data_ : Option (List UInt8)} {packet : List UInt8}
    (fits : s.Fits table keys endpoint session (.reply data_))
    (judged : ∀ hash_, checked keys hash_ data_ = accept .kcp keys hash_ packet)
    {received : List (Endpoint × List UInt8)} (more : s.received ⊆ received)
    (last : (endpoint, packet) ∈ received) :
    Admits table keys { s.reply keys endpoint data_ with received := received } := by
  have taken : ∀ accepted, s.server.step table (.reply endpoint accepted) =
      some (s.server.reply endpoint accepted) := fun _ => rfl
  have known : ∀ {other}, s.Known other → (s.reply keys endpoint data_).Known other :=
    kept.known_perform 0 fits
  rw [Serving.reply] at known ⊢
  cases found : s.server.preSessions endpoint with
  | none =>
      rw [found] at known
      refine ⟨fun added => ?_, admits.given, fun {other opened uid} asked knows => ?_⟩
      · rcases KcpServer.step_added (taken false) added with before | ⟨other, same, -⟩
        · exact admits.added before
        · cases same
      · obtain ⟨home, reply, member, accepted⟩ := admits.judged asked knows
        exact ⟨home, reply, more member, accepted⟩
  | some ks =>
      rw [found] at known
      obtain ⟨old, asked⟩ := Option.isSome_iff_exists.mp (kept.asked found)
      have hash : s.m_hash ks = old.hash := by
        rw [m_hash, asked]
        rfl
      refine ⟨fun {other} added => ?_, fun more => known (admits.given more),
        fun {other opened uid} asks knows => ?_⟩
      · rcases KcpServer.step_added (taken _) added with before | ⟨other, same, waits⟩
        · exact known (admits.added before)
        · injection same with same accepted
          subst same
          cases found.symm.trans waits
          exact ⟨_, (Function.update_self _ _ _).trans (congrArg _ asked), accepted⟩
      · simp only [Function.update_apply] at asks
        split at asks
        · next same =>
          subst same
          rw [asked, Option.map_some] at asks
          cases asks
          have uid := fits other uid found knows
          refine ⟨uid, packet, ?_, ?_⟩
          · rwa [(KcpServer.reachable_once kept.registry).homed endpoint other found]
          · show accept .kcp keys old.hash packet = _
            rw [← judged, ← hash]
            exact knows
        · obtain ⟨home, reply, member, accepted⟩ := admits.judged asks knows
          exact ⟨home, reply, more member, accepted⟩

/-- A session for a hello is not known. -/
theorem Admits.hello (kept : s.Kept table keys) (admits : s.Admits table keys)
    {endpoint : Endpoint} {session : ι} (nonce : Nat)
    (fits : s.Fits table keys endpoint session .hello)
    {received : List (Endpoint × List UInt8)} (more : s.received ⊆ received) :
    Admits table keys { s.hello table keys session nonce with received := received } := by
  have taken : s.server.step table (.hello session) = some (s.server.init session) :=
    KcpServer.step_init fits.1
  have known : ∀ {other}, s.Known other → (s.hello table keys session nonce).Known other :=
    kept.known_perform nonce fits
  refine ⟨fun {other} added => ?_, fun more => known (admits.given more),
    fun {other opened uid} asks knows => ?_⟩
  · rcases KcpServer.step_added taken added with before | ⟨other, same, -⟩
    · exact known (admits.added before)
    · cases same
  · simp only [Serving.hello, Function.update_apply] at asks
    split at asks
    · obtain ⟨sent, -, rfl⟩ := Option.map_eq_some_iff.mp asks
      cases knows
    · obtain ⟨home, reply, member, accepted⟩ := admits.judged asks knows
      exact ⟨home, reply, more member, accepted⟩

theorem Admits.step {event : Event ι} (kept : s.Kept table keys) (admits : s.Admits table keys)
    (taken : (system table keys heap now).step s event next) : next.Admits table keys := by
  cases event with
  | tick now =>
      obtain rfl := taken
      exact ⟨admits.added, admits.given, admits.judged⟩
  | server event =>
      obtain ⟨internal, server, taken, rfl⟩ := taken
      exact admits.server internal taken
  | arrive index endpoint datagram session nonce =>
      obtain ⟨buffer, handled, receivers, -, handles, -, fits, rfl⟩ := taken
      have more : s.received ⊆ s.received ++ [(endpoint, datagram.take networkBufSize)] :=
        List.subset_append_left _ _
      cases action : handled.action with
      | hello =>
          rw [action] at fits
          have later := admits.hello kept nonce fits more
          exact ⟨later.added, later.given, later.judged⟩
      | reply data_ =>
          rw [action] at fits
          have later := admits.reply kept fits (fun hash_ => checked_accept hash_ handles action)
            more (List.mem_append_right _ List.mem_cons_self)
          exact ⟨later.added, later.given, later.judged⟩
      | input | message | nothing =>
          refine ⟨admits.added, admits.given, fun asks knows => ?_⟩
          obtain ⟨home, reply, member, accepted⟩ := admits.judged asks knows
          exact ⟨home, reply, more member, accepted⟩
  | run index milliSeconds =>
      obtain ⟨action, -, rfl⟩ := taken
      exact admits.run kept index milliSeconds action

theorem Counted.step {event : Event ι} (kept : s.Kept table keys) (counted : s.Counted table)
    (taken : (system table keys heap now).step s event next) : next.Counted table := by
  cases event with
  | tick now =>
      obtain rfl := taken
      exact ⟨counted.inputs, counted.handled⟩
  | server event =>
      obtain ⟨-, server, -, rfl⟩ := taken
      exact ⟨counted.inputs, counted.handled⟩
  | arrive index endpoint datagram session nonce =>
      obtain ⟨buffer, handled, receivers, -, handles, -, -, rfl⟩ := taken
      exact counted.arrive handles (perform_posted endpoint session nonce handled.action)
        (perform_given endpoint session nonce handled.action) rfl
  | run index milliSeconds =>
      obtain ⟨action, waiting, rfl⟩ := taken
      exact counted.run kept milliSeconds waiting

/-- Whatever datagrams arrive, from wherever, and in every order of the steps: a session that
is found by a uid, run by a worker or on the way to them, or that has been given anything,
has got a reply from the endpoint of its hello with this uid and a signature of its own
challenge. Input and messages reach it as often at most as datagrams with its uid have been
received, and input with the bytes of these. -/
theorem sessions_admitted (reachable : (system table keys heap now).Reachable s) (session : ι) :
    (s.server.Added session ∨ s.given session ≠ .fresh → s.Admitted table keys session) ∧
    (∀ data_, (s.given session).inputs.count data_ ≤
      (s.received.filterMap fun entry => inputFor (table session) entry.2).count data_) ∧
    (s.given session).handled.length ≤
      s.received.countP fun entry => MessageFor (table session) entry.2 := by
  have whole : s.Admits table keys ∧ s.Counted table := by
    induction reachable with
    | initial first =>
        obtain rfl := first
        refine ⟨⟨fun added => ?_, fun more => absurd rfl more, fun asks => ?_⟩,
          fun _ _ => Nat.le_refl _, fun _ => Nat.le_refl _⟩
        · cases added with
          | posted waiting => cases waiting
          | registered found => cases found
          | inserted waiting => cases waiting
          | running found => cases found
        · cases asks
    | step reachable taken ih =>
        have kept := kept_of_reachable reachable
        exact ⟨ih.1.step kept taken, ih.2.step kept taken⟩
  obtain ⟨admits, counted⟩ := whole
  refine ⟨fun either => ?_, fun data_ => ?_, ?_⟩
  · obtain ⟨opened, asked, knows⟩ := either.elim admits.added admits.given
    obtain ⟨uid, knows⟩ := Option.isSome_iff_exists.mp knows
    obtain ⟨rfl, packet, member, accepted⟩ := admits.judged asked knows
    obtain ⟨-, conv, hash⟩ := (kept_of_reachable reachable).written asked
    rw [hash, conv] at accepted
    exact ⟨opened, packet, asked, member, accepted⟩
  · exact (Nat.le_add_left _ _).trans (counted.inputs session data_)
  · exact (Nat.le_add_left _ _).trans (counted.handled session)

end Runs

section OneClient

open Openings (sampleServer)
open Traffic (oneSegment)

/-- The control block of the client's session gets a segment. -/
theorem sessions_admitted_one : ∃ s, OneClient.Reachable s ∧
    (s.given ()).inputs = [oneSegment] ∧ s.Admitted sampleTable sampleServer () := by
  obtain ⟨server, receivers, running, there, found⟩ := one_running
  have segment : Segment (UInt32.ofNat (sampleTable ()).worker.val) oneSegment :=
    ⟨by decide, by decide, by decide⟩
  obtain ⟨datagram, output⟩ : ∃ datagram, udpOutput (sampleTable ()).uid oneSegment =
      some datagram := ⟨_, rfl⟩
  have handles := handler_udpOutput .server (.filled 0) .fresh segment output
  have whole : (sampleTable ()).uid.take publicKeySize = (sampleTable ()).uid := by decide +kernel
  rw [whole] at handles
  have received := @arrived _ _ _ _ _ _ _ _ running 2 (sampleTable ()).endpoint datagram () 0
    .fresh _ there handles trivial
  have ran := received.step (show OneClient.step _ (.run 0 0) _ from ⟨_, rfl, rfl⟩)
  have inputs : (server.deliver 0 (fun _ => Given.fresh)
      (.input (sampleTable ()).worker (sampleTable ()).uid oneSegment) ()).inputs =
        [oneSegment] := by
    rw [KcpServer.deliver, found]
    rfl
  refine ⟨_, ran, inputs, (sessions_admitted ran ()).1 (.inr fun fresh => ?_)⟩
  exact List.cons_ne_nil _ _ (inputs.symm.trans (congrArg Given.inputs fresh))

end OneClient

end Serving

end Nicenet.Kcp
