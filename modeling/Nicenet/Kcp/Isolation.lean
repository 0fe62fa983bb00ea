import Nicenet.Kcp.Datagram
import Nicenet.Kcp.Stale

/-!
# Datagrams of strangers

Once its handshake is complete a session is found by what datagrams say: those of type 3
by uid and worker among the running sessions, those of type 4 by uid among the registered
ones. Where a datagram comes from is asked by the handshake alone.
-/

namespace Nicenet.Kcp

open Library

/-- What a session has been given: the calls of `ikcp_input`, the time they set, and the
calls of `handleMessage`. -/
structure Given where
  inputs : List (List UInt8)
  m_kcpUpdateTime : UInt64
  handled : List Message
  deriving DecidableEq, Repr

namespace Given

def fresh : Given := ⟨[], 0, []⟩

/-- The task of a datagram of type 3. -/
def input (given : Given) (data_ : List UInt8) (milliSeconds : UInt64) : Given :=
  { given with inputs := given.inputs ++ [data_], m_kcpUpdateTime := milliSeconds }

def handleMessage (given : Given) (recvMsg : Message) : Given :=
  { given with handled := given.handled ++ [recvMsg] }

theorem input_ne (given : Given) (data_ : List UInt8) (milliSeconds : UInt64) :
    given.input data_ milliSeconds ≠ given := by
  intro same
  simpa [input] using congrArg inputs same

theorem handleMessage_ne (given : Given) (recvMsg : Message) :
    given.handleMessage recvMsg ≠ given := by
  intro same
  simpa [handleMessage] using congrArg handled same

end Given

namespace KcpServer

/-! ## Where sessions are found -/

variable {ι : Type} (table : ι → Identity)

/-- Sessions run on their own worker and under their own uid. -/
structure Housed (s : KcpServer ι) : Prop where
  inserts : ∀ {worker session}, .insert session ∈ s.workers worker →
    (table session).worker = worker
  running : ∀ {worker uid session}, s.runningSessions worker uid = some session →
    (table session).worker = worker ∧ (table session).uid = uid

variable {table} {s next : KcpServer ι}

/-- Only the workers matter. -/
theorem Housed.transfer (housed : s.Housed table) (workers : next.workers = s.workers)
    (running : next.runningSessions = s.runningSessions) : next.Housed table where
  inserts member := housed.inserts (workers ▸ member)
  running found := housed.running (running ▸ found)

theorem Housed.postWorker (housed : s.Housed table) {worker : Worker} {task : WorkerTask ι}
    (home : ∀ session, task = .insert session → (table session).worker = worker) :
    (s.postWorker worker task).Housed table where
  running found := housed.running found
  inserts := by
    intro other session member
    simp only [KcpServer.postWorker, Function.update_apply] at member
    split at member
    · next same =>
      rw [same]
      rcases List.mem_append.mp member with before | posted
      · exact housed.inserts before
      · exact home session (List.mem_singleton.mp posted).symm
    · exact housed.inserts member

theorem Housed.runWorker (housed : s.Housed table) {worker : Worker} {task : WorkerTask ι}
    {tasks : List (WorkerTask ι)} (waiting : s.workers worker = task :: tasks) :
    ({ s with workers := Function.update s.workers worker tasks }.runWorker table worker
      task).Housed table := by
  have inserts : ∀ {other session},
      .insert session ∈ Function.update s.workers worker tasks other →
        (table session).worker = other := by
    intro other session member
    rw [Function.update_apply] at member
    split at member
    · next same =>
      exact same ▸ housed.inserts (waiting ▸ List.mem_cons_of_mem _ member)
    · exact housed.inserts member
  have running : ∀ {other uid session}, Function.update s.runningSessions worker
      (task.apply table (s.runningSessions worker)) other uid = some session →
        (table session).worker = other ∧ (table session).uid = uid := by
    intro other uid session found
    rw [Function.update_apply] at found
    split at found
    · next same =>
      subst same
      cases task with
      | insert inserted =>
          simp only [WorkerTask.apply, Function.update_apply] at found
          split at found
          · next home =>
            cases found
            exact ⟨housed.inserts (waiting ▸ List.mem_cons_self), home.symm⟩
          · exact housed.running found
      | erase erased =>
          simp only [WorkerTask.apply, Function.update_apply] at found
          split at found
          · cases found
          · exact housed.running found
    · exact housed.running found
  cases task <;> exact ⟨inserts, running⟩

variable [DecidableEq ι]

theorem Housed.runMain (housed : s.Housed table) (task : MainTask ι) :
    (s.runMain table task).Housed table := by
  cases task with
  | add session =>
      refine Housed.postWorker ?_ ?_
      · cases registered : s.sessions (table session).uid with
        | none =>
            rw [addSession_none registered]
            exact housed.transfer rfl rfl
        | some old =>
            rw [addSession_some registered]
            exact housed.transfer rfl rfl
      · intro other same
        cases same
        rfl
  | remove session =>
      refine Housed.postWorker ?_ nofun
      cases registered : s.sessions (table session).uid with
      | none =>
          rw [removeSession_none _ registered]
          exact housed
      | some current =>
          by_cases same : (table current).serialID = (table session).serialID
          · rw [← same, removeSession_same registered]
            exact housed.transfer rfl rfl
          · rw [removeSession_other registered same]
            exact housed
  | ready session => exact housed

theorem reachable_housed (reachable : (system table).Reachable s) : s.Housed table := by
  apply reachable.invariant
  · rintro s rfl
    exact ⟨nofun, nofun⟩
  · intro s event next housed taken
    cases step_takes taken with
    | hello new => exact housed.transfer rfl rfl
    | sent sending => exact housed.transfer rfl rfl
    | expired waits => exact housed.transfer rfl rfl
    | @reply endpoint accepted =>
        rw [reply]
        cases s.preSessions endpoint with
        | none => exact housed.transfer rfl rfl
        | some session => cases accepted <;> exact housed.transfer rfl rfl
    | close created =>
        rw [close_eq]
        exact housed.transfer rfl rfl
    | timeout running =>
        rw [removeSelf_eq]
        exact housed.transfer rfl rfl
    | @main task tasks waiting =>
        exact (housed.transfer rfl rfl : Housed table { s with main := tasks }).runMain task
    | worker waiting => exact housed.runWorker waiting

/-! ## What datagrams give to sessions -/

/-- The task that a datagram has posted runs and finds the server in the state `s`. The
control block is there from `init` on. -/
def deliver (s : KcpServer ι) (milliSeconds : UInt64) (given : ι → Given) :
    Action → ι → Given
  | .input workerIndex uid data_ =>
      match s.runningSessions workerIndex uid with
      | none => given
      | some session =>
          Function.update given session ((given session).input data_ milliSeconds)
  | .message uid recvMsg =>
      match s.sessions uid with
      | none => given
      | some session => Function.update given session ((given session).handleMessage recvMsg)
  | _ => given

/-- What the handler posts. The copy of a message that leaves the buffer takes what stands
in the memory behind it. -/
def Posts (heap : Heap) (buffer : Buffer) (bytesRecvd : Nat) (action : Action) : Prop :=
  match KcpServerImpl.startReceive heap buffer bytesRecvd with
  | .ok handled => action = handled.action
  | .error _ =>
      ∃ behind : List UInt8, networkBufSize + behind.length = buffer.len.toNat ∧
        action = .message buffer.uid
          (copied (Bytes.slice (buffer.cStr ++ behind) 1 buffer.len.toNat))

variable (table) in
/-- A datagram that does not come from the endpoint of a session gives it nothing, at
whatever time its task runs. -/
def Isolated (s : KcpServer ι) (heap : Heap) (buffer : Buffer) (bytesRecvd : Nat)
    (senderEndpoint : Endpoint) (session : ι) : Prop :=
  senderEndpoint ≠ (table session).endpoint →
    ∀ action, Posts heap buffer bytesRecvd action →
      ∀ milliSeconds given, s.deliver milliSeconds given action session = given session

variable (table) in
/-- KCP input with the uid and the worker of a running session. -/
def NamesRunning (s : KcpServer ι) (buffer : Buffer) (bytesRecvd : Nat) (session : ι) : Prop :=
  buffer.packetType = 3 ∧ ikcpOverhead ≤ bytesRecvd ∧
    buffer.workerIndex.toNat = (table session).worker.val ∧
    buffer.uid = (table session).uid ∧
    s.runningSessions (table session).worker (table session).uid = some session

variable (table) in
/-- A message with the uid of a registered session, and with a length that is accepted,
which has no upper bound. -/
def NamesRegistered (s : KcpServer ι) (buffer : Buffer) (bytesRecvd : Nat) (session : ι) :
    Prop :=
  buffer.packetType = 4 ∧ 1 + publicKeySize < bytesRecvd ∧
    bytesRecvd - 1 - publicKeySize ≤ buffer.len.toNat ∧
    buffer.uid = (table session).uid ∧
    s.sessions (table session).uid = some session

/-- What an action does reaches the session. -/
def Reaches (s : KcpServer ι) (session : ι) : Action → Prop
  | .input workerIndex uid _ => s.runningSessions workerIndex uid = some session
  | .message uid _ => s.sessions uid = some session
  | _ => False

/-- What one session is given reaches no other. -/
theorem update_iff {found session : ι} {change : UInt64 → Given → Given}
    (changes : ∀ milliSeconds given, change milliSeconds given ≠ given) :
    (∀ milliSeconds (given : ι → Given),
        Function.update given found (change milliSeconds (given found)) session =
          given session) ↔ found ≠ session := by
  constructor
  · rintro gives rfl
    have given := gives 0 fun _ => .fresh
    rw [Function.update_self] at given
    exact changes _ _ given
  · exact fun other _ _ => Function.update_of_ne (Ne.symm other) _ _

theorem deliver_iff (s : KcpServer ι) (session : ι) (action : Action) :
    (∀ milliSeconds given, s.deliver milliSeconds given action session = given session) ↔
      ¬s.Reaches session action := by
  cases action with
  | input workerIndex uid data_ =>
      simp only [deliver, Reaches]
      cases s.runningSessions workerIndex uid with
      | none => simp
      | some found =>
          rw [Option.some_inj]
          exact update_iff fun milliSeconds given => given.input_ne data_ milliSeconds
  | message uid recvMsg =>
      simp only [deliver, Reaches]
      cases s.sessions uid with
      | none => simp
      | some found =>
          rw [Option.some_inj]
          exact update_iff fun _ given => given.handleMessage_ne recvMsg
  | hello | reply | nothing => exact iff_of_true (fun _ _ => rfl) id

section Handler

variable (heap : Heap) {buffer : Buffer} {bytesRecvd : Nat} {session : ι}

omit [DecidableEq ι] in
theorem reaches_input (housed : s.Housed table) (type : buffer.packetType = 3) :
    (∃ action, Posts heap buffer bytesRecvd action ∧ s.Reaches session action) ↔
      s.NamesRunning table buffer bytesRecvd session := by
  have handler : KcpServerImpl.startReceive heap buffer bytesRecvd =
      if ikcpOverhead ≤ bytesRecvd then .ok ⟨receiveInput buffer bytesRecvd, true⟩
      else .ok ⟨.nothing, true⟩ := by
    simp [KcpServerImpl.startReceive, type]
  simp only [Posts, handler, NamesRunning]
  constructor
  · rintro ⟨action, posts, reaches⟩
    split at posts
    · next result =>
      split at result
      · next long =>
        cases result
        cases posts
        rw [receiveInput] at reaches
        split at reaches
        · obtain ⟨worker, uid⟩ := housed.running reaches
          rw [worker, uid]
          exact ⟨type, long, rfl, rfl, reaches⟩
        · exact reaches.elim
      · cases result
        cases posts
        exact reaches.elim
    · next result => split at result <;> cases result
  · rintro ⟨-, long, worker, uid, running⟩
    have inside : buffer.workerIndex.toNat < workThreadCount := by
      rw [worker]
      exact (table session).worker.isLt
    have same : (⟨buffer.workerIndex.toNat, inside⟩ : Worker) = (table session).worker :=
      Fin.ext worker
    rw [if_pos long]
    refine ⟨_, rfl, ?_⟩
    rw [receiveInput, dif_pos inside, same, uid]
    exact running

/-- A message is dispatched by its uid, whether or not its copy stays in the buffer. -/
theorem posts_message (type : buffer.packetType = 4) (long : 1 + publicKeySize < bytesRecvd)
    (accepted : bytesRecvd - 1 - publicKeySize ≤ buffer.len.toNat) :
    (∃ recvMsg, Posts heap buffer bytesRecvd (.message buffer.uid recvMsg)) ∧
      ∀ action, Posts heap buffer bytesRecvd action →
        ∃ recvMsg, action = .message buffer.uid recvMsg := by
  have handler : KcpServerImpl.startReceive heap buffer bytesRecvd = _ :=
    handler_message heap .server type
  rw [if_pos long, receiveMessage_eq, if_neg (Nat.not_lt.mpr accepted)] at handler
  by_cases beyond : networkBufSize < buffer.len.toNat
  · rw [if_pos beyond] at handler
    simp only [Posts, handler]
    refine ⟨⟨_, List.replicate (buffer.len.toNat - networkBufSize) 0, ?_, rfl⟩, ?_⟩
    · rw [List.length_replicate]
      omega
    · rintro action ⟨behind, _, rfl⟩
      exact ⟨_, rfl⟩
  · rw [if_neg beyond] at handler
    simp only [Posts, handler]
    exact ⟨⟨_, rfl⟩, fun action posts => ⟨_, posts⟩⟩

theorem reaches_message (once : s.Once table) (type : buffer.packetType = 4) :
    (∃ action, Posts heap buffer bytesRecvd action ∧ s.Reaches session action) ↔
      s.NamesRegistered table buffer bytesRecvd session := by
  by_cases accepted : 1 + publicKeySize < bytesRecvd ∧
      bytesRecvd - 1 - publicKeySize ≤ buffer.len.toNat
  · obtain ⟨long, accepted⟩ := accepted
    obtain ⟨⟨recvMsg, some⟩, every⟩ := posts_message heap type long accepted
    constructor
    · rintro ⟨action, posts, reaches⟩
      obtain ⟨other, rfl⟩ := every action posts
      have uid := (once.registered reaches).1
      rw [NamesRegistered, uid]
      exact ⟨type, long, accepted, rfl, reaches⟩
    · rintro ⟨-, -, -, uid, registered⟩
      refine ⟨_, some, ?_⟩
      rw [Reaches, uid]
      exact registered
  · have handler : KcpServerImpl.startReceive heap buffer bytesRecvd = _ :=
      handler_message heap .server type
    refine iff_of_false ?_ fun names => accepted ⟨names.2.1, names.2.2.1⟩
    rintro ⟨action, posts, reaches⟩
    have nothing : ∃ rearmed, KcpServerImpl.startReceive heap buffer bytesRecvd =
        .ok ⟨.nothing, rearmed⟩ := by
      rw [handler, receiveMessage_eq]
      by_cases long : 1 + publicKeySize < bytesRecvd
      · rw [if_pos long, if_pos (by omega)]
        exact ⟨false, rfl⟩
      · rw [if_neg long]
        exact ⟨true, rfl⟩
    obtain ⟨rearmed, nothing⟩ := nothing
    simp only [Posts, nothing] at posts
    cases posts
    exact reaches

omit [DecidableEq ι] in
theorem reaches_other (input : buffer.packetType ≠ 3) (message : buffer.packetType ≠ 4) :
    ¬∃ action, Posts heap buffer bytesRecvd action ∧ s.Reaches session action := by
  rintro ⟨action, posts, reaches⟩
  simp only [Posts, KcpServerImpl.startReceive, input, message, false_and, if_false] at posts
  split at posts
  · next result =>
    split at result
    · cases result
      cases posts
      exact reaches
    · split at result <;>
      · cases result
        cases posts
        exact reaches
  · next result =>
    split at result
    · cases result
    · split at result <;> cases result

/-- What reaches a session names it. -/
theorem reaches_iff (reachable : (system table).Reachable s) :
    (∃ action, Posts heap buffer bytesRecvd action ∧ s.Reaches session action) ↔
      s.NamesRunning table buffer bytesRecvd session ∨
        s.NamesRegistered table buffer bytesRecvd session := by
  by_cases input : buffer.packetType = 3
  · rw [reaches_input heap (reachable_housed reachable) input, or_iff_left]
    rintro ⟨type, _⟩
    rw [input] at type
    cases type
  · by_cases message : buffer.packetType = 4
    · rw [reaches_message heap (reachable_once reachable) message, or_iff_right]
      exact fun names => input names.1
    · exact iff_of_false (reaches_other heap input message) fun names =>
        names.elim (fun names => input names.1) fun names => message names.1

/-- A datagram leaves a session alone exactly if it comes from the session's endpoint or
names neither the running nor the registered session. -/
theorem isolated_iff (heap : Heap) (buffer : Buffer) (bytesRecvd : Nat)
    (senderEndpoint : Endpoint) (session : ι) (reachable : (system table).Reachable s) :
    s.Isolated table heap buffer bytesRecvd senderEndpoint session ↔
      senderEndpoint = (table session).endpoint ∨
        ¬s.NamesRunning table buffer bytesRecvd session ∧
          ¬s.NamesRegistered table buffer bytesRecvd session := by
  simp only [Isolated, deliver_iff]
  rw [← not_or, ← reaches_iff heap reachable, not_exists]
  simp only [not_and]
  exact or_iff_not_imp_left.symm

end Handler

/-- A client at port 1000 whose session is on the first worker. -/
def client (_ : Unit) : Identity :=
  ⟨⟨[127, 0, 0, 1], 1000⟩, ⟨0, workThreadCount_pos⟩, 0, List.replicate publicKeySize 7⟩

/-- It completes its handshake, and its worker takes the session. -/
theorem client_running :
    ∃ s, (system client).Reachable s ∧
      s.runningSessions (client ()).worker (client ()).uid = some () := by
  have taken : Transition.run (step client) fresh
      [.hello (), .sent (), .reply (client ()).endpoint true, .main,
        .worker (client ()).worker] = some _ := rfl
  exact ⟨_, Transition.reachable_run taken, by decide +kernel⟩

/-- KCP input for a uid, to the first worker. -/
def inputFor (uid : Uid) : Buffer := Buffer.fresh.receive (3 :: uid ++ List.replicate 24 0)

/-- A datagram with another uid leaves it alone. -/
theorem isolated_other :
    ∃ s, (system client).Reachable s ∧
      s.Isolated client (.filled 0) (inputFor (List.replicate publicKeySize 8)) 89
        ⟨[127, 0, 0, 1], 1001⟩ () := by
  obtain ⟨s, reachable, -⟩ := client_running
  refine ⟨s, reachable, (isolated_iff _ _ _ _ _ reachable).mpr (.inr ⟨?_, ?_⟩)⟩
  · rintro ⟨-, -, -, uid, -⟩
    revert uid
    decide +kernel
  · rintro ⟨type, -⟩
    revert type
    decide +kernel

/-- A stranger that knows the uid feeds the session's control block. -/
theorem isolated_fails :
    ¬∀ (table : Unit → Identity) (s : KcpServer Unit) (heap : Heap) (buffer : Buffer)
      (bytesRecvd : Nat) (senderEndpoint : Endpoint) (session : Unit),
      (system table).Reachable s →
      s.Isolated table heap buffer bytesRecvd senderEndpoint session := by
  intro every
  obtain ⟨s, reachable, running⟩ := client_running
  have isolated := every client s (.filled 0)
    (inputFor (List.replicate publicKeySize 7)) 89 ⟨[127, 0, 0, 1], 1001⟩ () reachable
  have names : s.NamesRunning client (inputFor (List.replicate publicKeySize 7)) 89 () :=
    ⟨by decide +kernel, by decide +kernel, by decide +kernel, by decide +kernel, running⟩
  obtain ⟨action, posts, reaches⟩ :=
    (reaches_iff (.filled 0) reachable).mpr (.inl names)
  exact (deliver_iff s () action).mp (isolated (by decide) action posts) reaches

end KcpServer

end Nicenet.Kcp
