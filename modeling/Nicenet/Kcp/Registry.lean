import Mathlib.Logic.Function.Basic
import Nicenet.Handshake.Freshness
import Nicenet.Library.Transition

/-!
# The sessions of a KCP server

A session goes from a hello through a challenge and a reply to the main service, which
keeps it in `m_sessions`, and from there to its worker, which keeps it in
`m_RunningSessions`. The services run the tasks posted to them in order, each at its own
pace; all that follows is about any interleaving of them.

Sessions are the elements of a type `ι`. What never changes about a session is given by a
table, `m_serialID` included: no code of the server assigns it, so a session has the number
its memory happened to hold.
-/

namespace Nicenet.Kcp

open Library

abbrev Uid := List UInt8

structure Endpoint where
  address : List UInt8
  port : UInt16
  deriving DecidableEq, Repr

abbrev Worker := Fin workThreadCount

/-- A session: where its client is, `m_iocontextIndex`, `m_serialID` and the uid that its
client proves if it replies to the challenge. -/
structure Identity where
  endpoint : Endpoint
  worker : Worker
  serialID : UInt64
  uid : Uid
  deriving DecidableEq, Repr

/-- The tasks of the main service: those of `init3`, of `removeSelf`, and the ready
notification that the worker posts. -/
inductive MainTask (ι : Type) where
  | add (session : ι)
  | remove (session : ι)
  | ready (session : ι)
  deriving DecidableEq, Repr

/-- The tasks of a worker: those of `init3` and of `removeSelfImpl`. -/
inductive WorkerTask (ι : Type) where
  | insert (session : ι)
  | erase (session : ι)
  deriving DecidableEq, Repr

/-- What a task of a worker does to its running sessions. -/
def WorkerTask.apply {ι : Type} (table : ι → Identity) (running : Uid → Option ι) :
    WorkerTask ι → Uid → Option ι
  | .insert session => Function.update running (table session).uid (some session)
  | .erase session => Function.update running (table session).uid none

/-- `sending` are the sessions whose challenge is being sent, `timers` those whose
handshake may still expire. `displaced` only records the run: the sessions that
`addSession` closed, each with the one it added. -/
structure KcpServer (ι : Type) where
  created : ι → Bool
  sending : ι → Bool
  timers : ι → Bool
  preSessions : Endpoint → Option ι
  sessions : Uid → Option ι
  runningSessions : Worker → Uid → Option ι
  closed : ι → Bool
  waitRemove : ι → Bool
  main : List (MainTask ι)
  workers : Worker → List (WorkerTask ι)
  displaced : List (ι × ι)

namespace KcpServer

variable {ι : Type} [DecidableEq ι]

def fresh : KcpServer ι where
  created _ := false
  sending _ := false
  timers _ := false
  preSessions _ := none
  sessions _ := none
  runningSessions _ _ := none
  closed _ := false
  waitRemove _ := false
  main := []
  workers _ := []
  displaced := []

/-- `nicehero::post`. -/
def post (s : KcpServer ι) (task : MainTask ι) : KcpServer ι :=
  { s with main := s.main ++ [task] }

/-- `m_impl->getIoContext().post`. -/
def postWorker (s : KcpServer ι) (worker : Worker) (task : WorkerTask ι) : KcpServer ι :=
  { s with workers := Function.update s.workers worker (s.workers worker ++ [task]) }

def removeSelf (s : KcpServer ι) (session : ι) : KcpServer ι :=
  if s.waitRemove session then s
  else
    { s with waitRemove := Function.update s.waitRemove session true }.post
      (.remove session)

def close (s : KcpServer ι) (session : ι) : KcpServer ι :=
  { s with closed := Function.update s.closed session true }.removeSelf session

variable (table : ι → Identity)

/-- `init`, up to the challenge being sent. -/
def init (s : KcpServer ι) (session : ι) : KcpServer ι :=
  { s with
    created := Function.update s.created session true
    sending := Function.update s.sending session true }

def init2 (s : KcpServer ι) (session : ι) : KcpServer ι :=
  { s with
    sending := Function.update s.sending session false
    timers := Function.update s.timers session true
    preSessions := Function.update s.preSessions (table session).endpoint (some session) }

/-- The end of the timer of `init2`. -/
def expire (s : KcpServer ι) (session : ι) : KcpServer ι :=
  { s with
    timers := Function.update s.timers session false
    preSessions := Function.update s.preSessions (table session).endpoint none }

def init3 (s : KcpServer ι) (session : ι) : KcpServer ι := s.post (.add session)

/-- A datagram with a reply: it takes the session of its endpoint, and `accepted` says
whether it holds what `checkSign` wants of it. -/
def reply (s : KcpServer ι) (endpoint : Endpoint) (accepted : Bool) : KcpServer ι :=
  let ks := s.preSessions endpoint
  let s := { s with preSessions := Function.update s.preSessions endpoint none }
  match ks with
  | none => s
  | some session => if accepted then s.init3 session else s

def addSession (s : KcpServer ι) (uid : Uid) (session : ι) : KcpServer ι :=
  let s :=
    match s.sessions uid with
    | none => s
    | some old => { s.close old with displaced := s.displaced ++ [(old, session)] }
  { s with sessions := Function.update s.sessions uid (some session) }

def removeSession (s : KcpServer ι) (uid : Uid) (serialID : UInt64) : KcpServer ι :=
  match s.sessions uid with
  | none => s
  | some session =>
      if (table session).serialID = serialID then
        { s.close session with sessions := Function.update s.sessions uid none }
      else s

def removeSelfImpl (s : KcpServer ι) (session : ι) : KcpServer ι :=
  (s.removeSession table (table session).uid (table session).serialID).postWorker
    (table session).worker (.erase session)

def runMain (s : KcpServer ι) : MainTask ι → KcpServer ι
  | .add session =>
      (s.addSession (table session).uid session).postWorker (table session).worker
        (.insert session)
  | .remove session => s.removeSelfImpl table session
  | .ready _ => s

def runWorker (s : KcpServer ι) (worker : Worker) (task : WorkerTask ι) : KcpServer ι :=
  let running := task.apply table (s.runningSessions worker)
  let s := { s with runningSessions := Function.update s.runningSessions worker running }
  match task with
  | .insert session => s.post (.ready session)
  | .erase _ => s

inductive Event (ι : Type) where
  | hello (session : ι)
  | sent (session : ι)
  | expired (session : ι)
  | reply (endpoint : Endpoint) (accepted : Bool)
  | close (session : ι)
  | timeout (session : ι)
  | main
  | worker (worker : Worker)
  deriving DecidableEq, Repr

def step (s : KcpServer ι) : Event ι → Option (KcpServer ι)
  | .hello session => if s.created session then none else some (s.init session)
  | .sent session => if s.sending session then some (s.init2 table session) else none
  | .expired session => if s.timers session then some (s.expire table session) else none
  | .reply endpoint accepted => some (s.reply endpoint accepted)
  | .close session => if s.created session then some (s.close session) else none
  | .timeout session =>
      if s.runningSessions (table session).worker (table session).uid = some session then
        some (s.removeSelf session)
      else none
  | .main =>
      match s.main with
      | [] => none
      | task :: tasks => some ({ s with main := tasks }.runMain table task)
  | .worker worker =>
      match s.workers worker with
      | [] => none
      | task :: tasks =>
          some ({ s with workers := Function.update s.workers worker tasks }.runWorker
            table worker task)

/-- Datagrams, timers, closes and tasks, in any order. -/
def system : Transition (KcpServer ι) (Event ι) := .deterministic fresh (step table)

/-! ## What the functions do -/

section Functions

variable {table} {s : KcpServer ι} {session old : ι} {uid : Uid}

/-- The removal is posted once. -/
def removal (s : KcpServer ι) (session : ι) : List (MainTask ι) :=
  if s.waitRemove session then [] else [.remove session]

theorem removeSelf_eq (s : KcpServer ι) (session : ι) :
    s.removeSelf session = { s with
      waitRemove := Function.update s.waitRemove session true
      main := s.main ++ s.removal session } := by
  rw [removeSelf, removal]
  split
  · next waits =>
    have same : Function.update s.waitRemove session true = s.waitRemove :=
      Function.update_eq_self_iff.mpr waits.symm
    rw [same, List.append_nil]
  · rfl

theorem close_eq (s : KcpServer ι) (session : ι) :
    s.close session = { s with
      closed := Function.update s.closed session true
      waitRemove := Function.update s.waitRemove session true
      main := s.main ++ s.removal session } := by
  rw [close, removeSelf_eq]
  rfl

theorem addSession_none (none : s.sessions uid = none) :
    s.addSession uid session =
      { s with sessions := Function.update s.sessions uid (some session) } := by
  rw [addSession, none]

theorem addSession_some (some : s.sessions uid = some old) :
    s.addSession uid session = { s with
      sessions := Function.update s.sessions uid (.some session)
      closed := Function.update s.closed old true
      waitRemove := Function.update s.waitRemove old true
      main := s.main ++ s.removal old
      displaced := s.displaced ++ [(old, session)] } := by
  simp only [addSession, some, close_eq]

theorem removeSession_none (serialID : UInt64) (none : s.sessions uid = none) :
    s.removeSession table uid serialID = s := by
  rw [removeSession, none]

theorem removeSession_other {serialID : UInt64} (some : s.sessions uid = some session)
    (other : (table session).serialID ≠ serialID) :
    s.removeSession table uid serialID = s := by
  rw [removeSession, some]
  exact if_neg other

theorem removeSession_same (some : s.sessions uid = some session) :
    s.removeSession table uid (table session).serialID = { s with
      sessions := Function.update s.sessions uid none
      closed := Function.update s.closed session true
      waitRemove := Function.update s.waitRemove session true
      main := s.main ++ s.removal session } := by
  simp only [removeSession, some, close_eq, if_true]

/-- What each event does, where it can happen. -/
inductive Takes (table : ι → Identity) (s : KcpServer ι) : Event ι → KcpServer ι → Prop where
  | hello {session : ι} (new : s.created session = false) :
      Takes table s (.hello session) (s.init session)
  | sent {session : ι} (sending : s.sending session = true) :
      Takes table s (.sent session) (s.init2 table session)
  | expired {session : ι} (waits : s.timers session = true) :
      Takes table s (.expired session) (s.expire table session)
  | reply {endpoint : Endpoint} {accepted : Bool} :
      Takes table s (.reply endpoint accepted) (s.reply endpoint accepted)
  | close {session : ι} (created : s.created session = true) :
      Takes table s (.close session) (s.close session)
  | timeout {session : ι} (running :
        s.runningSessions (table session).worker (table session).uid = some session) :
      Takes table s (.timeout session) (s.removeSelf session)
  | main {task : MainTask ι} {tasks : List (MainTask ι)} (waiting : s.main = task :: tasks) :
      Takes table s .main ({ s with main := tasks }.runMain table task)
  | worker {worker : Worker} {task : WorkerTask ι} {tasks : List (WorkerTask ι)}
      (waiting : s.workers worker = task :: tasks) :
      Takes table s (.worker worker)
        ({ s with workers := Function.update s.workers worker tasks }.runWorker table worker
          task)

theorem step_takes {event : Event ι} {next : KcpServer ι}
    (taken : s.step table event = some next) : s.Takes table event next := by
  cases event with
  | hello session =>
      simp only [step] at taken
      split at taken
      · cases taken
      · next new =>
        cases taken
        exact .hello (Bool.eq_false_iff.mpr new)
  | sent session =>
      obtain ⟨sending, ⟨⟩⟩ := Option.ite_none_right_eq_some.mp taken
      exact .sent sending
  | expired session =>
      obtain ⟨waits, ⟨⟩⟩ := Option.ite_none_right_eq_some.mp taken
      exact .expired waits
  | reply endpoint accepted =>
      cases taken
      exact .reply
  | close session =>
      obtain ⟨created, ⟨⟩⟩ := Option.ite_none_right_eq_some.mp taken
      exact .close created
  | timeout session =>
      obtain ⟨running, ⟨⟩⟩ := Option.ite_none_right_eq_some.mp taken
      exact .timeout running
  | main =>
      simp only [step] at taken
      split at taken
      · cases taken
      · next task tasks waiting =>
        cases taken
        exact .main waiting
  | worker worker =>
      simp only [step] at taken
      split at taken
      · cases taken
      · next task tasks waiting =>
        cases taken
        exact .worker waiting

theorem step_main {task : MainTask ι} {tasks : List (MainTask ι)}
    (waiting : s.main = task :: tasks) :
    s.step table .main = some ({ s with main := tasks }.runMain table task) := by
  rw [step, waiting]

theorem step_worker {worker : Worker} {task : WorkerTask ι} {tasks : List (WorkerTask ι)}
    (waiting : s.workers worker = task :: tasks) :
    s.step table (.worker worker) =
      some ({ s with workers := Function.update s.workers worker tasks }.runWorker table
        worker task) := by
  rw [step, waiting]

end Functions

/-! ## Runs to a quiet state -/

section Runs

variable {table} {s : KcpServer ι} {a b : ι}

theorem step_init {session : ι} (new : s.created session = false) :
    s.step table (.hello session) = some (s.init session) := by
  rw [step, new]
  rfl

theorem reachable_init {session : ι} (reachable : (system table).Reachable s)
    (new : s.created session = false) : (system table).Reachable (s.init session) :=
  .step reachable (step_init new)

theorem reachable_reply (reachable : (system table).Reachable s) (endpoint : Endpoint)
    (accepted : Bool) : (system table).Reachable (s.reply endpoint accepted) := by
  have taken : s.step table (.reply endpoint accepted) = some (s.reply endpoint accepted) := rfl
  exact .step reachable taken

/-- The notifications that a worker's tasks post. -/
def readies (tasks : List (WorkerTask ι)) : List (MainTask ι) :=
  tasks.filterMap fun task =>
    match task with
    | .insert session => some (.ready session)
    | .erase _ => none

/-- A worker runs all its tasks. -/
theorem drain_worker (reachable : (system table).Reachable s) (worker : Worker) :
    (system table).Reachable { s with
      workers := Function.update s.workers worker []
      runningSessions := Function.update s.runningSessions worker
        ((s.workers worker).foldl (WorkerTask.apply table) (s.runningSessions worker))
      main := s.main ++ readies (s.workers worker) } := by
  generalize waiting : s.workers worker = tasks
  induction tasks generalizing s with
  | nil =>
      have workers : Function.update s.workers worker [] = s.workers :=
        Function.update_eq_self_iff.mpr waiting.symm
      simpa [workers, readies, Function.update_eq_self_iff] using reachable
  | cons task tasks ih =>
      have taken := ih (.step reachable (step_worker waiting)) (by
        cases task <;> simp [runWorker, post])
      cases task <;> simpa [runWorker, post, readies, List.append_assoc] using taken

/-- The main service runs the notifications of a worker. -/
theorem drain_main {tasks : List (WorkerTask ι)} (reachable : (system table).Reachable s)
    (waiting : s.main = readies tasks) : (system table).Reachable { s with main := [] } := by
  induction tasks generalizing s with
  | nil =>
      have same : { s with main := [] } = s := by rw [← show s.main = [] from waiting]
      rw [same]
      exact reachable
  | cons task tasks ih =>
      cases task with
      | insert session =>
          have taken : (system table).Reachable { s with main := readies tasks } :=
            .step reachable (step_main waiting)
          have drained := ih taken rfl
          exact drained
      | erase session => exact ih reachable waiting

/-- A session completes its handshake. -/
theorem handshake (a : ι) (reachable : (system table).Reachable s)
    (new : s.created a = false) :
    ∃ next, (system table).Reachable next ∧ next.main = s.main ++ [.add a] ∧
      next.sessions = s.sessions ∧ next.closed = s.closed ∧
      next.waitRemove = s.waitRemove ∧ next.workers = s.workers ∧
      next.runningSessions = s.runningSessions ∧ next.displaced = s.displaced ∧
      next.created = Function.update s.created a true := by
  have hello : s.step table (.hello a) = some (s.init a) := by
    simp [step, new]
  have sent : (s.init a).step table (.sent a) = some ((s.init a).init2 table a) := by
    simp [step, init]
  have reply : ((s.init a).init2 table a).step table (.reply (table a).endpoint true) =
      some (((s.init a).init2 table a).reply (table a).endpoint true) := rfl
  refine ⟨_, .step (.step (.step reachable hello) sent) reply, ?_⟩
  simp [KcpServer.reply, init2, init, init3, post]

/-- One session displaces another: the insertions of both are posted, the removal of the
displaced one waits. -/
theorem displace (apart : a ≠ b) (same : (table a).uid = (table b).uid) :
    ∃ s, (system table).Reachable s ∧ s.main = [.remove a] ∧
      s.sessions (table b).uid = some b ∧ s.closed b = false ∧
      s.workers = (((fresh.postWorker (table a).worker (.insert a)).postWorker
        (table b).worker (.insert b)) : KcpServer ι).workers ∧
      s.runningSessions = (fun _ _ => none) ∧ s.displaced = [(a, b)] := by
  have start : (system table).Reachable (fresh : KcpServer ι) := .initial rfl
  obtain ⟨first, reachable, main, sessions, closed, waits, workers, running, displaced,
    created⟩ := handshake a start rfl
  obtain ⟨second, reachable, main', sessions', closed', waits', workers', running',
    displaced', created'⟩ := handshake b reachable (by
      rw [created]
      exact Function.update_of_ne apart.symm _ _)
  rw [main] at main'
  have none : ({ second with main := [.add b] } : KcpServer ι).sessions (table a).uid =
      none := by
    simp [sessions', sessions, fresh]
  have added := Transition.Reachable.step reachable (step_main main')
  simp only [runMain, List.append_eq, List.nil_append] at added
  rw [addSession_none none] at added
  have some : Function.update second.sessions (table a).uid (some a) (table b).uid =
      some a := by
    rw [← same, Function.update_self]
  have both := Transition.Reachable.step added (step_main rfl)
  simp only [runMain] at both
  rw [addSession_some some] at both
  refine ⟨_, both, ?_⟩
  simp [postWorker, removal, waits', waits, closed', closed, workers', workers, running',
    running, displaced', displaced, fresh, apart.symm]

end Runs

end KcpServer

end Nicenet.Kcp
