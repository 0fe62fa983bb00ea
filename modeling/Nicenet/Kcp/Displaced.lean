import Nicenet.Kcp.Registry

/-!
# Displaced sessions

The task that inserts a session into the running sessions of its worker is posted when
it is added, the one that erases a displaced session when that is removed, which is
later. Both go by the uid, so on one worker the second undoes the first.
-/

namespace Nicenet.Kcp.KcpServer

open Library

variable {ι : Type} (table : ι → Identity)

/-- The running sessions of a worker once its pending tasks have run. -/
def settled (s : KcpServer ι) (worker : Worker) : Uid → Option ι :=
  (s.workers worker).foldl (WorkerTask.apply table) (s.runningSessions worker)

/-- All posted tasks have run. -/
def Quiet (s : KcpServer ι) : Prop := s.main = [] ∧ ∀ worker, s.workers worker = []

/-- Sessions that have not been closed are found by their worker. -/
def Registered (s : KcpServer ι) : Prop :=
  ∀ uid session, s.sessions uid = some session → s.closed session = false →
    s.runningSessions (table session).worker uid = some session

/-- When a session is removed, the one registered for its uid is on another worker, or
closed, or has the same number, so that it is removed as well. -/
def RemovesApart (s : KcpServer ι) (event : Event ι) : Prop :=
  event = .main → ∀ session tasks other, s.main = .remove session :: tasks →
    s.sessions (table session).uid = some other →
    (table other).worker = (table session).worker → s.closed other = false →
    (table other).serialID = (table session).serialID

/-- What holds between two tasks: sessions are registered for their own uid and, unless
closed, will be found by their worker. -/
structure Kept (s : KcpServer ι) : Prop where
  uid_eq : ∀ {uid session}, s.sessions uid = some session → (table session).uid = uid
  found : ∀ {uid session}, s.sessions uid = some session → s.closed session = false →
    s.settled table (table session).worker uid = some session

variable {table} {s next : KcpServer ι} {session : ι}

theorem Kept.registered (kept : s.Kept table) (quiet : s.Quiet) : s.Registered table := by
  intro uid session current unclosed
  have found := kept.found current unclosed
  rw [settled, quiet.2] at found
  exact found

theorem fresh_kept : (fresh : KcpServer ι).Kept table where
  uid_eq current := by cases current
  found current := by cases current

/-- Only the sessions, the workers and what is closed matter. -/
theorem Kept.transfer (kept : s.Kept table) (sessions : next.sessions = s.sessions)
    (closed : ∀ session, next.closed session = false → s.closed session = false)
    (settled : ∀ worker, next.settled table worker = s.settled table worker) :
    next.Kept table where
  uid_eq current := kept.uid_eq (sessions ▸ current)
  found current unclosed := by
    rw [settled]
    rw [sessions] at current
    exact kept.found current (closed _ unclosed)

/-- A task posted to a worker changes what the worker will find. -/
theorem settled_postWorker (s : KcpServer ι) (worker other : Worker) (task : WorkerTask ι) :
    (s.postWorker worker task).settled table other =
      if other = worker then task.apply table (s.settled table other)
      else s.settled table other := by
  simp only [settled, postWorker, Function.update_apply]
  split
  · next same => rw [same, List.foldl_append, List.foldl_cons, List.foldl_nil]
  · rfl

/-- A task that a worker runs does not. -/
theorem settled_runWorker {worker : Worker} {task : WorkerTask ι} {tasks : List (WorkerTask ι)}
    (waiting : s.workers worker = task :: tasks) (other : Worker) :
    ({ s with workers := Function.update s.workers worker tasks }.runWorker table worker
      task).settled table other = s.settled table other := by
  have run : ({ s with workers := Function.update s.workers worker tasks }.runWorker table
      worker task).settled table other =
      (Function.update s.workers worker tasks other).foldl (WorkerTask.apply table)
        (Function.update s.runningSessions worker
          (task.apply table (s.runningSessions worker)) other) := by
    cases task <;> rfl
  rw [run, settled, Function.update_apply, Function.update_apply]
  split
  · next same => rw [same, waiting, List.foldl_cons]
  · rfl

/-- A session is added: its worker will find it behind all that is pending. -/
theorem Kept.inserted (kept : s.Kept table)
    (sessions : next.sessions =
      Function.update s.sessions (table session).uid (some session))
    (closed : ∀ other, next.closed other = false → s.closed other = false)
    (settled : ∀ worker, next.settled table worker = s.settled table worker) :
    (next.postWorker (table session).worker (.insert session)).Kept table := by
  have current : ∀ {uid other}, next.sessions uid = some other →
      (uid = (table session).uid ∧ other = session) ∨
        (uid ≠ (table session).uid ∧ s.sessions uid = some other) := by
    intro uid other current
    rw [sessions, Function.update_apply] at current
    split at current
    · next same => exact .inl ⟨same, (Option.some.inj current).symm⟩
    · next differ => exact .inr ⟨differ, current⟩
  constructor
  · intro uid other registered
    rcases current registered with ⟨same, rfl⟩ | ⟨_, before⟩
    · exact same.symm
    · exact kept.uid_eq before
  · intro uid other registered unclosed
    rw [settled_postWorker, settled]
    rcases current registered with ⟨same, rfl⟩ | ⟨differ, before⟩
    · rw [if_pos rfl, same]
      exact Function.update_self _ _ _
    · have found := kept.found before (closed other unclosed)
      split
      · exact (Function.update_of_ne differ _ _).trans found
      · exact found

/-- The uid of a session is erased, while what is registered for it is on another worker
or closed. -/
theorem Kept.erased (kept : s.Kept table)
    (sessions : ∀ {uid other}, next.sessions uid = some other →
      s.sessions uid = some other)
    (closed : ∀ other, next.closed other = false → s.closed other = false)
    (settled : ∀ worker, next.settled table worker = s.settled table worker)
    (apart : ∀ other, next.sessions (table session).uid = some other →
      next.closed other = false → (table other).worker ≠ (table session).worker) :
    (next.postWorker (table session).worker (.erase session)).Kept table := by
  constructor
  · intro uid other registered
    exact kept.uid_eq (sessions registered)
  · intro uid other registered unclosed
    have found := kept.found (sessions registered) (closed other unclosed)
    rw [settled_postWorker, settled]
    split
    · next same =>
      have differ : uid ≠ (table session).uid := by
        rintro rfl
        exact apart other registered unclosed same
      exact (Function.update_of_ne differ _ _).trans found
    · exact found

variable [DecidableEq ι]

theorem update_true_eq_false {closed : ι → Bool} {other : ι}
    (unclosed : Function.update closed session true other = false) :
    closed other = false ∧ other ≠ session := by
  rw [Function.update_apply] at unclosed
  split at unclosed
  · cases unclosed
  · next differ => exact ⟨unclosed, differ⟩

theorem Kept.addSession (kept : s.Kept table) (session : ι) :
    ((s.addSession (table session).uid session).postWorker (table session).worker
      (.insert session)).Kept table := by
  cases registered : s.sessions (table session).uid with
  | none =>
      rw [addSession_none registered]
      exact kept.inserted rfl (fun _ unclosed => unclosed) fun _ => rfl
  | some old =>
      rw [addSession_some registered]
      exact kept.inserted rfl (fun _ unclosed => (update_true_eq_false unclosed).1)
        fun _ => rfl

theorem Kept.removeSelfImpl (kept : s.Kept table) (session : ι)
    (apart : ∀ other, s.sessions (table session).uid = some other →
      (table other).worker = (table session).worker → s.closed other = false →
      (table other).serialID = (table session).serialID) :
    (s.removeSelfImpl table session).Kept table := by
  rw [KcpServer.removeSelfImpl]
  cases registered : s.sessions (table session).uid with
  | none =>
      rw [removeSession_none _ registered]
      refine kept.erased id (fun _ unclosed => unclosed) (fun _ => rfl) ?_
      intro other current
      rw [registered] at current
      cases current
  | some current =>
      by_cases same : (table current).serialID = (table session).serialID
      · rw [← same, removeSession_same registered]
        refine kept.erased ?_ (fun _ unclosed => (update_true_eq_false unclosed).1)
          (fun _ => rfl) ?_
        · intro uid other current
          simp only [Function.update_apply] at current
          split at current
          · cases current
          · exact current
        · intro other current
          simp only [Function.update_self] at current
          cases current
      · rw [removeSession_other registered same]
        refine kept.erased id (fun _ unclosed => unclosed) (fun _ => rfl) ?_
        intro other found unclosed worker
        rw [registered] at found
        cases found
        exact same (apart current registered worker unclosed)

/-- Sessions stay registered through every step that removes them apart. -/
theorem step_kept {event : Event ι} (kept : s.Kept table)
    (taken : s.step table event = some next) (apart : s.RemovesApart table event) :
    next.Kept table := by
  cases step_takes taken with
  | hello new => exact kept.transfer rfl (fun _ unclosed => unclosed) fun _ => rfl
  | sent sending => exact kept.transfer rfl (fun _ unclosed => unclosed) fun _ => rfl
  | expired waits => exact kept.transfer rfl (fun _ unclosed => unclosed) fun _ => rfl
  | @reply endpoint accepted =>
      rw [reply]
      cases s.preSessions endpoint with
      | none => exact kept.transfer rfl (fun _ unclosed => unclosed) fun _ => rfl
      | some session =>
          cases accepted
          · exact kept.transfer rfl (fun _ unclosed => unclosed) fun _ => rfl
          · exact kept.transfer rfl (fun _ unclosed => unclosed) fun _ => rfl
  | close created =>
      rw [close_eq]
      exact kept.transfer rfl (fun _ unclosed => (update_true_eq_false unclosed).1)
        fun _ => rfl
  | timeout running =>
      rw [removeSelf_eq]
      exact kept.transfer rfl (fun _ unclosed => unclosed) fun _ => rfl
  | @main task tasks waiting =>
      have popped : Kept table { s with main := tasks } :=
        kept.transfer rfl (fun _ unclosed => unclosed) fun _ => rfl
      cases task with
      | add session => exact popped.addSession session
      | remove session =>
          exact popped.removeSelfImpl session fun other registered worker unclosed =>
            apart rfl session tasks other waiting registered worker unclosed
      | ready session => exact popped
  | @worker worker task tasks waiting =>
      refine kept.transfer ?_ ?_ (settled_runWorker waiting)
      · cases task <;> rfl
      · intro other unclosed
        cases task <;> exact unclosed

/-- When sessions with the same uid and worker have the same number, sessions are only
removed apart from each other. -/
theorem Kept.removesApart (kept : s.Kept table)
    (same : ∀ a b, a ≠ b → (table a).uid = (table b).uid →
      (table a).worker = (table b).worker → (table a).serialID = (table b).serialID)
    (event : Event ι) : s.RemovesApart table event := by
  intro _ session tasks other _ registered worker _
  by_cases equal : other = session
  · rw [equal]
  · exact same other session equal (kept.uid_eq registered) worker

variable (table) in
/-- A session that displaces another one on the same worker, with another number, ends up
registered and not found. -/
theorem displaced_unregistered {a b : ι} (apart : a ≠ b)
    (uid : (table a).uid = (table b).uid) (worker : (table a).worker = (table b).worker)
    (serialID : (table a).serialID ≠ (table b).serialID) :
    ∃ s, (system table).Reachable s ∧ s.Quiet ∧ ¬s.Registered table := by
  obtain ⟨s, reachable, main, registered, unclosed, workers, running, _⟩ :=
    displace apart uid
  have popped : ({ s with main := [] } : KcpServer ι).sessions (table b).uid = some b :=
    registered
  have removed := Transition.Reachable.step reachable (step_main main)
  rw [runMain, KcpServer.removeSelfImpl, uid, removeSession_other popped serialID.symm]
    at removed
  have worked := drain_worker removed (table b).worker
  have ended := drain_main worked rfl
  refine ⟨_, ended, ⟨rfl, fun other => ?_⟩, fun kept => ?_⟩
  · simp only [Function.update_apply, postWorker, workers, worker]
    split
    · rfl
    · simp [fresh]
  · have found := kept (table b).uid b registered unclosed
    simp [postWorker, workers, worker, running, fresh, WorkerTask.apply, uid] at found

/-- In every run in which sessions are removed apart from each other, all sessions are
found by their workers once all tasks have run. For given sessions this is so in every
run exactly if those with the same uid and worker have the same number. -/
theorem registered_iff (table : ι → Identity) :
    (∀ s, ((system table).guarded (RemovesApart table)).Reachable s → s.Quiet →
        s.Registered table) ∧
      ((∀ s, (system table).Reachable s → s.Quiet → s.Registered table) ↔
        ∀ a b, a ≠ b → (table a).uid = (table b).uid →
          (table a).worker = (table b).worker →
          (table a).serialID = (table b).serialID) := by
  refine ⟨fun s reachable quiet => ?_, fun registered a b apart uid worker => ?_,
    fun same s reachable quiet => ?_⟩
  · have kept : s.Kept table := by
      apply reachable.invariant
      · rintro s rfl
        exact fresh_kept
      · intro s event next kept taken
        exact step_kept kept taken.1 taken.2
    exact kept.registered quiet
  · by_contra serialID
    obtain ⟨s, reachable, quiet, unregistered⟩ :=
      displaced_unregistered table apart uid worker serialID
    exact unregistered (registered s reachable quiet)
  · have kept : s.Kept table := by
      apply reachable.invariant
      · rintro s rfl
        exact fresh_kept
      · intro s event next kept taken
        exact step_kept kept taken (kept.removesApart same event)
    exact kept.registered quiet

/-- A client that connects twice, and is given the same worker both times. -/
def reconnect (second : Bool) : Identity :=
  ⟨⟨[127, 0, 0, 1], if second then 1001 else 1000⟩, ⟨0, workThreadCount_pos⟩,
    if second then 1 else 0, List.replicate publicKeySize 7⟩

/-- Its second session ends up registered and not found. -/
theorem registered_fails :
    ¬∀ (table : Bool → Identity) (s : KcpServer Bool), (system table).Reachable s →
      s.Quiet → s.Registered table := by
  intro every
  obtain ⟨s, reachable, quiet, unregistered⟩ :=
    displaced_unregistered reconnect Bool.false_ne_true rfl rfl (by decide)
  exact unregistered (every reconnect s reachable quiet)

end Nicenet.Kcp.KcpServer
