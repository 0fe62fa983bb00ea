import Mathlib.Logic.Function.Basic
import Nicenet.Library.Transition

/-!
# The sessions of a TCP server

A session whose handshake is complete posts a task to the main service that adds it to
`m_sessions` and starts to read from its socket. A read or a write that fails, on whichever
worker, posts a task that removes it. All that follows is about any interleaving of these.
-/

namespace Nicenet.Tcp

open Library

abbrev Uid := List UInt8

/-- The tasks of the main service: those of `init2` and of `removeSelf`. -/
inductive MainTask (ι : Type) where
  | add (session : ι)
  | remove (session : ι)
  deriving DecidableEq, Repr

def MainTask.session {ι : Type} : MainTask ι → ι
  | .add session => session
  | .remove session => session

/-- `completed` are the sessions whose reply has been accepted, `reading` those that have
called `doRead`. `ran` only records the run: the tasks of the main service, in order. -/
structure TcpServer (ι : Type) where
  m_uid : ι → Uid
  m_serialID : ι → UInt64
  m_sessions : Uid → Option ι
  completed : ι → Bool
  reading : ι → Bool
  closed : ι → Bool
  main : List (MainTask ι)
  ran : List (MainTask ι)

namespace TcpServer

variable {ι : Type} [DecidableEq ι]

/-- No session has a uid, and its number is what its memory happens to hold. -/
def fresh (memory : ι → UInt64) : TcpServer ι where
  m_uid _ := []
  m_serialID := memory
  m_sessions _ := none
  completed _ := false
  reading _ := false
  closed _ := false
  main := []
  ran := []

/-- `nicehero::post`. -/
def post (s : TcpServer ι) (task : MainTask ι) : TcpServer ι :=
  { s with main := s.main ++ [task] }

def close (s : TcpServer ι) (session : ι) : TcpServer ι :=
  { s with closed := Function.update s.closed session true }

/-- The end of `init2`: `serialID` is what `nowSerialID++` has given. -/
def init2 (s : TcpServer ι) (session : ι) (uid : Uid) (serialID : UInt64) : TcpServer ι :=
  { s with
    completed := Function.update s.completed session true
    m_uid := Function.update s.m_uid session uid
    m_serialID := Function.update s.m_serialID session serialID }.post (.add session)

def removeSelf (s : TcpServer ι) (session : ι) : TcpServer ι := s.post (.remove session)

def addSession (s : TcpServer ι) (uid : Uid) (session : ι) : TcpServer ι :=
  let s :=
    match s.m_sessions uid with
    | none => s
    | some old => s.close old
  { s with m_sessions := Function.update s.m_sessions uid (some session) }

def removeSession (s : TcpServer ι) (uid : Uid) (serialID : UInt64) : TcpServer ι :=
  match s.m_sessions uid with
  | none => s
  | some session =>
      if s.m_serialID session = serialID then
        { s.close session with m_sessions := Function.update s.m_sessions uid none }
      else s

def removeSelfImpl (s : TcpServer ι) (session : ι) : TcpServer ι :=
  s.removeSession (s.m_uid session) (s.m_serialID session)

def doRead (s : TcpServer ι) (session : ι) : TcpServer ι :=
  { s with reading := Function.update s.reading session true }

def runMain (s : TcpServer ι) : MainTask ι → TcpServer ι
  | .add session => (s.addSession (s.m_uid session) session).doRead session
  | .remove session => s.removeSelfImpl session

/-- The service takes a task from its queue. -/
def take (s : TcpServer ι) (task : MainTask ι) (tasks : List (MainTask ι)) : TcpServer ι :=
  { s with main := tasks, ran := s.ran ++ [task] }

/-- A handshake is complete, a session is closed (by the timer of `init2` or by its user),
a read or a write of a session fails, or the main service runs a task. -/
inductive Event (ι : Type) where
  | complete (session : ι) (uid : Uid) (serialID : UInt64)
  | close (session : ι)
  | failed (session : ι)
  | main
  deriving DecidableEq, Repr

def step (s : TcpServer ι) : Event ι → Option (TcpServer ι)
  | .complete session uid serialID =>
      if s.completed session then none else some (s.init2 session uid serialID)
  | .close session => some (s.close session)
  | .failed session => if s.reading session then some (s.removeSelf session) else none
  | .main =>
      match s.main with
      | [] => none
      | task :: tasks => some ((s.take task tasks).runMain task)

/-- Handshakes, closes, errors and tasks, in any order. -/
def system (memory : ι → UInt64) : Transition (TcpServer ι) (Event ι) :=
  .deterministic (fresh memory) step

/-! ## What the functions do -/

section Functions

variable {s next : TcpServer ι} {session : ι} {uid : Uid}

/-- The session registered before is closed. -/
theorem addSession_eq (s : TcpServer ι) (uid : Uid) (session : ι) :
    s.addSession uid session = { s with
      m_sessions := Function.update s.m_sessions uid (some session)
      closed := fun other => s.closed other || s.m_sessions uid = some other } := by
  rw [addSession]
  cases registered : s.m_sessions uid with
  | none => simp
  | some old =>
      simp only [close, Option.some.injEq, TcpServer.mk.injEq, true_and, and_true]
      funext other
      by_cases same : other = old
      · simp [same]
      · simp [Function.update_of_ne same, Ne.symm same]

theorem removeSession_none (serialID : UInt64) (none : s.m_sessions uid = none) :
    s.removeSession uid serialID = s := by
  rw [removeSession, none]

theorem removeSession_other {serialID : UInt64} (some : s.m_sessions uid = some session)
    (other : s.m_serialID session ≠ serialID) : s.removeSession uid serialID = s := by
  rw [removeSession, some]
  exact if_neg other

theorem removeSession_same (some : s.m_sessions uid = some session) :
    s.removeSession uid (s.m_serialID session) = { s with
      m_sessions := Function.update s.m_sessions uid none
      closed := Function.update s.closed session true } := by
  simp only [removeSession, some, if_true, close]

/-- What each event does, where it can happen. -/
inductive Takes (s : TcpServer ι) : Event ι → TcpServer ι → Prop where
  | complete {session : ι} {uid : Uid} {serialID : UInt64}
      (new : s.completed session = false) :
      Takes s (.complete session uid serialID) (s.init2 session uid serialID)
  | close {session : ι} : Takes s (.close session) (s.close session)
  | failed {session : ι} (reading : s.reading session = true) :
      Takes s (.failed session) (s.removeSelf session)
  | main {task : MainTask ι} {tasks : List (MainTask ι)} (waiting : s.main = task :: tasks) :
      Takes s .main ((s.take task tasks).runMain task)

theorem step_takes {event : Event ι} (taken : s.step event = some next) :
    s.Takes event next := by
  cases event with
  | complete session uid serialID =>
      simp only [step] at taken
      split at taken
      · cases taken
      · next new =>
        cases taken
        exact .complete (Bool.eq_false_iff.mpr new)
  | close session =>
      cases taken
      exact .close
  | failed session =>
      obtain ⟨reading, ⟨⟩⟩ := Option.ite_none_right_eq_some.mp taken
      exact .failed reading
  | main =>
      simp only [step] at taken
      split at taken
      · cases taken
      · next task tasks waiting =>
        cases taken
        exact .main waiting

theorem step_main {task : MainTask ι} {tasks : List (MainTask ι)}
    (waiting : s.main = task :: tasks) :
    s.step .main = some ((s.take task tasks).runMain task) := by
  rw [step, waiting]

end Functions

end TcpServer

end Nicenet.Tcp
