import Mathlib.Data.List.Induction
import Nicenet.Library.Transition

/-!
# Tasks of coroutines

The call of a coroutine makes a promise and a task that point at each other. The call runs
the body itself where the caller is on the executer, and otherwise leaves it to a thread of
the executer. The caller may `co_await` the task or destroy it. All that follows is about
any interleaving of the caller with the thread that runs the body.
-/

namespace Nicenet.Coro

open Library

inductive ToService where
  | toMain
  | toWorker
  | toDb
  | toMultiworker
  | toNone
  deriving DecidableEq, Repr

/-- `gCurrentService` on the thread that runs what `nicehero::post` is given. -/
def ToService.post : ToService → ToService
  | .toMain => .toMain
  | .toWorker => .toWorker
  | .toDb => .toDb
  | _ => .toMultiworker

/-- The arguments of `Task`, the services on which it is created and awaited, what the
memory of `ret` holds at first and what the body returns. -/
structure Call (R : Type) where
  executer : ToService
  return_context : ToService
  created : ToService
  awaiter : ToService
  memory : R
  value : R

/-- `gCurrentService` where the body runs. -/
def Call.current {R : Type} (call : Call R) : ToService :=
  if call.executer ≠ call.created then call.executer.post else call.created

/-- Where the caller is. `calling` is a call that runs the body, `signalling` is between
the two statements at the end of `await_suspend`. -/
inductive Caller where
  | outside
  | calling
  | holding
  | signalling
  | suspended
  | resumed
  | destroyed
  deriving DecidableEq, Repr

/-- Where the body is: the statements of `return_value` that come next, then `ending`,
the end of the frame. A null `m_task` that is used crashes. -/
inductive Body where
  | unmade
  | posted
  | look
  | compare
  | wait
  | store
  | load
  | ending
  | gone
  | crashed
  deriving DecidableEq, Repr

/-- The members of the promise and of the task. Pointers and handles are only null or not.
`posted` counts the functions posted to resume the caller, `resumptions` only records the
run: the service on which the caller has been resumed, and `ret` then. -/
structure Task (R : Type) where
  m_task : Bool
  m_semaphore : Nat
  m_promise : Bool
  ret : R
  m_handle : Bool
  m_handle2 : Bool
  first_context : ToService
  caller : Caller
  body : Body
  posted : Nat
  resumptions : List (ToService × R)
  deriving DecidableEq, Repr

namespace Task

variable {R : Type}

def fresh (call : Call R) : Task R where
  m_task := false
  m_semaphore := 0
  m_promise := false
  ret := call.memory
  m_handle := false
  m_handle2 := false
  first_context := .toNone
  caller := .outside
  body := .unmade
  posted := 0
  resumptions := []

/-- The caller goes on, on a thread of the service. -/
def resume (s : Task R) (service : ToService) : Task R :=
  { s with caller := .resumed, resumptions := s.resumptions ++ [(service, s.ret)] }

/-! ## The caller -/

/-- `promise_type()`, `Task(promise_type*)` and `initial_suspend` in one step, although the
function that resumes the body is posted before the body is suspended. -/
def construct (call : Call R) (s : Task R) : Task R :=
  let s := { s with m_promise := true, m_task := true, first_context := call.created }
  if call.executer ≠ call.created then { s with caller := .holding, body := .posted }
  else { s with caller := .calling, body := .look }

def await_suspend (call : Call R) (s : Task R) : Task R :=
  if s.first_context = call.executer ∧ call.return_context = call.executer then
    s.resume call.awaiter
  else if s.first_context = call.executer ∧ call.return_context ≠ call.executer then
    { s with m_handle2 := true, caller := .suspended, posted := s.posted + 1 }
  else { s with m_handle := true, caller := .signalling }

/-- The last statement of `await_suspend`. -/
def signal (s : Task R) : Task R :=
  { s with
    m_semaphore := if s.m_promise then s.m_semaphore + 1 else s.m_semaphore
    caller := .suspended }

/-- `~Task`, with its check and what follows in one step. -/
def destroy (s : Task R) : Task R :=
  { s with m_task := if s.m_promise then false else s.m_task, caller := .destroyed }

/-! ## The body -/

/-- `if (m_task)`. -/
def look (s : Task R) : Task R :=
  if s.m_task then { s with body := .compare } else { s with body := .ending }

/-- `if (m_task->first_context != executer)`. -/
def compare (call : Call R) (s : Task R) : Task R :=
  if s.m_task = false then { s with body := .crashed }
  else if s.first_context ≠ call.executer then { s with body := .wait }
  else { s with body := .store }

/-- `m_semaphore.wait()`, when it returns. -/
def wait (s : Task R) : Task R :=
  { s with m_semaphore := s.m_semaphore - 1, body := .store }

/-- `m_task->ret = std::move(value)`. -/
def store (call : Call R) (s : Task R) : Task R :=
  if s.m_task = false then { s with body := .crashed }
  else { s with ret := call.value, body := .load }

/-- `auto h = m_task->m_handle` and what is done with it. -/
def load (call : Call R) (s : Task R) : Task R :=
  if s.m_task = false then { s with body := .crashed }
  else if s.m_handle = false then { s with body := .ending }
  else if call.current = call.return_context then
    { s with body := .ending }.resume call.current
  else { s with body := .ending, posted := s.posted + 1 }

/-- `final_suspend` and `~promise_type`, with its check and what follows in one step; a call
that ran the body returns. -/
def ending (s : Task R) : Task R :=
  { s with
    m_promise := if s.m_task then false else s.m_promise
    m_task := false
    body := .gone
    caller := if s.caller = .calling then .holding else s.caller }

/-! ## The two together -/

/-- `posted` is a function posted to resume the caller that is run. -/
inductive Event where
  | construct
  | awaitSuspend
  | signal
  | destroy
  | resumeBody
  | look
  | compare
  | wait
  | store
  | load
  | ending
  | posted
  deriving DecidableEq, Repr

def step (call : Call R) (s : Task R) : Event → Option (Task R)
  | .construct => if s.caller = .outside then some (s.construct call) else none
  | .awaitSuspend => if s.caller = .holding then some (s.await_suspend call) else none
  | .signal => if s.caller = .signalling then some s.signal else none
  | .destroy =>
      if s.caller = .holding ∨ s.caller = .resumed then some s.destroy else none
  | .resumeBody => if s.body = .posted then some { s with body := .look } else none
  | .look => if s.body = .look then some s.look else none
  | .compare => if s.body = .compare then some (s.compare call) else none
  | .wait => if s.body = .wait ∧ 0 < s.m_semaphore then some s.wait else none
  | .store => if s.body = .store then some (s.store call) else none
  | .load => if s.body = .load then some (s.load call) else none
  | .ending => if s.body = .ending then some s.ending else none
  | .posted =>
      if 0 < s.posted then
        some ({ s with posted := s.posted - 1 }.resume call.return_context.post)
      else none

/-- The caller's steps and the body's, in any order. -/
def system (call : Call R) : Transition (Task R) Event :=
  .deterministic (fresh call) (step call)

/-- What each event asks of the state and makes of it. -/
inductive Takes (call : Call R) (s : Task R) : Event → Task R → Prop where
  | construct : s.caller = .outside → Takes call s .construct (s.construct call)
  | awaitSuspend : s.caller = .holding → Takes call s .awaitSuspend (s.await_suspend call)
  | signal : s.caller = .signalling → Takes call s .signal s.signal
  | destroy : s.caller = .holding ∨ s.caller = .resumed → Takes call s .destroy s.destroy
  | resumeBody : s.body = .posted → Takes call s .resumeBody { s with body := .look }
  | look : s.body = .look → Takes call s .look s.look
  | compare : s.body = .compare → Takes call s .compare (s.compare call)
  | wait : s.body = .wait → 0 < s.m_semaphore → Takes call s .wait s.wait
  | store : s.body = .store → Takes call s .store (s.store call)
  | load : s.body = .load → Takes call s .load (s.load call)
  | ending : s.body = .ending → Takes call s .ending s.ending
  | posted : 0 < s.posted → Takes call s .posted
      ({ s with posted := s.posted - 1 }.resume call.return_context.post)

theorem step_takes {call : Call R} {s next : Task R} {event : Event}
    (taken : s.step call event = some next) : s.Takes call event next := by
  cases event <;>
    · obtain ⟨allowed, same⟩ := Option.ite_none_right_eq_some.mp taken
      cases same
      first
        | exact .wait allowed.1 allowed.2
        | constructor
          exact allowed

/-! ## What the statements do -/

section Statements

variable {call : Call R} {s : Task R}

theorem await_suspend_resume (first : s.first_context = call.executer)
    (same : call.return_context = call.executer) :
    s.await_suspend call = s.resume call.awaiter := if_pos ⟨first, same⟩

theorem await_suspend_post (first : s.first_context = call.executer)
    (other : call.return_context ≠ call.executer) :
    s.await_suspend call =
      { s with m_handle2 := true, caller := .suspended, posted := s.posted + 1 } := by
  rw [await_suspend, if_neg fun both => other both.2, if_pos ⟨first, other⟩]

theorem await_suspend_store (apart : s.first_context ≠ call.executer) :
    s.await_suspend call = { s with m_handle := true, caller := .signalling } := by
  rw [await_suspend, if_neg fun both => apart both.1, if_neg fun both => apart both.1]

theorem look_some (task : s.m_task = true) : s.look = { s with body := .compare } :=
  if_pos task

theorem look_null (task : s.m_task = false) : s.look = { s with body := .ending } :=
  if_neg (by simp [task])

theorem compare_null (task : s.m_task = false) :
    s.compare call = { s with body := .crashed } := if_pos task

theorem compare_wait (task : s.m_task = true) (apart : s.first_context ≠ call.executer) :
    s.compare call = { s with body := .wait } := by
  rw [compare, if_neg (by simp [task]), if_pos apart]

theorem compare_store (task : s.m_task = true) (same : s.first_context = call.executer) :
    s.compare call = { s with body := .store } := by
  rw [compare, if_neg (by simp [task]), if_neg (by simp [same])]

theorem store_some (task : s.m_task = true) :
    s.store call = { s with ret := call.value, body := .load } := if_neg (by simp [task])

theorem load_null (task : s.m_task = true) (handle : s.m_handle = false) :
    s.load call = { s with body := .ending } := by
  rw [load, if_neg (by simp [task]), if_pos handle]

theorem load_resume (task : s.m_task = true) (handle : s.m_handle = true)
    (here : call.current = call.return_context) :
    s.load call = { s with body := .ending }.resume call.current := by
  rw [load, if_neg (by simp [task]), if_neg (by simp [handle]), if_pos here]

theorem load_post (task : s.m_task = true) (handle : s.m_handle = true)
    (elsewhere : call.current ≠ call.return_context) :
    s.load call = { s with body := .ending, posted := s.posted + 1 } := by
  rw [load, if_neg (by simp [task]), if_neg (by simp [handle]), if_neg elsewhere]

end Statements

end Task

end Nicenet.Coro
