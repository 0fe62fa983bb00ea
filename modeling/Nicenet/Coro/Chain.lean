import Mathlib.Algebra.GroupWithZero.Nat
import Nicenet.Coro.Await

/-!
# A coroutine that awaits one task after the other

Each `co_await` of a coroutine calls another one, suspends until it is resumed, and destroys
the task. The next call is made on the service on which the coroutine has been resumed. The
bodies run on their own threads meanwhile, the ends of earlier ones too. Here each of the two
destructors is one step.
-/

namespace Nicenet.Coro

open Library

variable {R : Type}

/-- The coroutine that is called in a `co_await`: the arguments of its `Task`, what the memory
of `ret` holds at first and what the body returns. -/
structure Callee (R : Type) where
  executer : ToService
  return_context : ToService
  memory : R
  value : R
  deriving DecidableEq, Repr

/-- A call on a service, which is also where the task is awaited. -/
def Callee.call (callee : Callee R) (service : ToService) : Call R where
  executer := callee.executer
  return_context := callee.return_context
  created := service
  awaiter := service
  memory := callee.memory
  value := callee.value

/-- What the coroutine gets, and where it goes on. -/
def Callee.result (callee : Callee R) : ToService × R := (callee.return_context, callee.value)

/-- A task that the coroutine has made, and where. -/
structure Made (R : Type) where
  callee : Callee R
  service : ToService
  task : Task R
  deriving DecidableEq, Repr

def Made.call (made : Made R) : Call R := made.callee.call made.service

/-- The coroutine. `rest` are the calls still to be made; the task that was made last comes
first. -/
structure Chain (R : Type) where
  start : ToService
  rest : List (Callee R)
  made : List (Made R)
  deriving DecidableEq, Repr

namespace Chain

def fresh (start : ToService) (callees : List (Callee R)) : Chain R := ⟨start, callees, []⟩

/-- The service on which the coroutine has been resumed last. -/
def service (s : Chain R) : ToService :=
  match s.made with
  | [] => s.start
  | last :: _ => (last.task.resumptions.getLast?.map Prod.fst).getD s.start

/-- The coroutine runs, and has no task. -/
def idle (s : Chain R) : Bool :=
  match s.made with
  | [] => true
  | last :: _ => last.task.caller = .destroyed

/-- The next call, or a step of one of the tasks. -/
inductive Event where
  | next
  | task (index : Nat) (event : Task.Event)
  deriving DecidableEq, Repr

/-- A task is destroyed once the coroutine has been resumed. -/
def step (s : Chain R) : Event → Option (Chain R)
  | .next =>
      match s.rest with
      | [] => none
      | callee :: rest =>
          if s.idle then
            some { s with
              rest := rest
              made := ⟨callee, s.service, .fresh (callee.call s.service)⟩ :: s.made }
          else none
  | .task index event => do
      let made ← s.made[index]?
      if event = .destroy ∧ made.task.caller ≠ .resumed then none
      else
        let task ← made.task.step made.call event
        some { s with made := s.made.set index { made with task := task } }

/-- What the coroutine has been resumed with, and where, in order. -/
def results (s : Chain R) : List (ToService × R) :=
  s.made.reverse.flatMap fun made => made.task.resumptions

end Chain

/-! ## One task -/

namespace Task

variable {call : Call R} {s next : Task R}

theorem Stage.delivered (stage : s.Stage call) (loud : ¬s.Quiet) :
    s.Delivered call ∧ (s.body = .ending ∨ s.body = .gone) := by
  rcases stage with rfl | stage
  · exact absurd ⟨rfl, rfl⟩ loud
  · split at stage
    · obtain ⟨gone, delivered⟩ := stage.delivered loud
      exact ⟨delivered, .inr gone⟩
    · obtain ⟨past, delivered, -⟩ := stage.delivered loud
      exact ⟨delivered, past⟩

theorem Stage.loud (stage : s.Stage call) (resumed : s.caller = .resumed) : ¬s.Quiet := by
  rcases stage with rfl | stage
  · cases resumed
  · split at stage
    · obtain ⟨-, -, ⟨held | held, -⟩ | delivered⟩ := stage.done (by simp [resumed])
      · cases resumed.symm.trans held
      · cases resumed.symm.trans held
      · obtain ⟨-, ⟨suspended, -⟩ | ⟨-, -, one⟩⟩ := delivered
        · cases resumed.symm.trans suspended
        · intro quiet
          rw [quiet.2] at one
          cases one
    · exact stage.loud resumed

/-- The task has not been destroyed before the coroutine has been resumed. -/
def Held (s : Task R) : Prop := s.caller = .destroyed → ¬s.Quiet

theorem resume_loud (service : ToService) : ¬(s.resume service).Quiet := by
  simp [Quiet, resume]

/-- What is under way to the coroutine, or has got there, does not go away. -/
theorem step_loud {event : Event} (taken : s.step call event = some next) (loud : ¬s.Quiet) :
    ¬next.Quiet := by
  have more : ∀ {other : Task R}, other.posted = s.posted + 1 → ¬other.Quiet := fun count =>
    posted_loud (Nat.lt_of_lt_of_eq (Nat.succ_pos _) count.symm)
  cases step_takes taken with
  | posted => exact resume_loud _
  | awaitSuspend =>
      rw [await_suspend]
      split
      · exact resume_loud _
      · split
        · exact more rfl
        · exact loud
  | load =>
      rw [load]
      split
      · exact loud
      · split
        · exact loud
        · split
          · exact resume_loud _
          · exact more rfl
  | construct =>
      rw [construct]
      split
      · exact loud
      · exact loud
  | look | compare | store =>
      simp only [look, compare, store]
      repeat' split
      all_goals exact loud
  | signal | destroy | resumeBody | wait | ending => exact loud

theorem step_held {event : Event} (stage : s.Stage call) (held : s.Held)
    (taken : s.step call event = some next)
    (awaited : event = .destroy → s.caller = .resumed) : next.Held := by
  intro destroyed
  apply step_loud taken
  by_cases drop : event = .destroy
  · exact stage.loud (awaited drop)
  · apply held
    cases step_takes taken with
    | destroy => exact absurd rfl drop
    | _ =>
        grind [construct, await_suspend, signal, look, compare, wait, store, load, ending, resume]

/-- A task that is gone stays so. -/
theorem step_gone {event : Event} (stage : s.Stage call) (held : s.Held)
    (gone : s.caller = .destroyed) (taken : s.step call event = some next) :
    next.caller = .destroyed := by
  obtain ⟨⟨-, delivered⟩, past⟩ := stage.delivered (held gone)
  cases step_takes taken with
  | construct caller | awaitSuspend caller | signal caller => cases gone.symm.trans caller
  | destroy => rfl
  | resumeBody body | look body | compare body | wait body _ | store body | load body =>
      simp [body] at past
  | ending => exact (if_neg (by simp [gone])).trans gone
  | posted positive =>
      rcases delivered with ⟨suspended, -⟩ | ⟨-, none, -⟩
      · cases gone.symm.trans suspended
      · exact absurd none (Nat.ne_of_gt positive)

/-- The coroutine has been resumed with the value. -/
theorem Stage.resumed (stage : s.Stage call) (held : s.Held) (gone : s.caller = .destroyed) :
    s.resumptions = [(call.landing, call.value)] := by
  obtain ⟨⟨-, ⟨suspended, -⟩ | ⟨-, -, one⟩⟩, -⟩ := stage.delivered (held gone)
  · cases gone.symm.trans suspended
  · exact one

/-! ## The steps that are left -/

end Task

def Caller.left : Caller → Nat
  | .outside => 4
  | .calling | .holding => 3
  | .signalling => 2
  | .suspended | .resumed => 1
  | .destroyed => 0

def Body.left : Body → Nat
  | .unmade => 10
  | .posted => 9
  | .look => 8
  | .compare => 7
  | .wait => 6
  | .store => 5
  | .load => 4
  | .ending => 2
  | .gone | .crashed => 0

namespace Task

variable {call : Call R} {s next : Task R}

def left (s : Task R) : Nat := s.caller.left + s.body.left + s.posted

theorem step_left {event : Event} (stage : s.Stage call)
    (taken : s.step call event = some next) : next.left < s.left := by
  cases step_takes taken with
  | construct outside =>
      cases stage.outside outside
      rw [construct]
      split
      · exact (by decide : 3 + 9 + 0 < 4 + 10 + 0)
      · exact (by decide : 3 + 8 + 0 < 4 + 10 + 0)
  | posted positive =>
      obtain ⟨⟨-, ⟨suspended, -⟩ | ⟨-, none, -⟩⟩, -⟩ := stage.delivered (posted_loud positive)
      · simp only [left, resume, suspended, Caller.left]
        omega
      · exact absurd none (Nat.ne_of_gt positive)
  | _ =>
      grind [left, Caller.left, Body.left, await_suspend, signal, look, compare, wait, store,
        load, ending, resume, destroy]

/-- A call that runs the body can go on. -/
theorem Stage.calling (stage : s.Stage call) (calling : s.caller = .calling) :
    ∃ event next, s.step call event = some next ∧ event ≠ .destroy := by
  rcases stage with rfl | stage
  · cases calling
  · split at stage
    · have caller := stage.done
      obtain ⟨-, -, stage⟩ := stage
      cases body : s.body with
      | look => exact ⟨.look, _, if_pos body, Event.noConfusion⟩
      | compare => exact ⟨.compare, _, if_pos body, Event.noConfusion⟩
      | store => exact ⟨.store, _, if_pos body, Event.noConfusion⟩
      | load => exact ⟨.load, _, if_pos body, Event.noConfusion⟩
      | ending => exact ⟨.ending, _, if_pos body, Event.noConfusion⟩
      | gone =>
          rw [body] at stage
          exact absurd calling stage.caller.2.1
      | unmade | posted | wait | crashed =>
          rw [body] at stage
          exact stage.elim
    · exact absurd calling stage.caller.2

/-- A task that is not gone has a step before it, and is not dropped by it. -/
theorem moves_of_reachable (reachable : (system call).Reachable s)
    (alive : s.caller ≠ .destroyed) :
    ∃ event next, s.step call event = some next ∧
      (event = .destroy → s.caller = .resumed) := by
  cases caller : s.caller with
  | outside => exact ⟨.construct, _, if_pos caller, Event.noConfusion⟩
  | calling =>
      obtain ⟨event, next, taken, other⟩ := (reachable_stage reachable).calling caller
      exact ⟨event, next, taken, fun drop => absurd drop other⟩
  | holding => exact ⟨.awaitSuspend, _, if_pos caller, Event.noConfusion⟩
  | signalling => exact ⟨.signal, _, if_pos caller, Event.noConfusion⟩
  | suspended =>
      obtain ⟨event, next, taken⟩ := suspended_moves reachable caller
      refine ⟨event, next, taken, ?_⟩
      rintro rfl
      cases step_takes taken with
      | destroy held => simp [caller] at held
  | resumed => exact ⟨.destroy, _, if_pos (.inr caller), fun _ => rfl⟩
  | destroyed => exact absurd caller alive

end Task

/-! ## The coroutine -/

/-- A coroutine that goes on where a callee returns gets what the callee has returned. -/
theorem Callee.landing {callee : Callee R} (threads : callee.return_context ≠ .toNone)
    (service : ToService) :
    ((callee.call service).landing, (callee.call service).value) = callee.result := by
  have returns : (callee.call service).Returns := by
    rw [Call.Returns]
    split
    · next same => exact same.1.trans same.2.symm
    · exact threads
  rw [(callee.call service).landing_iff.mpr returns]
  rfl

namespace Chain

variable {callees : List (Callee R)} {s next : Chain R}

/-- The tasks in the order of the calls: all but the last are gone. -/
structure Linked (callees : List (Callee R)) (s : Chain R) : Prop where
  all : s.made.reverse.map Made.callee ++ s.rest = callees
  tasks : ∀ made ∈ s.made, (Task.system made.call).Reachable made.task ∧ made.task.Held
  earlier : ∀ made ∈ s.made.tail, made.task.caller = .destroyed

/-- The steps that are left: each call has fifteen at most. -/
def left (s : Chain R) : Nat := 15 * s.rest.length + (s.made.map fun made => made.task.left).sum

theorem linked_fresh (start : ToService) : Linked callees (fresh start callees) :=
  ⟨rfl, fun _ member => absurd member List.not_mem_nil,
    fun _ member => absurd member List.not_mem_nil⟩

/-- What a step does. -/
inductive Takes (s : Chain R) : Event → Chain R → Prop where
  | next {callee : Callee R} {rest : List (Callee R)} (waiting : s.rest = callee :: rest)
      (idle : s.idle = true) :
      Takes s .next { s with
        rest := rest
        made := ⟨callee, s.service, .fresh (callee.call s.service)⟩ :: s.made }
  | task {index : Nat} {event : Task.Event} {made : Made R} {task : Task R}
      (found : s.made[index]? = some made)
      (awaited : event = .destroy → made.task.caller = .resumed)
      (taken : made.task.step made.call event = some task) :
      Takes s (.task index event)
        { s with made := s.made.set index { made with task := task } }

theorem step_takes {event : Event} (taken : s.step event = some next) : Takes s event next := by
  cases event with
  | next =>
      simp only [step] at taken
      split at taken
      · cases taken
      · next callee rest waiting =>
        split at taken
        · next idle =>
          cases taken
          exact .next waiting idle
        · cases taken
  | task index event =>
      obtain ⟨made, found, taken⟩ := Option.bind_eq_some_iff.mp taken
      split at taken
      · cases taken
      · next awaited =>
        obtain ⟨task, moved, same⟩ := Option.bind_eq_some_iff.mp taken
        cases same
        exact .task found (fun drop => by_contra fun other => awaited ⟨drop, other⟩) moved

theorem Linked.step {event : Event} (linked : s.Linked callees)
    (taken : s.step event = some next) : next.Linked callees := by
  have all := linked.all
  have tasks := linked.tasks
  have earlier := linked.earlier
  cases step_takes taken with
  | @next callee rest waiting idle =>
      refine ⟨?_, List.forall_mem_cons.mpr
        ⟨⟨.initial rfl, fun gone => Caller.noConfusion gone⟩, tasks⟩, ?_⟩
      · rw [List.reverse_cons, List.map_append, List.append_assoc, ← all, waiting]
        rfl
      · rw [Chain.idle] at idle
        cases made : s.made with
        | nil => exact fun _ member => absurd member List.not_mem_nil
        | cons last older =>
            rw [made] at idle earlier
            exact List.forall_mem_cons.mpr ⟨of_decide_eq_true idle, earlier⟩
  | @task index event made task found awaited moved =>
      obtain ⟨reachable, held⟩ := tasks made (List.mem_of_getElem? found)
      have stage := Task.reachable_stage reachable
      have after := Task.step_held stage held moved awaited
      obtain ⟨front, back, split, changed⟩ := Transition.split_set found
      rw [split] at all tasks earlier
      obtain ⟨first, -, second⟩ := (List.forall_mem_append.mp tasks).imp_right
        List.forall_mem_cons.mp
      refine ⟨?_, ?_, ?_⟩
      · rw [changed]
        simpa using all
      · rw [changed]
        exact List.forall_mem_append.mpr ⟨first, List.forall_mem_cons.mpr
          ⟨⟨.step reachable moved, after⟩, second⟩⟩
      · rw [changed]
        cases front with
        | nil => exact earlier
        | cons last front =>
            obtain ⟨before, gone, behind⟩ := (List.forall_mem_append.mp earlier).imp_right
              List.forall_mem_cons.mp
            exact List.forall_mem_append.mpr ⟨before, List.forall_mem_cons.mpr
              ⟨Task.step_gone stage held gone moved, behind⟩⟩

theorem step_lowers {event : Event} (linked : s.Linked callees)
    (taken : s.step event = some next) : next.left < s.left := by
  cases step_takes taken with
  | next waiting idle =>
      simp only [left, waiting, List.length_cons, List.map_cons, List.sum_cons]
      have fresh : ∀ call : Call R, (Task.fresh call).left = 14 := fun _ => rfl
      rw [fresh]
      omega
  | @task index event made task found awaited moved =>
      obtain ⟨reachable, -⟩ := linked.tasks made (List.mem_of_getElem? found)
      have lower := Task.step_left (Task.reachable_stage reachable) moved
      obtain ⟨front, back, split, changed⟩ := Transition.split_set found
      simp only [left, changed]
      rw [split]
      simp only [List.map_append, List.map_cons, List.sum_append, List.sum_cons]
      omega

/-- What the tasks that are gone have come to. -/
theorem gone_results (returns : ∀ callee ∈ callees, callee.return_context ≠ .toNone)
    {list : List (Made R)} (inside : ∀ made ∈ list, made.callee ∈ callees)
    (tasks : ∀ made ∈ list, (Task.system made.call).Reachable made.task ∧ made.task.Held)
    (gone : ∀ made ∈ list, made.task.caller = .destroyed) :
    (list.flatMap fun made => made.task.resumptions) =
      list.map fun made => made.callee.result := by
  induction list with
  | nil => rfl
  | cons made list ih =>
      obtain ⟨mine, others⟩ := List.forall_mem_cons.mp inside
      obtain ⟨⟨reachable, held⟩, rest⟩ := List.forall_mem_cons.mp tasks
      obtain ⟨ended, ends⟩ := List.forall_mem_cons.mp gone
      have one := (Task.reachable_stage reachable).resumed held ended
      rw [Made.call, Callee.landing (returns _ mine)] at one
      rw [List.flatMap_cons, List.map_cons, one, ih others rest ends]
      rfl

/-- The calls of the tasks, the last of which comes first. -/
theorem Linked.split (linked : s.Linked callees) {last : Made R} {older : List (Made R)}
    (made : s.made = last :: older) :
    callees = older.reverse.map Made.callee ++ last.callee :: s.rest := by
  have all := linked.all
  rw [made, List.reverse_cons, List.map_append, List.append_assoc] at all
  exact all.symm

theorem Linked.results_eq (linked : s.Linked callees)
    (returns : ∀ callee ∈ callees, callee.return_context ≠ .toNone) {last : Made R}
    {older : List (Made R)} (made : s.made = last :: older) :
    s.results = (older.reverse.map Made.callee).map Callee.result ++ last.task.resumptions := by
  have tasks := linked.tasks
  have earlier := linked.earlier
  rw [made] at tasks earlier
  have inside : ∀ one ∈ older.reverse, one.callee ∈ callees := by
    intro one member
    rw [linked.split made]
    exact List.mem_append_left _ (List.mem_map_of_mem member)
  have before := gone_results returns inside
    (fun one member => tasks one (List.mem_cons_of_mem _ (List.mem_reverse.mp member)))
    fun one member => earlier one (List.mem_reverse.mp member)
  rw [results, made, List.reverse_cons, List.flatMap_append, before, List.map_map]
  simp only [List.flatMap_cons, List.flatMap_nil, List.append_nil]
  rfl

theorem Linked.landing (linked : s.Linked callees)
    (returns : ∀ callee ∈ callees, callee.return_context ≠ .toNone) {last : Made R}
    {older : List (Made R)} (made : s.made = last :: older) :
    (last.call.landing, last.call.value) = last.callee.result := by
  refine Callee.landing (returns _ ?_) last.service
  rw [linked.split made]
  exact List.mem_append_right _ List.mem_cons_self

/-- What the coroutine has got so far. -/
theorem Linked.results_prefix (linked : s.Linked callees)
    (returns : ∀ callee ∈ callees, callee.return_context ≠ .toNone) :
    s.results <+: callees.map Callee.result := by
  cases made : s.made with
  | nil =>
      rw [results, made]
      exact List.nil_prefix
  | cons last older =>
      have landing := linked.landing returns made
      have reachable := (linked.tasks last (by rw [made]; exact List.mem_cons_self)).1
      rw [linked.results_eq returns made, linked.split made, List.map_append, List.map_cons]
      apply (List.prefix_append_right_inj _).mpr
      rcases (Task.reachable_stage reachable).resumptions with none | one
      · rw [none]
        exact List.nil_prefix
      · rw [one, landing]
        exact ⟨_, rfl⟩

/-- A coroutine goes on until it has got everything. -/
theorem Linked.results_all (linked : s.Linked callees)
    (returns : ∀ callee ∈ callees, callee.return_context ≠ .toNone)
    (stops : ∀ event, s.step event = none) : s.results = callees.map Callee.result := by
  have idle : s.idle = true := by
    rw [Chain.idle]
    cases made : s.made with
    | nil => rfl
    | cons last older =>
        refine decide_eq_true (by_contra fun alive => ?_)
        have reachable := (linked.tasks last (by rw [made]; exact List.mem_cons_self)).1
        obtain ⟨event, task, moved, awaited⟩ := Task.moves_of_reachable reachable alive
        have stuck := stops (.task 0 event)
        have legal : ¬(event = .destroy ∧ last.task.caller ≠ .resumed) :=
          fun both => both.2 (awaited both.1)
        simp [Chain.step, made, moved, legal] at stuck
  have done : s.rest = [] := by
    have stuck := stops .next
    cases rest : s.rest with
    | nil => rfl
    | cons callee rest => simp [Chain.step, rest, idle] at stuck
  cases made : s.made with
  | nil =>
      rw [← linked.all, done, results, made]
      rfl
  | cons last older =>
      have landing := linked.landing returns made
      obtain ⟨reachable, held⟩ := linked.tasks last (by rw [made]; exact List.mem_cons_self)
      rw [Chain.idle, made] at idle
      have one := (Task.reachable_stage reachable).resumed held (of_decide_eq_true idle)
      rw [linked.results_eq returns made, linked.split made, done, one, landing,
        List.map_append]
      rfl

end Chain

end Nicenet.Coro
