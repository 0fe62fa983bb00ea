import Nicenet.Coro.Chain

/-!
# The two destructors of a task

`~Task` and `~promise_type` run on threads of their own. Each looks whether the other object
is there and then sets its pointer to null, in two steps that the other destructor may come
between.
-/

namespace Nicenet.Coro

open Library

variable {R : Type}

/-- What `if (m_task)` in `~promise_type` and `if (m_promise)` in `~Task` have found. -/
structure Seen where
  m_task : Option Bool
  m_promise : Option Bool
  deriving DecidableEq, Repr

/-- The checks that are left. -/
def Seen.unchecked (seen : Seen) : Nat :=
  (if seen.m_task = none then 1 else 0) + if seen.m_promise = none then 1 else 0

namespace Task

/-- `~promise_type` behind its `if`, and the end of the frame. -/
def unlinkPromise (found : Bool) (s : Task R) : Task R :=
  { s with
    m_promise := if found then false else s.m_promise
    m_task := false
    body := .gone
    caller := if s.caller = .calling then .holding else s.caller }

/-- `~Task` behind its `if`. -/
def unlinkTask (found : Bool) (s : Task R) : Task R :=
  { s with m_task := if found then false else s.m_task, caller := .destroyed }

theorem unlinkPromise_eq (s : Task R) : s.unlinkPromise s.m_task = s.ending := rfl

theorem unlinkTask_eq (s : Task R) : s.unlinkTask s.m_promise = s.destroy := rfl

end Task

/-- A coroutine as in `Chain`. A `stray` destructor has found the other object, which was gone
when it wrote to it. -/
structure Fine (R : Type) where
  start : ToService
  rest : List (Callee R)
  made : List (Made R × Seen)
  stray : Bool
  deriving DecidableEq, Repr

namespace Fine

def fresh (start : ToService) (callees : List (Callee R)) : Fine R := ⟨start, callees, [], false⟩

def chain (s : Fine R) : Chain R := ⟨s.start, s.rest, s.made.map Prod.fst⟩

def set (s : Fine R) (index : Nat) (made : Made R) (seen : Seen) : Fine R :=
  { s with made := s.made.set index (made, seen) }

/-- `checkTask` and `checkPromise` are the checks of `~promise_type` and `~Task`, the events
`ending` and `destroy` of a task what follows. -/
inductive Event where
  | next
  | checkTask (index : Nat)
  | checkPromise (index : Nat)
  | task (index : Nat) (event : Task.Event)
  deriving DecidableEq, Repr

/-- A step of one of the tasks that is not one of a destructor. -/
def ordinary (s : Fine R) (index : Nat) (event : Task.Event) : Option (Fine R) := do
  let (made, seen) ← s.made[index]?
  let task ← made.task.step made.call event
  some (s.set index { made with task := task } seen)

/-- What an event does as long as no write has gone astray. -/
def move (s : Fine R) : Event → Option (Fine R)
  | .next =>
      match s.rest with
      | [] => none
      | callee :: rest =>
          if s.chain.idle then
            let service := s.chain.service
            some { s with
              rest := rest
              made := (⟨callee, service, .fresh (callee.call service)⟩, ⟨none, none⟩) :: s.made }
          else none
  | .checkTask index => do
      let (made, seen) ← s.made[index]?
      if made.task.body = .ending ∧ seen.m_task = none then
        some (s.set index made { seen with m_task := some made.task.m_task })
      else none
  | .checkPromise index => do
      let (made, seen) ← s.made[index]?
      if made.task.caller = .resumed ∧ seen.m_promise = none then
        some (s.set index made { seen with m_promise := some made.task.m_promise })
      else none
  | .task index .ending => do
      let (made, seen) ← s.made[index]?
      let found ← seen.m_task
      if made.task.body ≠ .ending then none
      else if found ∧ made.task.caller = .destroyed then some { s with stray := true }
      else some (s.set index { made with task := made.task.unlinkPromise found } seen)
  | .task index .destroy => do
      let (made, seen) ← s.made[index]?
      let found ← seen.m_promise
      if made.task.caller ≠ .resumed then none
      else if found ∧ made.task.body = .gone then some { s with stray := true }
      else some (s.set index { made with task := made.task.unlinkTask found } seen)
  | .task index event => s.ordinary index event

/-- A run ends with a stray write. -/
def step (s : Fine R) (event : Event) : Option (Fine R) := if s.stray then none else s.move event

/-- What the coroutine has been resumed with, and where, in order. -/
def results (s : Fine R) : List (ToService × R) := s.chain.results

/-- What a step does. -/
inductive Takes (s : Fine R) : Event → Fine R → Prop where
  | next {callee : Callee R} {rest : List (Callee R)} (waiting : s.rest = callee :: rest)
      (idle : s.chain.idle = true) :
      Takes s .next { s with
        rest := rest
        made := (⟨callee, s.chain.service, .fresh (callee.call s.chain.service)⟩,
          ⟨none, none⟩) :: s.made }
  | checkTask {index : Nat} {made : Made R} {seen : Seen}
      (found : s.made[index]? = some (made, seen)) (ends : made.task.body = .ending)
      (first : seen.m_task = none) :
      Takes s (.checkTask index)
        (s.set index made { seen with m_task := some made.task.m_task })
  | checkPromise {index : Nat} {made : Made R} {seen : Seen}
      (found : s.made[index]? = some (made, seen)) (resumed : made.task.caller = .resumed)
      (first : seen.m_promise = none) :
      Takes s (.checkPromise index)
        (s.set index made { seen with m_promise := some made.task.m_promise })
  | ending {index : Nat} {made : Made R} {seen : Seen} {task : Bool}
      (found : s.made[index]? = some (made, seen)) (looked : seen.m_task = some task)
      (ends : made.task.body = .ending)
      (there : ¬(task = true ∧ made.task.caller = .destroyed)) :
      Takes s (.task index .ending)
        (s.set index { made with task := made.task.unlinkPromise task } seen)
  | endingStray {index : Nat} {made : Made R} {seen : Seen}
      (found : s.made[index]? = some (made, seen)) (ends : made.task.body = .ending) :
      Takes s (.task index .ending) { s with stray := true }
  | destroy {index : Nat} {made : Made R} {seen : Seen} {promise : Bool}
      (found : s.made[index]? = some (made, seen)) (looked : seen.m_promise = some promise)
      (resumed : made.task.caller = .resumed)
      (there : ¬(promise = true ∧ made.task.body = .gone)) :
      Takes s (.task index .destroy)
        (s.set index { made with task := made.task.unlinkTask promise } seen)
  | destroyStray {index : Nat} {made : Made R} {seen : Seen}
      (found : s.made[index]? = some (made, seen)) (resumed : made.task.caller = .resumed) :
      Takes s (.task index .destroy) { s with stray := true }
  | task {index : Nat} {event : Task.Event} {made : Made R} {seen : Seen} {task : Task R}
      (found : s.made[index]? = some (made, seen)) (ends : event ≠ .ending)
      (drops : event ≠ .destroy) (taken : made.task.step made.call event = some task) :
      Takes s (.task index event) (s.set index { made with task := task } seen)

theorem ordinary_takes {s next : Fine R} {index : Nat} {event : Task.Event}
    (ends : event ≠ .ending) (drops : event ≠ .destroy)
    (taken : s.ordinary index event = some next) : Takes s (.task index event) next := by
  obtain ⟨⟨made, seen⟩, found, taken⟩ := Option.bind_eq_some_iff.mp taken
  obtain ⟨task, moved, same⟩ := Option.bind_eq_some_iff.mp taken
  cases same
  exact .task found ends drops moved

theorem move_takes {s next : Fine R} {event : Event} (taken : s.move event = some next) :
    Takes s event next := by
  cases event with
  | next =>
      rw [move] at taken
      split at taken
      · cases taken
      · next callee rest waiting =>
        obtain ⟨idle, same⟩ := Option.ite_none_right_eq_some.mp taken
        cases same
        exact .next waiting idle
  | checkTask index =>
      obtain ⟨⟨made, seen⟩, found, taken⟩ := Option.bind_eq_some_iff.mp taken
      obtain ⟨⟨ends, first⟩, same⟩ := Option.ite_none_right_eq_some.mp taken
      cases same
      exact .checkTask found ends first
  | checkPromise index =>
      obtain ⟨⟨made, seen⟩, found, taken⟩ := Option.bind_eq_some_iff.mp taken
      obtain ⟨⟨resumed, first⟩, same⟩ := Option.ite_none_right_eq_some.mp taken
      cases same
      exact .checkPromise found resumed first
  | task index event =>
      cases event with
      | ending =>
          obtain ⟨⟨made, seen⟩, found, taken⟩ := Option.bind_eq_some_iff.mp taken
          obtain ⟨task, looked, taken⟩ := Option.bind_eq_some_iff.mp taken
          obtain ⟨ends, taken⟩ := Option.ite_none_left_eq_some.mp taken
          split at taken
          · cases taken
            exact .endingStray found (not_not.mp ends)
          · next there =>
            cases taken
            exact .ending found looked (not_not.mp ends) there
      | destroy =>
          obtain ⟨⟨made, seen⟩, found, taken⟩ := Option.bind_eq_some_iff.mp taken
          obtain ⟨promise, looked, taken⟩ := Option.bind_eq_some_iff.mp taken
          obtain ⟨resumed, taken⟩ := Option.ite_none_left_eq_some.mp taken
          split at taken
          · cases taken
            exact .destroyStray found (not_not.mp resumed)
          · next there =>
            cases taken
            exact .destroy found looked (not_not.mp resumed) there
      | _ => exact ordinary_takes Task.Event.noConfusion Task.Event.noConfusion taken

theorem step_takes {s next : Fine R} {event : Event} (taken : s.step event = some next) :
    s.stray = false ∧ Takes s event next := by
  obtain ⟨alive, moved⟩ := Option.ite_none_left_eq_some.mp taken
  exact ⟨by simpa using alive, move_takes moved⟩

/-! ## What a destructor has found -/

/-- What a destructor has found is there still, or the other destructor has run since. -/
structure Agrees (task : Task R) (seen : Seen) : Prop where
  m_task : ∀ found, seen.m_task = some found → task.body = .gone ∨
    task.body = .ending ∧ (found = task.m_task ∨ found = true ∧ task.caller = .destroyed)
  m_promise : ∀ found, seen.m_promise = some found → task.caller = .destroyed ∨
    task.caller = .resumed ∧ (found = task.m_promise ∨ found = true ∧ task.body = .gone)

theorem agrees_none (task : Task R) : Agrees task ⟨none, none⟩ :=
  ⟨nofun, nofun⟩

section Agrees

variable {task next : Task R} {seen : Seen} {call : Call R}

theorem Agrees.checkTask (agrees : Agrees task seen) (ends : task.body = .ending) :
    Agrees task { seen with m_task := some task.m_task } := by
  refine ⟨?_, agrees.m_promise⟩
  rintro _ ⟨⟩
  exact .inr ⟨ends, .inl rfl⟩

theorem Agrees.checkPromise (agrees : Agrees task seen) (resumed : task.caller = .resumed) :
    Agrees task { seen with m_promise := some task.m_promise } := by
  refine ⟨agrees.m_task, ?_⟩
  rintro _ ⟨⟩
  exact .inr ⟨resumed, .inl rfl⟩

theorem Agrees.ending (agrees : Agrees task seen) : Agrees task.ending seen := by
  refine ⟨fun _ _ => .inl rfl, fun found looked => ?_⟩
  rcases agrees.m_promise found looked with gone | ⟨resumed, same⟩
  · exact .inl (by simp [Task.ending, gone])
  · refine .inr ⟨by simp [Task.ending, resumed], ?_⟩
    cases found with
    | true => exact .inr ⟨rfl, rfl⟩
    | false =>
        left
        simp only [Bool.false_eq_true, false_and, or_false] at same
        simp [Task.ending, ← same]

theorem Agrees.destroy (agrees : Agrees task seen) : Agrees task.destroy seen := by
  refine ⟨fun found looked => ?_, fun _ _ => .inl rfl⟩
  rcases agrees.m_task found looked with gone | ⟨ends, same⟩
  · exact .inl gone
  · refine .inr ⟨ends, ?_⟩
    cases found with
    | true => exact .inr ⟨rfl, rfl⟩
    | false =>
        left
        simp only [Bool.false_eq_true, false_and, or_false] at same
        simp [Task.destroy, ← same]

/-- The other steps leave both pointers alone. -/
theorem Agrees.step {event : Task.Event} (agrees : Agrees task seen) (stage : task.Stage call)
    (held : task.Held) (ends : event ≠ .ending) (drops : event ≠ .destroy)
    (taken : task.step call event = some next) : Agrees next seen := by
  have gone : task.caller = .destroyed → next.caller = .destroyed :=
    fun gone => Task.step_gone stage held gone taken
  have promise := agrees.m_promise
  have frame := agrees.m_task
  cases Task.step_takes taken with
  | ending => exact absurd rfl ends
  | destroy => exact absurd rfl drops
  | construct outside =>
      cases stage.outside outside
      refine ⟨fun found looked => ?_, fun found looked => ?_⟩
      · rcases frame found looked with body | ⟨body, -⟩ <;> cases body
      · rcases promise found looked with caller | ⟨caller, -⟩ <;> cases caller
  | _ =>
      refine ⟨fun found looked => ?_, fun found looked => ?_⟩
      · have frame := frame found looked
        grind [Task.await_suspend, Task.signal, Task.look, Task.compare, Task.wait, Task.store,
          Task.load, Task.resume]
      · have promise := promise found looked
        grind [Task.await_suspend, Task.signal, Task.look, Task.compare, Task.wait, Task.store,
          Task.load, Task.resume]

end Agrees

/-! ## The run with destructors of one step each -/

/-- A run of the coroutine as in `Chain`, in which each destructor has agreed so far. -/
structure Sound (callees : List (Callee R)) (s : Fine R) : Prop where
  linked : s.chain.Linked callees
  agrees : ∀ entry ∈ s.made, Agrees entry.1.task entry.2

variable {callees : List (Callee R)} {s next : Fine R}

theorem sound_fresh (start : ToService) : Sound callees (fresh start callees) :=
  ⟨Chain.linked_fresh start, fun _ member => absurd member List.not_mem_nil⟩

theorem chain_set (s : Fine R) (index : Nat) (made : Made R) (seen : Seen) :
    (s.set index made seen).chain = { s.chain with made := s.chain.made.set index made } := by
  rw [chain, set, chain, List.map_set]

theorem chain_found {index : Nat} {made : Made R} {seen : Seen}
    (found : s.made[index]? = some (made, seen)) : s.chain.made[index]? = some made := by
  rw [chain, List.getElem?_map, found]
  rfl

/-- A check changes nothing that the coroutine as in `Chain` has. -/
theorem chain_check {index : Nat} {made : Made R} {seen : Seen} (other : Seen)
    (found : s.made[index]? = some (made, seen)) : (s.set index made other).chain = s.chain := by
  obtain ⟨inside, same⟩ := List.getElem?_eq_some_iff.mp (chain_found found)
  rw [chain_set, ← same, List.set_getElem_self]

/-- A step of a task is one of the task in the coroutine as in `Chain`. -/
theorem chain_task {index : Nat} {event : Task.Event} {made : Made R} {seen : Seen}
    {task : Task R} (found : s.made[index]? = some (made, seen))
    (awaited : event = .destroy → made.task.caller = .resumed)
    (taken : made.task.step made.call event = some task) :
    s.chain.step (.task index event) =
      some (s.set index { made with task := task } seen).chain := by
  have legal : ¬(event = .destroy ∧ made.task.caller ≠ .resumed) :=
    fun both => both.2 (awaited both.1)
  simp only [Chain.step, chain_found found, Option.bind_eq_bind, Option.bind_some, legal,
    if_false, taken, chain_set]

/-- A destructor that does not stray writes what it would have written as one step. -/
theorem Agrees.unlinkPromise {task : Task R} {seen : Seen} {found : Bool}
    (agrees : Agrees task seen) (looked : seen.m_task = some found) (ends : task.body = .ending)
    (there : ¬(found = true ∧ task.caller = .destroyed)) :
    task.unlinkPromise found = task.ending := by
  rcases agrees.m_task found looked with gone | ⟨-, same | stray⟩
  · cases ends.symm.trans gone
  · rw [same, Task.unlinkPromise_eq]
  · exact absurd stray there

theorem Agrees.unlinkTask {task : Task R} {seen : Seen} {found : Bool}
    (agrees : Agrees task seen) (looked : seen.m_promise = some found)
    (resumed : task.caller = .resumed) (there : ¬(found = true ∧ task.body = .gone)) :
    task.unlinkTask found = task.destroy := by
  rcases agrees.m_promise found looked with gone | ⟨-, same | stray⟩
  · cases resumed.symm.trans gone
  · rw [same, Task.unlinkTask_eq]
  · exact absurd stray there

/-- The checks that are left. -/
def unchecked (s : Fine R) : Nat :=
  2 * s.rest.length + (s.made.map fun entry => entry.2.unchecked).sum

theorem unchecked_set {index : Nat} {made : Made R} {seen : Seen}
    (found : s.made[index]? = some (made, seen)) (other : Made R) (after : Seen) :
    (s.set index other after).unchecked + seen.unchecked = s.unchecked + after.unchecked := by
  obtain ⟨front, back, split, changed⟩ := Transition.split_set found
  rw [unchecked, unchecked, set, changed, split]
  simp only [List.map_append, List.map_cons, List.sum_append, List.sum_cons]
  omega

/-- A task that has steps left. -/
theorem left_pos {index : Nat} {made : Made R} {seen : Seen}
    (found : s.made[index]? = some (made, seen)) (positive : 0 < made.task.left) :
    0 < s.chain.left := by
  obtain ⟨front, back, split, -⟩ := Transition.split_set (chain_found found)
  rw [Chain.left, split, List.map_append, List.map_cons, List.sum_append, List.sum_cons]
  omega

/-- Every step is one of the coroutine as in `Chain`, the check of a destructor, or stray. -/
theorem Sound.simulates {event : Event} (sound : s.Sound callees)
    (taken : s.step event = some next) :
    (∃ event, s.chain.step event = some next.chain) ∧ next.unchecked = s.unchecked ∨
      next.chain = s.chain ∧
        (next.unchecked < s.unchecked ∨ next.stray = true ∧ 0 < s.chain.left) := by
  cases (step_takes taken).2 with
  | next waiting idle =>
      refine .inl ⟨⟨.next, ?_⟩, ?_⟩
      · have rest : s.chain.rest = _ := waiting
        simp only [Chain.step, rest, idle, if_true]
        rfl
      · have both : Seen.unchecked ⟨none, none⟩ = 2 := rfl
        simp only [unchecked, waiting, List.map_cons, List.sum_cons, List.length_cons, both]
        omega
  | @checkTask index made seen found ends first =>
      refine .inr ⟨chain_check _ found, .inl ?_⟩
      have less : Seen.unchecked { seen with m_task := some made.task.m_task } <
          seen.unchecked := by
        simp [Seen.unchecked, first]
      have total := unchecked_set found made { seen with m_task := some made.task.m_task }
      omega
  | @checkPromise index made seen found resumed first =>
      refine .inr ⟨chain_check _ found, .inl ?_⟩
      have less : Seen.unchecked { seen with m_promise := some made.task.m_promise } <
          seen.unchecked := by
        simp [Seen.unchecked, first]
      have total := unchecked_set found made
        { seen with m_promise := some made.task.m_promise }
      omega
  | @endingStray index made seen found ends =>
      refine .inr ⟨rfl, .inr ⟨rfl, left_pos found ?_⟩⟩
      simp only [Task.left, ends, Body.left]
      omega
  | @destroyStray index made seen found resumed =>
      refine .inr ⟨rfl, .inr ⟨rfl, left_pos found ?_⟩⟩
      simp only [Task.left, resumed, Caller.left]
      omega
  | @ending index made seen task found looked ends there =>
      have agrees := sound.agrees _ (List.mem_of_getElem? found)
      have taken : made.task.step made.call .ending = some made.task.ending := if_pos ends
      rw [agrees.unlinkPromise looked ends there]
      exact .inl ⟨⟨_, chain_task found (fun drop => Task.Event.noConfusion drop) taken⟩,
        Nat.add_right_cancel (unchecked_set found _ seen)⟩
  | @destroy index made seen promise found looked resumed there =>
      have agrees := sound.agrees _ (List.mem_of_getElem? found)
      have taken : made.task.step made.call .destroy = some made.task.destroy :=
        if_pos (.inr resumed)
      rw [agrees.unlinkTask looked resumed there]
      exact .inl ⟨⟨_, chain_task found (fun _ => resumed) taken⟩,
        Nat.add_right_cancel (unchecked_set found _ seen)⟩
  | @task index event made seen task found ends drops moved =>
      exact .inl ⟨⟨_, chain_task found (fun drop => absurd drop drops) moved⟩,
        Nat.add_right_cancel (unchecked_set found _ seen)⟩

theorem Sound.step {event : Event} (sound : s.Sound callees)
    (taken : s.step event = some next) : next.Sound callees := by
  have linked : next.chain.Linked callees := by
    rcases sound.simulates taken with ⟨⟨event, moved⟩, -⟩ | ⟨same, -⟩
    · exact sound.linked.step moved
    · rw [same]
      exact sound.linked
  refine ⟨linked, ?_⟩
  have changed {index : Nat} {made other : Made R} {seen after : Seen}
      (found : s.made[index]? = some (made, seen)) (agrees : Agrees other.task after) :
      ∀ entry ∈ (s.set index other after).made, Agrees entry.1.task entry.2 := by
    intro entry member
    rcases List.mem_or_eq_of_mem_set member with before | rfl
    · exact sound.agrees entry before
    · exact agrees
  cases (step_takes taken).2 with
  | next waiting idle => exact List.forall_mem_cons.mpr ⟨agrees_none _, sound.agrees⟩
  | checkTask found ends first =>
      exact changed found ((sound.agrees _ (List.mem_of_getElem? found)).checkTask ends)
  | checkPromise found resumed first =>
      exact changed found ((sound.agrees _ (List.mem_of_getElem? found)).checkPromise resumed)
  | endingStray | destroyStray => exact sound.agrees
  | ending found looked ends there =>
      have agrees := sound.agrees _ (List.mem_of_getElem? found)
      rw [agrees.unlinkPromise looked ends there]
      exact changed found agrees.ending
  | destroy found looked resumed there =>
      have agrees := sound.agrees _ (List.mem_of_getElem? found)
      rw [agrees.unlinkTask looked resumed there]
      exact changed found agrees.destroy
  | @task index event made seen task found ends drops moved =>
      obtain ⟨reachable, held⟩ :=
        sound.linked.tasks made (List.mem_of_getElem? (chain_found found))
      exact changed found ((sound.agrees _ (List.mem_of_getElem? found)).step
        (Task.reachable_stage reachable) held ends drops moved)

/-- The steps that are left: each call has two checks more than in `Chain`. -/
def left (s : Fine R) : Nat := if s.stray then 0 else s.chain.left + s.unchecked

theorem step_lowers {event : Event} (sound : s.Sound callees)
    (taken : s.step event = some next) : next.left < s.left := by
  have alive := (step_takes taken).1
  have most : next.left ≤ next.chain.left + next.unchecked := by
    rw [left]
    split
    · exact Nat.zero_le _
    · exact Nat.le_refl _
  have mine : s.left = s.chain.left + s.unchecked := if_neg (by simp [alive])
  rcases sound.simulates taken with ⟨⟨event, moved⟩, same⟩ | ⟨same, less | ⟨stray, positive⟩⟩
  · have lower := Chain.step_lowers sound.linked moved
    omega
  · rw [same] at most
    omega
  · have none : next.left = 0 := if_pos stray
    omega

/-- Where the coroutine as in `Chain` goes on, so does this one. -/
theorem chain_stops (alive : s.stray = false) (stops : ∀ event, s.step event = none)
    (event : Chain.Event) : s.chain.step event = none := by
  cases moved : s.chain.step event with
  | none => rfl
  | some other =>
      cases Chain.step_takes moved with
      | next waiting idle =>
          have waiting : s.rest = _ := waiting
          have stuck := stops .next
          simp [step, move, alive, waiting, idle] at stuck
      | @task index event made task found awaited taken =>
          rw [chain, List.getElem?_map] at found
          obtain ⟨⟨made, seen⟩, here, rfl⟩ := Option.map_eq_some_iff.mp found
          have ended := stops (.checkTask index)
          have dropped := stops (.checkPromise index)
          have stuck := stops (.task index event)
          cases Task.step_takes taken with
          | ending ends =>
              dsimp only at ends
              cases looked : seen.m_task with
              | none => simp [step, move, alive, here, ends, looked] at ended
              | some there =>
                  simp only [step, move, alive, here] at stuck
                  grind
          | destroy held =>
              have resumed := awaited rfl
              dsimp only at resumed
              cases looked : seen.m_promise with
              | none => simp [step, move, alive, here, resumed, looked] at dropped
              | some there =>
                  simp only [step, move, alive, here] at stuck
                  grind
          | _ =>
              dsimp only at taken
              simp [step, move, alive, ordinary, here, taken] at stuck

/-- Wherever a coroutine starts, and in every order of its steps and those of the bodies it
awaits: it gets what they return one after the other, each on the service it is to return to.
It takes at most seventeen steps for each. When it stops, it has got everything, or a
destructor has found the other object of a task, which was gone when it wrote to it. -/
theorem chain_completes {start : ToService} {events : List Event}
    (returns : ∀ callee ∈ callees, callee.return_context ≠ .toNone)
    (taken : Transition.run step (fresh start callees) events = some s) :
    events.length ≤ 17 * callees.length ∧ s.results <+: callees.map Callee.result ∧
      ((∀ event, s.step event = none) →
        s.stray = true ∨ s.results = callees.map Callee.result) := by
  have length := Transition.run_length (fun _ _ _ sound => Sound.step sound)
    (fun _ _ _ sound => step_lowers sound) (sound_fresh start) taken
  have sound : s.Sound callees := by
    apply (Transition.reachable_run taken).invariant
    · rintro s rfl
      exact sound_fresh start
    · exact fun _ _ _ sound step => Sound.step sound step
  have bound : (fresh start callees).left = 15 * callees.length + 2 * callees.length := rfl
  refine ⟨by omega, sound.linked.results_prefix returns, fun stops => ?_⟩
  cases stray : s.stray with
  | true => exact .inl rfl
  | false => exact .inr (sound.linked.results_all returns (chain_stops stray stops))

/-- A query on `TO_DB`, and a call on the service of the coroutine itself. -/
def twoCallees : List (Callee Nat) := [⟨.toDb, .toMain, 0, 1⟩, ⟨.toMain, .toMain, 0, 2⟩]

/-- The two calls one after the other. The end of the first body comes behind the second
call, and has looked for the task when that one is made. -/
def twoCalls : List Event :=
  [.next, .task 0 .construct, .task 0 .resumeBody, .task 0 .awaitSuspend, .task 0 .look,
    .task 0 .signal, .task 0 .compare, .task 0 .wait, .task 0 .store, .task 0 .load,
    .task 0 .posted, .checkPromise 0, .task 0 .destroy, .checkTask 0, .next,
    .task 0 .construct, .task 0 .look, .task 0 .compare, .task 0 .store, .task 0 .load,
    .task 1 .ending, .checkTask 0, .task 0 .ending, .task 0 .awaitSuspend, .checkPromise 0,
    .task 0 .destroy]

theorem chain_completes_two : ∃ s,
    Transition.run step (fresh .toMain twoCallees) twoCalls = some s ∧ s.stray = false ∧
      s.results = [(.toMain, 1), (.toMain, 2)] ∧
        s.results <+: twoCallees.map Callee.result := by
  have taken : ∃ s, Transition.run step (fresh .toMain twoCallees) twoCalls = some s ∧
      s.stray = false ∧ s.results = [(.toMain, 1), (.toMain, 2)] := ⟨_, rfl, rfl, rfl⟩
  obtain ⟨s, taken, alive, results⟩ := taken
  exact ⟨s, taken, alive, results, (chain_completes (by decide) taken).2.1⟩

/-- The two destructors of one task, both of which have found the other object. -/
example : (Transition.run step (fresh .toMain twoCallees) (twoCalls.take 11 ++
    [.checkTask 0, .checkPromise 0, .task 0 .destroy, .task 0 .ending])).map stray =
      some true := by
  decide

end Fine

end Nicenet.Coro
