import Nicenet.Coro.Await

/-!
# Tasks that nobody awaits

A task that is destroyed sets the `m_task` of its promise to null and signals nothing.
`return_value` looks at `m_task` before it waits for the caller.
-/

namespace Nicenet.Coro.Task

open Library

variable {R : Type} {call : Call R} {s next last : Task R}

/-- The task is gone, and the thread that runs its body waits for a signal that no run
brings. -/
def Stranded (call : Call R) (s : Task R) : Prop :=
  s.caller = .destroyed ∧ s.body = .wait ∧
    ∀ events last, Transition.run (step call) s events = some last → last.body = .wait

/-- A task that nobody awaits is destroyed before `return_value` compares its
`first_context`. -/
def DroppedInTime (events : List Event) : Prop :=
  ∀ before after, events = before ++ .destroy :: after → .awaitSuspend ∉ before →
    .compare ∉ before

/-- The task is gone, and the body waits. -/
def Stuck (s : Task R) : Prop :=
  s.caller = .destroyed ∧ s.body = .wait ∧ s.m_semaphore = 0 ∧ s.posted = 0

theorem step_stuck {event : Event} (stuck : s.Stuck)
    (taken : s.step call event = some next) : next.Stuck := by
  obtain ⟨destroyed, waits, zero, none⟩ := stuck
  cases step_takes taken with
  | construct caller | awaitSuspend caller | signal caller => simp [destroyed] at caller
  | destroy caller => simp [destroyed] at caller
  | resumeBody body | look body | compare body | store body | load body
  | ending body => simp [waits] at body
  | wait _ positive => omega
  | posted positive => omega

theorem run_stuck {events : List Event} (stuck : s.Stuck)
    (taken : Transition.run (step call) s events = some last) : last.Stuck := by
  induction events generalizing s with
  | nil =>
      cases taken
      exact stuck
  | cons event events ih =>
      obtain ⟨next, first, later⟩ := Option.bind_eq_some_iff.mp taken
      exact ih (step_stuck stuck first) later

theorem Stuck.stranded (stuck : s.Stuck) : s.Stranded call :=
  ⟨stuck.1, stuck.2.1, fun _ _ taken => (run_stuck stuck taken).2.1⟩

/-- A destroyed task whose body does not wait never makes it wait. -/
def Clear (s : Task R) : Prop :=
  s.caller = .destroyed ∧ s.m_task = false ∧ s.posted = 0 ∧ s.body ≠ .wait

theorem step_clear {event : Event} (clear : s.Clear)
    (taken : s.step call event = some next) : next.Clear := by
  obtain ⟨destroyed, task, none, moves⟩ := clear
  cases step_takes taken with
  | construct caller | awaitSuspend caller | signal caller => simp [destroyed] at caller
  | destroy caller => simp [destroyed] at caller
  | resumeBody body => exact ⟨destroyed, task, none, by simp⟩
  | look body =>
      rw [look_null task]
      exact ⟨destroyed, task, none, by simp⟩
  | compare body =>
      rw [compare_null task]
      exact ⟨destroyed, task, none, by simp⟩
  | wait waits => exact absurd waits moves
  | store body =>
      rw [store, if_pos task]
      exact ⟨destroyed, task, none, by simp⟩
  | load body =>
      rw [load, if_pos task]
      exact ⟨destroyed, task, none, by simp⟩
  | ending body => exact ⟨by simp [ending, destroyed], rfl, none, by simp [ending]⟩
  | posted positive => omega

theorem run_clear {events : List Event} (clear : s.Clear)
    (taken : Transition.run (step call) s events = some last) : last.Clear := by
  induction events generalizing s with
  | nil =>
      cases taken
      exact clear
  | cons event events ih =>
      obtain ⟨next, first, later⟩ := Option.bind_eq_some_iff.mp taken
      exact ih (step_clear clear first) later

/-! ## What has happened -/

theorem step_destroyed {event : Event} (taken : s.step call event = some next)
    (destroyed : next.caller = .destroyed) : event = .destroy ∨ s.caller = .destroyed := by
  cases step_takes taken with
  | destroy => exact .inl rfl
  | _ =>
      grind [construct, await_suspend, signal, look, compare, wait, store, load, ending,
        resume]

theorem step_waits {event : Event} (taken : s.step call event = some next)
    (waits : next.body = .wait) : event = .compare ∨ s.body = .wait := by
  cases step_takes taken with
  | compare => exact .inl rfl
  | _ =>
      grind [construct, await_suspend, signal, look, wait, store, load, ending, resume,
        destroy]

theorem step_handle {event : Event} (taken : s.step call event = some next)
    (handle : next.m_handle = true) : event = .awaitSuspend ∨ s.m_handle = true := by
  cases step_takes taken with
  | awaitSuspend => exact .inl rfl
  | _ =>
      grind [construct, signal, look, compare, wait, store, load, ending, resume, destroy]

/-- A caller that awaits the task of another service leaves its handle there for good. -/
theorem step_handle_null (apart : call.created ≠ call.executer) {event : Event}
    (stage : s.Stage call) (taken : s.step call event = some next)
    (null : next.m_handle = false) : event ≠ .awaitSuspend ∧ s.m_handle = false := by
  cases step_takes taken with
  | awaitSuspend holding =>
      rcases stage with rfl | stage
      · cases holding
      · rw [if_neg apart] at stage
        rw [await_suspend_store (stage.1 ▸ apart)] at null
        cases null
  | _ =>
      grind [construct, signal, look, compare, wait, store, load, ending, resume, destroy]

/-- `return_value` is not over its comparison. -/
def Uncompared (s : Task R) : Prop :=
  s.body = .unmade ∨ s.body = .posted ∨ s.body = .look ∨ s.body = .compare

theorem step_uncompared {event : Event} (stage : s.Stage call)
    (taken : s.step call event = some next) (uncompared : next.Uncompared) :
    event ≠ .compare ∧ s.Uncompared := by
  cases step_takes taken with
  | construct outside =>
      cases stage.outside outside
      exact ⟨by simp, .inl rfl⟩
  | _ =>
      grind [Uncompared, await_suspend, signal, look, compare, wait, store, load, ending,
        resume, destroy]

/-! ## Every run -/

section Runs

variable {events : List Event}

theorem run_stage (taken : Transition.run (step call) (fresh call) events = some s) :
    s.Stage call := reachable_stage (Transition.reachable_run taken)

theorem destroy_mem (taken : Transition.run (step call) (fresh call) events = some s)
    (destroyed : s.caller = .destroyed) : .destroy ∈ events :=
  Transition.run_caused (fun _ _ _ => step_destroyed) taken (by simp [fresh]) destroyed

theorem compare_mem (taken : Transition.run (step call) (fresh call) events = some s)
    (waits : s.body = .wait) : .compare ∈ events :=
  Transition.run_caused (fun _ _ _ => step_waits) taken (by simp [fresh]) waits

theorem awaitSuspend_mem (taken : Transition.run (step call) (fresh call) events = some s)
    (handle : s.m_handle = true) : .awaitSuspend ∈ events :=
  Transition.run_caused (fun _ _ _ => step_handle) taken (by simp [fresh]) handle

theorem awaitSuspend_not_mem (apart : call.created ≠ call.executer)
    (taken : Transition.run (step call) (fresh call) events = some s)
    (null : s.m_handle = false) : .awaitSuspend ∉ events :=
  (Transition.run_avoids (fun _ _ _ => step_stage) (fun _ _ _ => step_handle_null apart)
    (.inl rfl) taken null).1

theorem compare_not_mem (taken : Transition.run (step call) (fresh call) events = some s)
    (uncompared : s.Uncompared) : .compare ∉ events :=
  (Transition.run_avoids (fun _ _ _ => step_stage) (fun _ _ _ => step_uncompared)
    (.inl rfl) taken uncompared).1

/-- The state in which a task that nobody awaits is destroyed. -/
theorem dropped_open (apart : call.created ≠ call.executer)
    (taken : Transition.run (step call) (fresh call) events = some s)
    (unawaited : .awaitSuspend ∉ events)
    (dropped : s.step call .destroy = some next) : s.caller = .holding ∧ s.Open := by
  have handle : s.m_handle ≠ true := fun handle => unawaited (awaitSuspend_mem taken handle)
  cases step_takes dropped with
  | destroy held =>
      rcases run_stage taken with rfl | stage
      · simp [fresh] at held
      rw [if_neg apart] at stage
      rcases held with holding | resumed
      · exact ⟨holding, stage.unheard (stage.early (.inl holding))⟩
      · exact absurd (stage.delivered (stage.loud resumed)).2.2 handle

/-- The task is destroyed behind the comparison. -/
theorem dropped_late (apart : call.created ≠ call.executer)
    (taken : Transition.run (step call) (fresh call) events = some s)
    (unawaited : .awaitSuspend ∉ events) (compared : .compare ∈ events)
    (dropped : s.step call .destroy = some next) : next.Stuck := by
  obtain ⟨holding, unheard⟩ := dropped_open apart taken unawaited dropped
  have waits : s.body = .wait := by
    have early : s.Early := by
      rcases run_stage taken with rfl | stage
      · cases holding
      · rw [if_neg apart] at stage
        exact stage.early (.inl holding)
    have past : ¬s.Uncompared := fun uncompared => compare_not_mem taken uncompared compared
    rcases early with body | body | body | body
    · exact absurd (.inr (.inl body)) past
    · exact absurd (.inr (.inr (.inl body))) past
    · exact absurd (.inr (.inr (.inr body))) past
    · exact body
  obtain ⟨_, quiet, stage⟩ := unheard
  rw [holding] at stage
  cases step_takes dropped with
  | destroy held => exact ⟨rfl, waits, stage.1, quiet.1⟩

/-- What a stranded thread says of the order of the steps. -/
theorem stranded_late (apart : call.created ≠ call.executer)
    (taken : Transition.run (step call) (fresh call) events = some s)
    (stranded : s.Stranded call) :
    ∃ before after, events = before ++ .destroy :: after ∧ .awaitSuspend ∉ before ∧
      .compare ∈ before := by
  obtain ⟨destroyed, waits, _⟩ := stranded
  obtain ⟨before, after, rfl⟩ := List.append_of_mem (destroy_mem taken destroyed)
  have unawaited : .awaitSuspend ∉ before ++ .destroy :: after := by
    refine awaitSuspend_not_mem apart taken ?_
    rcases run_stage taken with rfl | stage
    · cases destroyed
    rw [if_neg apart] at stage
    obtain ⟨_, _, unheard⟩ := stage.unheard (.inr (.inr (.inr waits)))
    rw [destroyed] at unheard
    exact unheard.2.2
  have unawaited : .awaitSuspend ∉ before := fun member =>
    unawaited (List.mem_append_left _ member)
  refine ⟨before, after, rfl, unawaited, ?_⟩
  rw [Transition.run_append] at taken
  obtain ⟨middle, front, later⟩ := Option.bind_eq_some_iff.mp taken
  obtain ⟨next, dropped, back⟩ := Option.bind_eq_some_iff.mp later
  obtain ⟨_, promise, quiet, _⟩ := dropped_open apart front unawaited dropped
  by_contra uncompared
  have moves : middle.body ≠ .wait := fun body => uncompared (compare_mem front body)
  have clear : next.Clear := by
    cases step_takes dropped with
    | destroy held => exact ⟨rfl, if_pos promise, quiet.1, moves⟩
  exact (run_clear clear back).2.2.2 waits

/-- No thread of the executer is ever stranded exactly if a task of another service that
nobody awaits is destroyed before `return_value` compares. -/
theorem never_stranded_iff {last : Task R}
    (taken : Transition.run (step call) (fresh call) events = some last) :
    (∀ before after s, events = before ++ after →
      Transition.run (step call) (fresh call) before = some s → ¬s.Stranded call) ↔
      (call.created ≠ call.executer → DroppedInTime events) := by
  constructor
  · rintro never apart before after rfl unawaited compared
    rw [Transition.run_append] at taken
    obtain ⟨middle, front, later⟩ := Option.bind_eq_some_iff.mp taken
    obtain ⟨next, dropped, _⟩ := Option.bind_eq_some_iff.mp later
    have stuck := dropped_late apart front unawaited compared dropped
    refine never (before ++ [.destroy]) after next (by simp) ?_ stuck.stranded
    rw [Transition.run_append, front]
    simp [Transition.run, dropped]
  · rintro early before after s rfl front stranded
    by_cases same : call.created = call.executer
    · rcases run_stage front with rfl | stage
      · cases stranded.1
      · rw [if_pos same] at stage
        have gone := (stage.done (by simp [stranded.1])).1
        cases gone.symm.trans stranded.2.1
    · obtain ⟨first, second, rfl, unawaited, compared⟩ := stranded_late same front stranded
      exact early same first (second ++ after) (by simp) unawaited compared

/-- A task of `TO_MULTIWORKER` that `TO_MAIN` calls and drops. -/
def unawaited : Call Nat where
  executer := .toMultiworker
  return_context := .toMain
  created := .toMain
  awaiter := .toMain
  memory := 0
  value := 1

/-- The destructor runs before the body. -/
theorem never_stranded_early :
    ∃ last, Transition.run (step unawaited) (fresh unawaited)
        [.construct, .destroy, .resumeBody, .look, .ending] = some last ∧
      ∀ before after s,
        [.construct, .destroy, .resumeBody, .look, .ending] = before ++ after →
          Transition.run (step unawaited) (fresh unawaited) before = some s →
            ¬s.Stranded unawaited := by
  refine ⟨_, rfl, (never_stranded_iff rfl).mpr ?_⟩
  intro _ before after split _ member
  have member : Event.compare ∈ before ++ .destroy :: after := List.mem_append_left _ member
  rw [← split] at member
  simp at member

/-- The body returns before the destructor runs. -/
theorem unawaited_stranded :
    ∃ s, (system unawaited).Reachable s ∧ s.Stranded unawaited := by
  have taken : ∃ s, Transition.run (step unawaited) (fresh unawaited)
      [.construct, .resumeBody, .look, .compare, .destroy] = some s ∧ s.Stuck :=
    ⟨_, rfl, rfl, rfl, rfl, rfl⟩
  obtain ⟨s, taken, stuck⟩ := taken
  exact ⟨s, Transition.reachable_run taken, stuck.stranded⟩

end Runs

end Nicenet.Coro.Task
