import Nicenet.Coro.Task

/-!
# What `co_await` delivers

The caller is resumed by `await_suspend` itself, by a function that `await_suspend` has
posted, by `return_value`, or by a function that `return_value` has posted.
-/

namespace Nicenet.Coro

open Library

variable {R : Type}

/-- The service on which the caller is resumed. -/
def Call.landing (call : Call R) : ToService :=
  if call.created = call.executer ∧ call.return_context = call.executer then call.awaiter
  else call.return_context.post

/-- A call that has run its body on the `return_context` is awaited there; any other has a
`return_context` with threads of its own. -/
def Call.Returns (call : Call R) : Prop :=
  if call.created = call.executer ∧ call.return_context = call.executer then
    call.awaiter = call.return_context
  else call.return_context ≠ .toNone

@[simp] theorem ToService.post_post (service : ToService) :
    service.post.post = service.post := by
  cases service <;> rfl

theorem ToService.post_eq_self_iff (service : ToService) :
    service.post = service ↔ service ≠ .toNone := by
  cases service <;> decide

theorem Call.landing_inline {call : Call R} (same : call.created = call.executer)
    (returns : call.return_context = call.executer) : call.landing = call.awaiter :=
  if_pos ⟨same, returns⟩

theorem Call.landing_other {call : Call R} (returns : call.return_context ≠ call.executer) :
    call.landing = call.return_context.post := if_neg fun both => returns both.2

theorem Call.landing_remote {call : Call R} (apart : call.created ≠ call.executer) :
    call.landing = call.return_context.post := if_neg fun both => apart both.1

theorem Call.landing_iff (call : Call R) :
    call.landing = call.return_context ↔ call.Returns := by
  rw [landing, Returns]
  split
  · rfl
  · exact ToService.post_eq_self_iff _

namespace Task

variable {call : Call R} {s next : Task R}

/-- Nobody has resumed the caller or is about to. -/
def Quiet (s : Task R) : Prop := s.posted = 0 ∧ s.resumptions = []

theorem posted_loud (posted : 0 < s.posted) : ¬s.Quiet := fun quiet =>
  absurd quiet.1 (Nat.ne_of_gt posted)

/-- The caller has been resumed once, or waits for the one function that does it. -/
def Delivered (call : Call R) (s : Task R) : Prop :=
  s.ret = call.value ∧
    ((s.caller = .suspended ∧ s.posted = 1 ∧ s.resumptions = [] ∧
        call.landing = call.return_context.post) ∨
      ((s.caller = .resumed ∨ s.caller = .destroyed) ∧ s.posted = 0 ∧
        s.resumptions = [(call.landing, call.value)]))

/-- The body has been run in the call. -/
def Done (call : Call R) (s : Task R) : Prop :=
  s.ret = call.value ∧
    ((s.caller = .holding ∨ s.caller = .destroyed) ∧ s.Quiet ∨ s.Delivered call)

/-- A call that runs the body. -/
def Inline (call : Call R) (s : Task R) : Prop :=
  s.first_context = call.created ∧ s.m_handle = false ∧
    match s.body with
    | .look | .compare | .store => s.caller = .calling ∧ s.m_task = true ∧ s.Quiet
    | .load | .ending =>
        s.caller = .calling ∧ s.m_task = true ∧ s.Quiet ∧ s.ret = call.value
    | .gone => s.Done call
    | _ => False

/-- The caller has not been heard of, and what it has written shows where it is. -/
def Open (s : Task R) : Prop :=
  s.m_promise = true ∧ s.Quiet ∧
    match s.caller with
    | .holding => s.m_semaphore = 0 ∧ s.m_task = true ∧ s.m_handle = false
    | .signalling => s.m_semaphore = 0 ∧ s.m_task = true ∧ s.m_handle = true
    | .suspended => s.m_semaphore = 1 ∧ s.m_task = true ∧ s.m_handle = true
    | .destroyed => s.m_semaphore = 0 ∧ s.m_task = false ∧ s.m_handle = false
    | _ => False

/-- The caller waits for the value. -/
def Waits (s : Task R) : Prop :=
  s.m_semaphore = 0 ∧ s.m_task = true ∧ s.m_handle = true ∧ s.caller = .suspended ∧ s.Quiet

/-- The task has been destroyed before anybody has awaited it. -/
def Dropped (s : Task R) : Prop :=
  s.m_task = false ∧ s.m_handle = false ∧ s.caller = .destroyed ∧ s.Quiet

/-- The body runs on a thread of another service. -/
def Remote (call : Call R) (s : Task R) : Prop :=
  s.first_context = call.created ∧
    match s.body with
    | .posted | .look | .compare | .wait => s.Open
    | .store => s.Waits
    | .load => s.Waits ∧ s.ret = call.value
    | .ending | .gone => s.Delivered call ∧ s.m_handle = true ∨ s.Dropped
    | .crashed => s.Dropped
    | .unmade => False

theorem construct_inline (same : call.created = call.executer) :
    ((fresh call).construct call).Inline call := by
  simp [construct, fresh, Inline, Quiet, same]

theorem construct_remote (apart : call.created ≠ call.executer) :
    ((fresh call).construct call).Remote call := by
  simp [construct, fresh, Remote, Open, Quiet, Ne.symm apart]

theorem Delivered.caller (delivered : s.Delivered call) :
    s.caller = .suspended ∨ s.caller = .resumed ∨ s.caller = .destroyed := by
  obtain ⟨_, ⟨suspended, _⟩ | ⟨resumed | destroyed, _⟩⟩ := delivered
  · exact .inl suspended
  · exact .inr (.inl resumed)
  · exact .inr (.inr destroyed)

/-- The resumption that was posted. -/
theorem Delivered.run (delivered : s.Delivered call) (posted : 0 < s.posted) :
    ({ s with posted := s.posted - 1 }.resume call.return_context.post).Delivered call := by
  obtain ⟨ret, ⟨_, one, none, landing⟩ | ⟨_, zero, _⟩⟩ := delivered
  · refine ⟨ret, .inr ⟨.inl rfl, by simp [resume, one], ?_⟩⟩
    simp [resume, none, landing, ret]
  · omega

/-- A destructor that runs after the caller has been resumed. -/
theorem Delivered.destroy (delivered : s.Delivered call) (resumed : s.caller = .resumed) :
    s.destroy.Delivered call := by
  obtain ⟨ret, ⟨suspended, _⟩ | ⟨_, zero, one⟩⟩ := delivered
  · cases resumed.symm.trans suspended
  · exact ⟨ret, .inr ⟨.inr rfl, zero, one⟩⟩

theorem Done.caller (done : s.Done call) :
    s.caller ≠ .outside ∧ s.caller ≠ .calling ∧ s.caller ≠ .signalling := by
  obtain ⟨_, ⟨held | destroyed, _⟩ | delivered⟩ := done
  · simp [held]
  · simp [destroyed]
  · rcases delivered.caller with caller | caller | caller <;> simp [caller]

theorem Done.quiet (done : s.Done call) (holding : s.caller = .holding) : s.Quiet := by
  obtain ⟨_, ⟨_, quiet⟩ | delivered⟩ := done
  · exact quiet
  · simpa [holding] using delivered.caller

theorem Done.delivered (done : s.Done call) (loud : ¬s.Quiet) : s.Delivered call := by
  obtain ⟨_, ⟨_, quiet⟩ | delivered⟩ := done
  · exact absurd quiet loud
  · exact delivered

theorem Done.destroy (done : s.Done call) (held : s.caller = .holding ∨ s.caller = .resumed) :
    s.destroy.Done call := by
  obtain ⟨ret, ⟨_, quiet⟩ | delivered⟩ := done
  · exact ⟨ret, .inl ⟨.inr rfl, quiet⟩⟩
  · refine ⟨ret, .inr (delivered.destroy (held.resolve_left fun holding => ?_))⟩
    simpa [holding] using delivered.caller

/-- What is done behind the end of the body keeps the invariant. -/
theorem Done.inline (done : s.Done call) (gone : s.body = .gone)
    (first : s.first_context = call.created) (handle : s.m_handle = false) :
    s.Inline call := by
  refine ⟨first, handle, ?_⟩
  rw [gone]
  exact done

/-- `co_await` on a task whose body has been run in the call. -/
theorem Done.await_suspend (done : s.Done call) (gone : s.body = .gone)
    (holding : s.caller = .holding) (first : s.first_context = call.created)
    (handle : s.m_handle = false) (same : call.created = call.executer) :
    (s.await_suspend call).Inline call := by
  have ret := done.1
  obtain ⟨posted, none⟩ := done.quiet holding
  by_cases returns : call.return_context = call.executer
  · rw [await_suspend_resume (first.trans same) returns]
    have landing := call.landing_inline same returns
    refine Done.inline ⟨ret, .inr ⟨ret, .inr ⟨.inl rfl, posted, ?_⟩⟩⟩ gone first handle
    simp [resume, none, landing, ret]
  · rw [await_suspend_post (first.trans same) returns]
    have landing := call.landing_other returns
    refine Done.inline ⟨ret, .inr ⟨ret, .inl ⟨rfl, ?_, none, landing⟩⟩⟩ gone first handle
    rw [posted]

theorem Inline.done (holds : s.Inline call) (elsewhere : s.caller ≠ .calling) :
    s.body = .gone ∧ s.Done call := by
  obtain ⟨_, _, stage⟩ := holds
  cases body : s.body with
  | gone =>
      rw [body] at stage
      exact ⟨rfl, stage⟩
  | look | compare | store | load | ending =>
      rw [body] at stage
      exact absurd stage.1 elsewhere
  | unmade | posted | wait | crashed =>
      rw [body] at stage
      exact stage.elim

theorem Inline.delivered (holds : s.Inline call) (loud : ¬s.Quiet) :
    s.body = .gone ∧ s.Delivered call := by
  obtain ⟨_, _, stage⟩ := holds
  cases body : s.body with
  | gone =>
      rw [body] at stage
      exact ⟨rfl, stage.delivered loud⟩
  | look | compare | store =>
      rw [body] at stage
      exact absurd stage.2.2 loud
  | load | ending =>
      rw [body] at stage
      exact absurd stage.2.2.1 loud
  | unmade | posted | wait | crashed =>
      rw [body] at stage
      exact stage.elim

theorem step_inline (same : call.created = call.executer) (holds : s.Inline call)
    {event : Event} (taken : s.step call event = some next) : next.Inline call := by
  have ⟨first, handle, stage⟩ := holds
  cases step_takes taken with
  | construct outside =>
      obtain ⟨_, done⟩ := holds.done (by simp [outside])
      exact absurd outside done.caller.1
  | awaitSuspend holding =>
      obtain ⟨gone, done⟩ := holds.done (by simp [holding])
      exact done.await_suspend gone holding first handle same
  | signal signalling =>
      obtain ⟨_, done⟩ := holds.done (by simp [signalling])
      exact absurd signalling done.caller.2.2
  | destroy held =>
      obtain ⟨gone, done⟩ := holds.done (by rcases held with held | held <;> simp [held])
      exact (done.destroy held).inline gone first handle
  | resumeBody posted =>
      rw [posted] at stage
      exact stage.elim
  | look looks =>
      rw [looks] at stage
      obtain ⟨calling, task, quiet⟩ := stage
      rw [look_some task]
      exact ⟨first, handle, calling, task, quiet⟩
  | compare compares =>
      rw [compares] at stage
      obtain ⟨calling, task, quiet⟩ := stage
      rw [compare_store task (first.trans same)]
      exact ⟨first, handle, calling, task, quiet⟩
  | wait waits positive =>
      rw [waits] at stage
      exact stage.elim
  | store stores =>
      rw [stores] at stage
      obtain ⟨calling, task, quiet⟩ := stage
      rw [store_some task]
      exact ⟨first, handle, calling, task, quiet, rfl⟩
  | load loads =>
      rw [loads] at stage
      obtain ⟨calling, task, quiet, ret⟩ := stage
      rw [load_null task handle]
      exact ⟨first, handle, calling, task, quiet, ret⟩
  | ending ends =>
      rw [ends] at stage
      obtain ⟨calling, task, quiet, ret⟩ := stage
      exact ⟨first, handle, ret, .inl ⟨.inl (if_pos calling), quiet⟩⟩
  | posted waiting =>
      obtain ⟨gone, delivered⟩ := holds.delivered (posted_loud waiting)
      have run := delivered.run waiting
      exact Done.inline ⟨delivered.1, .inr run⟩ gone first handle

/-! ## A body on another thread -/

/-- `return_value` has not got past the semaphore. -/
def Early (s : Task R) : Prop :=
  s.body = .posted ∨ s.body = .look ∨ s.body = .compare ∨ s.body = .wait

theorem Open.remote (unheard : s.Open) (early : s.Early)
    (first : s.first_context = call.created) : s.Remote call := by
  refine ⟨first, ?_⟩
  rcases early with body | body | body | body <;>
    · rw [body]
      exact unheard

theorem Open.dropped (unheard : s.Open) (task : s.m_task = false) : s.Dropped := by
  obtain ⟨_, quiet, stage⟩ := unheard
  cases caller : s.caller with
  | destroyed =>
      rw [caller] at stage
      exact ⟨task, stage.2.2, caller, quiet⟩
  | holding | signalling | suspended =>
      rw [caller] at stage
      simp [task] at stage
  | outside | calling | resumed =>
      rw [caller] at stage
      exact stage.elim

theorem Open.waits (unheard : s.Open) (positive : 0 < s.m_semaphore) : s.wait.Waits := by
  obtain ⟨_, quiet, stage⟩ := unheard
  cases caller : s.caller with
  | suspended =>
      rw [caller] at stage
      obtain ⟨one, task, handle⟩ := stage
      exact ⟨by simp [wait, one], task, handle, caller, quiet⟩
  | holding | signalling | destroyed =>
      rw [caller] at stage
      exact absurd stage.1 (Nat.ne_of_gt positive)
  | outside | calling | resumed =>
      rw [caller] at stage
      exact stage.elim

/-- Where nothing is left to be done for the caller. -/
theorem Remote.later (holds : s.Remote call) (later : ¬s.Early) :
    s.Waits ∨ s.Delivered call ∨ s.Dropped := by
  obtain ⟨_, stage⟩ := holds
  cases body : s.body with
  | posted | look | compare | wait => exact absurd (by simp [Early, body]) later
  | store =>
      rw [body] at stage
      exact .inl stage
  | load =>
      rw [body] at stage
      exact .inl stage.1
  | ending | gone =>
      rw [body] at stage
      rcases stage with ⟨delivered, _⟩ | dropped
      · exact .inr (.inl delivered)
      · exact .inr (.inr dropped)
  | crashed =>
      rw [body] at stage
      exact .inr (.inr stage)
  | unmade =>
      rw [body] at stage
      exact stage.elim

theorem Remote.unheard (holds : s.Remote call) (early : s.Early) : s.Open := by
  obtain ⟨_, stage⟩ := holds
  rcases early with body | body | body | body <;>
    · rw [body] at stage
      exact stage

/-- A caller that has still something to say. -/
theorem Remote.early (holds : s.Remote call)
    (caller : s.caller = .holding ∨ s.caller = .signalling) : s.Early := by
  by_contra later
  rcases holds.later later with ⟨_, _, _, suspended, _⟩ | delivered | ⟨_, _, destroyed, _⟩
  · simp [suspended] at caller
  · rcases delivered.caller with other | other | other <;> simp [other] at caller
  · simp [destroyed] at caller

theorem Remote.caller (holds : s.Remote call) :
    s.caller ≠ .outside ∧ s.caller ≠ .calling := by
  by_cases early : s.Early
  · obtain ⟨_, _, stage⟩ := holds.unheard early
    constructor <;>
      · intro caller
        rw [caller] at stage
        exact stage
  · rcases holds.later early with ⟨_, _, _, suspended, _⟩ | delivered | ⟨_, _, destroyed, _⟩
    · simp [suspended]
    · rcases delivered.caller with other | other | other <;> simp [other]
    · simp [destroyed]

theorem Remote.delivered (holds : s.Remote call) (loud : ¬s.Quiet) :
    (s.body = .ending ∨ s.body = .gone) ∧ s.Delivered call ∧ s.m_handle = true := by
  have late : ¬s.Early := fun early => loud (holds.unheard early).2.1
  obtain ⟨_, stage⟩ := holds
  cases body : s.body with
  | posted | look | compare | wait => exact absurd (by simp [Early, body]) late
  | store =>
      rw [body] at stage
      exact absurd stage.2.2.2.2 loud
  | load =>
      rw [body] at stage
      exact absurd stage.1.2.2.2.2 loud
  | ending =>
      rw [body] at stage
      exact ⟨.inl rfl, stage.resolve_right fun dropped => loud dropped.2.2.2⟩
  | gone =>
      rw [body] at stage
      exact ⟨.inr rfl, stage.resolve_right fun dropped => loud dropped.2.2.2⟩
  | crashed =>
      rw [body] at stage
      exact absurd stage.2.2.2 loud
  | unmade =>
      rw [body] at stage
      exact stage.elim

theorem Remote.loud (holds : s.Remote call) (resumed : s.caller = .resumed) :
    ¬s.Quiet := by
  intro quiet
  by_cases early : s.Early
  · obtain ⟨_, _, stage⟩ := holds.unheard early
    rw [resumed] at stage
    exact stage
  · rcases holds.later early with
      ⟨_, _, _, suspended, _⟩ | ⟨_, ⟨suspended, _⟩ | ⟨_, _, one⟩⟩ | ⟨_, _, destroyed, _⟩
    · cases resumed.symm.trans suspended
    · cases resumed.symm.trans suspended
    · simp [quiet.2] at one
    · cases resumed.symm.trans destroyed

theorem Delivered.remote (delivered : s.Delivered call)
    (past : s.body = .ending ∨ s.body = .gone) (handle : s.m_handle = true)
    (first : s.first_context = call.created) : s.Remote call := by
  refine ⟨first, ?_⟩
  rcases past with body | body <;>
    · rw [body]
      exact .inl ⟨delivered, handle⟩

/-- The value is there, and the caller waits for it. -/
theorem Waits.load (waits : s.Waits) (ret : s.ret = call.value)
    (first : s.first_context = call.created) (apart : call.created ≠ call.executer) :
    (s.load call).Remote call := by
  obtain ⟨_, task, handle, suspended, posted, none⟩ := waits
  have landing := call.landing_remote apart
  have current : call.current = call.executer.post := if_pos (Ne.symm apart)
  by_cases here : call.current = call.return_context
  · rw [load_resume task handle here]
    have same : call.current = call.landing := by
      rw [landing, ← here, current, ToService.post_post]
    refine Delivered.remote ⟨ret, .inr ⟨.inl rfl, posted, ?_⟩⟩ (.inl rfl) handle first
    simp [resume, none, ret, same]
  · rw [load_post task handle here]
    refine Delivered.remote ⟨ret, .inl ⟨suspended, ?_, none, landing⟩⟩ (.inl rfl) handle first
    simp [posted]

theorem step_remote (apart : call.created ≠ call.executer) (holds : s.Remote call)
    {event : Event} (taken : s.step call event = some next) : next.Remote call := by
  have ⟨first, stage⟩ := holds
  cases step_takes taken with
  | construct outside => exact absurd outside holds.caller.1
  | awaitSuspend holding =>
      have early := holds.early (.inl holding)
      obtain ⟨promise, quiet, stage⟩ := holds.unheard early
      rw [holding] at stage
      obtain ⟨semaphore, task, _⟩ := stage
      rw [await_suspend_store (first ▸ apart)]
      exact Open.remote ⟨promise, quiet, semaphore, task, rfl⟩ early first
  | signal signalling =>
      have early := holds.early (.inr signalling)
      obtain ⟨promise, quiet, stage⟩ := holds.unheard early
      rw [signalling] at stage
      obtain ⟨semaphore, task, handle⟩ := stage
      refine Open.remote ⟨promise, quiet, ?_⟩ early first
      simp [signal, promise, semaphore, task, handle]
  | destroy held =>
      rcases held with holding | resumed
      · have early := holds.early (.inl holding)
        obtain ⟨promise, quiet, stage⟩ := holds.unheard early
        rw [holding] at stage
        obtain ⟨semaphore, task, handle⟩ := stage
        exact Open.remote ⟨promise, quiet, semaphore, if_pos promise, handle⟩ early first
      · obtain ⟨past, delivered, handle⟩ := holds.delivered (holds.loud resumed)
        exact (delivered.destroy resumed).remote past handle first
  | resumeBody posted =>
      have unheard := holds.unheard (.inl posted)
      exact Open.remote unheard (.inr (.inl rfl)) first
  | look looks =>
      have unheard := holds.unheard (.inr (.inl looks))
      cases task : s.m_task with
      | true =>
          rw [look_some task]
          exact Open.remote unheard (.inr (.inr (.inl rfl))) first
      | false =>
          rw [look_null task]
          exact ⟨first, .inr (unheard.dropped task)⟩
  | compare compares =>
      have unheard := holds.unheard (.inr (.inr (.inl compares)))
      cases task : s.m_task with
      | true =>
          rw [compare_wait task (first ▸ apart)]
          exact Open.remote unheard (.inr (.inr (.inr rfl))) first
      | false =>
          rw [compare_null task]
          exact ⟨first, unheard.dropped task⟩
  | wait waits positive =>
      have unheard := holds.unheard (.inr (.inr (.inr waits)))
      exact ⟨first, unheard.waits positive⟩
  | store stores =>
      rw [stores] at stage
      rw [store_some stage.2.1]
      exact ⟨first, stage, rfl⟩
  | load loads =>
      rw [loads] at stage
      exact stage.1.load stage.2 first apart
  | ending ends =>
      rw [ends] at stage
      have caller : s.ending.caller = s.caller := if_neg holds.caller.2
      rcases stage with ⟨⟨ret, delivered⟩, handle⟩ | ⟨_, handle, destroyed, quiet⟩
      · rw [← caller] at delivered
        exact Delivered.remote ⟨ret, delivered⟩ (.inr rfl) handle first
      · exact ⟨first, .inr ⟨rfl, handle, caller.trans destroyed, quiet⟩⟩
  | posted waiting =>
      obtain ⟨past, delivered, handle⟩ := holds.delivered (posted_loud waiting)
      exact (delivered.run waiting).remote past handle first

/-! ## Every run -/

/-- Where the two sides of a call stand, in every order of their steps. -/
def Stage (call : Call R) (s : Task R) : Prop :=
  s = fresh call ∨ if call.created = call.executer then s.Inline call else s.Remote call

theorem Stage.outside (stage : s.Stage call) (outside : s.caller = .outside) :
    s = fresh call := by
  rcases stage with start | stage
  · exact start
  · split at stage
    · exact absurd outside (stage.done (by simp [outside])).2.caller.1
    · exact absurd outside stage.caller.1

theorem step_stage {event : Event} (holds : s.Stage call)
    (taken : s.step call event = some next) : next.Stage call := by
  refine .inr ?_
  rcases holds with rfl | holds
  · cases step_takes taken with
    | construct outside =>
        split
        · next same => exact construct_inline same
        · next apart => exact construct_remote apart
    | awaitSuspend caller | signal caller => cases caller
    | destroy caller => simp [fresh] at caller
    | resumeBody body | look body | compare body | wait body _ | store body | load body
    | ending body => cases body
    | posted waiting => cases waiting
  · split
    · next same =>
        rw [if_pos same] at holds
        exact step_inline same holds taken
    · next apart =>
        rw [if_neg apart] at holds
        exact step_remote apart holds taken

theorem reachable_stage (reachable : (system call).Reachable s) : s.Stage call := by
  apply reachable.invariant
  · intro state start
    exact .inl start
  · intro state event next holds taken
    exact step_stage holds taken

theorem Delivered.resumptions (delivered : s.Delivered call) :
    s.resumptions = [] ∨ s.resumptions = [(call.landing, call.value)] := by
  obtain ⟨_, ⟨_, _, none, _⟩ | ⟨_, _, one⟩⟩ := delivered
  · exact .inl none
  · exact .inr one

/-- Nobody has resumed the caller, or it has been resumed once, with the value. -/
theorem Stage.resumptions (stage : s.Stage call) :
    s.resumptions = [] ∨ s.resumptions = [(call.landing, call.value)] := by
  by_cases quiet : s.Quiet
  · exact .inl quiet.2
  · rcases stage with rfl | stage
    · exact .inl rfl
    · split at stage
      · exact (stage.delivered quiet).2.resumptions
      · exact (stage.delivered quiet).2.1.resumptions

/-- The caller awaits the task as soon as it has it, and the body runs to its end. -/
theorem run_landing (call : Call R) :
    ∃ events s, Transition.run (step call) (fresh call) events = some s ∧
      s.resumptions = [(call.landing, call.value)] := by
  by_cases same : call.created = call.executer
  · by_cases returns : call.return_context = call.executer
    · refine ⟨[.construct, .look, .compare, .store, .load, .ending, .awaitSuspend], ?_⟩
      simp [Transition.run, step, construct, fresh, look, compare, store, load, ending,
        await_suspend, resume, same, returns, Call.landing]
    · refine ⟨[.construct, .look, .compare, .store, .load, .ending, .awaitSuspend,
        .posted], ?_⟩
      simp [Transition.run, step, construct, fresh, look, compare, store, load, ending,
        await_suspend, resume, same, returns, Call.landing]
  · have apart := Ne.symm same
    by_cases here : call.executer.post = call.return_context
    · refine ⟨[.construct, .awaitSuspend, .signal, .resumeBody, .look, .compare, .wait,
        .store, .load], ?_⟩
      simp [Transition.run, step, construct, fresh, look, compare, wait, store, load,
        await_suspend, signal, resume, same, apart, Call.landing, Call.current, ← here]
    · refine ⟨[.construct, .awaitSuspend, .signal, .resumeBody, .look, .compare, .wait,
        .store, .load, .posted], ?_⟩
      simp [Transition.run, step, construct, fresh, look, compare, wait, store, load,
        await_suspend, signal, resume, same, apart, here, Call.landing, Call.current]

/-- In every order of the steps the caller is resumed at most once, with the value that
the body has returned and on the `return_context`, exactly if the call returns there. -/
theorem await_delivers_iff (call : Call R) :
    (∀ s, (system call).Reachable s →
      s.resumptions.length ≤ 1 ∧
        ∀ entry ∈ s.resumptions, entry = (call.return_context, call.value)) ↔
      call.Returns := by
  rw [← call.landing_iff]
  constructor
  · intro every
    obtain ⟨events, s, taken, resumed⟩ := run_landing call
    obtain ⟨_, delivered⟩ := every s (Transition.reachable_run taken)
    rw [resumed] at delivered
    exact congrArg Prod.fst (delivered _ (List.mem_singleton.mpr rfl))
  · intro landing s reachable
    rcases (reachable_stage reachable).resumptions with none | one
    · simp [none]
    · simp [one, landing]

/-- A task of `TO_WORKER` that is created there and awaited on `TO_MAIN`. -/
def strayed : Call Nat where
  executer := .toWorker
  return_context := .toWorker
  created := .toWorker
  awaiter := .toMain
  memory := 0
  value := 1

theorem strayed_resumed_elsewhere :
    ∃ s, (system strayed).Reachable s ∧ s.resumptions = [(.toMain, 1)] ∧
      ¬∀ entry ∈ s.resumptions, entry = (strayed.return_context, strayed.value) := by
  have taken : ∃ s, Transition.run (step strayed) (fresh strayed)
      [.construct, .look, .compare, .store, .load, .ending, .awaitSuspend] = some s ∧
      s.resumptions = [(.toMain, 1)] := ⟨_, rfl, rfl⟩
  obtain ⟨s, taken, resumed⟩ := taken
  refine ⟨s, Transition.reachable_run taken, resumed, ?_⟩
  rw [resumed]
  decide

/-- A caller that is suspended does not wait in vain: the body or a function that has been
posted can go on. -/
theorem suspended_moves (reachable : (system call).Reachable s)
    (suspended : s.caller = .suspended) : ∃ event next, s.step call event = some next := by
  have moves : s.Delivered call → ∃ event next, s.step call event = some next := by
    rintro ⟨_, ⟨_, one, _⟩ | ⟨past | past, _⟩⟩
    · exact ⟨.posted, _, if_pos (by omega)⟩
    · cases suspended.symm.trans past
    · cases suspended.symm.trans past
  rcases reachable_stage reachable with rfl | stage
  · cases suspended
  split at stage
  · obtain ⟨_, _, ⟨held, _⟩ | delivered⟩ := stage.done (by simp [suspended])
    · simp [suspended] at held
    · exact moves delivered
  · obtain ⟨_, stage⟩ := stage
    cases body : s.body with
    | posted => exact ⟨.resumeBody, _, if_pos body⟩
    | look => exact ⟨.look, _, if_pos body⟩
    | compare => exact ⟨.compare, _, if_pos body⟩
    | wait =>
        rw [body] at stage
        obtain ⟨_, _, stage⟩ := stage
        rw [suspended] at stage
        exact ⟨.wait, _, if_pos ⟨body, by omega⟩⟩
    | store => exact ⟨.store, _, if_pos body⟩
    | load => exact ⟨.load, _, if_pos body⟩
    | ending => exact ⟨.ending, _, if_pos body⟩
    | gone =>
        rw [body] at stage
        rcases stage with ⟨delivered, _⟩ | ⟨_, _, destroyed, _⟩
        · exact moves delivered
        · cases suspended.symm.trans destroyed
    | crashed =>
        rw [body] at stage
        cases suspended.symm.trans stage.2.2.1
    | unmade =>
        rw [body] at stage
        exact stage.elim

end Task

end Nicenet.Coro
