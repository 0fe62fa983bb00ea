import Mathlib.Tactic.Common

/-!
# Runs of a transition system

A system starts in one of its initial states and takes one labelled step after
the other, in any order that the steps themselves allow. What an initial state
has and every step keeps, every reachable state has.
-/

namespace Nicenet.Library

structure Transition (σ ε : Type) where
  initial : σ → Prop
  step : σ → ε → σ → Prop

namespace Transition

variable {σ ε : Type} (system : Transition σ ε)

inductive Reachable : σ → Prop where
  | initial {state : σ} : system.initial state → Reachable state
  | step {state next : σ} {event : ε} :
      Reachable state → system.step state event next → Reachable next

/-- The invariant rule: a step lemma gives a lemma about every run. -/
theorem Reachable.invariant {system : Transition σ ε} {property : σ → Prop}
    (start : ∀ state, system.initial state → property state)
    (keep : ∀ state event next, property state → system.step state event next →
      property next)
    {state : σ} (reachable : system.Reachable state) : property state := by
  induction reachable with
  | initial first => exact start _ first
  | step _ taken ih => exact keep _ _ _ ih taken

/-- The runs of a system whose steps all meet a condition on the state before them. -/
def guarded (allowed : σ → ε → Prop) : Transition σ ε where
  initial := system.initial
  step state event next := system.step state event next ∧ allowed state event

theorem Reachable.unguarded {system : Transition σ ε} {allowed : σ → ε → Prop} {state : σ}
    (reachable : (system.guarded allowed).Reachable state) : system.Reachable state := by
  induction reachable with
  | initial first => exact .initial first
  | step _ taken ih => exact .step ih taken.1

/-- The runs of a system that go on behind a state. -/
def after (start : σ) : Transition σ ε where
  initial state := state = start
  step := system.step

/-! ## Events with at most one outcome -/

/-- A system that starts in one state and whose events have at most one outcome. -/
def deterministic (start : σ) (step : σ → ε → Option σ) : Transition σ ε where
  initial state := state = start
  step state event next := step state event = some next

/-- The state that a list of events leads to. -/
def run (step : σ → ε → Option σ) : σ → List ε → Option σ
  | state, [] => some state
  | state, event :: events => (step state event).bind fun next => run step next events

theorem Reachable.run {start : σ} {step : σ → ε → Option σ} {events : List ε}
    {state last : σ} (reachable : (deterministic start step).Reachable state)
    (taken : Transition.run step state events = some last) :
    (deterministic start step).Reachable last := by
  induction events generalizing state with
  | nil =>
      cases taken
      exact reachable
  | cons event events ih =>
      obtain ⟨next, first, later⟩ := Option.bind_eq_some_iff.mp taken
      exact ih (.step reachable first) later

/-- What a list of events leads to is reachable. -/
theorem reachable_run {start : σ} {step : σ → ε → Option σ} {events : List ε} {last : σ}
    (taken : run step start events = some last) :
    (deterministic start step).Reachable last :=
  Reachable.run (.initial rfl) taken

/-- Every step of a run meets a condition on the state before it. -/
def Along (step : σ → ε → Option σ) (allowed : σ → ε → Prop) : σ → List ε → Prop
  | _, [] => True
  | state, event :: events => allowed state event ∧
      ∀ next, step state event = some next → Along step allowed next events

/-- The last entry of a list is the one that it is split at, or lies behind it. -/
theorem concat_split {α : Type} {list before behind : List α} {last entry : α}
    (split : list ++ [last] = before ++ entry :: behind) :
    (list = before ∧ last = entry ∧ behind = []) ∨
      ∃ front, behind = front ++ [last] ∧ list = before ++ entry :: front := by
  rcases List.eq_nil_or_concat behind with rfl | ⟨front, other, rfl⟩
  · obtain ⟨same, equal⟩ := List.append_inj' split rfl
    exact .inl ⟨same, List.singleton_inj.mp equal, rfl⟩
  · rw [List.concat_eq_append, ← List.cons_append, ← List.append_assoc] at split
    obtain ⟨same, equal⟩ := List.append_inj' split rfl
    cases List.singleton_inj.mp equal
    exact .inr ⟨front, List.concat_eq_append, same⟩

/-- One entry of a list, which another one may take the place of. -/
theorem split_set {α : Type} {list : List α} {index : Nat} {entry : α}
    (found : list[index]? = some entry) :
    ∃ front back, list = front ++ entry :: back ∧
      ∀ other, list.set index other = front ++ other :: back := by
  obtain ⟨inside, rfl⟩ := List.getElem?_eq_some_iff.mp found
  refine ⟨list.take index, list.drop (index + 1), ?_, fun other => ?_⟩
  · rw [List.getElem_cons_drop, List.take_append_drop]
  · rw [List.set_eq_take_append_cons_drop, if_pos inside]

theorem run_append {step : σ → ε → Option σ} {first second : List ε} {state : σ} :
    run step state (first ++ second) =
      (run step state first).bind fun next => run step next second := by
  induction first generalizing state with
  | nil => rfl
  | cons event first ih =>
      simp only [List.cons_append, run, ih, Option.bind_assoc]

/-- The condition is one on every event of the run and the state that it is taken in. -/
theorem along_iff {step : σ → ε → Option σ} {allowed : σ → ε → Prop} {events : List ε}
    {state : σ} :
    Along step allowed state events ↔
      ∀ before event after middle, events = before ++ event :: after →
        run step state before = some middle → allowed middle event := by
  induction events generalizing state with
  | nil =>
      refine iff_of_true trivial ?_
      intro before event after middle split
      simp at split
  | cons first events ih =>
      simp only [Along, ih]
      constructor
      · rintro ⟨allow, later⟩ before event after middle split taken
        cases before with
        | nil =>
            cases taken
            cases split
            exact allow
        | cons other before =>
            cases split
            obtain ⟨next, taken, rest⟩ := Option.bind_eq_some_iff.mp taken
            exact later next taken before event after middle rfl rest
      · intro every
        refine ⟨every [] first events state rfl rfl, ?_⟩
        intro next taken before event after middle split rest
        refine every (first :: before) event after middle (by rw [split, List.cons_append]) ?_
        simp only [run, taken, Option.bind_some, rest]

/-- What a run has brought about has a step of the run as its cause. -/
theorem run_caused {step : σ → ε → Option σ} {property : σ → Prop} {cause : ε}
    (caused : ∀ state event next, step state event = some next → property next →
      event = cause ∨ property state)
    {events : List ε} {state last : σ} (taken : run step state events = some last)
    (start : ¬property state) (holds : property last) : cause ∈ events := by
  induction events generalizing state with
  | nil =>
      cases taken
      exact absurd holds start
  | cons event events ih =>
      obtain ⟨next, first, later⟩ := Option.bind_eq_some_iff.mp taken
      by_cases now : property next
      · rcases caused state event next first now with rfl | before
        · exact List.mem_cons_self
        · exact absurd before start
      · exact List.mem_cons_of_mem event (ih later now)

/-- What an event ends for good is there at the end of the runs without that event only. -/
theorem run_avoids {step : σ → ε → Option σ} {kept property : σ → Prop} {avoided : ε}
    (keep : ∀ state event next, kept state → step state event = some next → kept next)
    (avoids : ∀ state event next, kept state → step state event = some next →
      property next → event ≠ avoided ∧ property state)
    {events : List ε} {state last : σ} (start : kept state)
    (taken : run step state events = some last) (holds : property last) :
    avoided ∉ events ∧ property state := by
  induction events generalizing state with
  | nil =>
      cases taken
      exact ⟨List.not_mem_nil, holds⟩
  | cons event events ih =>
      obtain ⟨next, first, later⟩ := Option.bind_eq_some_iff.mp taken
      obtain ⟨behind, now⟩ := ih (keep state event next start first) later
      obtain ⟨other, before⟩ := avoids state event next start first now
      exact ⟨by simp [Ne.symm other, behind], before⟩

/-- What every step lowers bounds the number of steps. -/
theorem run_length {step : σ → ε → Option σ} {kept : σ → Prop} {measure : σ → Nat}
    (keep : ∀ state event next, kept state → step state event = some next → kept next)
    (lowers : ∀ state event next, kept state → step state event = some next →
      measure next < measure state)
    {events : List ε} {state last : σ} (start : kept state)
    (taken : run step state events = some last) :
    events.length + measure last ≤ measure state := by
  induction events generalizing state with
  | nil =>
      cases taken
      exact Nat.le_of_eq (Nat.zero_add _)
  | cons event events ih =>
      obtain ⟨next, first, later⟩ := Option.bind_eq_some_iff.mp taken
      have below := ih (keep state event next start first) later
      have lower := lowers state event next start first
      rw [List.length_cons]
      omega

/-- What no step raises, and exactly the allowed ones keep, a run keeps exactly if all
its steps are allowed. -/
theorem run_keeps_iff {step : σ → ε → Option σ} {allowed : σ → ε → Prop} {measure : σ → Nat}
    (lowers : ∀ state event next, step state event = some next →
      measure next ≤ measure state)
    (keeps : ∀ state event next, step state event = some next →
      (measure next = measure state ↔ allowed state event))
    {events : List ε} {state last : σ} (taken : run step state events = some last) :
    measure last ≤ measure state ∧
      (measure last = measure state ↔ Along step allowed state events) := by
  induction events generalizing state with
  | nil =>
      cases taken
      exact ⟨Nat.le_refl _, iff_of_true rfl trivial⟩
  | cons event events ih =>
      obtain ⟨next, first, later⟩ := Option.bind_eq_some_iff.mp taken
      have down := lowers state event next first
      obtain ⟨below, rest⟩ := ih later
      refine ⟨Nat.le_trans below down, fun same => ?_, fun ⟨allow, along⟩ => ?_⟩
      · refine ⟨(keeps state event next first).mp (by omega), fun other taken => ?_⟩
        cases first.symm.trans taken
        exact rest.mp (by omega)
      · have kept := (keeps state event next first).mpr allow
        rw [rest.mpr (along next first), kept]

end Transition

end Nicenet.Library
