import Mathlib.Data.List.Induction
import Mathlib.Tactic.Common
import Nicenet.Library.Transition

/-!
# Pointers that copy by moving

A `CopyablePtr` holds a mutable `std::unique_ptr`: a copy of it takes the object over, and so
does an assignment. The assignment lets go of the pointer that the target had with `release`,
which does not destroy the object. Of a response, being destroyed is what posts the reply.
-/

namespace Nicenet.CopyablePtr

open Library

/-- The handles made so far, each with its pointer until it is destroyed, and how often each
of the objects made so far has been destroyed. -/
structure Store where
  handles : List (Option (Option Nat))
  destroyed : List Nat
  deriving DecidableEq, Repr

namespace Store

def empty : Store := ⟨[], []⟩

/-- The pointer in a handle that is alive. -/
def pointer (s : Store) (handle : Nat) : Option (Option Nat) := s.handles[handle]?.join

def setPointer (s : Store) (handle : Nat) (pointer : Option Nat) : Store :=
  { s with handles := s.handles.set handle (some pointer) }

/-- A new handle. -/
def add (s : Store) (pointer : Option Nat) : Store :=
  { s with handles := s.handles ++ [some pointer] }

/-- `delete` of a pointer. -/
def delete (s : Store) : Option Nat → Store
  | none => s
  | some object => { s with destroyed := s.destroyed.modify object (· + 1) }

/-- `release` of the `unique_ptr` in a handle. -/
def release (s : Store) (handle : Nat) : Option Nat × Store :=
  ((s.pointer handle).join, s.setPointer handle none)

/-- `reset` of the `unique_ptr` in a handle. -/
def reset (s : Store) (handle : Nat) (pointer : Option Nat) : Store :=
  (s.setPointer handle pointer).delete (s.pointer handle).join

/-- Both constructors from another handle: its `unique_ptr` is moved. -/
def moved (s : Store) (source : Nat) : Store :=
  let (pointer, s) := s.release source
  s.add pointer

/-- `operator=`: a `release`, then the assignment of the `unique_ptr`. -/
def assigned (s : Store) (target source : Nat) : Store :=
  let (_, s) := s.release target
  let (pointer, s) := s.release source
  s.reset target pointer

/-- The destructor, which is that of the `unique_ptr`. -/
def dropped (s : Store) (handle : Nat) : Store :=
  ({ s with handles := s.handles.set handle none } : Store).delete (s.pointer handle).join

end Store

/-- What is done to handles. Each is named by how many were made before it. -/
inductive Event where
  | default
  | fresh
  | copy (source : Nat)
  | move (source : Nat)
  | assign (target source : Nat)
  | destroy (handle : Nat)
  deriving DecidableEq, Repr

namespace Store

/-- A step on handles that are alive. -/
def step (s : Store) : Event → Option Store
  | .default => some (s.add none)
  | .fresh =>
      some { s.add (some s.destroyed.length) with destroyed := s.destroyed ++ [0] }
  | .copy source => if (s.pointer source).isSome then some (s.moved source) else none
  | .move source => if (s.pointer source).isSome then some (s.moved source) else none
  | .assign target source =>
      if (s.pointer target).isSome ∧ (s.pointer source).isSome then
        some (s.assigned target source)
      else none
  | .destroy handle => if (s.pointer handle).isSome then some (s.dropped handle) else none

/-- How many handles own an object. -/
def owners (s : Store) (object : Nat) : Nat := s.handles.count (some (some object))

/-- Every object is owned by one handle, or owned by none and was destroyed once. -/
def Linear (s : Store) : Prop :=
  ∀ object times, s.destroyed[object]? = some times →
    times = 0 ∧ s.owners object = 1 ∨ times = 1 ∧ s.owners object = 0

/-- A step destroys only what is owned by the handle that it destroys or overwrites. -/
def Timely (s : Store) (event : Event) (next : Store) : Prop :=
  ∀ object times, s.destroyed[object]? = some times → next.destroyed[object]? ≠ some times →
    ∃ handle, s.pointer handle = some (some object) ∧
      (event = .destroy handle ∨ ∃ source, event = .assign handle source)

/-- Objects are owned so in every state that a run comes through, and destroyed in time by
the step behind it. -/
def Throughout (events : List Event) : Prop :=
  ∀ before after middle, events = before ++ after →
    Transition.run step empty before = some middle →
      middle.Linear ∧ ∀ event next, after.head? = some event →
        middle.step event = some next → middle.Timely event next

/-- An assignment is to a handle that owns nothing. -/
def Allowed (s : Store) : Event → Prop
  | .assign target _ => s.pointer target = some none
  | _ => True

/-! ## What a step does to an object -/

/-- How many handles own an object and how often it was destroyed, together. -/
def held (s : Store) (object : Nat) : Nat :=
  s.owners object + (s.destroyed[object]?).getD 0

/-- Handles own objects that have been made. -/
def Known (s : Store) : Prop := ∀ object, s.destroyed.length ≤ object → s.owners object = 0

/-- 1 for the object of a pointer, 0 for others. -/
def holds (pointer : Option Nat) (object : Nat) : Nat := if pointer = some object then 1 else 0

variable {s : Store} {handle object : Nat} {old pointer : Option Nat}

theorem alive_iff : s.pointer handle = some old ↔ s.handles[handle]? = some (some old) := by
  rw [Store.pointer, Option.join_eq_some_iff]

/-- The entry of one handle is replaced. -/
theorem count_set {entry : Option (Option Nat)} (alive : s.pointer handle = some old) :
    (s.handles.set handle entry).count (some (some object)) + holds old object =
      s.owners object + if entry = some (some object) then 1 else 0 := by
  obtain ⟨inside, at_⟩ := List.getElem?_eq_some_iff.mp (alive_iff.mp alive)
  have member : s.handles[handle] ∈ s.handles := List.getElem_mem inside
  rw [List.count_set inside, at_, owners, holds]
  by_cases same : old = some object
  · have positive : 0 < s.handles.count (some (some object)) := by
      rw [List.count_pos_iff, ← same, ← at_]
      exact member
    simp [same]
    omega
  · simp [same]

theorem owners_setPointer (alive : s.pointer handle = some old) (object : Nat) :
    (s.setPointer handle pointer).owners object + holds old object =
      s.owners object + holds pointer object := by
  rw [owners, setPointer, count_set alive, holds]
  simp only [Option.some_inj]

theorem owners_add : (s.add pointer).owners object = s.owners object + holds pointer object := by
  rw [owners, add, List.count_append, owners, holds]
  by_cases same : pointer = some object <;> simp [same]

/-- The pointer of a handle is one of the owners that are counted. -/
theorem holds_le (alive : s.pointer handle = some old) (object : Nat) :
    holds old object ≤ s.owners object := by
  have counted := @owners_setPointer s handle old none alive object
  simp only [holds, reduceCtorEq, if_false] at counted ⊢
  omega

theorem pointer_setPointer_self (alive : s.pointer handle = some old) :
    (s.setPointer handle pointer).pointer handle = some pointer := by
  obtain ⟨inside, _⟩ := List.getElem?_eq_some_iff.mp (alive_iff.mp alive)
  rw [alive_iff, setPointer, List.getElem?_set_self inside]

theorem pointer_setPointer_ne {other : Nat} (differs : handle ≠ other) :
    (s.setPointer handle pointer).pointer other = s.pointer other := by
  rw [Store.pointer, setPointer, List.getElem?_set_ne differs, Store.pointer]

@[simp] theorem holds_none (object : Nat) : holds none object = 0 := rfl

theorem held_add : (s.add pointer).held object = s.held object + holds pointer object := by
  simp only [held, owners_add]
  rw [add, Nat.add_right_comm]

theorem held_setPointer (alive : s.pointer handle = some old) (object : Nat) :
    (s.setPointer handle pointer).held object + holds old object =
      s.held object + holds pointer object := by
  have counted := @owners_setPointer s handle old pointer alive object
  have kept : (s.setPointer handle pointer).destroyed = s.destroyed := rfl
  rw [held, held, kept]
  omega

theorem length_delete (s : Store) (pointer : Option Nat) :
    (s.delete pointer).destroyed.length = s.destroyed.length := by
  cases pointer with
  | none => rfl
  | some object => exact List.length_modify _ _ _

/-- `delete` counts an object as destroyed. -/
theorem held_delete (made : ∀ object, pointer = some object → object < s.destroyed.length)
    (object : Nat) : (s.delete pointer).held object = s.held object + holds pointer object := by
  cases pointer with
  | none => rfl
  | some last =>
      by_cases same : last = object
      · subst same
        have made := made last rfl
        simp [held, delete, owners, holds, List.getElem?_eq_getElem made]
        omega
      · simp [held, delete, owners, holds, same]

/-- The object of a handle has been made. -/
theorem Known.made (known : s.Known) (alive : s.pointer handle = some old) :
    ∀ object, old = some object → object < s.destroyed.length := by
  rintro object rfl
  by_contra beyond
  have one := holds_le alive object
  rw [known object (Nat.not_lt.mp beyond), holds, if_pos rfl] at one
  omega

theorem held_moved {source : Nat} (alive : s.pointer source = some old) (object : Nat) :
    (s.moved source).held object = s.held object := by
  have taken := @held_setPointer s source old none alive object
  have moved : s.moved source = (s.setPointer source none).add old := by
    simp only [Store.moved, release, alive, Option.join_some]
  rw [moved, held_add, taken, holds_none, Nat.add_zero]

/-- The pointer of the target is null when the `unique_ptr` is assigned to it. -/
theorem assigned_eq {target source : Nat} {taken : Option Nat}
    (alive : s.pointer target = some old) (other : s.pointer source = some taken) :
    ∃ middle, (s.setPointer target none).pointer source = some middle ∧
      ((s.setPointer target none).setPointer source none).pointer target = some none ∧
      s.assigned target source =
        ((s.setPointer target none).setPointer source none).setPointer target middle := by
  obtain ⟨middle, source_at⟩ :
      ∃ middle, (s.setPointer target none).pointer source = some middle := by
    by_cases same : target = source
    · subst same
      exact ⟨none, pointer_setPointer_self alive⟩
    · exact ⟨taken, (pointer_setPointer_ne same).trans other⟩
  have target_at : ((s.setPointer target none).setPointer source none).pointer target =
      some none := by
    by_cases same : source = target
    · subst same
      exact pointer_setPointer_self source_at
    · exact (pointer_setPointer_ne same).trans (pointer_setPointer_self alive)
  refine ⟨middle, source_at, target_at, ?_⟩
  simp only [Store.assigned, release, reset, source_at, target_at, Option.join_some, delete]

/-- An object that the target has owned is lost, whatever the source owns. -/
theorem held_assigned {target source : Nat} {taken : Option Nat}
    (alive : s.pointer target = some old) (other : s.pointer source = some taken)
    (object : Nat) :
    (s.assigned target source).held object + holds old object = s.held object := by
  obtain ⟨middle, source_at, target_at, assigned⟩ := assigned_eq alive other
  have first := @held_setPointer s target old none alive object
  have second := @held_setPointer _ source middle none source_at object
  have third := @held_setPointer _ target none middle target_at object
  rw [holds_none] at first second third
  rw [assigned]
  omega

theorem held_dropped (known : s.Known) (alive : s.pointer handle = some old) (object : Nat) :
    (s.dropped handle).held object = s.held object := by
  have counted := @count_set s handle object old none alive
  have ended := @held_delete { s with handles := s.handles.set handle none } old
    (known.made alive) object
  rw [if_neg nofun] at counted
  rw [dropped, alive, Option.join_some, ended]
  simp only [held, owners] at counted ⊢
  omega

/-- What an event takes from its owner without destroying it. -/
def lost (s : Store) : Event → Option Nat
  | .assign target _ => (s.pointer target).join
  | _ => none

/-- The object that is made is held by its handle. -/
theorem held_fresh (object : Nat) :
    ({ s.add (some s.destroyed.length) with destroyed := s.destroyed ++ [0] } : Store).held
        object = s.held object + holds (some s.destroyed.length) object := by
  have owned := @owners_add s object (some s.destroyed.length)
  have made : ((s.destroyed ++ [0])[object]?).getD 0 = (s.destroyed[object]?).getD 0 := by
    rw [List.getElem?_append]
    split
    · rfl
    · next beyond =>
      rw [List.getElem?_eq_none (Nat.not_lt.mp beyond)]
      cases object - s.destroyed.length <;> rfl
  have handles : ({ s.add (some s.destroyed.length) with
      destroyed := s.destroyed ++ [0] } : Store).owners object =
        (s.add (some s.destroyed.length)).owners object := rfl
  rw [held, handles, owned, made, held, Nat.add_right_comm]

/-- A step is taken on handles that are alive. -/
theorem eq_of_alive {alive : Prop} [Decidable alive] {result next : Store}
    (taken : (if alive then some result else none) = some next) : alive ∧ result = next := by
  split at taken
  · next alive => exact ⟨alive, Option.some_inj.mp taken⟩
  · cases taken

theorem assign_cases {target source : Nat} {next : Store}
    (taken : s.step (.assign target source) = some next) :
    ∃ old moved, s.pointer target = some old ∧ s.pointer source = some moved ∧
      s.assigned target source = next := by
  obtain ⟨⟨target_alive, source_alive⟩, same⟩ := eq_of_alive taken
  obtain ⟨old, target_at⟩ := Option.isSome_iff_exists.mp target_alive
  obtain ⟨moved, source_at⟩ := Option.isSome_iff_exists.mp source_alive
  exact ⟨old, moved, target_at, source_at, same⟩

/-- An event makes an object, or else an object is held as it was or lost. -/
theorem step_held {next : Store} {event : Event} (known : s.Known)
    (taken : s.step event = some next) :
    (event = .fresh ∧ next.destroyed.length = s.destroyed.length + 1 ∧
      ∀ object, next.held object =
        s.held object + holds (some s.destroyed.length) object) ∨
      next.destroyed.length = s.destroyed.length ∧
        ∀ object, next.held object + holds (s.lost event) object = s.held object := by
  cases event with
  | default =>
      cases taken
      exact .inr ⟨rfl, fun object => by rw [held_add]; rfl⟩
  | fresh =>
      cases taken
      exact .inl ⟨rfl, List.length_append, held_fresh⟩
  | copy source | move source =>
      obtain ⟨alive, rfl⟩ := eq_of_alive taken
      obtain ⟨old, alive⟩ := Option.isSome_iff_exists.mp alive
      exact .inr ⟨rfl, held_moved alive⟩
  | assign target source =>
      obtain ⟨old, moved, target_at, source_at, rfl⟩ := assign_cases taken
      refine .inr ⟨?_, fun object => ?_⟩
      · simp only [assigned, release, reset, length_delete]
        rfl
      · rw [lost, target_at, Option.join_some]
        exact held_assigned target_at source_at object
  | destroy handle =>
      obtain ⟨alive, rfl⟩ := eq_of_alive taken
      obtain ⟨old, alive⟩ := Option.isSome_iff_exists.mp alive
      refine .inr ⟨?_, held_dropped known alive⟩
      rw [dropped, length_delete]

/-- Only a handle that is destroyed destroys its object: an assignment loses it. -/
theorem step_timely {next : Store} {event : Event} (taken : s.step event = some next) :
    s.Timely event next := by
  intro object times found changed
  cases event with
  | default =>
      cases taken
      exact absurd found changed
  | fresh =>
      cases taken
      have inside := (List.getElem?_eq_some_iff.mp found).1
      exact absurd ((List.getElem?_append_left inside).trans found) changed
  | copy source | move source =>
      obtain ⟨-, rfl⟩ := eq_of_alive taken
      exact absurd found changed
  | assign target source =>
      obtain ⟨old, moved, target_at, source_at, rfl⟩ := assign_cases taken
      obtain ⟨middle, -, -, assigned⟩ := assigned_eq target_at source_at
      rw [assigned] at changed
      exact absurd found changed
  | destroy handle =>
      obtain ⟨alive, rfl⟩ := eq_of_alive taken
      obtain ⟨old, alive⟩ := Option.isSome_iff_exists.mp alive
      refine ⟨handle, ?_, .inl rfl⟩
      rw [dropped, alive, Option.join_some] at changed
      cases old with
      | none => exact absurd found changed
      | some last =>
          by_cases same : last = object
          · rw [alive, same]
          · dsimp only [delete] at changed
            rw [List.getElem?_modify_ne _ _ same] at changed
            exact absurd found changed

/-! ## What a run does to the objects -/

theorem held_beyond (beyond : s.destroyed.length ≤ object) :
    s.held object = s.owners object := by
  rw [held, List.getElem?_eq_none beyond, Option.getD_none, Nat.add_zero]

theorem known_step {next : Store} {event : Event} (known : s.Known)
    (taken : s.step event = some next) : next.Known := by
  intro object beyond
  rw [← held_beyond beyond]
  rcases step_held known taken with ⟨_, length, made⟩ | ⟨length, kept⟩
  · have before := known object (by omega)
    rw [made, held_beyond (by omega), before, holds, if_neg (by rw [Option.some_inj]; omega)]
  · have before := known object (by omega)
    have kept := kept object
    rw [held_beyond (show s.destroyed.length ≤ object by omega), before] at kept
    omega

theorem known_run {events : List Event} {last : Store}
    (taken : Transition.run step empty events = some last) : last.Known := by
  refine (Transition.reachable_run taken).invariant ?_ ?_
  · rintro _ rfl object _
    rfl
  · intro s event next known taken
    exact known_step known taken

/-- An object is held once when it is owned by one handle or destroyed once. -/
theorem linear_iff : s.Linear ↔ ∀ object < s.destroyed.length, s.held object = 1 := by
  constructor
  · intro linear object inside
    have found := List.getElem?_eq_getElem inside
    rw [held, found, Option.getD_some]
    rcases linear object _ found with ⟨times, owned⟩ | ⟨times, owned⟩
    · omega
    · omega
  · intro once object times found
    have held := once object (List.getElem?_eq_some_iff.mp found).1
    rw [Store.held, found, Option.getD_some] at held
    omega

theorem allowed_iff {next : Store} {event : Event} (taken : s.step event = some next) :
    s.Allowed event ↔ s.lost event = none := by
  cases event with
  | assign target source =>
      obtain ⟨old, moved, target_at, source_at, rfl⟩ := assign_cases taken
      rw [Allowed, lost, target_at, Option.join_some, Option.some_inj]
  | _ => exact iff_of_true trivial rfl

/-- A step leaves every object with one owner exactly if it is allowed. -/
theorem linear_step {next : Store} {event : Event} (known : s.Known) (linear : s.Linear)
    (taken : s.step event = some next) : next.Linear ↔ s.Allowed event := by
  have once := linear_iff.mp linear
  rw [allowed_iff taken, linear_iff]
  rcases step_held known taken with ⟨rfl, length, made⟩ | ⟨length, kept⟩
  · refine iff_of_true (fun object inside => ?_) rfl
    by_cases old : object < s.destroyed.length
    · rw [made, once object old, holds, if_neg (by rw [Option.some_inj]; omega)]
    · have last : s.destroyed.length = object := by omega
      rw [made, held_beyond (by omega), known object (by omega), holds, if_pos (by rw [last])]
  · rw [length]
    constructor
    · intro later
      cases leaks : s.lost event with
      | none => rfl
      | some object =>
          have one := kept object
          rw [leaks, holds, if_pos rfl] at one
          by_cases inside : object < s.destroyed.length
          · rw [later object inside, once object inside] at one
            omega
          · rw [held_beyond (Nat.not_lt.mp inside), known object (Nat.not_lt.mp inside)] at one
            omega
    · intro none object inside
      have same := kept object
      rw [none, holds_none, Nat.add_zero] at same
      rw [same, once object inside]

/-- In a run, every object is owned by exactly one handle until it is destroyed, once and with
that handle, exactly if no assignment is to a handle that owns an object. -/
theorem linear_run_iff {events : List Event} {last : Store}
    (taken : Transition.run step empty events = some last) :
    Throughout events ↔ Transition.Along step Allowed empty events := by
  rw [Transition.along_iff]
  constructor
  · intro linear before event after middle split reached
    rw [split, Transition.run_append, reached, Option.bind_some] at taken
    obtain ⟨next, first, _⟩ := Option.bind_eq_some_iff.mp taken
    have now := (linear before (event :: after) middle split reached).1
    refine (linear_step (known_run reached) now first).mp
      (linear (before ++ [event]) after next (by rw [split]; simp) ?_).1
    rw [Transition.run_append, reached, Option.bind_some, Transition.run, first]
    rfl
  · intro allowed before
    induction before using List.reverseRecOn with
    | nil =>
        intro after middle _ reached
        cases reached
        refine ⟨fun object times found => ?_, fun _ _ _ => step_timely⟩
        cases found
    | append_singleton before event ih =>
        intro after middle split reached
        rw [Transition.run_append] at reached
        obtain ⟨state, front, step⟩ := Option.bind_eq_some_iff.mp reached
        obtain ⟨next, first, same⟩ := Option.bind_eq_some_iff.mp step
        cases same
        rw [List.append_assoc, List.singleton_append] at split
        have linear := (ih (event :: after) state split front).1
        exact ⟨(linear_step (known_run front) linear first).mpr
          (allowed before event after state split front), fun _ _ _ => step_timely⟩

/-- An object is made, copied and destroyed with the copy. -/
theorem linear_run_copied : Throughout [.fresh, .copy 0, .destroy 0, .destroy 1] :=
  (@linear_run_iff _ ⟨[none, none], [1]⟩ rfl).mpr (by simp [Transition.Along, Allowed])

/-- One object is assigned to the handle of another, which is left without an owner. -/
theorem linear_run_fails :
    ¬∀ (events : List Event) (last : Store),
      Transition.run step empty events = some last → Throughout events := by
  intro every
  have linear := every [.fresh, .fresh, .assign 0 1] ⟨[some (some 1), some none], [0, 0]⟩ rfl
    _ [] _ (List.append_nil _).symm rfl
  have lost := linear.1 0 0 rfl
  exact absurd lost (by decide)

end Store

end Nicenet.CopyablePtr
