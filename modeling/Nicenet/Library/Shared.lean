import Mathlib.Data.List.Dedup
import Mathlib.Data.List.Nodup

/-!
# Shared ownership

Objects that are made with one owner, shared with more, and destroyed when the last one
lets go of them. An owner holds one object at most, and knows nothing of the others.
-/

namespace Nicenet.Library

variable {ι α : Type}

/-- `owners` has each owner with its object. `made` and `destroyed` record the objects in
the order in which they have been. -/
structure Shared (ι α : Type) where
  owners : List (ι × α)
  made : List α
  destroyed : List α
  deriving DecidableEq, Repr

namespace Shared

def empty : Shared ι α := ⟨[], [], []⟩

def Owned (s : Shared ι α) (object : α) : Prop := ∃ owner, (owner, object) ∈ s.owners

/-- The owner holds nothing. -/
def Free (s : Shared ι α) (owner : ι) : Prop := ∀ object, (owner, object) ∉ s.owners

/-- An object is made for an owner. -/
def make (s : Shared ι α) (owner : ι) (object : α) : Shared ι α :=
  { s with owners := (owner, object) :: s.owners, made := s.made ++ [object] }

section Operations

variable [DecidableEq ι]

def object? (s : Shared ι α) (owner : ι) : Option α :=
  (s.owners.find? fun entry => entry.1 = owner).map Prod.snd

/-- The owner shares what it holds with another one. -/
def share (s : Shared ι α) (owner other : ι) : Shared ι α :=
  match s.object? owner with
  | none => s
  | some object => { s with owners := (other, object) :: s.owners }

/-- The owners without one of them. -/
def without (s : Shared ι α) (owner : ι) : List (ι × α) :=
  s.owners.filter fun entry => entry.1 ≠ owner

/-- The object that has no owner but this one. -/
def last? [DecidableEq α] (s : Shared ι α) (owner : ι) : Option α :=
  (s.object? owner).filter fun object => (s.without owner).all fun entry => entry.2 ≠ object

/-- The owner lets go of what it holds. -/
def reset [DecidableEq α] (s : Shared ι α) (owner : ι) : Shared ι α :=
  { s with owners := s.without owner, destroyed := s.destroyed ++ (s.last? owner).toList }

end Operations

/-- The objects that have an owner. -/
def objects [DecidableEq α] (s : Shared ι α) : List α := (s.owners.map Prod.snd).dedup

/-! ## What is kept -/

/-- Each owner holds one object, and each object made has been destroyed, once, or has an
owner. -/
structure Kept (s : Shared ι α) : Prop where
  single : ∀ {owner first second}, (owner, first) ∈ s.owners → (owner, second) ∈ s.owners →
    first = second
  nodup : s.made.Nodup
  once : s.destroyed.Nodup
  accounted : ∀ object, object ∈ s.made ↔ object ∈ s.destroyed ∨ s.Owned object
  gone : ∀ object ∈ s.destroyed, ¬s.Owned object

theorem empty_kept : (empty : Shared ι α).Kept where
  single member := absurd member List.not_mem_nil
  nodup := .nil
  once := .nil
  accounted object := by simp [empty, Owned]
  gone object member := absurd member List.not_mem_nil

variable {s : Shared ι α} {owner other : ι} {object : α}

theorem Kept.make (kept : s.Kept) (free : s.Free owner) (new : object ∉ s.made) :
    (s.make owner object).Kept where
  single := by
    intro holder first second one two
    rcases List.mem_cons.mp one with same | one
    · cases same
      rcases List.mem_cons.mp two with same | two
      · cases same
        rfl
      · exact absurd two (free second)
    · rcases List.mem_cons.mp two with same | two
      · cases same
        exact absurd one (free first)
      · exact kept.single one two
  nodup := List.nodup_append.mpr ⟨kept.nodup, List.nodup_singleton _, by
    rintro made member added equal rfl
    exact new (List.mem_singleton.mp equal ▸ member)⟩
  once := kept.once
  accounted := by
    intro one
    have before := kept.accounted one
    simp only [Shared.make, Owned, List.mem_append, List.mem_cons, List.not_mem_nil, or_false,
      Prod.mk.injEq] at before ⊢
    rw [before]
    constructor
    · rintro ((destroyed | ⟨holder, member⟩) | rfl)
      · exact .inl destroyed
      · exact .inr ⟨holder, .inr member⟩
      · exact .inr ⟨owner, .inl ⟨rfl, rfl⟩⟩
    · rintro (destroyed | ⟨holder, ⟨-, rfl⟩ | member⟩)
      · exact .inl (.inl destroyed)
      · exact .inr rfl
      · exact .inl (.inr ⟨holder, member⟩)
  gone := by
    rintro one destroyed ⟨holder, member⟩
    rcases List.mem_cons.mp member with same | member
    · cases same
      exact new ((kept.accounted _).mpr (.inl destroyed))
    · exact kept.gone one destroyed ⟨holder, member⟩

section Operations

variable [DecidableEq ι]

theorem mem_of_object? (held : s.object? owner = some object) : (owner, object) ∈ s.owners := by
  obtain ⟨entry, found, rfl⟩ := Option.map_eq_some_iff.mp held
  have own : entry.1 = owner := by simpa using List.find?_some found
  rw [← own]
  exact List.mem_of_find?_eq_some found

theorem Kept.object?_eq_some (kept : s.Kept) :
    s.object? owner = some object ↔ (owner, object) ∈ s.owners := by
  refine ⟨mem_of_object?, fun member => ?_⟩
  cases held : s.object? owner with
  | none =>
      rw [object?, Option.map_eq_none_iff, List.find?_eq_none] at held
      exact absurd (decide_eq_true rfl) (held _ member)
  | some first => rw [kept.single (mem_of_object? held) member]

theorem Kept.share (kept : s.Kept) (owner : ι) (free : s.Free other) :
    (s.share owner other).Kept := by
  rw [Shared.share]
  cases held : s.object? owner with
  | none => exact kept
  | some object =>
      have mine := mem_of_object? held
      have owned : ∀ one, Owned { s with owners := (other, object) :: s.owners } one ↔
          s.Owned one := by
        intro one
        refine ⟨?_, fun ⟨holder, member⟩ => ⟨holder, List.mem_cons_of_mem _ member⟩⟩
        rintro ⟨holder, member⟩
        rcases List.mem_cons.mp member with same | member
        · cases same
          exact ⟨owner, mine⟩
        · exact ⟨holder, member⟩
      refine ⟨?_, kept.nodup, kept.once, fun one => ?_, fun one destroyed => ?_⟩
      · intro holder first second one two
        rcases List.mem_cons.mp one with same | one
        · cases same
          rcases List.mem_cons.mp two with same | two
          · cases same
            rfl
          · exact absurd two (free second)
        · rcases List.mem_cons.mp two with same | two
          · cases same
            exact absurd one (free first)
          · exact kept.single one two
      · rw [owned]
        exact kept.accounted one
      · rw [owned]
        exact kept.gone one destroyed

variable [DecidableEq α]

theorem last?_eq_some : s.last? owner = some object ↔
    s.object? owner = some object ∧ ∀ holder, (holder, object) ∈ s.owners → holder = owner := by
  rw [last?, Option.filter_eq_some_iff, List.all_eq_true]
  refine and_congr_right fun _ => ⟨fun every holder member => ?_, fun alone entry member => ?_⟩
  · by_contra differ
    have other := every (holder, object) (List.mem_filter.mpr ⟨member, by simpa using differ⟩)
    simp at other
  · obtain ⟨member, differ⟩ := List.mem_filter.mp member
    have differ : entry.1 ≠ owner := by simpa using differ
    have holds : entry.2 ≠ object := fun same => differ (alone entry.1 (same ▸ member))
    simpa using holds

/-- Whatever an owner lets go of has another owner, or is destroyed. -/
theorem Kept.reset (kept : s.Kept) (owner : ι) : (s.reset owner).Kept := by
  have behind : ∀ {holder one}, (holder, one) ∈ s.without owner ↔
      (holder, one) ∈ s.owners ∧ holder ≠ owner := by
    intro holder one
    simp [without, List.mem_filter]
  have owned : ∀ one, s.Owned one ↔ (s.reset owner).Owned one ∨ s.last? owner = some one := by
    intro one
    constructor
    · rintro ⟨holder, member⟩
      by_cases alone : ∀ other, (other, one) ∈ s.owners → other = owner
      · have held : s.object? owner = some one :=
          kept.object?_eq_some.mpr (alone holder member ▸ member)
        exact .inr (last?_eq_some.mpr ⟨held, alone⟩)
      · push Not at alone
        obtain ⟨other, shares, differ⟩ := alone
        exact .inl ⟨other, behind.mpr ⟨shares, differ⟩⟩
    · rintro (⟨holder, member⟩ | last)
      · exact ⟨holder, (behind.mp member).1⟩
      · exact ⟨owner, mem_of_object? (last?_eq_some.mp last).1⟩
  have alone : ∀ one, s.last? owner = some one → ¬(s.reset owner).Owned one := by
    rintro one last ⟨holder, member⟩
    obtain ⟨member, differ⟩ := behind.mp member
    exact differ ((last?_eq_some.mp last).2 holder member)
  refine ⟨fun one two => kept.single (behind.mp one).1 (behind.mp two).1, kept.nodup, ?_,
    fun one => ?_, fun one destroyed => ?_⟩
  · cases last : s.last? owner with
    | none => simpa [Shared.reset, last] using kept.once
    | some object =>
        have mine : s.Owned object := (owned object).mpr (.inr last)
        simp only [Shared.reset, last, Option.toList_some]
        refine List.nodup_append.mpr ⟨kept.once, List.nodup_singleton _, ?_⟩
        rintro one destroyed added equal rfl
        exact kept.gone one destroyed (List.mem_singleton.mp equal ▸ mine)
  · rw [show (s.reset owner).made = s.made from rfl, kept.accounted, owned]
    simp only [Shared.reset, List.mem_append, Option.mem_toList]
    rw [or_assoc]
    exact or_congr_right or_comm
  · simp only [Shared.reset, List.mem_append, Option.mem_toList] at destroyed
    rcases destroyed with before | last
    · exact fun still => kept.gone one before ((owned one).mpr (.inl still))
    · exact alone one last

end Operations

theorem mem_objects [DecidableEq α] : object ∈ s.objects ↔ s.Owned object := by
  simp [objects, Owned]

/-- What has been made are the objects destroyed and those that have an owner. -/
theorem Kept.perm [DecidableEq α] (kept : s.Kept) : s.made.Perm (s.destroyed ++ s.objects) := by
  refine (List.perm_ext_iff_of_nodup kept.nodup ?_).mpr fun object => ?_
  · refine List.nodup_append.mpr ⟨kept.once, List.nodup_dedup _, ?_⟩
    rintro one destroyed other member rfl
    exact kept.gone one destroyed (mem_objects.mp member)
  · rw [kept.accounted, List.mem_append, mem_objects]

section Objects

variable [DecidableEq α]

theorem Kept.objects_make (kept : s.Kept) (free : s.Free owner) (new : object ∉ s.made) :
    (s.make owner object).objects.Perm (s.objects ++ [object]) := by
  have made := (kept.make free new).perm
  have before := kept.perm.append_right [object]
  rw [List.append_assoc] at before
  exact (List.perm_append_left_iff s.destroyed).mp (made.symm.trans before)

variable [DecidableEq ι]

theorem Kept.objects_share (kept : s.Kept) (owner : ι) (free : s.Free other) :
    (s.share owner other).objects.Perm s.objects := by
  have shared := (kept.share owner free).perm
  have same : (s.share owner other).made = s.made ∧
      (s.share owner other).destroyed = s.destroyed := by
    rw [Shared.share]
    split <;> exact ⟨rfl, rfl⟩
  rw [same.1, same.2] at shared
  exact (List.perm_append_left_iff s.destroyed).mp (shared.symm.trans kept.perm)

theorem Kept.objects_reset (kept : s.Kept) (owner : ι) :
    s.objects.Perm ((s.last? owner).toList ++ (s.reset owner).objects) := by
  have reset : (s.reset owner).made.Perm ((s.reset owner).destroyed ++ (s.reset owner).objects) :=
    (kept.reset owner).perm
  rw [show (s.reset owner).destroyed = s.destroyed ++ (s.last? owner).toList from rfl,
    List.append_assoc] at reset
  exact (List.perm_append_left_iff s.destroyed).mp (kept.perm.symm.trans reset)

end Objects

/-- Numbers stay below the count when the next object gets the count for its own. -/
theorem numbers_append {number : α → Nat} {list : List α} {last : α}
    (below : ∀ one ∈ list, number one < list.length) (count : number last = list.length) :
    ∀ one ∈ list ++ [last], number one < (list ++ [last]).length := by
  rw [List.length_append, List.length_singleton]
  refine List.forall_mem_append.mpr ⟨fun one member => Nat.lt_succ_of_lt (below one member),
    List.forall_mem_singleton.mpr ?_⟩
  rw [count]
  exact Nat.lt_succ_self _

end Shared

end Nicenet.Library
