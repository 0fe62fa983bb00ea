import Mathlib.Tactic.Common
import Mathlib.Data.List.TakeWhile

/-!
# Lists cut at a separator

What the pieces of `List.splitOn` are. The cut at the first separator is also taken alone:
what is in front of it and what is behind it.
-/

namespace Nicenet.Library.Split

variable {α : Type}

/-- A list has a property throughout, or up to a first element without it. -/
theorem cases_all (property : α → Bool) (list : List α) :
    (∀ x ∈ list, property x) ∨
      ∃ front first back, list = front ++ first :: back ∧ (∀ x ∈ front, property x) ∧
        property first = false := by
  induction list with
  | nil => exact .inl nofun
  | cons head tail ih =>
      cases holds : property head with
      | false => exact .inr ⟨[], head, tail, rfl, nofun, holds⟩
      | true =>
          rcases ih with all | ⟨front, first, back, rfl, all, fails⟩
          · exact .inl (List.forall_mem_cons.mpr ⟨holds, all⟩)
          · exact .inr ⟨head :: front, first, back, rfl, List.forall_mem_cons.mpr ⟨holds, all⟩,
              fails⟩

variable [DecidableEq α]

/-- A list has the separator in it, and then is cut at its first one, or not. -/
theorem cases_first (separator : α) (list : List α) :
    separator ∉ list ∨
      ∃ front back, list = front ++ separator :: back ∧ separator ∉ front := by
  by_cases member : separator ∈ list
  · exact .inr (List.eq_append_cons_of_mem member)
  · exact .inl member

/-- There is one piece more than there are separators. -/
theorem length_splitOn (separator : α) (list : List α) :
    (list.splitOn separator).length = list.count separator + 1 := by
  induction list with
  | nil => rfl
  | cons head tail ih =>
      rw [List.splitOn_cons_eq_if_modifyHead, List.count_cons]
      split
      · rw [List.length_cons, ih]
      · rw [List.length_modifyHead, ih, Nat.add_zero]

/-- No piece has a separator in it. -/
theorem not_mem_piece {separator : α} {list piece : List α}
    (member : piece ∈ list.splitOn separator) : separator ∉ piece := by
  induction list generalizing piece with
  | nil =>
      rw [List.splitOn_nil, List.mem_singleton] at member
      rw [member]
      exact List.not_mem_nil
  | cons head tail ih =>
      rw [List.splitOn_cons_eq_if_modifyHead] at member
      split at member
      · rcases List.mem_cons.mp member with rfl | later
        · exact List.not_mem_nil
        · exact ih later
      · next other =>
        have differs : separator ≠ head := fun same => other (beq_iff_eq.mpr same.symm)
        obtain ⟨first, pieces, split⟩ :=
          List.exists_cons_of_ne_nil (List.splitOn_ne_nil separator tail)
        rw [split] at member ih
        rcases List.mem_cons.mp member with rfl | later
        · exact List.not_mem_cons_of_ne_of_not_mem differs (ih List.mem_cons_self)
        · exact ih (List.mem_cons_of_mem _ later)

/-- What is in front of the first separator. -/
def before (separator : α) (list : List α) : List α := list.takeWhile (· ≠ separator)

/-- What is behind it, if there is one. -/
def behind (separator : α) (list : List α) : List α :=
  (list.dropWhile (· ≠ separator)).tail

section Cut

variable {separator : α} {list front back : List α}

theorem before_eq_self (none : separator ∉ list) : before separator list = list := by
  rw [before, List.takeWhile_eq_self_iff]
  intro symbol member
  exact decide_eq_true fun same => none (same ▸ member)

theorem behind_eq_nil (none : separator ∉ list) : behind separator list = [] := by
  have all : list.dropWhile (· ≠ separator) = [] := by
    rw [List.dropWhile_eq_nil_iff]
    intro symbol member
    exact decide_eq_true fun same => none (same ▸ member)
  rw [behind, all, List.tail_nil]

@[simp] theorem before_append (none : separator ∉ front) :
    before separator (front ++ separator :: back) = front := by
  have all : front.takeWhile (· ≠ separator) = front := before_eq_self none
  rw [before, List.takeWhile_append, all, if_pos rfl, List.takeWhile_cons_of_neg (by simp),
    List.append_nil]

@[simp] theorem behind_append (none : separator ∉ front) :
    behind separator (front ++ separator :: back) = back := by
  have all : front.dropWhile (· ≠ separator) = [] := by
    rw [List.dropWhile_eq_nil_iff]
    intro symbol member
    exact decide_eq_true fun same => none (same ▸ member)
  rw [behind, List.dropWhile_append, all, List.isEmpty_nil, if_pos rfl,
    List.dropWhile_cons_of_neg (by simp), List.tail_cons]

/-- The first piece is what is in front of the first separator. -/
theorem splitOn_eq_before (separator : α) (list : List α) :
    ∃ pieces, list.splitOn separator = before separator list :: pieces := by
  rcases cases_first separator list with none | ⟨front, back, rfl, none⟩
  · exact ⟨[], by rw [List.splitOn_eq_singleton none, before_eq_self none]⟩
  · exact ⟨back.splitOn separator, by
      rw [List.splitOn_append_cons_self_of_not_mem none, before_append none]⟩

theorem before_eq_self_iff : before separator list = list ↔ separator ∉ list := by
  refine ⟨fun same member => ?_, before_eq_self⟩
  obtain ⟨front, back, rfl, none⟩ := List.eq_append_cons_of_mem member
  have length := congrArg List.length same
  rw [before_append none, List.length_append, List.length_cons] at length
  omega

end Cut

end Nicenet.Library.Split
