import Nicenet.Library.Split
import Nicenet.Http.Text

/-!
# `splitString`

The loop keeps two positions, from which it takes each piece. It gives the pieces between
the separators, the empty ones at the ends and between two neighbours included.
-/

namespace Nicenet.Http

open Library

/-- `find` stops at the first separator from the position on. -/
theorem find_eq_some {src front back : Str} {splitWord : UInt8} {pos : Nat}
    (rest : src.drop pos = front ++ splitWord :: back) (none : splitWord ∉ front) :
    find src splitWord pos = some (pos + front.length) := by
  rw [find, rest, List.findIdx?_append, List.findIdx?_eq_none_iff.mpr, List.findIdx?_cons]
  · simp
  · intro symbol member
    exact decide_eq_false fun same => none (same ▸ member)

theorem find_eq_none {src : Str} {splitWord : UInt8} {pos : Nat}
    (none : splitWord ∉ src.drop pos) : find src splitWord pos = .none := by
  rw [find, Option.map_eq_none_iff, List.findIdx?_eq_none_iff]
  intro symbol member
  exact decide_eq_false fun same => none (same ▸ member)

/-- The loop, from a position on, cuts what is behind it. -/
theorem splitLoop_eq {src : Str} (splitWord : UInt8) {fuel pos1 : Nat} (strvec : List Str)
    (enough : (src.drop pos1).length < fuel) :
    splitLoop src splitWord fuel pos1 strvec =
      some (strvec ++ (src.drop pos1).splitOn splitWord) := by
  induction fuel generalizing pos1 strvec with
  | zero => exact absurd enough (Nat.not_lt_zero _)
  | succ fuel ih =>
      rw [splitLoop]
      rcases Split.cases_first splitWord (src.drop pos1) with none | ⟨front, back, rest, none⟩
      · simp only [find_eq_none none, List.splitOn_eq_singleton none]
      · have behind : src.drop (pos1 + front.length + 1) = back := by
          rw [Nat.add_assoc, ← List.drop_drop, rest]
          simp
        have piece : (front ++ splitWord :: back).take (pos1 + front.length - pos1) = front := by
          rw [Nat.add_sub_cancel_left, List.take_left]
        have fewer : (src.drop (pos1 + front.length + 1)).length < fuel := by
          rw [behind]
          rw [rest, List.length_append, List.length_cons] at enough
          omega
        simp only [find_eq_some rest none, ih _ fewer, piece, behind, rest,
          List.splitOn_append_cons_self_of_not_mem none, List.append_assoc,
          List.singleton_append]

theorem splitString_eq (src : Str) (splitWord : UInt8) :
    splitString src splitWord = src.splitOn splitWord := by
  have loop := @splitLoop_eq src splitWord (src.length + 1) 0 [] (Nat.lt_succ_self src.length)
  rw [splitString, loop]
  rfl

/-- With fuel for one turn more than there are characters the loop ends, with a piece for
each separator and one more. None of them has a separator, and joined with separators
they are the string. -/
theorem splitString_joins (src : Str) (splitWord : UInt8) :
    (∀ fuel, src.length < fuel →
      splitLoop src splitWord fuel 0 [] = some (splitString src splitWord)) ∧
      (splitString src splitWord).length = src.count splitWord + 1 ∧
      (∀ piece ∈ splitString src splitWord, splitWord ∉ piece) ∧
      [splitWord].intercalate (splitString src splitWord) = src := by
  rw [splitString_eq]
  refine ⟨fun fuel enough => splitLoop_eq splitWord [] enough,
    Split.length_splitOn splitWord src, fun piece => Split.not_mem_piece, ?_⟩
  exact List.intercalate_splitOn splitWord

example : splitString [38, 97, 38, 38] 38 = [[], [97], [], []] := by decide +kernel

end Nicenet.Http
