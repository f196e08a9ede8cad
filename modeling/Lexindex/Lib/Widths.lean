import Mathlib

/-!
# Runs of given widths

A sequence of widths cuts the ranks below their sum into runs, one after another:
each rank has one run and one place in it.
-/

set_option autoImplicit false

namespace Lexindex

/-- The rank a run starts at. -/
def startOf (widths : List Nat) (l : Nat) : Nat :=
  (widths.take l).sum

theorem startOf_zero (widths : List Nat) : startOf widths 0 = 0 :=
  rfl

theorem startOf_length (widths : List Nat) : startOf widths widths.length = widths.sum := by
  rw [startOf, List.take_length]

theorem startOf_succ (widths : List Nat) (l : Nat) :
    startOf widths (l + 1) = startOf widths l + widths.getD l 0 := by
  rw [startOf, startOf, List.take_add_one, List.sum_append, List.getD_eq_getElem?_getD]
  cases widths[l]? <;> simp

theorem startOf_le (widths : List Nat) {l m : Nat} (le : l ≤ m) :
    startOf widths l ≤ startOf widths m := by
  induction m, le using Nat.le_induction with
  | base => exact le_refl _
  | succ m _ ih =>
      rw [startOf_succ]
      omega

theorem startOf_le_sum (widths : List Nat) (l : Nat) : startOf widths l ≤ widths.sum := by
  by_cases inside : l ≤ widths.length
  · rw [← startOf_length]
    exact startOf_le widths inside
  · rw [startOf, List.take_of_length_le (by omega)]

/-- A run ends where the next starts, so an earlier run's ranks are below a later one's. -/
theorem run_lt {widths : List Nat} {l m i j : Nat} (less : l < m) (inside : i < widths.getD l 0) :
    startOf widths l + i < startOf widths m + j := by
  have next := startOf_le widths (Nat.succ_le_of_lt less)
  rw [startOf_succ] at next
  omega

theorem exists_run (widths : List Nat) {rank : Nat} (small : rank < widths.sum) :
    ∃ l i, l < widths.length ∧ i < widths.getD l 0 ∧ rank = startOf widths l + i := by
  induction widths generalizing rank with
  | nil => simp at small
  | cons w widths ih =>
      rw [List.sum_cons] at small
      by_cases first : rank < w
      · exact ⟨0, rank, by simp, by simpa using first, by simp [startOf]⟩
      · obtain ⟨l, i, lSmall, inside, exact⟩ := @ih (rank - w) (by omega)
        refine ⟨l + 1, i, by simpa using lSmall, by simpa using inside, ?_⟩
        rw [startOf] at exact
        rw [startOf, List.take_succ_cons, List.sum_cons]
        omega

end Lexindex
