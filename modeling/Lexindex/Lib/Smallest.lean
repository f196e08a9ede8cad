import Mathlib
import Lexindex.Lib.Ascending

/-!
# The smallest items

A selection puts an item where sorting would put it, those before it no greater and those after it no
less, and says nothing else about the order.  Whatever is kept of some items, with nothing less left
out, is as many of the smallest of them.
-/

set_option autoImplicit false

namespace Lexindex

variable {α β : Type} [LinearOrder β] {key : α → β}

/-- `select_nth_unstable_by_key`, whatever it does with the items on either side. -/
structure Selection (key : α → β) where
  select : List α → Nat → List α
  perm : ∀ items k, (select items k).Perm items
  parts : ∀ items k, ∀ a ∈ (select items k).take (k + 1), ∀ b ∈ (select items k).drop (k + 1),
    key a ≤ key b

/-- Sorting selects. -/
def Selection.bySort (key : α → β) : Selection key where
  select items _ := items.mergeSort fun a b => key a ≤ key b
  perm items _ := List.mergeSort_perm ..
  parts items k a front b back := by
    have sorted := sorted_mergeSort key items
    rw [Sorted, ← List.take_append_drop (k + 1) (items.mergeSort _), List.pairwise_append] at sorted
    exact sorted.2.2 a front b back

/-- Items with distinct keys are sorted to one list. -/
theorem mergeSort_eq_of_perm {items others : List α} (perm : items.Perm others)
    (distinct : (items.map key).Nodup) :
    (items.mergeSort fun a b => key a ≤ key b) = others.mergeSort fun a b => key a ≤ key b := by
  have same : (items.mergeSort fun a b => key a ≤ key b).Perm
      (others.mergeSort fun a b => key a ≤ key b) :=
    (List.mergeSort_perm ..).trans (perm.trans (List.mergeSort_perm ..).symm)
  refine same.eq_of_pairwise ?_ (sorted_mergeSort key items) (sorted_mergeSort key others)
  intro a b first second less more
  rw [List.mem_mergeSort] at first second
  exact List.inj_on_of_nodup_map distinct first (perm.mem_iff.mpr second) (less.antisymm more)

/-- What is kept with nothing less left out is the smallest of the items. -/
theorem smallest_of_parts {items kept dropped : List α} (perm : (kept ++ dropped).Perm items)
    (parts : ∀ a ∈ kept, ∀ b ∈ dropped, key a ≤ key b) (distinct : (items.map key).Nodup) :
    (kept.mergeSort fun a b => key a ≤ key b) =
      (items.mergeSort fun a b => key a ≤ key b).take kept.length := by
  have sorted : Sorted key ((kept.mergeSort fun a b => key a ≤ key b) ++
      dropped.mergeSort fun a b => key a ≤ key b) := by
    rw [Sorted, List.pairwise_append]
    refine ⟨sorted_mergeSort key kept, sorted_mergeSort key dropped, ?_⟩
    intro a front b back
    rw [List.mem_mergeSort] at front back
    exact parts a front b back
  have whole : ((kept.mergeSort fun a b => key a ≤ key b) ++
      dropped.mergeSort fun a b => key a ≤ key b).Perm items :=
    ((List.mergeSort_perm ..).append (List.mergeSort_perm ..)).trans perm
  have one := mergeSort_eq_of_perm whole.symm distinct
  rw [mergeSort_sorted sorted] at one
  rw [one]
  exact (List.take_left' (List.length_mergeSort ..)).symm

end Lexindex
