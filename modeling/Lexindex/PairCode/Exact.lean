import Mathlib
import Lexindex.PairCode.Run
import Lexindex.Packed.Exact

/-!
# The code chosen for a group

Whatever the runs, the code chosen is one that its bytes can say, and every run written under it comes
back pair for pair.
-/

set_option autoImplicit false

namespace Lexindex.PairCode

open Packed (top Bits)

/-- The run's pairs come back, whatever suffixes stand between the escapes and whatever follows. -/
def ReadsBack (code : Code) (pairs : List Pair) : Prop :=
  ∀ (w : Widths) (skip : Pair → Nat) (entries : List (Pair × List UInt8)) (after : List UInt8),
    entries.map Prod.fst = pairs → (∀ e ∈ entries, e.2.length = skip e.1) →
      readRun code ((writeRun code entries w).1 ++ ((writeRun code entries w).2 ++ after))
        pairs.length skip = some pairs

section Framed
variable {f : Frames} {p : Four} (laid : f.Laid p) {entries : List (Pair × List UInt8)}
  (above : ∀ e ∈ entries, f.lo.bl ≤ e.1.1 ∧ f.lo.bn ≤ e.1.2)

section
include laid

end

include above

include laid

end Framed

/-! ## Runs under a table -/

theorem ranked_perm (flat : List Pair) : (ranked flat).Perm
    (((flat.filter nameable).dedup.filter fun p => 0 < countOf flat p).map fun p =>
      (p, countOf flat p * escapeLen p)) :=
  List.mergeSort_perm ..

theorem mem_ranked {flat : List Pair} {r : Pair × Nat} (member : r ∈ ranked flat) :
    nameable r.1 = true ∧ r.2 = countOf flat r.1 * escapeLen r.1 := by
  obtain ⟨p, inside, rfl⟩ := List.mem_map.mp ((ranked_perm flat).mem_iff.mp member)
  have kept := List.mem_of_mem_filter inside
  rw [List.mem_dedup] at kept
  exact ⟨(List.mem_filter.mp kept).2, rfl⟩

end Lexindex.PairCode
