import Mathlib
import Lexindex.PairCode.Exact

/-!
# What a code costs

The price a code was chosen at is set beside the bytes it writes.  A table's price is its bytes but
for the runs' last bytes, which it rounds all together; a frame's leaves out the byte that says the
group is one of frames.
-/

set_option autoImplicit false

namespace Lexindex.PairCode

open Packed (top)

/-- Bytes of a run's headers and escapes; an empty run is no bytes. -/
def runBytes (code : Code) (pairs : List Pair) : Nat :=
  if pairs = [] then 0
  else
    let written := writeRun code (pairs.map fun p => (p, [])) Widths.default
    written.1.length + written.2.length

theorem escaped_append (cond : Pair → Bool) (front back : List Pair) :
    escaped cond (front ++ back) = escaped cond front + escaped cond back := by
  rw [escaped, List.filter_append, List.map_append, List.sum_append]
  rfl

theorem escaped_flatten (cond : Pair → Bool) (runs : List (List Pair)) :
    escaped cond runs.flatten = (runs.map (escaped cond)).sum := by
  induction runs with
  | nil => rfl
  | cons r runs ih => rw [List.flatten_cons, escaped_append, ih, List.map_cons, List.sum_cons]

/-- A pair that the table does not name. -/
def unnamed (pairs : List Nat) (p : Pair) : Bool :=
  nameable p && decide (keyOf p ∉ pairs)

end Lexindex.PairCode
