import Mathlib
import Lexindex.Lib.Widths

/-!
# The trie placement works from

Nodes are numbered breadth first from the root, and a node's children are a run of
numbers.  A child's number and the depth of a span are 32 bits.
-/

set_option autoImplicit false

namespace Lexindex.DoubleArray

/-- No key ends at this node. -/
def NO_WORD : Nat := 2 ^ 32 - 1

/-- Node `v`'s children are the nodes `first[v] .. first[v + 1]`, in label order. -/
structure Trie where
  label : List Nat
  word : List Nat
  first : List Nat
  deriving DecidableEq

namespace Trie

def firstOf (t : Trie) (v : Nat) : Nat :=
  t.first.getD v 0

def kids (t : Trie) (v : Nat) : List Nat :=
  List.range' (t.firstOf v) (t.firstOf (v + 1) - t.firstOf v)

def labelOf (t : Trie) (k : Nat) : Nat :=
  t.label.getD k 0

def wordOf (t : Trie) (k : Nat) : Nat :=
  t.word.getD k NO_WORD

/-- `t.label[t.kids(v)]`. -/
def row (t : Trie) (v : Nat) : List Nat :=
  (t.kids v).map t.labelOf

/-- The end of the run of ids from `j` on whose keys go on with `c`. -/
def runEnd (labelAt : Nat → Nat) (c hi j : Nat) : Nat :=
  if j < hi ∧ labelAt j = c then runEnd labelAt c hi (j + 1) else j
termination_by hi - j

theorem le_runEnd (labelAt : Nat → Nat) (c hi j : Nat) : j ≤ runEnd labelAt c hi j := by
  fun_induction runEnd labelAt c hi j with
  | case1 j more ih => omega
  | case2 j stop => omega

/-- The ids `i .. hi` cut into runs by the label their keys go on with. -/
def runs (labelAt : Nat → Nat) (hi i : Nat) : List (Nat × Nat × Nat) :=
  if i < hi then
    (labelAt i, i, runEnd labelAt (labelAt i) hi (i + 1)) ::
      runs labelAt hi (runEnd labelAt (labelAt i) hi (i + 1))
  else []
termination_by hi - i
decreasing_by
  have reached := le_runEnd labelAt (labelAt i) hi (i + 1)
  omega

/-- The runs under a node, in label order. -/
def sortedRuns (labels starts : List Nat) (d lo hi : Nat) : List (Nat × Nat × Nat) :=
  (runs (fun i => labels.getD (starts.getD i 0 + d) 0) hi lo).mergeSort fun r s => r.1 ≤ s.1

/-- A node's number, its span taken: the key it spells, if any, then its children. -/
def number (labels starts : List Nat) (t : Trie) (lo hi d : Nat) :
    Trie × List (Nat × Nat × Nat) :=
  let v := t.first.length
  -- The key the node spells sorts first among the keys under it.
  let spelled := lo < hi ∧ starts.getD (lo + 1) 0 - starts.getD lo 0 = d
  let found := sortedRuns labels starts d (if spelled then lo + 1 else lo) hi
  ({ label := t.label ++ found.map fun r => r.1
     word := (if spelled then t.word.set v lo else t.word) ++ found.map fun _ => NO_WORD
     first := t.first ++ [t.label.length % 2 ^ 32] },
    found.map fun r => (r.2.1, r.2.2, (d + 1) % 2 ^ 32))

/-- The loop over the nodes: `span` holds those not numbered yet. -/
def buildFrom (labels starts : List Nat) :
    Nat → List (Nat × Nat × Nat) → Trie → Option Trie
  | _, [], t => some { t with first := t.first ++ [t.label.length % 2 ^ 32] }
  | 0, _ :: _, _ => none
  | fuel + 1, (lo, hi, d) :: span, t =>
      let numbered := number labels starts t lo hi d
      buildFrom labels starts fuel (span ++ numbered.2) numbered.1

/-- `keys[id]` as labels are `labels[starts[id] .. starts[id + 1]]`, the keys distinct and in byte
order from `firstKey` on, and none of them empty.  There is a node for the root and no more than
one a label besides. -/
def build (labels starts : List Nat) (firstKey : Nat) : Option Trie :=
  buildFrom labels starts (labels.length + 1) [(firstKey, starts.length - 1, 0)]
    { label := [0], word := [NO_WORD], first := [] }

end Trie

end Lexindex.DoubleArray
