import Mathlib
import Lexindex.Lib.Grouping
import Lexindex.Lib.Search

/-!
# Compressed child runs

Where each node's children start, at two bytes a node: the low half of the start, over a base
every 256 nodes.  Nodes are numbered level by level, so parents ascend and a node's children are
one run, which ends where the next node's begins.  A group's starts grow by less than `2 ^ 16`, so
the halves and the base give every start back.
-/

set_option autoImplicit false

namespace Lexindex.Superstring

/-- Nodes a base covers, as a power of two. -/
def RUN_GROUP : Nat := 8

/-- The first node whose parent is not before `v`, by bisection. -/
def start (parent : List Nat) (v : Nat) : Nat :=
  1 + partitionPoint (fun i => (parent.tail[i]?).any fun p => decide (p < v)) 0 parent.tail.length

/-- On to the first node whose parent is not before `bound`. -/
def advance (parent : List Nat) (bound u : Nat) : Nat :=
  if u < parent.length ∧ parent.getD u 0 < bound then advance parent bound (u + 1) else u
termination_by parent.length - u

/-- A chunk of a table, a cursor moved on from entry to entry. -/
def fill (parent : List Nat) (bound : Nat → Nat) : Nat → Nat → Nat → List Nat
  | _, _, 0 => []
  | u, v, count + 1 =>
      let u := advance parent (bound v) u
      u :: fill parent bound u (v + 1) count

/-- A table cut into chunks, each filled apart from where it begins. -/
def onThreads (chunk : Nat → Nat → List Nat) : Nat → List Nat → List Nat
  | _, [] => []
  | at_, size :: sizes => chunk at_ size ++ onThreads chunk (at_ + size) sizes

/-- The chunks a table of `len` entries is cut into, one a thread. -/
def threadCuts (len least threads : Nat) : List Nat :=
  if len < least ∨ threads = 1 then [len]
  else
    let chunk := (len + (threads - 1)) / threads
    List.replicate (len / chunk) chunk ++ if len % chunk = 0 then [] else [len % chunk]

structure Runs where
  base : List Nat
  low : List Nat
deriving DecidableEq, Repr

/-- From each node's parent, ascending, the root's unread. -/
def Runs.ofParents (baseCuts lowCuts : List Nat) (parent : List Nat) : Runs :=
  let bases := onThreads (fun at_ =>
    fill parent (fun g => g <<< RUN_GROUP) (start parent (at_ <<< RUN_GROUP)) at_) 0 baseCuts
  let starts := onThreads (fun at_ => fill parent (fun v => v) (start parent at_) at_) 0 lowCuts
  { base := bases.map (· % 2 ^ 32)
    low := starts.map (· % 2 ^ 16) ++ [parent.length % 2 ^ 16] }

/-- `a.wrapping_sub(b)` of two halves. -/
def halfSub (a b : Nat) : Nat :=
  (a + 2 ^ 16 - b) % 2 ^ 16

/-- The first child of `v`, or where it would be, and how many it has. -/
def Runs.of (runs : Runs) (v : Nat) : Option (Nat × Nat) := do
  let here ← runs.low[v]?
  let next ← runs.low[v + 1]?
  let base ← runs.base[v >>> RUN_GROUP]?
  let first := base + halfSub here (base % 2 ^ 16)
  if first < 2 ^ 32 then some (first, halfSub next here) else none

/-- What the nodes below `kept` read. -/
def Runs.truncate (runs : Runs) (kept : Nat) : Runs :=
  { base := runs.base.take (kept >>> RUN_GROUP + 1)
    low := runs.low.take (kept + 1) }

/-- The chunks cover the table. -/
theorem threadCuts_sum (len least threads : Nat) : (threadCuts len least threads).sum = len := by
  rw [threadCuts]
  split
  · exact Nat.add_zero len
  · dsimp only
    generalize (len + (threads - 1)) / threads = chunk
    have parts := Nat.div_add_mod' len chunk
    rw [List.sum_append, List.sum_replicate, smul_eq_mul]
    split
    · rw [List.sum_nil]
      omega
    · rw [List.sum_singleton]
      omega

/-! ## Starts -/

/-- The first node whose parent is not before `v`. -/
def firstNotBefore (parent : List Nat) (v : Nat) : Nat :=
  1 + (parent.tail.takeWhile fun p => decide (p < v)).length

/-- Node 0 is the root, every other node's parent is before it, and parents ascend. -/
structure Numbered (parent : List Nat) : Prop where
  rooted : parent ≠ []
  ascending : parent.tail.Pairwise (· ≤ ·)
  earlier : ∀ u, 0 < u → u < parent.length → parent.getD u 0 < u

namespace Numbered

variable {parent : List Nat}

theorem inOrder (numbered : Numbered parent) : InOrder (fun p : Nat => p) parent.tail :=
  numbered.ascending

theorem firstNotBefore_eq (numbered : Numbered parent) (v : Nat) :
    firstNotBefore parent v = 1 + before (fun p : Nat => p) parent.tail v := by
  have length := @before_le_length _ (fun p : Nat => p) parent.tail v
  rw [firstNotBefore, numbered.inOrder.takeWhile, List.length_take, Nat.min_eq_left length]

/-- A node is short of a start just where its parent is before. -/
theorem lt_firstNotBefore (numbered : Numbered parent) {u v : Nat} (some_ : 0 < u) (inside : u < parent.length) :
    u < firstNotBefore parent v ↔ parent.getD u 0 < v := by
  have tail : u - 1 < parent.tail.length := by
    rw [List.length_tail]
    omega
  have order := numbered.inOrder.lt_before_iff (b := v) tail 0
  have entry : parent.tail.getD (u - 1) 0 = parent.getD u 0 := by
    rw [List.getD_eq_getElem?_getD, List.getElem?_tail, Nat.sub_add_cancel some_,
      ← List.getD_eq_getElem?_getD]
  rw [entry] at order
  rw [numbered.firstNotBefore_eq, ← order]
  omega

theorem firstNotBefore_le (numbered : Numbered parent) (v : Nat) : firstNotBefore parent v ≤ parent.length := by
  have length := @before_le_length _ (fun p : Nat => p) parent.tail v
  have some_ := List.length_pos_of_ne_nil numbered.rooted
  rw [List.length_tail] at length
  rw [numbered.firstNotBefore_eq]
  omega

theorem firstNotBefore_mono (numbered : Numbered parent) {v w : Nat} (upTo : v ≤ w) :
    firstNotBefore parent v ≤ firstNotBefore parent w := by
  rw [numbered.firstNotBefore_eq, numbered.firstNotBefore_eq]
  exact Nat.add_le_add_left (before_mono _ upTo) 1

/-- A node's run ends where the next one's begins. -/
theorem firstNotBefore_succ (numbered : Numbered parent) (v : Nat) :
    firstNotBefore parent (v + 1) = firstNotBefore parent v + parent.tail.count v := by
  have group : (groupOf (fun p : Nat => p) parent.tail v).length = parent.tail.count v := by
    rw [groupOf, ← List.countP_eq_length_filter]
    rfl
  rw [numbered.firstNotBefore_eq, numbered.firstNotBefore_eq, before_succ, group]
  omega

/-- Past the last node every run starts at the end. -/
theorem firstNotBefore_last (numbered : Numbered parent) :
    firstNotBefore parent parent.length = parent.length := by
  refine Nat.le_antisymm (numbered.firstNotBefore_le _) (Nat.le_of_not_lt fun short => ?_)
  have some_ : 0 < firstNotBefore parent parent.length := by
    rw [firstNotBefore]
    omega
  have earlier := numbered.earlier _ some_ short
  exact absurd ((numbered.lt_firstNotBefore some_ short).mpr (earlier.trans short)) (Nat.lt_irrefl _)

/-- The bisection tells the parents before `v` from the others. -/
theorem part_iff (numbered : Numbered parent) (v i : Nat) :
    ((parent.tail[i]?).any fun p => decide (p < v)) = true ↔ i < before (fun p : Nat => p) parent.tail v := by
  by_cases inside : i < parent.tail.length
  · rw [numbered.inOrder.lt_before_iff inside 0, List.getElem?_eq_getElem inside, Option.any_some,
      decide_eq_true_eq, List.getD_eq_getElem _ _ inside]
  · have length := @before_le_length _ (fun p : Nat => p) parent.tail v
    rw [List.getElem?_eq_none (by omega), Option.any_none]
    exact iff_of_false Bool.false_ne_true (by omega)

theorem start_eq (numbered : Numbered parent) (v : Nat) : start parent v = firstNotBefore parent v := by
  have part := numbered.part_iff v
  have length := @before_le_length _ (fun p : Nat => p) parent.tail v
  obtain ⟨-, most, held, stopped⟩ := @partitionPoint_spec
    (fun i => (parent.tail[i]?).any fun p => decide (p < v))
    (fun i j upTo later => (part i).mpr (upTo.trans_lt ((part j).mp later))) 0 parent.tail.length
    (Nat.zero_le _)
  rw [start, numbered.firstNotBefore_eq]
  congr 1
  refine Nat.le_antisymm (Nat.le_of_not_lt fun more => ?_) (Nat.le_of_not_lt fun less => ?_)
  · exact absurd ((part _).mp (held _ (Nat.zero_le _) more)) (Nat.lt_irrefl _)
  · exact stopped _ (Nat.le_refl _) (by omega) ((part _).mpr less)

/-! ## Tables -/

/-- The cursor reaches a start from any node not past it. -/
theorem advance_eq (numbered : Numbered parent) {u v : Nat} (some_ : 0 < u)
    (upTo : u ≤ firstNotBefore parent v) : advance parent v u = firstNotBefore parent v := by
  induction left : parent.length - u using Nat.strong_induction_on generalizing u with
  | _ _ ih =>
      have most := numbered.firstNotBefore_le v
      rw [advance]
      by_cases short : u < firstNotBefore parent v
      · have inside : u < parent.length := by omega
        rw [if_pos ⟨inside, (numbered.lt_firstNotBefore some_ inside).mp short⟩]
        exact ih _ (by omega) (by omega) short rfl
      · have here : u = firstNotBefore parent v := by omega
        rw [if_neg]
        · exact here
        · rintro ⟨inside, earlier⟩
          exact short ((numbered.lt_firstNotBefore some_ inside).mpr earlier)

/-- A chunk holds the starts of its entries. -/
theorem fill_eq (numbered : Numbered parent) {bound : Nat → Nat} (mono : Monotone bound) (count : Nat) :
    ∀ {u v : Nat}, 0 < u → u ≤ firstNotBefore parent (bound v) →
      fill parent bound u v count = (List.range' v count).map fun w => firstNotBefore parent (bound w) := by
  induction count with
  | zero =>
      intro u v _ _
      rfl
  | succ count ih =>
      intro u v some_ upTo
      have reached := numbered.advance_eq some_ upTo
      rw [fill, List.range'_succ, List.map_cons, reached, ih (some_.trans_le upTo) (numbered.firstNotBefore_mono (mono (Nat.le_succ v)))]

/-- A table does not depend on how it is cut. -/
theorem onThreads_eq (numbered : Numbered parent) {bound : Nat → Nat} (mono : Monotone bound)
    (cuts : List Nat) : ∀ at_ : Nat,
    onThreads (fun at_ => fill parent bound (start parent (bound at_)) at_) at_ cuts =
      (List.range' at_ cuts.sum).map fun w => firstNotBefore parent (bound w) := by
  induction cuts with
  | nil =>
      intro at_
      rfl
  | cons size cuts ih =>
      intro at_
      have some_ : 0 < firstNotBefore parent (bound at_) := by
        rw [firstNotBefore]
        omega
      rw [onThreads, ih, numbered.start_eq, numbered.fill_eq mono size some_ (Nat.le_refl _), List.sum_cons,
        ← List.range'_append_1, List.map_append]

/-- Both tables hold halves of starts, the last one the node count's. -/
theorem ofParents_eq (numbered : Numbered parent) {baseCuts lowCuts : List Nat}
    (lows : lowCuts.sum = parent.length) : Runs.ofParents baseCuts lowCuts parent =
      { base := (List.range' 0 baseCuts.sum).map fun g => firstNotBefore parent (g <<< RUN_GROUP) % 2 ^ 32
        low := (List.range' 0 (parent.length + 1)).map fun v => firstNotBefore parent v % 2 ^ 16 } := by
  have shifts : Monotone fun g : Nat => g <<< RUN_GROUP := by
    intro g h upTo
    dsimp only
    rw [Nat.shiftLeft_eq, Nat.shiftLeft_eq]
    exact Nat.mul_le_mul_right _ upTo
  have halves := numbered.onThreads_eq (show Monotone fun v : Nat => v from monotone_id) lowCuts 0
  rw [Runs.ofParents, numbered.onThreads_eq shifts, halves, lows, List.map_map, List.map_map,
    List.range'_concat, List.map_append, List.map_singleton, Nat.one_mul, Nat.zero_add,
    numbered.firstNotBefore_last]
  rfl

/-- Within a group starts grow by less than a half's range. -/
theorem grows (numbered : Numbered parent) (few : ∀ v, parent.tail.count v ≤ 256) (v count : Nat) :
    firstNotBefore parent (v + count) ≤ firstNotBefore parent v + 256 * count := by
  induction count with
  | zero => exact Nat.le_refl _
  | succ count ih =>
      have next := numbered.firstNotBefore_succ (v + count)
      have most := few (v + count)
      rw [← Nat.add_assoc]
      omega

end Numbered

/-- **Child runs are exact.**  However the tables are cut, every node gives back the first node whose
parent is not before it and how many children it has, and a truncated table does so for the nodes
it keeps. -/
theorem runs_exact (parent : List Nat) (numbered : Numbered parent) (small : parent.length < 2 ^ 32)
    (few : ∀ v, parent.tail.count v ≤ 256) (baseCuts lowCuts : List Nat)
    (bases : baseCuts.sum = parent.length >>> RUN_GROUP + 1) (lows : lowCuts.sum = parent.length) :
    (∀ v, v < parent.length → (Runs.ofParents baseCuts lowCuts parent).of v =
      some (firstNotBefore parent v, parent.tail.count v)) ∧
    ∀ kept v, v < kept → ((Runs.ofParents baseCuts lowCuts parent).truncate kept).of v =
      (Runs.ofParents baseCuts lowCuts parent).of v := by
  have shift : ∀ n, n >>> RUN_GROUP = n / 256 := fun n => Nat.shiftRight_eq_div_pow n 8
  constructor
  · intro v inside
    have most := numbered.firstNotBefore_le v
    have group := Nat.div_add_mod v 256
    have within := Nat.mod_lt v (show 0 < 256 by decide)
    have grown := numbered.grows few (v >>> RUN_GROUP <<< RUN_GROUP) (v % 256)
    have least := numbered.firstNotBefore_mono (v := v >>> RUN_GROUP <<< RUN_GROUP) (w := v) (by
      rw [shift, Nat.shiftLeft_eq]
      change v / 256 * 256 ≤ v
      omega)
    have place : v >>> RUN_GROUP <<< RUN_GROUP + v % 256 = v := by
      rw [shift, Nat.shiftLeft_eq]
      change v / 256 * 256 + v % 256 = v
      omega
    have next := numbered.firstNotBefore_succ v
    have children := few v
    have covered : v >>> RUN_GROUP < baseCuts.sum := by
      rw [bases, shift, shift]
      omega
    rw [place] at grown
    have entry : ∀ {f : Nat → Nat} {n i : Nat}, i < n → ((List.range' 0 n).map f)[i]? = some (f i) := by
      intro f n i short
      rw [List.getElem?_map, List.getElem?_range' short, Option.map_some, Nat.one_mul, Nat.zero_add]
    have base : firstNotBefore parent (v >>> RUN_GROUP <<< RUN_GROUP) % 2 ^ 32 =
        firstNotBefore parent (v >>> RUN_GROUP <<< RUN_GROUP) := Nat.mod_eq_of_lt (by omega)
    rw [numbered.ofParents_eq lows, Runs.of]
    dsimp only
    rw [entry (show v < parent.length + 1 by omega), entry (show v + 1 < parent.length + 1 by omega),
      entry covered, base]
    generalize firstNotBefore parent (v >>> RUN_GROUP <<< RUN_GROUP) = first at *
    have back : first + halfSub (firstNotBefore parent v % 2 ^ 16) (first % 2 ^ 16) = firstNotBefore parent v := by
      rw [halfSub]
      omega
    have length : halfSub (firstNotBefore parent (v + 1) % 2 ^ 16) (firstNotBefore parent v % 2 ^ 16) =
        parent.tail.count v := by
      rw [halfSub]
      omega
    change (if first + halfSub (firstNotBefore parent v % 2 ^ 16) (first % 2 ^ 16) < 2 ^ 32 then
      some (first + halfSub (firstNotBefore parent v % 2 ^ 16) (first % 2 ^ 16),
        halfSub (firstNotBefore parent (v + 1) % 2 ^ 16) (firstNotBefore parent v % 2 ^ 16)) else none) = _
    rw [back, length, if_pos (by omega)]
  · intro kept v below
    have reached : v >>> RUN_GROUP < kept >>> RUN_GROUP + 1 := by
      rw [shift, shift]
      omega
    rw [Runs.of, Runs.of, Runs.truncate]
    dsimp only
    rw [List.getElem?_take_of_lt (by omega), List.getElem?_take_of_lt (by omega), List.getElem?_take_of_lt reached]

/-- A root of three children, the second of two, its tables cut among two and three threads. -/
theorem runs_exact_six :
    (Runs.ofParents [1] (threadCuts 6 4 3) [0, 0, 0, 0, 2, 2]).of 2 =
      some (firstNotBefore [0, 0, 0, 0, 2, 2] 2, [0, 0, 0, 2, 2].count 2) ∧
    ((Runs.ofParents [1] (threadCuts 6 4 3) [0, 0, 0, 0, 2, 2]).truncate 3).of 2 =
      (Runs.ofParents [1] (threadCuts 6 4 3) [0, 0, 0, 0, 2, 2]).of 2 := by
  have numbered : Numbered [0, 0, 0, 0, 2, 2] :=
    ⟨by decide, by decide, fun u some_ inside => by
      have few : u < 6 := inside
      interval_cases u <;> decide⟩
  obtain ⟨exact_, kept⟩ := runs_exact [0, 0, 0, 0, 2, 2] numbered (by decide)
    (fun v => List.count_le_length.trans (by decide)) [1] (threadCuts 6 4 3) (by decide) (by decide)
  exact ⟨exact_ 2 (by decide), kept 3 2 (by decide)⟩

end Lexindex.Superstring
