import Mathlib

/-!
# Lists grouped by a key

Elements with a small key are grouped by it in key order, each group in the order
its elements came.  A counting sort counts the keys, sums the counts to where each
group begins, and writes every element at its group's cursor; a list already in key
order is cut at the counts.
-/

set_option autoImplicit false

namespace Lexindex

universe u

variable {α : Type u} (key : α → Nat)

/-- The elements with key `b`, in order. -/
def groupOf (xs : List α) (b : Nat) : List α :=
  xs.filter fun x => decide (key x = b)

/-- The groups of the keys below `m`, one after another. -/
def grouped (m : Nat) (xs : List α) : List α :=
  (List.range m).flatMap (groupOf key xs)

/-- The groups of `count` keys from `first` on, one after another. -/
def between (xs : List α) (first count : Nat) : List α :=
  (List.range' first count).flatMap (groupOf key xs)

/-- How many elements have a key below `b`. -/
def before (xs : List α) (b : Nat) : Nat :=
  xs.countP fun x => decide (key x < b)

/-- In key order. -/
def InOrder (xs : List α) : Prop :=
  xs.Pairwise fun x y => key x ≤ key y

/-! ## The counting sort -/

/-- A count of each key, `off` entries on. -/
def tally (off length : Nat) (xs : List α) : List Nat :=
  xs.foldl (fun counts x => counts.modify (key x + off) (· + 1)) (List.replicate length 0)

/-- Every entry from `first` to `last` with the one before it added. -/
def runningSums (first last : Nat) (counts : List Nat) : List Nat :=
  (List.range' first (last + 1 - first)).foldl
    (fun counts i => counts.set i (counts.getD i 0 + counts.getD (i - 1) 0)) counts

/-- Write an element at its key's cursor, `off` entries on, and move the cursor. -/
def scatterOne (off : Nat) (state : List Nat × List α) (x : α) : List Nat × List α :=
  let at_ := state.1.getD (key x + off) 0
  (state.1.set (key x + off) (at_ + 1), state.2.set at_ x)

def scatter (off : Nat) (xs : List α) (cursors : List Nat) (out : List α) : List Nat × List α :=
  xs.foldl (scatterOne key off) (cursors, out)

/-! ## Groups and counts -/

variable {key}

theorem mem_groupOf {xs : List α} {b : Nat} {x : α} : x ∈ groupOf key xs b ↔ x ∈ xs ∧ key x = b := by
  simp [groupOf]

theorem before_succ (xs : List α) (b : Nat) :
    before key xs (b + 1) = before key xs b + (groupOf key xs b).length := by
  induction xs with
  | nil => rfl
  | cons x rest ih =>
      simp only [before, groupOf, List.countP_cons, List.filter_cons] at ih ⊢
      rw [ih]
      by_cases below : key x < b
      · have notHere : ¬ key x = b := by omega
        have belowNext : key x < b + 1 := by omega
        simp [below, notHere, belowNext]
        omega
      · by_cases here : key x = b
        · simp [here]
          omega
        · have notNext : ¬ key x < b + 1 := by omega
          simp [below, here, notNext]

theorem before_zero (xs : List α) : before key xs 0 = 0 := by
  simp [before]

theorem before_le_length (xs : List α) (b : Nat) : before key xs b ≤ xs.length :=
  List.countP_le_length

theorem before_all {xs : List α} {m : Nat} (small : ∀ x ∈ xs, key x < m) :
    before key xs m = xs.length := by
  rw [before, List.countP_eq_length]
  intro x member
  exact decide_eq_true (small x member)

theorem before_mono (xs : List α) {b c : Nat} (le : b ≤ c) : before key xs b ≤ before key xs c := by
  apply List.countP_mono_left
  intro x _ below
  rw [decide_eq_true_eq] at *
  omega

theorem before_append (xs ys : List α) (b : Nat) :
    before key (xs ++ ys) b = before key xs b + before key ys b :=
  List.countP_append ..

theorem groupOf_append (xs ys : List α) (b : Nat) :
    groupOf key (xs ++ ys) b = groupOf key xs b ++ groupOf key ys b :=
  List.filter_append ..

theorem sum_groups_length (xs : List α) (b : Nat) :
    ((List.range b).map fun c => (groupOf key xs c).length).sum = before key xs b := by
  induction b with
  | zero => simp [before_zero]
  | succ b ih => rw [List.range_succ, List.map_append, List.sum_append, ih, before_succ]; simp

/-! ## Lists in key order -/

theorem InOrder.split {xs : List α} (ordered : InOrder key xs) (b : Nat) :
    xs = xs.filter (fun x => decide (key x < b)) ++
      (groupOf key xs b ++ xs.filter fun x => decide (b < key x)) := by
  induction xs with
  | nil => rfl
  | cons x rest ih =>
      rw [InOrder, List.pairwise_cons] at ordered
      obtain ⟨first, restOrdered⟩ := ordered
      have restSplit := ih restOrdered
      simp only [groupOf, List.filter_cons]
      by_cases below : key x < b
      · have notHere : ¬ key x = b := by omega
        have notAbove : ¬ b < key x := by omega
        simp only [below, notHere, notAbove, decide_true, decide_false, if_true,
          Bool.false_eq_true, if_false, List.cons_append]
        exact congrArg (x :: ·) restSplit
      · have noneBelow : rest.filter (fun y => decide (key y < b)) = [] := by
          rw [List.filter_eq_nil_iff]
          intro y member
          have le := first y member
          rw [decide_eq_true_eq]
          omega
        rw [noneBelow] at restSplit ⊢
        by_cases here : key x = b
        · simp only [here, Nat.lt_irrefl, decide_true, decide_false, if_true,
            Bool.false_eq_true, if_false, List.nil_append, List.cons_append]
          exact congrArg (x :: ·) restSplit
        · have above : b < key x := by omega
          have noneHere : rest.filter (fun y => decide (key y = b)) = [] := by
            rw [List.filter_eq_nil_iff]
            intro y member
            have le := first y member
            rw [decide_eq_true_eq]
            omega
          rw [groupOf, noneHere] at restSplit
          rw [noneHere]
          simp only [below, here, above, decide_true, decide_false, if_true,
            Bool.false_eq_true, if_false, List.nil_append]
          exact congrArg (x :: ·) restSplit

/-- A group of a list in key order is cut out of it at the counts. -/
theorem InOrder.slice {xs : List α} (ordered : InOrder key xs) (b : Nat) :
    (xs.drop (before key xs b)).take (groupOf key xs b).length = groupOf key xs b := by
  have length : (xs.filter fun x => decide (key x < b)).length = before key xs b :=
    List.countP_eq_length_filter.symm
  have cut := congrArg (fun ys => (ys.drop (before key xs b)).take (groupOf key xs b).length)
    (ordered.split b)
  rw [cut, ← length, List.drop_left, List.take_left]

/-- No element of a list in key order is below a key its first is not below. -/
theorem InOrder.before_eq_zero {x : α} {rest : List α} (ordered : InOrder key (x :: rest)) {b : Nat}
    (notBelow : ¬ key x < b) : before key (x :: rest) b = 0 := by
  rw [InOrder, List.pairwise_cons] at ordered
  rw [before, List.countP_eq_zero]
  intro y member
  rw [decide_eq_true_eq]
  rcases List.mem_cons.mp member with rfl | later
  · exact notBelow
  · have le := ordered.1 y later
    omega

theorem before_cons_below {x : α} {rest : List α} {b : Nat} (below : key x < b) :
    before key (x :: rest) b = before key rest b + 1 := by
  simp [before, below]

/-- The elements of a list in key order below a key are those at the front. -/
theorem InOrder.lt_before_iff {xs : List α} (ordered : InOrder key xs) {b i : Nat}
    (inside : i < xs.length) (d : α) : i < before key xs b ↔ key (xs.getD i d) < b := by
  induction xs generalizing i with
  | nil => exact absurd inside (Nat.not_lt_zero _)
  | cons x rest ih =>
      have first := ordered
      rw [InOrder, List.pairwise_cons] at first
      by_cases below : key x < b
      · rw [before_cons_below below]
        cases i with
        | zero => simp [below]
        | succ i =>
            rw [List.getD_cons_succ, Nat.add_lt_add_iff_right]
            exact ih first.2 (by simpa using inside)
      · rw [ordered.before_eq_zero below]
        refine iff_of_false (Nat.not_lt_zero _) ?_
        cases i with
        | zero => exact below
        | succ i =>
            have restInside : i < rest.length := by simpa using inside
            have le := first.1 _ (List.getElem_mem restInside)
            rw [List.getD_cons_succ, List.getD_eq_getElem?_getD,
              List.getElem?_eq_getElem restInside, Option.getD_some]
            omega

theorem InOrder.takeWhile {xs : List α} (ordered : InOrder key xs) (b : Nat) :
    xs.takeWhile (fun x => decide (key x < b)) = xs.take (before key xs b) := by
  induction xs with
  | nil => rfl
  | cons x rest ih =>
      have restOrdered : InOrder key rest := (List.pairwise_cons.mp ordered).2
      rw [List.takeWhile_cons]
      by_cases below : key x < b
      · rw [if_pos (decide_eq_true below), before_cons_below below, List.take_succ_cons,
          ih restOrdered]
      · rw [ordered.before_eq_zero below]
        simp [below]

theorem InOrder.dropWhile {xs : List α} (ordered : InOrder key xs) (b : Nat) :
    xs.dropWhile (fun x => decide (key x < b)) = xs.drop (before key xs b) := by
  have whole := xs.takeWhile_append_dropWhile (p := fun x => decide (key x < b))
  rw [ordered.takeWhile] at whole
  exact List.append_cancel_left (whole.trans (List.take_append_drop _ _).symm)

theorem grouped_inOrder (m : Nat) (xs : List α) : InOrder key (grouped key m xs) := by
  rw [InOrder, grouped, List.pairwise_flatMap]
  refine ⟨?_, ?_⟩
  · intro b _
    apply List.pairwise_of_forall_mem_list
    intro x xMember y yMember
    rw [(mem_groupOf.mp xMember).2, (mem_groupOf.mp yMember).2]
  · refine List.pairwise_lt_range.imp ?_
    intro b c lt x xMember y yMember
    rw [(mem_groupOf.mp xMember).2, (mem_groupOf.mp yMember).2]
    omega

theorem groupOf_grouped {m b : Nat} (bLt : b < m) (xs : List α) :
    groupOf key (grouped key m xs) b = groupOf key xs b := by
  have each : ∀ c, groupOf key (groupOf key xs c) b = if c = b then groupOf key xs b else [] := by
    intro c
    by_cases here : c = b
    · subst here
      rw [if_pos rfl, groupOf, groupOf, List.filter_filter]
      simp
    · rw [if_neg here, groupOf, List.filter_eq_nil_iff]
      intro x member
      rw [(mem_groupOf.mp member).2]
      simpa using here
  induction m with
  | zero => exact absurd bLt (Nat.not_lt_zero _)
  | succ m ih =>
      rw [grouped, List.range_succ, List.flatMap_append, groupOf_append]
      simp only [List.flatMap_cons, List.flatMap_nil, List.append_nil]
      rw [each]
      by_cases last : m = b
      · subst last
        have none : groupOf key ((List.range m).flatMap (groupOf key xs)) m = [] := by
          rw [groupOf, List.filter_eq_nil_iff]
          intro x member
          obtain ⟨c, cMember, xMember⟩ := List.mem_flatMap.mp member
          have cLt := List.mem_range.mp cMember
          rw [(mem_groupOf.mp xMember).2]
          simp
          omega
        rw [none, if_pos rfl, List.nil_append]
      · rw [if_neg last, List.append_nil]
        exact ih (by omega)

theorem grouped_length (m : Nat) (xs : List α) :
    (grouped key m xs).length = before key xs m := by
  rw [grouped, List.length_flatMap, sum_groups_length]

theorem mem_grouped {m : Nat} {xs : List α} {x : α} :
    x ∈ grouped key m xs ↔ x ∈ xs ∧ key x < m := by
  simp only [grouped, List.mem_flatMap, List.mem_range, mem_groupOf]
  constructor
  · rintro ⟨b, bLt, member, rfl⟩
    exact ⟨member, bLt⟩
  · rintro ⟨member, small⟩
    exact ⟨key x, small, member, rfl⟩

theorem InOrder.grouped_take {xs : List α} (ordered : InOrder key xs) (b : Nat) :
    grouped key b xs = xs.take (before key xs b) := by
  induction b with
  | zero => simp [grouped, before_zero]
  | succ b ih =>
      rw [grouped, List.range_succ, List.flatMap_append]
      change grouped key b xs ++ _ = _
      rw [ih, before_succ, List.take_add, ordered.slice]
      simp

theorem InOrder.grouped_eq {m : Nat} {xs : List α} (ordered : InOrder key xs)
    (small : ∀ x ∈ xs, key x < m) : grouped key m xs = xs := by
  rw [ordered.grouped_take, before_all small, List.take_length]

/-! ## A run of groups -/

theorem grouped_add (first count : Nat) (xs : List α) :
    grouped key (first + count) xs = grouped key first xs ++ between key xs first count := by
  have cut : List.range (first + count) = List.range first ++ List.range' first count := by
    rw [List.range_eq_range', List.range_eq_range', ← List.range'_append, Nat.zero_add,
      Nat.one_mul]
  rw [grouped, cut, List.flatMap_append]
  rfl

theorem between_length (xs : List α) (first count : Nat) :
    (between key xs first count).length = before key xs (first + count) - before key xs first := by
  have whole := congrArg List.length (@grouped_add _ key first count xs)
  rw [List.length_append, grouped_length, grouped_length] at whole
  omega

theorem mem_between {xs : List α} {first count : Nat} {x : α} :
    x ∈ between key xs first count ↔ x ∈ xs ∧ first ≤ key x ∧ key x < first + count := by
  simp only [between, List.mem_flatMap, List.mem_range'_1, mem_groupOf]
  constructor
  · rintro ⟨b, within, member, rfl⟩
    exact ⟨member, within⟩
  · rintro ⟨member, within⟩
    exact ⟨key x, within, member, rfl⟩

theorem between_inOrder (xs : List α) (first count : Nat) :
    InOrder key (between key xs first count) := by
  have whole := @grouped_inOrder _ key (first + count) xs
  rw [grouped_add, InOrder, List.pairwise_append] at whole
  exact whole.2.1

theorem groupOf_between {xs : List α} {first count b : Nat} (firstLe : first ≤ b)
    (bLt : b < first + count) : groupOf key (between key xs first count) b = groupOf key xs b := by
  have whole := @groupOf_grouped _ key _ _ bLt xs
  rw [grouped_add, groupOf_append] at whole
  have none : groupOf key (grouped key first xs) b = [] := by
    rw [groupOf, List.filter_eq_nil_iff]
    intro x member
    have below := (mem_grouped.mp member).2
    rw [decide_eq_true_eq]
    omega
  rwa [none, List.nil_append] at whole

theorem before_between {xs : List α} {first count i : Nat} (le : i ≤ count) :
    before key (between key xs first count) (first + i) =
      before key xs (first + i) - before key xs first := by
  obtain ⟨more, rfl⟩ := Nat.exists_eq_add_of_le le
  have cut : between key xs first (i + more) =
      between key xs first i ++ between key xs (first + i) more := by
    rw [between, ← List.range'_append, List.flatMap_append, Nat.one_mul]
    rfl
  have all : before key (between key xs first i) (first + i) =
      (between key xs first i).length :=
    before_all fun x member => (mem_between.mp member).2.2
  have none : before key (between key xs (first + i) more) (first + i) = 0 := by
    rw [before, List.countP_eq_zero]
    intro x member
    have le := (mem_between.mp member).2.1
    rw [decide_eq_true_eq]
    omega
  rw [cut, before_append, all, none, between_length, Nat.add_zero]

/-- A run of groups of a list in key order is cut out of it at the counts. -/
theorem InOrder.between_eq {xs : List α} (ordered : InOrder key xs) (first count : Nat) :
    (xs.drop (before key xs first)).take (before key xs (first + count) - before key xs first) =
      between key xs first count := by
  have whole := @grouped_add _ key first count xs
  rw [ordered.grouped_take, ordered.grouped_take] at whole
  have cut := congrArg (List.drop (before key xs first)) whole
  have length : (xs.take (before key xs first)).length = before key xs first := by
    rw [List.length_take, Nat.min_eq_left (before_le_length _ _)]
  rw [List.drop_take, List.drop_append, List.drop_eq_nil_of_le (Nat.le_of_eq length), length,
    Nat.sub_self, List.nil_append, List.drop_zero] at cut
  exact cut

theorem InOrder.before_drop {xs : List α} (ordered : InOrder key xs) {b c : Nat} (le : b ≤ c) :
    before key (xs.drop (before key xs b)) c = before key xs c - before key xs b := by
  have front : before key (xs.take (before key xs b)) c = before key xs b := by
    rw [← ordered.grouped_take, before_all, grouped_length]
    intro x member
    have below := (mem_grouped.mp member).2
    omega
  have whole := @before_append _ key (xs.take (before key xs b)) (xs.drop (before key xs b)) c
  rw [List.take_append_drop, front] at whole
  omega

theorem grouped_perm {m : Nat} {xs : List α} (small : ∀ x ∈ xs, key x < m) :
    (grouped key m xs).Perm xs := by
  classical
  rw [List.perm_iff_count]
  intro x
  by_cases member : x ∈ xs
  · have own : ((grouped key m xs).filter fun y => decide (key y = key x)) =
        xs.filter fun y => decide (key y = key x) := groupOf_grouped (small x member) xs
    have counts : ∀ ys : List α, ys.count x = (ys.filter fun y => decide (key y = key x)).count x := by
      intro ys
      rw [List.count_filter]
      simp
    rw [counts, own, ← counts]
  · rw [List.count_eq_zero_of_not_mem member, List.count_eq_zero_of_not_mem]
    intro here
    exact member (mem_grouped.mp here).1

theorem groupOf_perm {xs ys : List α} (perm : xs.Perm ys) (b : Nat) :
    (groupOf key xs b).Perm (groupOf key ys b) :=
  perm.filter _

theorem before_perm {xs ys : List α} (perm : xs.Perm ys) (b : Nat) :
    before key xs b = before key ys b :=
  perm.countP_eq _

/-! ## The counting sort groups -/

section Counting

variable (key) {off : Nat}

theorem tally_spec (off length : Nat) (xs : List α) :
    (tally key off length xs).length = length ∧
      ∀ i < length, (tally key off length xs).getD i 0 =
        xs.countP fun x => decide (key x + off = i) := by
  have folded : ∀ (xs : List α) (counts : List Nat), counts.length = length →
      (xs.foldl (fun counts x => counts.modify (key x + off) (· + 1)) counts).length = length ∧
        ∀ i < length,
          (xs.foldl (fun counts x => counts.modify (key x + off) (· + 1)) counts).getD i 0 =
            counts.getD i 0 + xs.countP fun x => decide (key x + off = i) := by
    intro xs
    induction xs with
    | nil =>
        intro counts sized
        exact ⟨sized, fun i _ => rfl⟩
    | cons x rest ih =>
        intro counts sized
        have sizedAfter : (counts.modify (key x + off) (· + 1)).length = length := by
          rw [List.length_modify, sized]
        obtain ⟨finalLength, entries⟩ := ih _ sizedAfter
        rw [List.foldl_cons]
        refine ⟨finalLength, ?_⟩
        intro i iLt
        rw [entries i iLt, List.countP_cons, List.getD_eq_getElem?_getD, List.getElem?_modify,
          List.getD_eq_getElem?_getD, List.getElem?_eq_getElem (by omega)]
        by_cases here : key x + off = i
        · simp [here]
          omega
        · simp [here]
  obtain ⟨sized, entries⟩ := folded xs (List.replicate length 0) (List.length_replicate ..)
  refine ⟨sized, ?_⟩
  intro i iLt
  rw [tally, entries i iLt, List.getD_eq_getElem?_getD, List.getElem?_replicate, if_pos iLt]
  simp

theorem runningSums_spec (first last : Nat) (counts : List Nat) (inside : last < counts.length)
    (positive : 0 < first) :
    (runningSums first last counts).length = counts.length ∧
      (∀ i, i < first ∨ last < i →
        (runningSums first last counts).getD i 0 = counts.getD i 0) ∧
      ∀ i, first ≤ i → i ≤ last → (runningSums first last counts).getD i 0 =
        counts.getD i 0 + (runningSums first last counts).getD (i - 1) 0 := by
  have folded : ∀ (steps : Nat), first + steps ≤ last + 1 →
      ((List.range' first steps).foldl
        (fun counts i => counts.set i (counts.getD i 0 + counts.getD (i - 1) 0)) counts).length =
          counts.length ∧
      (∀ i, i < first ∨ first + steps ≤ i → ((List.range' first steps).foldl
        (fun counts i => counts.set i (counts.getD i 0 + counts.getD (i - 1) 0)) counts).getD i 0 =
          counts.getD i 0) ∧
      ∀ i, first ≤ i → i < first + steps → ((List.range' first steps).foldl
        (fun counts i => counts.set i (counts.getD i 0 + counts.getD (i - 1) 0)) counts).getD i 0 =
          counts.getD i 0 + ((List.range' first steps).foldl
            (fun counts i => counts.set i (counts.getD i 0 + counts.getD (i - 1) 0))
              counts).getD (i - 1) 0 := by
    intro steps
    induction steps with
    | zero =>
        intro _
        refine ⟨rfl, fun i _ => rfl, ?_⟩
        intro i above below
        omega
    | succ steps ih =>
        intro fits
        obtain ⟨sized, outside, within⟩ := ih (by omega)
        rw [List.range'_concat, List.foldl_append, Nat.one_mul, List.foldl_cons, List.foldl_nil]
        generalize (List.range' first steps).foldl
          (fun counts i => counts.set i (counts.getD i 0 + counts.getD (i - 1) 0)) counts = sums at *
        have readSet : ∀ (i v : Nat), (sums.set (first + steps) v).getD i 0 =
            if i = first + steps then v else sums.getD i 0 := by
          intro i v
          rw [List.getD_eq_getElem?_getD, List.getElem?_set]
          by_cases here : first + steps = i
          · rw [if_pos here, if_pos (by omega), if_pos here.symm]
            rfl
          · rw [if_neg here, if_neg (fun same => here same.symm), List.getD_eq_getElem?_getD]
        refine ⟨by rw [List.length_set, sized], ?_, ?_⟩
        · intro i apart
          rw [readSet, if_neg (by omega), outside i (by omega)]
        · intro i above below
          rw [readSet, readSet, if_neg (show ¬ i - 1 = first + steps by omega)]
          by_cases here : i = first + steps
          · rw [if_pos here, here, outside _ (Or.inr (Nat.le_refl _))]
          · rw [if_neg here, within i above (by omega)]
  by_cases none : last + 1 ≤ first
  · have zero : last + 1 - first = 0 := by omega
    rw [runningSums, zero]
    refine ⟨rfl, fun i _ => rfl, ?_⟩
    intro i above below
    omega
  · obtain ⟨sized, outside, within⟩ := folded (last + 1 - first) (by omega)
    refine ⟨sized, ?_, ?_⟩
    · intro i apart
      exact outside i (by omega)
    · intro i above below
      exact within i above (by omega)

/-- Counts summed are where the groups begin. -/
theorem runningSums_tally {length last : Nat} (xs : List α) (positive : 0 < off)
    (inside : last < length) (b : Nat) (small : b + off ≤ last + 1) :
    (runningSums off last (tally key off length xs)).getD (b + off - 1) 0 = before key xs b := by
  obtain ⟨sized, counts⟩ := tally_spec key off length xs
  obtain ⟨_, outside, within⟩ :=
    runningSums_spec off last (tally key off length xs) (by omega) positive
  induction b with
  | zero =>
      rw [outside _ (by omega), counts _ (by omega), before_zero, List.countP_eq_zero]
      intro x _
      rw [decide_eq_true_eq]
      omega
  | succ b ih =>
      have index : b + 1 + off - 1 = b + off := by omega
      rw [index, within _ (by omega) (by omega), ih (by omega), counts _ (by omega), before_succ,
        groupOf, List.countP_eq_length_filter, Nat.add_comm]
      congr 2
      apply List.filter_congr
      intro x _
      rw [decide_eq_decide]
      omega

/-- What the scatter has written once it has seen `done` of `xs`. -/
structure Scattered (off m : Nat) (done rest : List α) (cursors : List Nat) (out : List α)
    (state : List Nat × List α) : Prop where
  length : state.1.length = cursors.length
  cursor : ∀ b < m, state.1.getD (b + off) 0 =
    before key (done ++ rest) b + (groupOf key done b).length
  others : ∀ i, (∀ x ∈ done, key x + off ≠ i) → state.1.getD i 0 = cursors.getD i 0
  blocks : ∃ pad : Nat → List α, (∀ b, (pad b).length = (groupOf key rest b).length) ∧
    state.2 = (List.range m).flatMap fun b => groupOf key done b ++ pad b

variable {key}

theorem Scattered.step {m : Nat} {done rest : List α} {x : α} {cursors : List Nat} {out : List α}
    {state : List Nat × List α} (scattered : Scattered key off m done (x :: rest) cursors
      out state) (xSmall : key x < m) (roomy : m + off ≤ cursors.length) :
    Scattered key off m (done ++ [x]) rest cursors out (scatterOne key off state x) := by
  have regroup : done ++ [x] ++ rest = done ++ x :: rest := by simp
  have groupSnoc : ∀ b, groupOf key (done ++ [x]) b =
      groupOf key done b ++ if key x = b then [x] else [] := by
    intro b
    rw [groupOf_append]
    congr 1
    by_cases here : key x = b <;> simp [groupOf, here]
  have cursorAt := scattered.cursor (key x) xSmall
  have inside : key x + off < state.1.length := by
    rw [scattered.length]
    omega
  have readSet : ∀ i, (state.1.set (key x + off) (state.1.getD (key x + off) 0 + 1)).getD i 0 =
      if i = key x + off then state.1.getD (key x + off) 0 + 1 else state.1.getD i 0 := by
    intro i
    rw [List.getD_eq_getElem?_getD, List.getElem?_set]
    by_cases here : key x + off = i
    · rw [if_pos here, if_pos (by omega), if_pos here.symm]
      rfl
    · rw [if_neg here, if_neg (fun same => here same.symm), List.getD_eq_getElem?_getD]
  refine ⟨?_, ?_, ?_, ?_⟩
  · change (state.1.set _ _).length = _
    rw [List.length_set, scattered.length]
  · intro b bLt
    change (state.1.set _ _).getD _ 0 = _
    rw [readSet, regroup, groupSnoc]
    by_cases here : b = key x
    · subst here
      rw [if_pos rfl, if_pos rfl, cursorAt, List.length_append, List.length_singleton]
      omega
    · rw [if_neg (by omega), if_neg (fun same => here same.symm), List.append_nil,
        scattered.cursor b bLt]
  · intro i apart
    change (state.1.set _ _).getD _ 0 = _
    rw [readSet, if_neg (fun same => apart x (by simp) same.symm)]
    exact scattered.others i fun y member => apart y (List.mem_append_left _ member)
  · obtain ⟨pad, padLength, outIs⟩ := scattered.blocks
    have someLeft : (pad (key x)).length = (groupOf key rest (key x)).length + 1 := by
      rw [padLength, groupOf, List.filter_cons]
      simp [groupOf]
    obtain ⟨first, later, padIs⟩ : ∃ first later, pad (key x) = first :: later := by
      cases padHere : pad (key x) with
      | nil => rw [padHere] at someLeft; cases someLeft
      | cons first later => exact ⟨first, later, rfl⟩
    refine ⟨fun b => if b = key x then later else pad b, ?_, ?_⟩
    · intro b
      by_cases here : b = key x
      · subst here
        rw [padIs, List.length_cons] at someLeft
        simp only [if_true]
        omega
      · have apart : ¬ key x = b := fun same => here same.symm
        simp only [if_neg here, padLength]
        rw [groupOf, List.filter_cons]
        simp [apart, groupOf]
    · change state.2.set (state.1.getD (key x + off) 0) x = _
      obtain ⟨lower, upper, rangeIs, lowerIs, upperAbove⟩ : ∃ lower upper,
          List.range m = lower ++ key x :: upper ∧ lower = List.range (key x) ∧
            ∀ b ∈ upper, key x < b := by
        refine ⟨List.range (key x), List.range' (key x + 1) (m - key x - 1), ?_, rfl, ?_⟩
        · have whole := @List.range'_append_1 0 (key x) (m - key x - 1 + 1)
          have total : key x + (m - key x - 1 + 1) = m := by omega
          rw [Nat.zero_add, total] at whole
          rw [List.range_eq_range', List.range_eq_range', ← List.range'_succ, whole]
        · intro b member
          rw [List.mem_range'_1] at member
          omega
      have lowerLength : (lower.flatMap fun b => groupOf key done b ++ pad b).length =
          before key (done ++ x :: rest) (key x) := by
        rw [← sum_groups_length, lowerIs, List.length_flatMap]
        congr 1
        apply List.map_congr_left
        intro b _
        rw [List.length_append, padLength, groupOf_append, List.length_append]
      have others : ∀ bs : List Nat, (∀ b ∈ bs, b ≠ key x) →
          (bs.flatMap fun b => groupOf key (done ++ [x]) b ++ if b = key x then later else pad b) =
            bs.flatMap fun b => groupOf key done b ++ pad b := by
        intro bs apart
        apply List.flatMap_congr
        intro b member
        have here := apart b member
        rw [groupSnoc, if_neg (fun same => here same.symm), if_neg here, List.append_nil]
      rw [outIs, cursorAt, rangeIs, List.flatMap_append, List.flatMap_append, List.flatMap_cons,
        List.flatMap_cons, others lower, others upper, ← lowerLength, groupSnoc, padIs]
      · rw [List.set_append_right _ _ (by omega), Nat.add_sub_cancel_left, List.append_assoc,
          List.append_assoc, List.set_append_right _ _ (Nat.le_refl _), Nat.sub_self]
        simp
      · intro b member same
        exact absurd (upperAbove b member) (by omega)
      · intro b member same
        rw [lowerIs, List.mem_range] at member
        omega

/-- A scatter from where the groups begin writes the groups, and its cursors end where they do. -/
theorem scatter_spec {m : Nat} {xs : List α} {cursors : List Nat} {out : List α}
    (small : ∀ x ∈ xs, key x < m) (roomy : m + off ≤ cursors.length)
    (begins : ∀ b < m, cursors.getD (b + off) 0 = before key xs b)
    (length : out.length = xs.length) :
    (scatter key off xs cursors out).2 = grouped key m xs ∧
      (scatter key off xs cursors out).1.length = cursors.length ∧
      (∀ b < m, (scatter key off xs cursors out).1.getD (b + off) 0 = before key xs (b + 1)) ∧
      ∀ i, i < off → (scatter key off xs cursors out).1.getD i 0 = cursors.getD i 0 := by
  have steps : ∀ (rest done : List α) (state : List Nat × List α), done ++ rest = xs →
      Scattered key off m done rest cursors out state →
      Scattered key off m xs [] cursors out (rest.foldl (scatterOne key off) state) := by
    intro rest
    induction rest with
    | nil =>
        intro done state whole scattered
        rw [List.append_nil] at whole
        rw [← whole]
        exact scattered
    | cons x rest ih =>
        intro done state whole scattered
        rw [List.foldl_cons]
        apply ih (done ++ [x]) _ (by rw [← whole]; simp)
        apply scattered.step _ roomy
        apply small
        rw [← whole]
        simp
  have cut : ∀ b, b ≤ m → ∀ ys : List α, ys.length = before key xs b →
      ∃ pad : Nat → List α, (∀ c, (pad c).length = (groupOf key xs c).length) ∧
        ys = (List.range b).flatMap pad := by
    intro b
    induction b with
    | zero =>
        intro _ ys none
        rw [before_zero, List.length_eq_zero_iff] at none
        exact ⟨groupOf key xs, fun _ => rfl, by rw [none]; rfl⟩
    | succ b ih =>
        intro le ys ysLength
        have split := @before_succ _ key xs b
        obtain ⟨pad, padLength, front⟩ := ih (by omega) (ys.take (before key xs b))
          (by rw [List.length_take]; omega)
        refine ⟨fun c => if c = b then ys.drop (before key xs b) else pad c, ?_, ?_⟩
        · intro c
          by_cases here : c = b
          · subst here
            simp only [if_true, List.length_drop]
            omega
          · simp only [if_neg here, padLength]
        · rw [List.range_succ, List.flatMap_append]
          simp only [List.flatMap_cons, if_true, List.flatMap_nil, List.append_nil]
          conv_lhs => rw [← List.take_append_drop (before key xs b) ys, front]
          congr 1
          apply List.flatMap_congr
          intro c member
          rw [List.mem_range] at member
          rw [if_neg (by omega)]
  have start : Scattered key off m [] xs cursors out (cursors, out) := by
    obtain ⟨pad, padLength, outIs⟩ := cut m (Nat.le_refl m) out (by rw [length, before_all small])
    refine ⟨rfl, ?_, fun _ _ => rfl, pad, padLength, ?_⟩
    · intro b bLt
      simpa [groupOf] using begins b bLt
    · simpa [groupOf] using outIs
  have finished := steps xs [] (cursors, out) rfl start
  obtain ⟨pad, padLength, outIs⟩ := finished.blocks
  refine ⟨?_, finished.length, ?_, ?_⟩
  · change (xs.foldl (scatterOne key off) (cursors, out)).2 = _
    rw [outIs, grouped]
    apply List.flatMap_congr
    intro b _
    have none : pad b = [] := by
      rw [← List.length_eq_zero_iff, padLength]
      rfl
    rw [none, List.append_nil]
  · intro b bLt
    have cursor := finished.cursor b bLt
    rw [List.append_nil] at cursor
    rw [before_succ]
    exact cursor
  · intro i iLt
    apply finished.others
    intro x _
    omega

end Counting

end Lexindex
