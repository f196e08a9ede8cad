import Mathlib
import Lexindex.Lib.Grouping

/-!
# The American flag pass

A list is grouped by key in place: every group's range is known from the counts, and an element met
inside another group's range is swapped to the next free slot of its own.  The pass keeps the elements,
never leaves the list, and ends with every group in its range.
-/

set_option autoImplicit false

namespace Lexindex

variable {α : Type} [Inhabited α] (key : α → Nat)

def swap (xs : List α) (i j : Nat) : List α :=
  (xs.set i (xs.getD j default)).set j (xs.getD i default)

/-- The pass inside one group's range: what arrives by a swap is examined next. -/
def flagPart (ends : List Nat) (p : Nat) : Nat → List α × List Nat → List α × List Nat
  | 0, state => state
  | fuel + 1, (xs, next) =>
      if next.getD p 0 < ends.getD p 0 then
        let i := next.getD p 0
        let d := key (xs.getD i default)
        if d = p then flagPart ends p fuel (xs, next.set p (i + 1))
        else flagPart ends p fuel (swap xs i (next.getD d 0), next.set d (next.getD d 0 + 1))
      else (xs, next)

/-- Where each group starts. -/
def startsOf (counts : List Nat) : List Nat :=
  (List.range counts.length).map fun p => (counts.take p).sum

/-- Where each group ends. -/
def partEnds (counts : List Nat) : List Nat :=
  (List.range counts.length).map fun p => (counts.take (p + 1)).sum

def flagPass (m : Nat) (counts : List Nat) (xs : List α) : List α :=
  ((List.range m).foldl (fun state p => flagPart key (partEnds counts) p xs.length state)
    (xs, startsOf counts)).1

variable {key}

theorem swap_perm {xs : List α} {i j : Nat} (iLt : i < xs.length) (jLt : j < xs.length) :
    (swap xs i j).Perm xs := by
  rw [swap, List.getD_eq_getElem _ _ iLt, List.getD_eq_getElem _ _ jLt]
  exact List.set_set_perm iLt jLt

@[simp] theorem length_swap (xs : List α) (i j : Nat) : (swap xs i j).length = xs.length := by
  rw [swap, List.length_set, List.length_set]

theorem getD_swap {xs : List α} {i j : Nat} (iLt : i < xs.length) (jLt : j < xs.length) (k : Nat) :
    (swap xs i j).getD k default =
      if k = j then xs.getD i default else if k = i then xs.getD j default else xs.getD k default := by
  rw [swap, List.getD_eq_getElem?_getD, List.getElem?_set, List.length_set]
  by_cases atJ : j = k
  · rw [if_pos atJ, if_pos jLt, if_pos atJ.symm, Option.getD_some]
  · rw [if_neg atJ, if_neg (Ne.symm atJ), List.getElem?_set]
    by_cases atI : i = k
    · rw [if_pos atI, if_pos iLt, if_pos atI.symm, Option.getD_some]
    · rw [if_neg atI, if_neg (Ne.symm atI), List.getD_eq_getElem?_getD]

/-- The pass at work: between a group's start and its next free slot every element is the group's. -/
structure Flagged (key : α → Nat) (m : Nat) (original xs : List α) (next : List Nat) : Prop where
  perm : xs.Perm original
  count : next.length = m
  low : ∀ q < m, before key original q ≤ next.getD q 0
  high : ∀ q < m, next.getD q 0 ≤ before key original (q + 1)
  settled : ∀ q < m, ∀ k, before key original q ≤ k → k < next.getD q 0 → key (xs.getD k default) = q

/-- How many elements are not settled yet. -/
def unsettled (key : α → Nat) (m : Nat) (original : List α) (next : List Nat) : Nat :=
  ((List.range m).map fun q => before key original (q + 1) - next.getD q 0).sum

variable {m : Nat} {original xs : List α} {next : List Nat}

omit [Inhabited α] in
theorem unsettled_set {d : Nat} (dLt : d < m) (count : next.length = m)
    (room : next.getD d 0 < before key original (d + 1)) :
    unsettled key m original (next.set d (next.getD d 0 + 1)) + 1 = unsettled key m original next := by
  have others : ∀ q, q ≠ d → (next.set d (next.getD d 0 + 1)).getD q 0 = next.getD q 0 := by
    intro q apart
    rw [List.getD_eq_getElem?_getD, List.getElem?_set_ne (Ne.symm apart), List.getD_eq_getElem?_getD]
  have own : (next.set d (next.getD d 0 + 1)).getD d 0 = next.getD d 0 + 1 := by
    rw [List.getD_eq_getElem?_getD, List.getElem?_set_self (by omega), Option.getD_some]
  have step : ∀ items : List Nat, items.Nodup → d ∈ items →
      (items.map fun q => before key original (q + 1) -
        (next.set d (next.getD d 0 + 1)).getD q 0).sum + 1 =
      (items.map fun q => before key original (q + 1) - next.getD q 0).sum := by
    intro items distinct member
    induction items with
    | nil => cases member
    | cons q items ih =>
        obtain ⟨fresh, distinct⟩ := List.nodup_cons.mp distinct
        rw [List.map_cons, List.map_cons, List.sum_cons, List.sum_cons]
        rcases List.mem_cons.mp member with rfl | later
        · have rest : (items.map fun q => before key original (q + 1) -
              (next.set d (next.getD d 0 + 1)).getD q 0) =
              items.map fun q => before key original (q + 1) - next.getD q 0 :=
            List.map_congr_left fun q held => by rw [others q fun same => fresh (same ▸ held)]
          rw [rest, own]
          omega
        · have smaller := ih distinct later
          rw [others q fun same => fresh (same ▸ later)]
          omega
  exact step _ List.nodup_range (List.mem_range.mpr dLt)

theorem Flagged.before_eq (flagged : Flagged key m original xs next) (b : Nat) :
    before key xs b = before key original b :=
  before_perm flagged.perm b

/-- A group with an element outside its range has a free slot in it. -/
theorem Flagged.room (flagged : Flagged key m original xs next) {i d : Nat} (dLt : d < m)
    (inside : i < xs.length) (own : key (xs.getD i default) = d)
    (outside : i < before key original d ∨ before key original (d + 1) ≤ i) :
    next.getD d 0 < before key original (d + 1) := by
  by_contra full
  have low := flagged.low d dLt
  have high := flagged.high d dLt
  have whole : before key original (d + 1) ≤ original.length := before_le_length original _
  rw [← flagged.perm.length_eq] at whole
  have grown : before key original d ≤ before key original (d + 1) :=
    before_mono original (by omega)
  obtain ⟨size, sized⟩ := Nat.exists_eq_add_of_le grown
  -- The range holds as many elements of the group as there are, and one more lies outside.
  have range : ((xs.drop (before key original d)).take size).countP (fun x => decide (key x = d)) = size := by
    have length : ((xs.drop (before key original d)).take size).length = size := by
      rw [List.length_take, List.length_drop]
      omega
    have all : ∀ x ∈ (xs.drop (before key original d)).take size, decide (key x = d) = true := by
      intro x member
      obtain ⟨k, kLt, isX⟩ := List.getElem_of_mem member
      rw [length] at kLt
      rw [List.getElem_take, List.getElem_drop] at isX
      have here := flagged.settled d dLt (before key original d + k) (by omega) (by omega)
      rw [List.getD_eq_getElem _ _ (by omega), isX] at here
      exact decide_eq_true here
    rw [List.countP_eq_length.mpr all, length]
  have total : xs.countP (fun x => decide (key x = d)) = size := by
    have counted : before key xs (d + 1) = before key xs d + (groupOf key xs d).length := before_succ xs d
    rw [groupOf, ← List.countP_eq_length_filter, flagged.before_eq, flagged.before_eq] at counted
    omega
  have cut : xs = xs.take (before key original d) ++
      ((xs.drop (before key original d)).take size ++ (xs.drop (before key original d)).drop size) := by
    rw [List.take_append_drop, List.take_append_drop]
  have parts := congrArg (List.countP fun x => decide (key x = d)) cut
  rw [List.countP_append, List.countP_append, range, total] at parts
  have none_ : ∀ (ys : List α) (k : Nat), ys.countP (fun x => decide (key x = d)) = 0 →
      k < ys.length → key (ys.getD k default) ≠ d := by
    intro ys k zero kLt same
    rw [List.countP_eq_zero] at zero
    apply zero _ (List.getElem_mem kLt)
    rw [List.getD_eq_getElem _ _ kLt] at same
    exact decide_eq_true same
  rcases outside with before_ | after
  · refine none_ (xs.take (before key original d)) i (by omega) (by rw [List.length_take]; omega) ?_
    rwa [List.getD_eq_getElem?_getD, List.getElem?_take_of_lt before_, ← List.getD_eq_getElem?_getD]
  · refine none_ ((xs.drop (before key original d)).drop size) (i - before key original (d + 1)) (by omega)
      (by rw [List.length_drop, List.length_drop]; omega) ?_
    have place : before key original d + (size + (i - before key original (d + 1))) = i := by omega
    rwa [List.getD_eq_getElem?_getD, List.getElem?_drop, List.getElem?_drop, place,
      ← List.getD_eq_getElem?_getD]

/-- A slot of a group filled with one of its own. -/
theorem Flagged.settle (flagged : Flagged key m original xs next) {d : Nat} (dLt : d < m)
    (room : next.getD d 0 < before key original (d + 1))
    (own : key (xs.getD (next.getD d 0) default) = d) :
    Flagged key m original xs (next.set d (next.getD d 0 + 1)) := by
  obtain ⟨perm, count, low, high, settled⟩ := flagged
  have others : ∀ q, q ≠ d → (next.set d (next.getD d 0 + 1)).getD q 0 = next.getD q 0 := by
    intro q apart
    rw [List.getD_eq_getElem?_getD, List.getElem?_set_ne (Ne.symm apart), List.getD_eq_getElem?_getD]
  have here : (next.set d (next.getD d 0 + 1)).getD d 0 = next.getD d 0 + 1 := by
    rw [List.getD_eq_getElem?_getD, List.getElem?_set_self (by omega), Option.getD_some]
  refine ⟨perm, by rw [List.length_set, count], fun q qLt => ?_, fun q qLt => ?_, fun q qLt k least below => ?_⟩
  · by_cases same : q = d
    · rw [same, here]
      exact (low d dLt).trans (Nat.le_succ _)
    · rw [others q same]
      exact low q qLt
  · by_cases same : q = d
    · rw [same, here]
      exact room
    · rw [others q same]
      exact high q qLt
  · by_cases same : q = d
    · subst same
      rw [here] at below
      rcases Nat.lt_succ_iff_lt_or_eq.mp below with earlier | rfl
      · exact settled q qLt k least earlier
      · exact own
    · rw [others q same] at below
      exact settled q qLt k least below

/-- Two elements that are not settled swapped. -/
theorem Flagged.swapped (flagged : Flagged key m original xs next) {i j : Nat} (iLt : i < xs.length)
    (jLt : j < xs.length)
    (free : ∀ q < m, ∀ k, before key original q ≤ k → k < next.getD q 0 → k ≠ i ∧ k ≠ j) :
    Flagged key m original (swap xs i j) next := by
  obtain ⟨perm, count, low, high, settled⟩ := flagged
  refine ⟨(swap_perm iLt jLt).trans perm, count, low, high, fun q qLt k least below => ?_⟩
  obtain ⟨notI, notJ⟩ := free q qLt k least below
  rw [getD_swap iLt jLt, if_neg notJ, if_neg notI]
  exact settled q qLt k least below

omit [Inhabited α] in
/-- Groups' ranges are apart. -/
theorem before_apart {k q r : Nat} (lowQ : before key original q ≤ k) (highQ : k < before key original (q + 1))
    (lowR : before key original r ≤ k) (highR : k < before key original (r + 1)) : q = r := by
  rcases Nat.lt_trichotomy q r with less | same | more
  · have order : before key original (q + 1) ≤ before key original r :=
        before_mono original less
    omega
  · exact same
  · have order : before key original (r + 1) ≤ before key original q :=
        before_mono original more
    omega

/-- One group's range is settled, and the others' are as settled as they were. -/
theorem flagPart_spec {ends : List Nat} {p : Nat} (pLt : p < m)
    (ended : ∀ q < m, ends.getD q 0 = before key original (q + 1))
    (small : ∀ x ∈ original, key x < m) : ∀ (fuel : Nat) {xs : List α} {next : List Nat},
    Flagged key m original xs next → unsettled key m original next ≤ fuel →
    Flagged key m original (flagPart key ends p fuel (xs, next)).1 (flagPart key ends p fuel (xs, next)).2 ∧
    unsettled key m original (flagPart key ends p fuel (xs, next)).2 ≤ unsettled key m original next ∧
    (flagPart key ends p fuel (xs, next)).2.getD p 0 = before key original (p + 1) ∧
    ∀ q < m, next.getD q 0 ≤ (flagPart key ends p fuel (xs, next)).2.getD q 0 := by
  intro fuel
  induction fuel with
  | zero =>
      intro xs next flagged enough
      refine ⟨flagged, Nat.le_refl _, ?_, fun q _ => Nat.le_refl _⟩
      have none_ := List.sum_eq_zero_iff.mp (Nat.le_zero.mp enough) (before key original (p + 1) - next.getD p 0)
        (List.mem_map.mpr ⟨p, List.mem_range.mpr pLt, rfl⟩)
      have high := flagged.high p pLt
      change next.getD p 0 = _
      omega
  | succ fuel ih =>
      intro xs next flagged enough
      have high := flagged.high p pLt
      by_cases open_ : next.getD p 0 < before key original (p + 1)
      · have whole : before key original (p + 1) ≤ original.length := before_le_length original _
        rw [← flagged.perm.length_eq] at whole
        have iLt : next.getD p 0 < xs.length := by omega
        have member : xs.getD (next.getD p 0) default ∈ original := by
          rw [List.getD_eq_getElem _ _ iLt]
          exact flagged.perm.mem_iff.mp (List.getElem_mem iLt)
        have dLt := small _ member
        rw [flagPart, if_pos (by rw [ended p pLt]; exact open_)]
        by_cases own : key (xs.getD (next.getD p 0) default) = p
        · simp only [if_pos own]
          have fewer := unsettled_set pLt flagged.count open_
          obtain ⟨flagged', less, done, grows⟩ := ih (flagged.settle pLt open_ own) (by omega)
          refine ⟨flagged', by omega, done, fun q qLt => le_trans ?_ (grows q qLt)⟩
          rw [List.getD_eq_getElem?_getD, List.getD_eq_getElem?_getD, List.getElem?_set]
          split
          · next same =>
            subst same
            rw [if_pos (by rw [flagged.count]; exact qLt), Option.getD_some, List.getD_eq_getElem?_getD]
            exact Nat.le_succ _
          · exact Nat.le_refl _
        · simp only [if_neg own]
          generalize isD : key (xs.getD (next.getD p 0) default) = d at dLt own
          have lowP := flagged.low p pLt
          have outside : next.getD p 0 < before key original d ∨ before key original (d + 1) ≤ next.getD p 0 := by
            by_contra within
            rw [not_or, Nat.not_lt, Nat.not_le] at within
            exact own (before_apart within.1 within.2 lowP open_)
          have room := flagged.room dLt iLt isD outside
          have lowD := flagged.low d dLt
          have wholeD : before key original (d + 1) ≤ original.length := before_le_length original _
          rw [← flagged.perm.length_eq] at wholeD
          have jLt : next.getD d 0 < xs.length := by omega
          have apart : next.getD d 0 ≠ next.getD p 0 := by
            intro same
            exact own (before_apart lowD room (by omega) (by omega))
          have swapped := flagged.swapped iLt jLt fun q qLt k least below => by
            have highQ := flagged.high q qLt
            constructor
            · rintro rfl
              have same := before_apart least (by omega) lowP open_
              subst same
              exact absurd below (Nat.lt_irrefl _)
            · rintro rfl
              have same := before_apart least (by omega) lowD room
              subst same
              exact absurd below (Nat.lt_irrefl _)
          have placed : key ((swap xs (next.getD p 0) (next.getD d 0)).getD (next.getD d 0) default) = d := by
            rw [getD_swap iLt jLt, if_pos rfl, isD]
          have fewer := unsettled_set dLt flagged.count room
          obtain ⟨flagged', less, done, grows⟩ := ih (swapped.settle dLt room placed) (by omega)
          refine ⟨flagged', by omega, done, fun q qLt => le_trans ?_ (grows q qLt)⟩
          rw [List.getD_eq_getElem?_getD, List.getD_eq_getElem?_getD, List.getElem?_set]
          split
          · next same =>
            subst same
            rw [if_pos (by rw [flagged.count]; exact qLt), Option.getD_some, List.getD_eq_getElem?_getD]
            exact Nat.le_succ _
          · exact Nat.le_refl _
      · rw [flagPart, if_neg (by rw [ended p pLt]; exact open_)]
        exact ⟨flagged, Nat.le_refl _, by change next.getD p 0 = _; omega, fun q _ => Nat.le_refl _⟩

omit [Inhabited α] in
/-- The counts of the keys are the sizes of the groups. -/
theorem tally_groups (xs : List α) (m : Nat) :
    tally key 0 m xs = (List.range m).map fun q => (groupOf key xs q).length := by
  obtain ⟨length, counts⟩ := tally_spec key 0 m xs
  apply List.ext_getElem
  · rw [length, List.length_map, List.length_range]
  · intro q left right
    rw [length] at left
    have entry := counts q left
    rw [List.getD_eq_getElem _ _ (by omega)] at entry
    rw [entry, List.getElem_map, List.getElem_range, groupOf, ← List.countP_eq_length_filter]
    rfl

omit [Inhabited α] in
theorem take_tally_sum {b : Nat} (within : b ≤ m) : ((tally key 0 m xs).take b).sum = before key xs b := by
  rw [tally_groups, ← List.map_take, List.take_range, Nat.min_eq_left within, sum_groups_length]

/-- The pass keeps the elements and puts them in key order. -/
theorem flagPass_spec (xs : List α) (m : Nat) (small : ∀ x ∈ xs, key x < m) :
    (flagPass key m (tally key 0 m xs) xs).Perm xs ∧
      InOrder key (flagPass key m (tally key 0 m xs) xs) := by
  have length : (tally key 0 m xs).length = m := (tally_spec key 0 m xs).1
  have starts : ∀ q < m, (startsOf (tally key 0 m xs)).getD q 0 = before key xs q := by
    intro q qLt
    rw [startsOf, length, List.getD_eq_getElem _ _ (by rwa [List.length_map, List.length_range]),
      List.getElem_map, List.getElem_range, take_tally_sum qLt.le]
  have ends : ∀ q < m, (partEnds (tally key 0 m xs)).getD q 0 = before key xs (q + 1) := by
    intro q qLt
    rw [partEnds, length, List.getD_eq_getElem _ _ (by rwa [List.length_map, List.length_range]),
      List.getElem_map, List.getElem_range, take_tally_sum qLt]
  have first : Flagged key m xs xs (startsOf (tally key 0 m xs)) := by
    refine ⟨List.Perm.refl _, by rw [startsOf, List.length_map, List.length_range, length],
      fun q qLt => (starts q qLt).ge, fun q qLt => ?_, fun q qLt k least below => ?_⟩
    · rw [starts q qLt]
      exact before_mono xs (Nat.le_succ q)
    · rw [starts q qLt] at below
      omega
  have all : unsettled key m xs (startsOf (tally key 0 m xs)) ≤ xs.length := by
    have sizes : unsettled key m xs (startsOf (tally key 0 m xs)) = before key xs m := by
      rw [← sum_groups_length, unsettled]
      congr 1
      refine List.map_congr_left fun q member => ?_
      rw [starts q (List.mem_range.mp member), before_succ, Nat.add_sub_cancel_left]
    rw [sizes]
    exact before_le_length xs m
  -- The groups up to one settled, one after another.
  have upTo : ∀ p ≤ m, ∃ ys next, (List.range p).foldl
      (fun state p => flagPart key (partEnds (tally key 0 m xs)) p xs.length state)
        (xs, startsOf (tally key 0 m xs)) = (ys, next) ∧ Flagged key m xs ys next ∧
      unsettled key m xs next ≤ xs.length ∧ ∀ q < p, next.getD q 0 = before key xs (q + 1) := by
    intro p
    induction p with
    | zero => exact fun _ => ⟨xs, _, rfl, first, all, fun q qLt => absurd qLt (Nat.not_lt_zero q)⟩
    | succ p ih =>
        intro pLt
        obtain ⟨ys, next, ran, flagged, few, done⟩ := ih (Nat.le_of_succ_le pLt)
        obtain ⟨flagged', fewer, settled, grows⟩ := flagPart_spec pLt ends small xs.length flagged few
        refine ⟨_, _, ?_, flagged', fewer.trans few, fun q qLt => ?_⟩
        · rw [List.range_succ, List.foldl_append, ran]
          rfl
        · rcases Nat.lt_succ_iff_lt_or_eq.mp qLt with earlier | rfl
          · have grown := grows q (by omega)
            have high := flagged'.high q (by omega)
            rw [done q earlier] at grown
            omega
          · exact settled
  obtain ⟨ys, next, ran, flagged, -, done⟩ := upTo m (Nat.le_refl m)
  rw [flagPass, ran]
  refine ⟨flagged.perm, ?_⟩
  have group : ∀ b ≤ m, ∀ k < before key xs b, ∃ q < b, before key xs q ≤ k ∧ k < before key xs (q + 1) := by
    intro b
    induction b with
    | zero =>
        intro _ k below
        rw [before_zero] at below
        omega
    | succ b ih =>
        intro bLe k below
        by_cases earlier : k < before key xs b
        · obtain ⟨q, qLt, within⟩ := ih (Nat.le_of_succ_le bLe) k earlier
          exact ⟨q, Nat.lt_succ_of_lt qLt, within⟩
        · exact ⟨b, Nat.lt_succ_self b, Nat.le_of_not_lt earlier, below⟩
  have own : ∀ k < ys.length, ∃ q, before key xs q ≤ k ∧ k < before key xs (q + 1) ∧
      key (ys.getD k default) = q := by
    intro k kLt
    rw [flagged.perm.length_eq, ← before_all small] at kLt
    obtain ⟨q, qLt, low, high⟩ := group m (Nat.le_refl m) k kLt
    exact ⟨q, low, high, flagged.settled q qLt k low (by rw [done q qLt]; exact high)⟩
  apply List.pairwise_iff_getElem.mpr
  intro k l kLt lLt less
  obtain ⟨q, lowQ, highQ, isQ⟩ := own k kLt
  obtain ⟨r, lowR, highR, isR⟩ := own l lLt
  rw [List.getD_eq_getElem _ _ kLt] at isQ
  rw [List.getD_eq_getElem _ _ lLt] at isR
  rw [isQ, isR]
  by_contra more
  have order : before key xs (r + 1) ≤ before key xs q :=
    before_mono xs (by omega)
  omega

end Lexindex
