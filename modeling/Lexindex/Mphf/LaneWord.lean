import Mathlib
import Lexindex.Mphf.Lanes
import Lexindex.Mphf.SeedSound

/-!
# What the lanes of a mode rule out

A lane under shift `t` is at its value plus `t` strides, less the slice once it
has wrapped, so two lanes meet when they start on one value or start a slice
apart and only the upper has wrapped.  The scratch carried from bucket to bucket
never reaches the shifts a mode rules out: a stale entry only has the lanes
compared that need not be.
-/

set_option autoImplicit false

namespace Lexindex.Mphf

/-! ## Where a lane is under a shift -/

theorem span_getLsbD {a b t : Nat} (aLe : a ≤ 64) (bLe : b ≤ 64) (tLt : t < 64) :
    (span a b).getLsbD t = decide (a ≤ t ∧ t < b) := by
  have below : ∀ {k : Nat}, k ≤ 64 →
      (BitVec.allOnes 64 >>> (64 - k)).getLsbD t = decide (t < k) := by
    intro k kLe
    rw [BitVec.getLsbD_ushiftRight, BitVec.getLsbD_allOnes]
    simp only [decide_eq_decide]
    omega
  rw [span, BitVec.getLsbD_and, BitVec.getLsbD_not, below aLe, below bLe]
  by_cases left : a ≤ t <;> by_cases right : t < b <;> simp [tLt, left, right]
  omega

/-- Two lanes meet under shift `t`, or start on one value and have their mode ruled out. -/
def Lane.Meets (slice : Nat) (i j : Lane) (t : Nat) : Prop :=
  i.value = j.value ∨
    i.value = j.value + slice ∧ i.cut ≤ t ∧ t < j.cut ∨
    j.value = i.value + slice ∧ j.cut ≤ t ∧ t < i.cut

theorem Lane.Meets.symm {slice t : Nat} {i j : Lane} (meets : i.Meets slice j t) :
    j.Meets slice i t := by
  rcases meets with same | upper | lower
  · exact Or.inl same.symm
  · exact Or.inr (Or.inr upper)
  · exact Or.inr (Or.inl lower)

theorem meetWord_getLsbD {slice t : Nat} {i j : Lane} (slicePositive : 0 < slice)
    (iCut : i.cut ≤ 64) (jCut : j.cut ≤ 64) (tLt : t < 64) :
    (meetWord slice i j).getLsbD t = true ↔ i.Meets slice j t := by
  unfold meetWord Lane.Meets
  by_cases same : i.value = j.value
  · rw [if_pos same, BitVec.getLsbD_allOnes]
    simp only [tLt, decide_true, same, true_or]
  · by_cases upper : i.value = j.value + slice
    · have notLower : ¬ j.value = i.value + slice := by omega
      rw [if_neg same, if_pos upper, span_getLsbD iCut jCut tLt]
      simp only [decide_eq_true_eq]
      omega
    · by_cases lower : j.value = i.value + slice
      · rw [if_neg same, if_neg upper, if_pos lower, span_getLsbD jCut iCut tLt]
        simp only [decide_eq_true_eq]
        omega
      · rw [if_neg same, if_neg upper, if_neg lower]
        simp [same, upper, lower]

section Lanes

variable {l : Level} (strided : l.Strided) {origin : Nat}
include strided

theorem Level.Strided.laneOf_cut_le (mode h : Nat) : (l.laneOf origin mode h).cut ≤ 64 := by
  change l.cutOf mode h ≤ 64
  rw [strided.cut_eq]
  exact Nat.sub_le _ _

/-- A key whose slice ends inside the range, under shift `t`. -/
theorem Level.Strided.place_of_lane (mode : Nat) {h t : Nat} (fast : ¬ l.slowOn origin h) (tLt : t < 64) :
    l.placeOn origin mode h t + (if (l.laneOf origin mode h).cut ≤ t then l.slice else 0) =
      (l.laneOf origin mode h).value + t * 2 ^ l.shift := by
  have inside : l.startOn origin h + l.slice ≤ l.n - origin := by
    rw [Level.slowOn] at fast
    omega
  have offsetLt := strided.offset_lt h mode
  have strides : l.offset h mode / 2 ^ l.shift < 64 := by
    rw [Nat.div_lt_iff_lt_mul (Nat.two_pow_pos _), ← strided.slice_split]
    exact offsetLt
  have turnedLt : (l.offset h mode + (t <<< l.shift)) &&& (l.slice - 1) < l.slice :=
    and_pred_lt (by omega)
  rw [Level.placeOn, Level.foldOn, wrapped, if_neg (by omega), strided.turned]
  change _ + (if l.cutOf mode h ≤ t then _ else _) = l.startOn origin h + l.offset h mode + _
  rw [strided.cut_eq, strided.slice_split]
  have split := Nat.div_add_mod (l.offset h mode) (2 ^ l.shift)
  rw [Nat.mul_comm] at split
  generalize l.offset h mode / 2 ^ l.shift = q at *
  generalize l.offset h mode % 2 ^ l.shift = r at *
  rw [← split]
  by_cases turned : 64 - q ≤ t
  · have once : (q + t) % 64 + 64 = q + t := by omega
    have product : (q + t) % 64 * 2 ^ l.shift + 64 * 2 ^ l.shift = q * 2 ^ l.shift + t * 2 ^ l.shift := by
      rw [← Nat.add_mul, ← Nat.add_mul, once]
    rw [if_pos turned]
    omega
  · have never : (q + t) % 64 = q + t := Nat.mod_eq_of_lt (by omega)
    rw [if_neg turned, never, Nat.add_mul]
    omega

/-- Two keys on one value under a shift are lanes that meet there. -/
theorem Level.Strided.meets_of_same_place {mode t g h : Nat} (gFast : ¬ l.slowOn origin g)
    (hFast : ¬ l.slowOn origin h) (tLt : t < 64)
    (same : l.placeOn origin mode g t = l.placeOn origin mode h t) :
    (l.laneOf origin mode g).Meets l.slice (l.laneOf origin mode h) t := by
  have gPlace := strided.place_of_lane mode gFast tLt
  have hPlace := strided.place_of_lane mode hFast tLt
  unfold Lane.Meets
  split at gPlace <;> split at hPlace <;> omega

end Lanes

/-! ## The first pass -/

/-- The residue of a lane that the table of seen residues is read at. -/
def Lane.residue (slice : Nat) (lane : Lane) : Nat :=
  lane.value &&& (slice - 1) &&& (fullSlice - 1)

theorem Lane.residue_lt (slice : Nat) (lane : Lane) : lane.residue slice < fullSlice :=
  and_pred_lt (by decide)

theorem Lane.Meets.residue_eq {k t : Nat} {i j : Lane} (meets : i.Meets (2 ^ k) j t) :
    i.residue (2 ^ k) = j.residue (2 ^ k) := by
  unfold Lane.residue
  rw [and_mask, and_mask]
  rcases meets with same | ⟨upper, _⟩ | ⟨lower, _⟩
  · rw [same]
  · rw [upper, Nat.add_mod_right]
  · rw [lower, Nat.add_mod_right]

/-- The lanes gathered so far are all seen, and apart unless `twice` says otherwise. -/
structure Gathered.Saw (state : Gathered) (slice now : Nat) (start : Gathered)
    (lanes : List Lane) : Prop where
  length : state.seen.length = start.seen.length
  seen : ∀ lane ∈ lanes, state.seen.getD (lane.residue slice) 0 = now
  apart : state.twice = false → lanes.Pairwise fun i j => i.residue slice ≠ j.residue slice

theorem Gathered.Saw.snoc {l : Level} {taken : Map} {now : Nat} {start state : Gathered}
    {lanes : List Lane} {lane : Lane} (full : start.seen.length = fullSlice)
    (saw : state.Saw l.slice now start lanes) :
    (l.gatherLane taken now state lane).Saw l.slice now start (lanes ++ [lane]) := by
  have inside : lane.residue l.slice < state.seen.length := by
    rw [saw.length, full]
    exact lane.residue_lt l.slice
  refine ⟨?_, ?_, ?_⟩
  · change (state.seen.set _ _).length = _
    rw [List.length_set, saw.length]
  · intro other member
    change (state.seen.set (lane.residue l.slice) now).getD (other.residue l.slice) 0 = now
    rw [List.getD_eq_getElem?_getD, List.getElem?_set]
    by_cases same : lane.residue l.slice = other.residue l.slice
    · rw [if_pos same, if_pos inside]
      rfl
    · rw [if_neg same, ← List.getD_eq_getElem?_getD]
      rcases List.mem_append.mp member with earlier | last
      · exact saw.seen other earlier
      · rw [List.mem_singleton.mp last] at same
        exact absurd rfl same
  · intro once
    change (state.twice || decide (state.seen.getD (lane.residue l.slice) 0 = now)) = false at once
    rw [Bool.or_eq_false_iff, decide_eq_false_iff_not] at once
    rw [List.pairwise_append]
    refine ⟨saw.apart once.1, List.pairwise_singleton _ _, ?_⟩
    intro i earlier j last same
    rw [List.mem_singleton.mp last] at same
    apply once.2
    rw [← same]
    exact saw.seen i earlier

/-- The wraps of a mode's lanes, and of shift 0. -/
def Level.laneWraps (l : Level) (mode : Nat) (ks : List Nat) : Word :=
  ks.foldl (fun wraps h => wraps ||| (1#64 <<< (l.cutOf mode h &&& 63))) 1#64

section Gather

variable {l : Level} (strided : l.Strided) {origin : Nat} {taken : Map}
  (shifts : taken.shift = l.shift)
include strided

/-- A lane's word is its key's. -/
theorem Level.Strided.laneWord_eq {mode h : Nat} (fast : ¬ l.slowOn origin h) :
    (taken.window (taken.planeOf (l.laneOf origin mode h).value)
      (taken.bitOf (l.laneOf origin mode h).value + (l.laneOf origin mode h).cut - 64)).rotateLeft
        (l.laneOf origin mode h).cut = l.keyWord origin taken mode h := by
  have offsetLt := strided.offset_lt h mode
  have inside : l.startOn origin h + l.slice ≤ l.n - origin := by
    rw [Level.slowOn] at fast
    omega
  have unfolded : l.foldOn origin (l.startOn origin h + l.offset h mode) =
      (l.laneOf origin mode h).value := by
    rw [Level.foldOn, wrapped, if_neg (by omega)]
    rfl
  unfold Level.keyWord
  simp only [if_neg fast, if_pos strided.period, unfolded]
  rfl

include shifts in
theorem Level.Strided.gathered_spec {mode now : Nat} {start : Gathered}
    (full : start.seen.length = fullSlice)
    (ks : List Nat) (fast : ∀ h ∈ ks, ¬ l.slowOn origin h) :
    let state := (ks.map (l.laneOf origin mode)).foldl (l.gatherLane taken now) start
    state.wraps = ks.foldl (fun wraps h => wraps ||| (1#64 <<< (l.cutOf mode h &&& 63)))
        start.wraps ∧
      (∀ t < 64, state.u.getLsbD t =
        (start.u.getLsbD t || ks.any fun h => taken.get (l.placeOn origin mode h t))) ∧
      state.Saw l.slice now start (ks.map (l.laneOf origin mode)) := by
  induction ks using List.reverseRecOn with
  | nil =>
      refine ⟨rfl, by simp, rfl, by simp, ?_⟩
      intro _
      exact List.Pairwise.nil
  | append_singleton ks h ih =>
      obtain ⟨wraps, words, saw⟩ := ih fun g member => fast g (List.mem_append_left _ member)
      have hFast := fast h (List.mem_append_right _ List.mem_cons_self)
      rw [List.map_append, List.map_singleton, List.foldl_append, List.foldl_append]
      refine ⟨?_, ?_, saw.snoc full⟩
      · change Gathered.wraps _ ||| _ = _
        rw [wraps]
        rfl
      · intro t tLt
        change (Gathered.u _ ||| _).getLsbD t = _
        rw [BitVec.getLsbD_or, words t tLt, strided.laneWord_eq hFast,
          strided.keyWord_getLsbD shifts mode h tLt, List.any_append, Bool.or_assoc]
        simp

end Gather

/-! ## The second pass -/

/-- The low six bits of a lane's value, which `mates` is read at. -/
def Lane.low (lane : Lane) : Nat :=
  lane.value &&& 63

theorem Lane.low_lt (lane : Lane) : lane.low < 64 :=
  Nat.lt_of_le_of_lt Nat.and_le_right (by decide)

theorem Lane.Meets.low_eq {slice t : Nat} {i j : Lane} (whole : 64 ∣ slice)
    (meets : i.Meets slice j t) : i.low = j.low := by
  unfold Lane.low
  rw [show 63 = 2 ^ 6 - 1 from rfl, and_mask, and_mask]
  obtain ⟨k, rfl⟩ := whole
  rcases meets with same | ⟨upper, _⟩ | ⟨lower, _⟩ <;> omega

/-- Some two of the lanes meet under shift `t`. -/
def SomeMeet (slice t : Nat) (lanes : List Lane) : Prop :=
  ¬ lanes.Pairwise fun i j => ¬ i.Meets slice j t

theorem someMeet_snoc {slice t : Nat} {lanes : List Lane} {lane : Lane} :
    SomeMeet slice t (lanes ++ [lane]) ↔
      SomeMeet slice t lanes ∨ ∃ other ∈ lanes, other.Meets slice lane t := by
  unfold SomeMeet
  rw [List.pairwise_append]
  simp only [List.pairwise_singleton, List.mem_singleton, forall_eq, true_and]
  push Not
  constructor
  · intro fails
    by_cases earlier : lanes.Pairwise fun i j => ¬ i.Meets slice j t
    · exact Or.inr (fails earlier)
    · exact Or.inl earlier
  · rintro (earlier | late) apart
    · exact absurd apart earlier
    · exact late

/-- The lanes matched so far are on record, and their meetings in the word. -/
structure Matched.Upto (state : Matched) (slice : Nat) (start : Word) (lanes : List Lane) :
    Prop where
  length : state.mates.length = 64
  written : ∀ low < 64, state.written.getLsbD low = true ↔ ∃ lane ∈ lanes, lane.low = low
  mates : ∀ low < 64, state.written.getLsbD low = true → ∀ i,
    (state.mates.getD low 0).testBit i = true ↔ ∃ lane, lanes[i]? = some lane ∧ lane.low = low
  words : ∀ t < 64, state.u.getLsbD t = true ↔
    start.getLsbD t = true ∨ SomeMeet slice t lanes

theorem meetWords_getLsbD {slice t before : Nat} {lanes : List Lane} {lane : Lane} {u : Word} :
    (meetWords slice lanes before lane u).getLsbD t = true ↔
      u.getLsbD t = true ∨ ∃ i < 16, before.testBit i = true ∧
        ∃ other, lanes[i]? = some other ∧ (meetWord slice other lane).getLsbD t = true := by
  have named : (∃ i < 16, before.testBit i = true ∧
        ∃ other, lanes[i]? = some other ∧ (meetWord slice other lane).getLsbD t = true) ↔
      ∃ i ∈ (List.range 16).filter before.testBit,
        ∃ other, lanes[i]? = some other ∧ (meetWord slice other lane).getLsbD t = true := by
    simp only [List.mem_filter, List.mem_range, and_assoc]
  rw [named, meetWords]
  generalize (List.range 16).filter before.testBit = indices
  induction indices generalizing u with
  | nil => simp
  | cons i rest ih =>
      rw [List.foldl_cons]
      refine ih.trans ?_
      cases listed : lanes[i]? with
      | none => simp [listed]
      | some other => simp [listed, BitVec.getLsbD_or, or_assoc]

section Match

variable {slice : Nat} (whole : 64 ∣ slice) (slicePositive : 0 < slice)

include whole slicePositive in
theorem Matched.Upto.snoc {start : Word} {state : Matched} {earlier later : List Lane}
    {lane : Lane} (upto : state.Upto slice start earlier) (few : earlier.length < 16)
    (cuts : ∀ other ∈ earlier, other.cut ≤ 64) (cut : lane.cut ≤ 64) :
    (matchLane slice (earlier ++ lane :: later) state earlier.length lane).Upto slice start
      (earlier ++ [lane]) := by
  have beforeIs : ∀ i, (if state.written.getLsbD lane.low then state.mates.getD lane.low 0
      else 0).testBit i = true ↔ ∃ other, earlier[i]? = some other ∧ other.low = lane.low := by
    intro i
    by_cases seen : state.written.getLsbD lane.low = true
    · rw [if_pos seen]
      exact upto.mates lane.low lane.low_lt seen i
    · rw [if_neg seen]
      simp only [Nat.zero_testBit, Bool.false_eq_true, false_iff]
      rintro ⟨other, listed, low⟩
      apply seen
      rw [upto.written lane.low lane.low_lt]
      exact ⟨other, List.mem_of_getElem? listed, low⟩
  refine ⟨?_, ?_, ?_, ?_⟩
  · change (state.mates.set _ _).length = 64
    rw [List.length_set, upto.length]
  · intro low lowLt
    change (state.written ||| 1#64 <<< lane.low).getLsbD low = true ↔ _
    rw [BitVec.getLsbD_or, one_shift_getLsbD lane.low_lt, Bool.or_eq_true, decide_eq_true_eq,
      upto.written low lowLt]
    simp only [List.mem_append, List.mem_singleton]
    constructor
    · rintro (⟨other, member, same⟩ | rfl)
      · exact ⟨other, Or.inl member, same⟩
      · exact ⟨lane, Or.inr rfl, rfl⟩
    · rintro ⟨other, member | rfl, same⟩
      · exact Or.inl ⟨other, member, same⟩
      · exact Or.inr same.symm
  · intro low lowLt
    change (state.written ||| 1#64 <<< lane.low).getLsbD low = true → ∀ i,
      ((state.mates.set lane.low _).getD low 0).testBit i = true ↔ _
    rw [BitVec.getLsbD_or, one_shift_getLsbD lane.low_lt, Bool.or_eq_true, decide_eq_true_eq]
    intro seen i
    rw [List.getD_eq_getElem?_getD, List.getElem?_set]
    by_cases here : lane.low = low
    · subst here
      rw [if_pos rfl, if_pos (by rw [upto.length]; exact lane.low_lt), Option.getD_some,
        Nat.testBit_or, Nat.shiftLeft_eq, Nat.one_mul, Nat.testBit_two_pow, Bool.or_eq_true]
      have eachBefore := beforeIs i
      rw [List.getElem?_append]
      by_cases inside : i < earlier.length
      · have apart : ¬ earlier.length = i := by omega
        simp only [inside, if_true, apart, decide_false, Bool.false_eq_true, or_false]
        exact eachBefore
      · have outside : earlier[i]? = none := List.getElem?_eq_none (by omega)
        rw [outside] at eachBefore
        have noBit := fun set => (eachBefore.mp set)
        simp only [inside, if_false, reduceCtorEq, false_and, exists_false] at noBit ⊢
        by_cases here : earlier.length = i
        · subst here
          simp
        · have past : ([lane] : List Lane)[i - earlier.length]? = none :=
            List.getElem?_eq_none (by simp; omega)
          rw [past]
          simp only [here, decide_false, Bool.false_eq_true, or_false, reduceCtorEq, false_and,
            exists_false, iff_false]
          exact noBit
    · have written : state.written.getLsbD low = true := by
        rcases seen with earlier | last
        · exact earlier
        · exact absurd last.symm here
      rw [if_neg here, ← List.getD_eq_getElem?_getD, upto.mates low lowLt written]
      constructor
      · rintro ⟨other, listed, same⟩
        have inside := (List.getElem?_eq_some_iff.mp listed).1
        exact ⟨other, by rw [List.getElem?_append_left inside]; exact listed, same⟩
      · rintro ⟨other, listed, same⟩
        rw [List.getElem?_append] at listed
        by_cases inside : i < earlier.length
        · rw [if_pos inside] at listed
          exact ⟨other, listed, same⟩
        · rw [if_neg inside] at listed
          have last := List.mem_of_getElem? listed
          rw [List.mem_singleton] at last
          rw [last] at same
          exact absurd same here
  · intro t tLt
    change (meetWords slice _ _ lane state.u).getLsbD t = true ↔ _
    rw [meetWords_getLsbD, upto.words t tLt, someMeet_snoc, or_assoc]
    apply or_congr_right
    apply or_congr_right
    constructor
    · rintro ⟨i, _, bit, other, listed, meets⟩
      obtain ⟨_, recorded, _⟩ := (beforeIs i).mp bit
      have inside := (List.getElem?_eq_some_iff.mp recorded).1
      rw [List.getElem?_append_left inside] at listed
      have member := List.mem_of_getElem? listed
      exact ⟨other, member, (meetWord_getLsbD slicePositive (cuts other member) cut tLt).mp meets⟩
    · rintro ⟨other, member, meets⟩
      obtain ⟨i, listed⟩ := List.getElem?_of_mem member
      have inside := (List.getElem?_eq_some_iff.mp listed).1
      refine ⟨i, by omega, (beforeIs i).mpr ⟨other, listed, meets.low_eq whole⟩, other, ?_, ?_⟩
      · rw [List.getElem?_append_left inside]
        exact listed
      · exact (meetWord_getLsbD slicePositive (cuts other member) cut tLt).mpr meets

include whole slicePositive in
theorem matchLanes_upto {start : Word} :
    ∀ (later earlier : List Lane) (state : Matched), state.Upto slice start earlier →
      (earlier ++ later).length ≤ 16 → (∀ lane ∈ earlier ++ later, lane.cut ≤ 64) →
      (matchLanes slice (earlier ++ later) earlier.length later state).Upto slice start
        (earlier ++ later) := by
  intro later
  induction later with
  | nil =>
      intro earlier state upto _ _
      rw [matchLanes, List.append_nil]
      exact upto
  | cons lane rest ih =>
      intro earlier state upto few cuts
      have regroup : earlier ++ lane :: rest = earlier ++ [lane] ++ rest := by simp
      have length : (earlier ++ [lane]).length = earlier.length + 1 := by simp
      rw [List.length_append, List.length_cons] at few
      have next := @Matched.Upto.snoc slice whole slicePositive start state earlier rest lane upto (by omega)
        (fun other member => cuts other (List.mem_append_left _ member))
        (cuts lane (List.mem_append_right _ List.mem_cons_self))
      rw [matchLanes]
      have stepped := ih (earlier ++ [lane]) _ next (by rw [← regroup]; simp; omega)
        (by rw [← regroup]; exact cuts)
      rw [length, ← regroup] at stepped
      exact stepped

end Match

end Lexindex.Mphf
