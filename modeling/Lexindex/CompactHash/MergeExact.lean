import Mathlib
import Lexindex.CompactHash.PairFiles

/-!
# A run sorted

However many threads share it, a run is sorted in place: its parts abut in order.  What is spilled is the
run's distinct pairs, ascending, with where each bin starts among them.
-/

set_option autoImplicit false

namespace Lexindex.CompactHash

theorem keyOf_injective : Function.Injective keyOf := by
  rintro ⟨h, second⟩ ⟨h', second'⟩ same
  have low := second.toNat_lt
  have low' := second'.toNat_lt
  simp only [keyOf] at same
  rw [Prod.mk.injEq, ← UInt64.toNat_inj, ← UInt64.toNat_inj]
  omega

theorem keyOf_le {a b : Pair} (order : keyOf a ≤ keyOf b) : a.1.toNat ≤ b.1.toNat := by
  have low := a.2.toNat_lt
  have low' := b.2.toNat_lt
  simp only [keyOf] at order
  omega

theorem keyOf_lt {a b : Pair} (less : a.1.toNat < b.1.toNat) : keyOf a < keyOf b := by
  have low := a.2.toNat_lt
  simp only [keyOf]
  omega

/-- The parts of the hash are in its order. -/
theorem partOf_mono (parts : Nat) {h h' : UInt64} (order : h.toNat ≤ h'.toNat) :
    partOf parts h ≤ partOf parts h' := by
  simp only [partOf, Nat.shiftRight_eq_div_pow]
  exact Nat.div_le_div_right (Nat.mul_le_mul_right _ (Nat.div_le_div_right order))

theorem partOf_lt {parts : Nat} (some_ : 0 < parts) (h : UInt64) : partOf parts h < parts := by
  have small := h.toNat_lt
  rw [partOf, Nat.shiftRight_eq_div_pow, Nat.div_lt_iff_lt_mul (by decide), Nat.shiftRight_eq_div_pow,
    Nat.mul_comm parts]
  refine Nat.mul_lt_mul_of_pos_right ?_ some_
  omega

theorem binOf_mono {h h' : UInt64} (order : h.toNat ≤ h'.toNat) : binOf h ≤ binOf h' := by
  rw [binOf, binOf, Nat.shiftRight_eq_div_pow, Nat.shiftRight_eq_div_pow]
  exact Nat.div_le_div_right order

theorem binOf_lt (h : UInt64) : binOf h < BINS := by
  have small := h.toNat_lt
  rw [binOf, Nat.shiftRight_eq_div_pow, Nat.div_lt_iff_lt_mul (by decide)]
  exact small.trans_le (by decide)

/-! ## The parts -/

theorem sortParts_flatten (groups : List (List Pair)) :
    sortParts (groups.map List.length) groups.flatten = groups.flatMap sortUnstable := by
  induction groups with
  | nil => rfl
  | cons group groups ih =>
      rw [List.map_cons, List.flatten_cons, sortParts, List.take_left' rfl, List.drop_left' rfl, ih,
        List.flatMap_cons]

theorem sortUnstable_perm (run : List Pair) : (sortUnstable run).Perm run :=
  List.mergeSort_perm ..

theorem flatMap_sortUnstable_perm (groups : List (List Pair)) :
    (groups.flatMap sortUnstable).Perm groups.flatten := by
  induction groups with
  | nil => exact List.Perm.refl _
  | cons group groups ih =>
      rw [List.flatMap_cons, List.flatten_cons]
      exact (sortUnstable_perm group).append ih

/-- The sorted parts of a run abut in order. -/
theorem sorted_groups {run : List Pair} {parts : Nat} :
    Sorted keyOf (((List.range parts).map (groupOf (fun pair : Pair => partOf parts pair.1) run)).flatMap
      sortUnstable) := by
  have member : ∀ {q : Nat} {pair : Pair},
      pair ∈ sortUnstable (groupOf (fun pair : Pair => partOf parts pair.1) run q) →
        partOf parts pair.1 = q := by
    intro q pair held
    exact (mem_groupOf.mp ((sortUnstable_perm _).mem_iff.mp held)).2
  rw [List.flatMap_map, Sorted, List.pairwise_flatMap]
  refine ⟨fun q _ => sorted_mergeSort keyOf _, ?_⟩
  refine List.pairwise_lt_range.imp ?_
  intro q r less a heldA b heldB
  refine (keyOf_lt ?_).le
  by_contra order
  have parts_ := partOf_mono parts (Nat.le_of_not_lt order)
  rw [member heldA, member heldB] at parts_
  omega

/-- `sort_run` leaves a sorted permutation of its run. -/
theorem sortRun_spec (run : List Pair) (threads : Nat) :
    (sortRun run threads).Perm run ∧ Sorted keyOf (sortRun run threads) := by
  rw [sortRun]
  simp only
  split
  · exact ⟨sortUnstable_perm run, sorted_mergeSort keyOf run⟩
  · generalize isParts : min (max threads 1) 256 = parts
    have some_ : 0 < parts := by omega
    obtain ⟨perm, ordered⟩ := flagPass_spec run parts
      fun pair _ => partOf_lt some_ pair.1
    generalize flagPass (fun pair : Pair => partOf parts pair.1) parts
      (tally (fun pair : Pair => partOf parts pair.1) 0 parts run) run = flagged at perm ordered ⊢
    have whole := ordered.grouped_eq fun pair _ => partOf_lt some_ pair.1
    have counts : tally (fun pair : Pair => partOf parts pair.1) 0 parts run =
        ((List.range parts).map (groupOf (fun pair : Pair => partOf parts pair.1) flagged)).map
          List.length := by
      rw [tally_groups, List.map_map]
      exact List.map_congr_left fun q _ => ((groupOf_perm perm q).length_eq).symm
    have flat : flagged =
        ((List.range parts).map (groupOf (fun pair : Pair => partOf parts pair.1) flagged)).flatten := by
      rw [← List.flatMap_def]
      exact whole.symm
    have abut : Sorted keyOf (((List.range parts).map
        (groupOf (fun pair : Pair => partOf parts pair.1) flagged)).flatMap sortUnstable) := sorted_groups
    rw [counts]
    generalize (List.range parts).map (groupOf (fun pair : Pair => partOf parts pair.1) flagged) = groups
      at flat abut ⊢
    rw [flat, sortParts_flatten]
    exact ⟨(flatMap_sortUnstable_perm groups).trans (flat ▸ perm), abut⟩

/-- The distinct pairs of a run, ascending. -/
theorem dedup_sortRun (run : List Pair) (threads : Nat) :
    dedup (sortRun run threads) = sortDedup keyOf run := by
  obtain ⟨perm, sorted⟩ := sortRun_spec run threads
  obtain ⟨ascending, members⟩ := mem_destutter_of_sorted keyOf_injective sorted
  exact eq_sortDedup keyOf_injective run ascending fun pair => (members pair).trans perm.mem_iff

/-! ## Bins -/

/-- By bin. -/
def pairBin (pair : Pair) : Nat :=
  binOf pair.1

theorem pairBin_lt (pair : Pair) : pairBin pair < BINS :=
  binOf_lt pair.1

theorem inOrder_bins {run : List Pair} (ascending : Ascending keyOf run) : InOrder pairBin run :=
  ascending.imp fun less => binOf_mono (keyOf_le less.le)

theorem getD_offsetsOf (run : List Pair) {b : Nat} (within : b ≤ BINS) :
    (offsetsOf run).getD b 0 = before pairBin run b := by
  have sums : (runningSums 1 BINS (tally pairBin 1 (BINS + 1) run)).getD (b + 1 - 1) 0 =
      before pairBin run b :=
    runningSums_tally pairBin run (by decide) (show BINS < BINS + 1 by omega) b (by omega)
  exact sums

/-- A bin range of a run, cut out at the offsets. -/
theorem run_slice {run : List Pair} (ascending : Ascending keyOf run) {b0 b1 : Nat} (order : b0 ≤ b1)
    (within : b1 ≤ BINS) :
    (run.drop ((offsetsOf run).getD b0 0)).take ((offsetsOf run).getD b1 0 - (offsetsOf run).getD b0 0) =
      between pairBin run b0 (b1 - b0) := by
  obtain ⟨count, rfl⟩ := Nat.exists_eq_add_of_le order
  rw [getD_offsetsOf run (order.trans within), getD_offsetsOf run within, Nat.add_sub_cancel_left]
  exact (inOrder_bins ascending).between_eq b0 count

end Lexindex.CompactHash

/-!
## The merge is exact

A range of bins merged is the distinct pairs of all the runs in it, ascending, and how many of them share
their hash with the one before.  The ranges' ends ascend from the first bin to the last, equal hashes
share a bin, and so the files one after another are the distinct pairs of all the runs.
-/

namespace Lexindex.CompactHash

/-! ### What a range writes -/

theorem Sink.write_bytes (w : Sink) (rec : List UInt8) :
    (w.write rec).file ++ (w.write rec).buf = w.file ++ w.buf ++ rec := by
  rw [write]
  split
  · rw [flush]
    simp only [List.nil_append]
  · exact (List.append_assoc ..).symm

/-- After some pairs in order: the distinct ones are written, and counted. -/
structure Tally.Holds (t : Tally) (pairs : List Pair) : Prop where
  written : t.sink.file ++ t.sink.buf = (dedup pairs).flatMap pairBytes
  counted : t.n = (dedup pairs).length
  shared : t.side = Pairs.sameHash (dedup pairs)
  last : t.last = (dedup pairs).getLast?

theorem dedup_snoc (pairs : List Pair) (pair : Pair) : dedup (pairs ++ [pair]) =
    if (dedup pairs).getLast? = some pair then dedup pairs else dedup pairs ++ [pair] := by
  have onward (pairs : List Pair) : ∀ first : Pair,
      List.destutter' (· ≠ ·) first (pairs ++ [pair]) =
        if (List.destutter' (· ≠ ·) first pairs).getLast? = some pair then
          List.destutter' (· ≠ ·) first pairs
        else List.destutter' (· ≠ ·) first pairs ++ [pair] := by
    induction pairs with
    | nil =>
        intro first
        by_cases same : first = pair
        · rw [List.nil_append, List.destutter'_cons_neg _ (not_not.mpr same), List.destutter'_nil,
            List.getLast?_singleton, if_pos (congrArg some same)]
        · rw [List.nil_append, List.destutter'_cons_pos _ same, List.destutter'_nil, List.destutter'_nil,
            List.getLast?_singleton, if_neg fun last => same (Option.some.inj last)]
          rfl
    | cons second pairs ih =>
        intro first
        by_cases same : first = second
        · rw [List.cons_append, List.destutter'_cons_neg _ (not_not.mpr same),
            List.destutter'_cons_neg _ (not_not.mpr same), ih]
        · rw [List.cons_append, List.destutter'_cons_pos _ same, List.destutter'_cons_pos _ same, ih,
            List.getLast?_cons_of_ne_nil (List.destutter'_ne_nil _ _)]
          split
          · rfl
          · exact (List.cons_append ..).symm
  cases pairs with
  | nil => rfl
  | cons first pairs => exact onward pairs first

theorem sameHash_snoc (pairs : List Pair) (pair : Pair) : Pairs.sameHash (pairs ++ [pair]) =
    if pairs.getLast?.any fun l => l.1 = pair.1 then Pairs.sameHash pairs + 1 else Pairs.sameHash pairs := by
  induction pairs with
  | nil => rfl
  | cons first pairs ih =>
      cases pairs with
      | nil =>
          simp [Pairs.sameHash]
      | cons second pairs =>
          have unfolds : ∀ rest : List Pair, Pairs.sameHash (first :: second :: rest) =
              Pairs.sameHash (second :: rest) + if first.1 = second.1 then 1 else 0 := by
            intro rest
            simp [Pairs.sameHash, List.countP_cons]
          rw [List.cons_append, List.cons_append, unfolds, ← List.cons_append, ih, unfolds,
            List.getLast?_cons_cons]
          split
          · omega
          · rfl

theorem Tally.Holds.take {t : Tally} {pairs : List Pair} (holds : t.Holds pairs) (pair : Pair) :
    (t.take pair).Holds (pairs ++ [pair]) := by
  obtain ⟨written, counted, shared, last⟩ := holds
  rw [Tally.take]
  by_cases same : t.last = some pair
  · rw [if_pos same]
    have known : dedup (pairs ++ [pair]) = dedup pairs := by
      rw [dedup_snoc, if_pos (last.symm.trans same)]
    exact ⟨by rw [known, written], by rw [known, counted], by rw [known, shared], by rw [known, last]⟩
  · rw [if_neg same]
    have fresh : dedup (pairs ++ [pair]) = dedup pairs ++ [pair] := by
      rw [dedup_snoc, if_neg (last ▸ same)]
    refine ⟨?_, ?_, ?_, ?_⟩
    · rw [Sink.write_bytes, written, fresh, List.flatMap_append, List.flatMap_singleton]
    · rw [fresh, List.length_append, List.length_singleton, counted]
    · rw [fresh, sameHash_snoc, last, shared]
    · rw [fresh, List.getLast?_append]
      rfl

theorem Tally.Holds.foldl (pairs : List Pair) : ∀ {t : Tally} {before : List Pair}, t.Holds before →
    (pairs.foldl Tally.take t).Holds (before ++ pairs) := by
  induction pairs with
  | nil =>
      intro t before holds
      rwa [List.append_nil]
  | cons pair pairs ih =>
      intro t before holds
      rw [← List.singleton_append, ← List.append_assoc]
      exact ih (holds.take pair)

/-- The loop takes what the heap yields. -/
theorem mergeLoop_spec {m : Merging Slice Pair} {out : List Pair} {fails : Bool}
    (drains : Drains (Merging.pull keyOf Slice.next) m out fails) : ∀ {fuel : Nat} {t : Tally},
    out.length < fuel →
    if fails then ∃ e, mergeLoop fuel m t = .error e
    else mergeLoop fuel m t = .ok (out.foldl Tally.take t) := by
  induction drains with
  | failed answer =>
      intro fuel t some_
      obtain ⟨fuel, rfl⟩ := Nat.exists_eq_succ_of_ne_zero (Nat.ne_of_gt some_)
      exact ⟨_, by rw [mergeLoop, answer]⟩
  | ended answer =>
      intro fuel t some_
      obtain ⟨fuel, rfl⟩ := Nat.exists_eq_succ_of_ne_zero (Nat.ne_of_gt some_)
      change mergeLoop (fuel + 1) _ t = _
      rw [mergeLoop, answer]
      rfl
  | item answer rest ih =>
      intro fuel t enough
      rw [List.length_cons] at enough
      obtain ⟨fuel, rfl⟩ := Nat.exists_eq_succ_of_ne_zero (show fuel ≠ 0 by omega)
      have onward : ∀ t, mergeLoop (fuel + 1) _ t = mergeLoop fuel _ (t.take _) := fun t => by
        rw [mergeLoop, answer]
      rw [onward t, List.foldl_cons]
      exact ih (by omega)

/-! ### A range -/

theorem length_flatMap_range {items : Nat → List Pair} : ∀ {slices : List Slice},
    (∀ j s, slices[j]? = some s → (items j).length ≤ s.left) →
    ((List.range slices.length).flatMap items).length ≤ (slices.map Slice.left).sum := by
  intro slices few
  have each : slices.map Slice.left =
      (List.range slices.length).map fun j => slices[j]?.elim 0 Slice.left := by
    refine List.ext_getElem (by simp) fun j inside _ => ?_
    rw [List.length_map] at inside
    simp [inside]
  rw [List.length_flatMap, each]
  refine List.sum_le_sum fun j member => ?_
  have inside := List.mem_range.mp member
  rw [List.getElem?_eq_getElem inside]
  exact few j _ (List.getElem?_eq_getElem inside)

/-- A range merged: an error where a slice of it fails, else its distinct pairs, ascending. -/
theorem mergeRange_spec {slices : List Slice} {items : Nat → List Pair} {fails : Nat → Bool}
    (drains : ∀ j s, slices[j]? = some s → Drains Slice.next s (items j) (fails j))
    (few : ∀ j s, slices[j]? = some s → (items j).length ≤ s.left) :
    ((∃ j < slices.length, fails j = true) → ∃ e, mergeRange slices = .error e) ∧
    ((∀ j < slices.length, fails j = false) → (∀ j, Sorted keyOf (items j)) →
      let range := sortDedup keyOf ((List.range slices.length).flatMap items)
      mergeRange slices = .ok (range.flatMap pairBytes, range.length, Pairs.sameHash range)) := by
  have short := length_flatMap_range few
  rcases Merging.drains keyOf drains with ⟨⟨e, failed⟩, j, inside, failing⟩ |
      ⟨m, out, failing, started, drained, iff, fewer, fine⟩
  · refine ⟨fun _ => ⟨e, ?_⟩, fun sound _ => ?_⟩
    · rw [mergeRange, failed]
      rfl
    · rw [sound j inside] at failing
      cases failing
  · have looped : ∀ t, if failing = true
        then ∃ e, mergeLoop ((slices.map Slice.left).sum + 1) m t = .error e
        else mergeLoop ((slices.map Slice.left).sum + 1) m t = .ok (out.foldl Tally.take t) :=
      fun t => mergeLoop_spec drained (Nat.lt_succ_of_le (fewer.trans short))
    refine ⟨fun some_ => ?_, fun sound sorted => ?_⟩
    · rw [iff.mpr some_] at looped
      obtain ⟨e, failed⟩ := looped { sink := { file := [], buf := [] }, n := 0, side := 0, last := none }
      refine ⟨e, ?_⟩
      rw [mergeRange, started]
      change (mergeLoop _ m _ >>= _) = _
      rw [failed]
      rfl
    · have fineOut : failing = false := by
        cases failing with
        | false => rfl
        | true =>
            obtain ⟨j, inside, contra⟩ := iff.mp rfl
            rw [sound j inside] at contra
            cases contra
      have ran := looped { sink := { file := [], buf := [] }, n := 0, side := 0, last := none }
      rw [fineOut, if_neg Bool.false_ne_true] at ran
      obtain ⟨perm, order⟩ := fine fineOut
      have holds : Tally.Holds { sink := { file := [], buf := [] }, n := 0, side := 0, last := none } [] :=
        ⟨rfl, rfl, rfl, rfl⟩
      obtain ⟨written, counted, shared, -⟩ := holds.foldl out
      have distinct : dedup ([] ++ out) = sortDedup keyOf ((List.range slices.length).flatMap items) := by
        obtain ⟨ascending, members⟩ := mem_destutter_of_sorted keyOf_injective (order sorted)
        exact eq_sortDedup keyOf_injective _ ascending fun pair => (members pair).trans perm.mem_iff
      rw [distinct] at written counted shared
      rw [mergeRange, started]
      change (mergeLoop _ m _ >>= _) = _
      rw [ran]
      change Except.ok _ = _
      rw [Sink.flush, written, counted, shared]

end Lexindex.CompactHash
