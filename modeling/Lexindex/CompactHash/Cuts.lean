import Mathlib
import Lexindex.CompactHash.Ranges

/-!
# The merge as a whole

The ranges' ends are strictly ascending, from the first bin to the last, so the ranges one after another
are the bins.  Equal hashes share a bin: a range never ends between them, and what the ranges count
adds up.
-/

set_option autoImplicit false

namespace Lexindex.CompactHash

/-! ## The ranges' ends -/

/-- Ends that ascend from the first bin to the last. -/
structure Cuts (cuts : List Nat) : Prop where
  starts : cuts.head? = some 0
  ascending : cuts.IsChain (· < ·)
  ends : cuts.getLast? = some BINS

/-- The same before the last end is known. -/
structure Cutting (cuts : List Nat) : Prop where
  starts : cuts.head? = some 0
  ascending : cuts.IsChain (· < ·)
  within : cuts.getLastD 0 ≤ BINS

theorem getLastD_of {cuts : List Nat} {last : Nat} (same : last ∈ cuts.getLast?) : cuts.getLastD 0 = last := by
  rw [List.getLastD_eq_getLast?, Option.mem_def.mp same, Option.getD_some]

theorem Cutting.push {cuts : List Nat} (cutting : Cutting cuts) {b : Nat} (above : cuts.getLastD 0 < b)
    (within : b ≤ BINS) : Cutting (cuts ++ [b]) := by
  obtain ⟨starts, ascending, -⟩ := cutting
  refine ⟨?_, ?_, ?_⟩
  · rw [List.head?_append, starts]
    rfl
  · rw [List.isChain_append]
    refine ⟨ascending, List.isChain_singleton b, fun last known first same => ?_⟩
    rw [← Option.some.inj same, ← getLastD_of known]
    exact above
  · rwa [getLastD_of (List.getLast?_concat ..)]

theorem Cutting.cutAt {cuts : List Nat} (cutting : Cutting cuts) (total : List Nat) (ranges t : Nat) :
    Cutting (cutAt total ranges cuts t) := by
  rw [CompactHash.cutAt]
  split
  · rename_i above
    exact cutting.push above (Nat.min_le_right ..)
  · exact cutting

theorem cutsOf_cuts (bins : List (List Nat)) (threads : Nat) : Cuts (cutsOf bins threads) := by
  have folded : ∀ (total : List Nat) (ranges : Nat) (steps cuts : List Nat), Cutting cuts →
      Cutting (steps.foldl (CompactHash.cutAt total ranges) cuts) := by
    intro total ranges steps
    induction steps with
    | nil => exact fun _ cutting => cutting
    | cons t steps ih => exact fun cuts cutting => ih _ (cutting.cutAt total ranges t)
  have made := folded (totalOf bins) (max threads 1) (List.range' 1 (max threads 1 - 1)) [0]
    ⟨rfl, List.isChain_singleton 0, Nat.zero_le _⟩
  unfold cutsOf
  simp only
  generalize List.foldl _ [0] _ = cuts at made ⊢
  split
  · rename_i early
    have pushed := made.push (Nat.lt_of_le_of_ne made.within early) (Nat.le_refl _)
    exact ⟨pushed.starts, pushed.ascending, List.getLast?_concat ..⟩
  · rename_i reached
    have last : cuts.getLastD 0 = BINS := not_not.mp reached
    refine ⟨made.starts, made.ascending, ?_⟩
    rw [List.getLastD_eq_getLast?] at last
    cases ends : cuts.getLast? with
    | none =>
        rw [ends] at last
        exact absurd last (by decide)
    | some b =>
        rw [ends] at last
        exact congrArg some last

/-- Ranges between consecutive ends. -/
def rangesOf (cuts : List Nat) : List (Nat × Nat) :=
  cuts.zip cuts.tail

theorem rangesOf_cons (b0 b1 : Nat) (cuts : List Nat) :
    rangesOf (b0 :: b1 :: cuts) = (b0, b1) :: rangesOf (b1 :: cuts) :=
  rfl

/-- What holds across a whole chain of ends holds by adding ranges. -/
theorem Cuts.induct {cuts : List Nat} (made : Cuts cuts) {motive : Nat → List (Nat × Nat) → Prop}
    (ended : motive BINS [])
    (range : ∀ b0 b1 ranges, b0 < b1 → b1 ≤ BINS → motive b1 ranges → motive b0 ((b0, b1) :: ranges)) :
    motive 0 (rangesOf cuts) := by
  have onward : ∀ (cuts : List Nat) (b0 : Nat), (b0 :: cuts).IsChain (· < ·) →
      (b0 :: cuts).getLast? = some BINS → b0 ≤ BINS ∧ motive b0 (rangesOf (b0 :: cuts)) := by
    intro cuts
    induction cuts with
    | nil =>
        intro b0 _ ends
        rw [List.getLast?_singleton, Option.some.injEq] at ends
        exact ⟨ends.le, ends ▸ ended⟩
    | cons b1 cuts ih =>
        intro b0 ascending ends
        obtain ⟨less, ascending⟩ := List.isChain_cons_cons.mp ascending
        rw [List.getLast?_cons_cons] at ends
        obtain ⟨within, rest⟩ := ih b1 ascending ends
        rw [rangesOf_cons]
        exact ⟨less.le.trans within, range b0 b1 _ less within rest⟩
  obtain ⟨starts, ascending, ends⟩ := made
  cases cuts with
  | nil => cases starts
  | cons b0 cuts =>
      obtain rfl : b0 = 0 := Option.some.inj starts
      exact (onward cuts 0 ascending ends).2

/-! ## The ranges one after another -/

theorem sameHash_append {pairs more : List Pair}
    (apart : ∀ a ∈ pairs, ∀ b ∈ more, a.1 ≠ b.1) :
    Pairs.sameHash (pairs ++ more) = Pairs.sameHash pairs + Pairs.sameHash more := by
  induction more using List.reverseRecOn with
  | nil => rw [List.append_nil]; rfl
  | append_singleton more pair ih =>
      have before := ih fun a held b member => apart a held b (List.mem_append_left _ member)
      rw [← List.append_assoc, sameHash_snoc, sameHash_snoc, before, List.getLast?_append]
      cases last : more.getLast? with
      | some b =>
          rw [Option.some_or]
          split
          · rw [Nat.add_assoc]
          · rfl
      | none =>
          rw [Option.none_or, if_neg, if_neg (by simp)]
          rw [Option.any_eq_true]
          rintro ⟨a, known, same⟩
          exact apart a (List.mem_of_getLast? known) pair (by simp) (of_decide_eq_true same)

variable {pairs : List Pair}

theorem between_split (pairs : List Pair) {b0 b1 : Nat} (order : b0 ≤ b1) (within : b1 ≤ BINS) :
    between pairBin pairs b0 (BINS - b0) =
      between pairBin pairs b0 (b1 - b0) ++ between pairBin pairs b1 (BINS - b1) := by
  have counts : BINS - b0 = (b1 - b0) + (BINS - b1) := by omega
  have cut : List.range' b0 (BINS - b0) = List.range' b0 (b1 - b0) ++ List.range' b1 (BINS - b1) := by
    rw [counts, ← List.range'_append, Nat.one_mul, Nat.add_sub_cancel' order]
  rw [between, cut, List.flatMap_append]
  rfl

/-- The pairs of a range. -/
def shareOf (pairs : List Pair) (range : Nat × Nat) : List Pair :=
  between pairBin pairs range.1 (range.2 - range.1)

/-- The pairs of each range in turn, their number, and how many share their hash with the one before. -/
theorem ranges_total {cuts : List Nat} (made : Cuts cuts) (ascending : Ascending keyOf pairs) :
    (rangesOf cuts).flatMap (shareOf pairs) = pairs ∧
    ((rangesOf cuts).map fun e => (shareOf pairs e).length).sum = pairs.length ∧
    ((rangesOf cuts).map fun e => Pairs.sameHash (shareOf pairs e)).sum = Pairs.sameHash pairs := by
  have all : between pairBin pairs 0 (BINS - 0) = pairs := by
    have whole := @grouped_add _ pairBin 0 BINS pairs
    have front : grouped pairBin 0 pairs = [] := rfl
    rw [Nat.zero_add, (inOrder_bins ascending).grouped_eq fun pair _ => pairBin_lt pair, front,
      List.nil_append] at whole
    rw [Nat.sub_zero]
    exact whole.symm
  have total := made.induct (motive := fun b ranges =>
    ranges.flatMap (shareOf pairs) = between pairBin pairs b (BINS - b) ∧
    (ranges.map fun e => (shareOf pairs e).length).sum = (between pairBin pairs b (BINS - b)).length ∧
    (ranges.map fun e => Pairs.sameHash (shareOf pairs e)).sum =
      Pairs.sameHash (between pairBin pairs b (BINS - b)))
    (by
      rw [Nat.sub_self]
      exact ⟨rfl, rfl, rfl⟩)
    (by
      rintro b0 b1 ranges less within ⟨joined, counted, shared⟩
      -- Pairs of one hash are in one bin, so on one side of the end.
      have apart : ∀ a ∈ between pairBin pairs b0 (b1 - b0), ∀ b ∈ between pairBin pairs b1 (BINS - b1),
          a.1 ≠ b.1 := by
        intro a heldA b heldB same
        have low := (mem_between.mp heldA).2.2
        have high := (mem_between.mp heldB).2.1
        rw [pairBin] at low high
        rw [same] at low
        omega
      rw [between_split pairs less.le within]
      refine ⟨?_, ?_, ?_⟩
      · rw [List.flatMap_cons, joined, shareOf]
      · rw [List.map_cons, List.sum_cons, counted, shareOf, List.length_append]
      · rw [List.map_cons, List.sum_cons, shared, shareOf, sameHash_append apart])
  rwa [all] at total

/-! ## The merge -/

theorem mapM_ok {α β ε : Type} {f : α → Except ε β} {g : α → β} {items : List α}
    (each : ∀ item ∈ items, f item = .ok (g item)) : items.mapM f = .ok (items.map g) := by
  induction items with
  | nil => rfl
  | cons item items ih =>
      rw [List.mapM_cons, each item List.mem_cons_self,
        ih fun other member => each other (List.mem_cons_of_mem _ member)]
      rfl

theorem mapM_error {α β ε : Type} {f : α → Except ε β} {items : List α}
    (some_ : ∃ item ∈ items, ∃ e, f item = .error e) : ∃ e, items.mapM f = .error e := by
  induction items with
  | nil =>
      obtain ⟨item, member, -⟩ := some_
      cases member
  | cons first items ih =>
      rw [List.mapM_cons]
      cases answer : f first with
      | error e => exact ⟨e, rfl⟩
      | ok value =>
          obtain ⟨item, member, e, failed⟩ := some_
          rcases List.mem_cons.mp member with rfl | later
          · rw [failed] at answer
            cases answer
          · obtain ⟨e, failed⟩ := ih ⟨item, later, e, failed⟩
            refine ⟨e, ?_⟩
            change items.mapM f >>= _ = _
            rw [failed]
            rfl

variable {s : Scratch} {runs : List (List Pair)}

theorem map_zipIdx_fst {α β : Type} (f : α → β) (items : List α) :
    items.zipIdx.map (fun e => f e.1) = items.map f := by
  change items.zipIdx.map (f ∘ Prod.fst) = items.map f
  rw [← List.map_map, List.zipIdx_map_fst]

theorem Cuts.range_within {cuts : List Nat} (made : Cuts cuts) :
    ∀ e ∈ rangesOf cuts, e.1 ≤ e.2 ∧ e.2 ≤ BINS := by
  refine made.induct (motive := fun _ ranges => ∀ e ∈ ranges, e.1 ≤ e.2 ∧ e.2 ≤ BINS) ?_ ?_
  · exact fun e member => absurd member List.not_mem_nil
  · intro b0 b1 ranges less within rest
    exact List.forall_mem_cons.mpr ⟨⟨less.le, within⟩, rest⟩

theorem Scratch.merge_eq_mapM (s : Scratch) (reads : Nat → Nat → Reads) : s.merge reads =
    ((rangesOf (cutsOf s.bins s.threads)).zipIdx.mapM fun e =>
      mergeRange (s.slicesOf (reads e.2) e.1.1 e.1.2)) >>= fun merged => .ok (.file
        (merged.map fun m => m.1) (merged.map fun m => m.2.1).sum (merged.map fun m => m.2.2).sum) :=
  rfl

/-- The merge of whole runs: their distinct pairs a range at a time. -/
def mergedOf (cuts : List Nat) (distinct : List Pair) : Pairs :=
  .file ((rangesOf cuts).map fun e => (shareOf distinct e).flatMap pairBytes) distinct.length
    (Pairs.sameHash distinct)

/-- Whole runs are merged, or a read has failed. -/
theorem Scratch.Kept.merge_eq (kept : s.Kept runs) (reads : Nat → Nat → Reads) :
    ((∃ e, s.merge reads = .error e) ∧ ∃ range j, ¬ Reliable (reads range j)) ∨
    s.merge reads = .ok (mergedOf (cutsOf s.bins s.threads) (sortDedup keyOf runs.flatten)) := by
  have made := cutsOf_cuts s.bins s.threads
  rw [s.merge_eq_mapM]
  generalize cutsOf s.bins s.threads = cuts at made
  have each : ∀ e ∈ (rangesOf cuts).zipIdx,
      ((∃ error, mergeRange (s.slicesOf (reads e.2) e.1.1 e.1.2) = .error error) ∧
        ∃ j, ¬ Reliable (reads e.2 j)) ∨
      mergeRange (s.slicesOf (reads e.2) e.1.1 e.1.2) =
        .ok (written (shareOf (sortDedup keyOf runs.flatten) e.1)) := by
    intro e member
    obtain ⟨order, within⟩ := made.range_within e.1 (List.fst_mem_of_mem_zipIdx member)
    exact kept.mergeRange_eq (reads e.2) order within
  by_cases some_ : ∃ e ∈ (rangesOf cuts).zipIdx,
      ∃ error, mergeRange (s.slicesOf (reads e.2) e.1.1 e.1.2) = .error error
  · left
    obtain ⟨error, failed⟩ := mapM_error some_
    obtain ⟨e, member, error', refused⟩ := some_
    constructor
    · rw [failed]
      exact ⟨error, rfl⟩
    · rcases each e member with ⟨-, unsure⟩ | fine
      · exact ⟨e.2, unsure⟩
      · rw [refused] at fine
        cases fine
  · right
    have merged := mapM_ok fun e member =>
      (each e member).resolve_left fun failed => some_ ⟨e, member, failed.1⟩
    rw [map_zipIdx_fst fun e => written (shareOf (sortDedup keyOf runs.flatten) e)] at merged
    obtain ⟨-, counted, shared⟩ := ranges_total made (sortDedup_ascending keyOf_injective runs.flatten)
    rw [merged, mergedOf, ← counted, ← shared]
    change Except.ok _ = _
    rw [List.map_map, List.map_map, List.map_map]
    rfl

/-- Some range reaches past the end of a file that is too short. -/
theorem Cuts.crossing {cuts : List Nat} (made : Cuts cuts) {run : List Pair} {size : Nat}
    (short : size < PAIR_BYTES * run.length) :
    ∃ e ∈ rangesOf cuts, before pairBin run e.1 < before pairBin run e.2 ∧
      size < PAIR_BYTES * before pairBin run e.2 := by
  have total : before pairBin run BINS = run.length := before_all fun pair _ => pairBin_lt pair
  have onward := made.induct (motive := fun b ranges =>
    PAIR_BYTES * before pairBin run b ≤ size →
      ∃ e ∈ ranges, before pairBin run e.1 < before pairBin run e.2 ∧
        size < PAIR_BYTES * before pairBin run e.2)
    (by
      intro reached
      rw [total] at reached
      omega)
    (by
      intro b0 b1 ranges less within ih reached
      by_cases past : PAIR_BYTES * before pairBin run b1 ≤ size
      · obtain ⟨e, member, crossed⟩ := ih past
        exact ⟨e, List.mem_cons_of_mem _ member, crossed⟩
      · refine ⟨(b0, b1), List.mem_cons_self, ?_, Nat.lt_of_not_le past⟩
        exact Nat.lt_of_mul_lt_mul_left (reached.trans_lt (Nat.lt_of_not_le past)))
  apply onward
  rw [before_zero, Nat.mul_zero]
  exact Nat.zero_le _

/-- A run file shorter than its bins say: the merge ends in an error. -/
theorem Scratch.Recorded.merge_short (recorded : s.Recorded runs) (reads : Nat → Nat → Reads) {j : Nat}
    {file : List UInt8} {run : List Pair} (left : s.runs[j]? = some file) (held : runs[j]? = some run)
    (short : file.length < PAIR_BYTES * run.length) : ∃ e, s.merge reads = .error e := by
  have made := cutsOf_cuts s.bins s.threads
  rw [s.merge_eq_mapM]
  generalize cutsOf s.bins s.threads = cuts at made
  obtain ⟨e, member, order, reaches⟩ := made.crossing short
  obtain ⟨ends, within⟩ := made.range_within e member
  obtain ⟨i, at_⟩ := List.mem_iff_getElem?.mp member
  have numbered : (e, i) ∈ (rangesOf cuts).zipIdx := List.mem_zipIdx_iff_getElem?.mpr at_
  have failed := recorded.mergeRange_short (reads i) left held order ends within reaches
  have some_ : ∃ e ∈ (rangesOf cuts).zipIdx,
      ∃ error, mergeRange (s.slicesOf (reads e.2) e.1.1 e.1.2) = .error error := ⟨(e, i), numbered, failed⟩
  obtain ⟨error, ended⟩ := mapM_error some_
  refine ⟨error, ?_⟩
  rw [ended]
  rfl

end Lexindex.CompactHash
