import Mathlib
import Lexindex.CompactHash.MergeExact

/-!
# The ranges of the merge

The ranges' ends ascend from the first bin to the last.  Where the files are what was spilled, the merge
of a range writes the distinct pairs of its bins; where one is shorter than its offsets say, some
range asks for a record past its end, and the merge ends in an error.
-/

set_option autoImplicit false

namespace Lexindex.CompactHash

/-- What spilling some runs has left: where each bin starts in each, and a file each, whatever has become
of it. -/
structure Scratch.Recorded (s : Scratch) (runs : List (List Pair)) : Prop where
  bins : s.bins = runs.map offsetsOf
  files : s.runs.length = runs.length
  ascending : ∀ run ∈ runs, Ascending keyOf run

/-- The files are what was spilled. -/
structure Scratch.Kept (s : Scratch) (runs : List (List Pair)) : Prop where
  bins : s.bins = runs.map offsetsOf
  whole : s.runs = runs.map fun run => run.flatMap pairBytes
  ascending : ∀ run ∈ runs, Ascending keyOf run

variable {s : Scratch} {runs : List (List Pair)}

theorem Scratch.Kept.recorded (kept : s.Kept runs) : s.Recorded runs :=
  ⟨kept.bins, by rw [kept.whole, List.length_map], kept.ascending⟩

/-! ## The slices of a range -/

/-- A run's share of a range, from where its first bin starts to where the last one ends. -/
def sliceOf (file : List UInt8) (run : List Pair) (b0 b1 : Nat) (reads : Reads) : Slice :=
  Slice.new file (before pairBin run b0) (before pairBin run b1 - before pairBin run b0) reads

theorem Scratch.Recorded.length_slicesOf (recorded : s.Recorded runs) (reads : Nat → Reads) (b0 b1 : Nat) :
    (s.slicesOf reads b0 b1).length = runs.length := by
  rw [Scratch.slicesOf, List.length_map, List.length_zipIdx, List.length_zip, recorded.bins,
    List.length_map, recorded.files, Nat.min_self]

theorem Scratch.Recorded.getElem?_slicesOf (recorded : s.Recorded runs) (reads : Nat → Reads) {b0 b1 j : Nat}
    (order : b0 ≤ b1) (within : b1 ≤ BINS) {slice : Slice}
    (at_ : (s.slicesOf reads b0 b1)[j]? = some slice) :
    ∃ file run, s.runs[j]? = some file ∧ runs[j]? = some run ∧ slice = sliceOf file run b0 b1 (reads j) := by
  rw [Scratch.slicesOf, List.getElem?_map, List.getElem?_zipIdx, Nat.zero_add, Option.map_map,
    Option.map_eq_some_iff] at at_
  obtain ⟨⟨file, offsets⟩, both, rfl⟩ := at_
  obtain ⟨left, right⟩ := List.getElem?_zip_eq_some.mp both
  rw [recorded.bins, List.getElem?_map, Option.map_eq_some_iff] at right
  obtain ⟨run, held, rfl⟩ := right
  refine ⟨file, run, left, held, ?_⟩
  simp only [Function.comp_apply]
  rw [getD_offsetsOf run (order.trans within), getD_offsetsOf run within, sliceOf]

theorem ahead_sliceOf (file : List UInt8) (run : List Pair) (b0 b1 : Nat) (reads : Reads) :
    (sliceOf file run b0 b1 reads).ahead = file.drop (PAIR_BYTES * before pairBin run b0) := by
  rw [sliceOf, Slice.new, Slice.ahead, List.nil_append, Nat.mul_comm]

theorem drop_flatMap_pairBytes (run : List Pair) (first : Nat) :
    (run.flatMap pairBytes).drop (PAIR_BYTES * first) = (run.drop first).flatMap pairBytes := by
  rcases Nat.le_total first run.length with inside | past
  · have size : ((run.take first).flatMap pairBytes).length = PAIR_BYTES * first := by
      rw [length_flatMap_pairBytes, List.length_take, Nat.min_eq_left inside]
    conv => lhs; rw [← List.take_append_drop first run]
    rw [List.flatMap_append, List.drop_left' size]
  · rw [List.drop_eq_nil_of_le past, List.drop_eq_nil_of_le, List.flatMap_nil]
    rw [length_flatMap_pairBytes]
    exact Nat.mul_le_mul_left _ past

/-- A slice of a run that is whole yields the pairs of its bins, where no read fails. -/
theorem sliceOf_whole {run : List Pair} (ascending : Ascending keyOf run) {b0 b1 : Nat} (order : b0 ≤ b1)
    (reads : Reads) :
    ∃ items fails, Drains Slice.next (sliceOf (run.flatMap pairBytes) run b0 b1 reads) items fails ∧
      items.length ≤ before pairBin run b1 - before pairBin run b0 ∧
      (fails = false → items = between pairBin run b0 (b1 - b0)) ∧ (fails = true → ¬ Reliable reads) := by
  have share : (run.drop (before pairBin run b0)).take (before pairBin run b1 - before pairBin run b0) =
      between pairBin run b0 (b1 - b0) := by
    obtain ⟨count, rfl⟩ := Nat.exists_eq_add_of_le order
    rw [Nat.add_sub_cancel_left]
    exact (inOrder_bins ascending).between_eq b0 count
  have inside : before pairBin run b1 - before pairBin run b0 ≤ (run.drop (before pairBin run b0)).length := by
    rw [List.length_drop]
    exact Nat.sub_le_sub_right (before_le_length run b1) _
  have bytes : (sliceOf (run.flatMap pairBytes) run b0 b1 reads).ahead =
      (run.drop (before pairBin run b0)).flatMap pairBytes := by
    rw [ahead_sliceOf, drop_flatMap_pairBytes]
  obtain ⟨items, fails, drained, few, fine, wrong⟩ :=
    Slice.drains _ (s := sliceOf (run.flatMap pairBytes) run b0 b1 reads) rfl (Nat.zero_le _)
  rw [bytes, length_flatMap_pairBytes] at wrong
  refine ⟨items, fails, drained, few, fun sound => ?_, fun failing => ?_⟩
  · rw [(fine sound).2, bytes, ← share]
    change recordsOf _ (before pairBin run b1 - before pairBin run b0) = _
    generalize before pairBin run b1 - before pairBin run b0 = count at inside
    generalize run.drop (before pairBin run b0) = rest at inside
    have size : (rest.take count).length = count := List.length_take_of_le inside
    conv => lhs; rw [← List.take_append_drop count rest, List.flatMap_append]
    conv => lhs; arg 2; rw [← size]
    exact recordsOf_flatMap _ _
  · refine (wrong failing).resolve_left fun short => ?_
    exact absurd short (Nat.not_lt.mpr (Nat.mul_le_mul_left _ inside))

/-- A slice of a run that ends before the slice does ends in an error. -/
theorem sliceOf_short {file : List UInt8} {run : List Pair} {b0 b1 : Nat} {reads : Reads}
    {items : List Pair} {fails : Bool} (order : before pairBin run b0 < before pairBin run b1)
    (short : file.length < PAIR_BYTES * before pairBin run b1)
    (drains : Drains Slice.next (sliceOf file run b0 b1 reads) items fails) : fails = true := by
  obtain ⟨items', fails', drained, -, fine, -⟩ :=
    Slice.drains _ (s := sliceOf file run b0 b1 reads) rfl (Nat.zero_le _)
  rw [(drains.unique drained).2]
  by_contra sound
  obtain ⟨enough, -⟩ := fine (Bool.eq_false_of_not_eq_true sound)
  rw [ahead_sliceOf, List.length_drop] at enough
  change PAIR_BYTES * (before pairBin run b1 - before pairBin run b0) ≤ _ at enough
  rw [Nat.mul_sub] at enough
  have room : PAIR_BYTES * before pairBin run b0 < PAIR_BYTES * before pairBin run b1 :=
    Nat.mul_lt_mul_of_pos_left order (by decide)
  omega

/-! ## A range -/

theorem ascending_between {pairs : List Pair} (ascending : Ascending keyOf pairs) (first count : Nat) :
    Ascending keyOf (between pairBin pairs first count) := by
  rw [← (inOrder_bins ascending).between_eq]
  exact ascending.sublist ((List.take_sublist ..).trans (List.drop_sublist ..))

/-- The distinct pairs of some bins of the runs are those bins of the distinct pairs of all. -/
theorem sortDedup_between (runs : List (List Pair)) (first count : Nat) :
    between pairBin (sortDedup keyOf runs.flatten) first count =
      sortDedup keyOf ((List.range runs.length).flatMap fun j =>
        between pairBin (runs.getD j []) first count) := by
  refine eq_sortDedup keyOf_injective _
    (ascending_between (sortDedup_ascending keyOf_injective _) first count) fun pair => ?_
  rw [mem_between, mem_sortDedup keyOf_injective, List.mem_flatten, List.mem_flatMap]
  constructor
  · rintro ⟨⟨run, member, held⟩, within⟩
    obtain ⟨j, inside, rfl⟩ := List.mem_iff_getElem.mp member
    refine ⟨j, List.mem_range.mpr inside, mem_between.mpr ⟨?_, within⟩⟩
    rwa [List.getD_eq_getElem _ _ inside]
  · rintro ⟨j, member, held⟩
    have inside := List.mem_range.mp member
    obtain ⟨held, within⟩ := mem_between.mp held
    rw [List.getD_eq_getElem _ _ inside] at held
    exact ⟨⟨_, List.getElem_mem inside, held⟩, within⟩

/-- What the merge of one range writes and counts, given its pairs. -/
def written (pairs : List Pair) : List UInt8 × Nat × Nat :=
  (pairs.flatMap pairBytes, pairs.length, Pairs.sameHash pairs)

/-- A range of whole runs is merged, or a read has failed. -/
theorem Scratch.Kept.mergeRange_eq (kept : s.Kept runs) (reads : Nat → Reads) {b0 b1 : Nat}
    (order : b0 ≤ b1) (within : b1 ≤ BINS) :
    ((∃ e, mergeRange (s.slicesOf reads b0 b1) = .error e) ∧ ∃ j, ¬ Reliable (reads j)) ∨
    mergeRange (s.slicesOf reads b0 b1) =
      .ok (written (between pairBin (sortDedup keyOf runs.flatten) b0 (b1 - b0))) := by
  have recorded := kept.recorded
  have each : ∀ j : Nat, ∃ (items : List Pair) (fails : Bool),
      (∀ slice, (s.slicesOf reads b0 b1)[j]? = some slice →
        Drains Slice.next slice items fails ∧ items.length ≤ slice.left) ∧
      (fails = false → items = between pairBin (runs.getD j []) b0 (b1 - b0)) ∧
      (fails = true → j < (s.slicesOf reads b0 b1).length ∧ ¬ Reliable (reads j)) := by
    intro j
    cases at_ : (s.slicesOf reads b0 b1)[j]? with
    | none =>
        refine ⟨_, false, fun _ contra => ?_, fun _ => rfl, fun contra => absurd contra (by decide)⟩
        cases contra
    | some slice =>
        obtain ⟨file, run, left, held, rfl⟩ := recorded.getElem?_slicesOf reads order within at_
        rw [kept.whole, List.getElem?_map, held] at left
        rw [List.getD_eq_getElem?_getD, held, Option.getD_some, ← Option.some.inj left]
        obtain ⟨items, fails, drained, few, fine, wrong⟩ :=
          sliceOf_whole (kept.ascending run (List.mem_of_getElem? held)) order (reads j)
        refine ⟨items, fails, fun slice same => ?_, fine,
          fun failing => ⟨(List.getElem?_eq_some_iff.mp at_).1, wrong failing⟩⟩
        rw [← Option.some.inj same]
        exact ⟨drained, few⟩
  choose items fails drains fine wrong using each
  obtain ⟨failed, ended⟩ := mergeRange_spec (fun j slice at_ => (drains j slice at_).1)
    fun j slice at_ => (drains j slice at_).2
  by_cases some_ : ∃ j, fails j = true
  · obtain ⟨j, failing⟩ := some_
    obtain ⟨inside, unsure⟩ := wrong j failing
    exact .inl ⟨failed ⟨j, inside, failing⟩, j, unsure⟩
  · have sound : ∀ j, items j = between pairBin (runs.getD j []) b0 (b1 - b0) := fun j =>
      fine j (Bool.eq_false_of_not_eq_true fun failing => some_ ⟨j, failing⟩)
    have sorted : ∀ j, Sorted keyOf (items j) := by
      intro j
      rw [sound]
      rcases Nat.lt_or_ge j runs.length with inside | past
      · rw [List.getD_eq_getElem _ _ inside]
        exact (ascending_between (kept.ascending _ (List.getElem_mem inside)) _ _).sorted
      · rw [List.getD_eq_default _ _ past]
        exact (ascending_between List.Pairwise.nil _ _).sorted
    right
    rw [ended (fun j _ => Bool.eq_false_of_not_eq_true fun failing => some_ ⟨j, failing⟩) sorted,
      recorded.length_slicesOf, funext sound, ← sortDedup_between]
    rfl

/-- A range that reaches past the end of a file that is too short. -/
theorem Scratch.Recorded.mergeRange_short (recorded : s.Recorded runs) (reads : Nat → Reads) {j : Nat}
    {file : List UInt8} {run : List Pair} (left : s.runs[j]? = some file) (held : runs[j]? = some run)
    {b0 b1 : Nat} (order : before pairBin run b0 < before pairBin run b1) (ends : b0 ≤ b1) (within : b1 ≤ BINS)
    (short : file.length < PAIR_BYTES * before pairBin run b1) :
    ∃ e, mergeRange (s.slicesOf reads b0 b1) = .error e := by
  have each : ∀ j : Nat, ∃ (items : List Pair) (fails : Bool), ∀ slice,
      (s.slicesOf reads b0 b1)[j]? = some slice →
        Drains Slice.next slice items fails ∧ items.length ≤ slice.left := by
    intro j
    cases at_ : (s.slicesOf reads b0 b1)[j]? with
    | none => exact ⟨[], false, fun _ contra => absurd contra (by simp)⟩
    | some slice =>
        obtain ⟨file, run, -, -, rfl⟩ := recorded.getElem?_slicesOf reads ends within at_
        obtain ⟨items, fails, drained, few, -⟩ :=
          Slice.drains _ (s := sliceOf file run b0 b1 (reads j)) rfl (Nat.zero_le _)
        refine ⟨items, fails, fun slice same => ?_⟩
        rw [← Option.some.inj same]
        exact ⟨drained, few⟩
  choose items fails drains using each
  have inside : j < (s.slicesOf reads b0 b1).length := by
    rw [recorded.length_slicesOf]
    exact (List.getElem?_eq_some_iff.mp held).1
  have drained : ∀ (j : Nat) slice, (s.slicesOf reads b0 b1)[j]? = some slice →
      Drains Slice.next slice (items j) (fails j) := fun j slice at_ => (drains j slice at_).1
  refine (mergeRange_spec drained fun j slice at_ => (drains j slice at_).2).1 ⟨j, inside, ?_⟩
  have at_ := List.getElem?_eq_getElem inside
  obtain ⟨file', run', left', held', same⟩ := recorded.getElem?_slicesOf reads ends within at_
  rw [left] at left'
  rw [held] at held'
  obtain rfl := Option.some.inj left'
  obtain rfl := Option.some.inj held'
  have own := drained j _ at_
  rw [same] at own
  exact sliceOf_short order short own

end Lexindex.CompactHash
