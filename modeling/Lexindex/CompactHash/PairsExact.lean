import Mathlib
import Lexindex.CompactHash.Cuts

/-!
# The external pair sort is exact

Whatever the run budget and the number of threads, a stream of pairs becomes its distinct pairs,
ascending, its distinct hashes, ascending, and their counts.  A read that fails and a file that was cut
short end in an error.
-/

set_option autoImplicit false

namespace Lexindex.CompactHash

/-! ## The runs of a stream -/

variable {s : Scratch} {runs : List (List Pair)}

theorem Scratch.Kept.spill (kept : s.Kept runs) (run : List Pair) :
    (s.spill run).Kept (runs ++ [sortDedup keyOf run]) := by
  obtain ⟨bins, whole, ascending⟩ := kept
  refine ⟨?_, ?_, ?_⟩
  · rw [Scratch.spill, bins, List.map_append, dedup_sortRun]
    rfl
  · rw [Scratch.spill, whole, List.map_append, dedup_sortRun]
    rfl
  · intro other member
    rcases List.mem_append.mp member with earlier | last
    · exact ascending other earlier
    · rw [List.mem_singleton.mp last]
      exact sortDedup_ascending keyOf_injective run

theorem Scratch.kept_new (threads : Nat) : (Scratch.new threads).Kept [] :=
  ⟨rfl, rfl, fun _ member => absurd member List.not_mem_nil⟩

/-- The pairs taken so far are those of the spilled runs and of the open one. -/
structure Gathered (s : Scratch) (runs : List (List Pair)) (run taken : List Pair) : Prop where
  kept : s.Kept runs
  members : ∀ pair, pair ∈ taken ↔ pair ∈ runs.flatten ∨ pair ∈ run

theorem Gathered.spill {run taken : List Pair} (gathered : Gathered s runs run taken) :
    Gathered (s.spill run) (runs ++ [sortDedup keyOf run]) [] taken := by
  refine ⟨gathered.kept.spill run, fun pair => ?_⟩
  rw [gathered.members, List.flatten_append, List.mem_append, List.flatten_singleton,
    mem_sortDedup keyOf_injective, or_iff_left List.not_mem_nil]

theorem Gathered.push {run taken : List Pair} (gathered : Gathered s runs run taken) (pair : Pair) :
    Gathered s runs (run ++ [pair]) (taken ++ [pair]) := by
  refine ⟨gathered.kept, fun other => ?_⟩
  rw [List.mem_append, List.mem_append, gathered.members, or_assoc]

theorem gather_spec (cap : Nat) (pairs : List Pair) : ∀ {s : Scratch} {runs : List (List Pair)}
    {run taken : List Pair}, Gathered s runs run taken →
    ∃ runs', Gathered (gather cap pairs run s).2 runs' (gather cap pairs run s).1 (taken ++ pairs) := by
  induction pairs with
  | nil =>
      intro s runs run taken gathered
      rw [List.append_nil]
      exact ⟨runs, gathered⟩
  | cons pair pairs ih =>
      intro s runs run taken gathered
      have pushed := gathered.push pair
      rw [gather, List.append_cons taken]
      split
      · exact ih pushed.spill
      · exact ih pushed

/-! ## Reading back -/

/-- The hashes other than the last one taken, each once, ascending. -/
theorem hashesFrom_spec (pairs : List Pair) : ∀ (last : Option UInt64),
    (pairs.Pairwise fun a b => a.1.toNat ≤ b.1.toNat) →
    (∀ l ∈ last, ∀ pair ∈ pairs, l.toNat ≤ pair.1.toNat) →
    (∀ h, h ∈ hashesFrom last pairs ↔ some h ≠ last ∧ h ∈ pairs.map Prod.fst) ∧
    (hashesFrom last pairs).Pairwise fun a b => a.toNat < b.toNat := by
  induction pairs with
  | nil =>
      intro last _ _
      refine ⟨fun h => ⟨fun member => absurd member List.not_mem_nil, fun both => ?_⟩, List.Pairwise.nil⟩
      exact absurd both.2 List.not_mem_nil
  | cons pair pairs ih =>
      intro last sorted above
      obtain ⟨least, sorted⟩ := List.pairwise_cons.mp sorted
      rw [hashesFrom]
      by_cases same : last = some pair.1
      · obtain ⟨members, ascending⟩ := ih last sorted fun l known other member =>
          above l known other (List.mem_cons_of_mem _ member)
        rw [if_pos same]
        refine ⟨fun h => (members h).trans (and_congr_right fun other => ?_), ascending⟩
        rw [List.map_cons, List.mem_cons, or_iff_right]
        intro is
        exact other (by rw [same, is])
      · obtain ⟨members, ascending⟩ := ih (some pair.1) sorted fun l known other member => by
          rw [← Option.some.inj known]
          exact least other member
        have from_ : ∀ h ∈ pairs.map Prod.fst, pair.1.toNat ≤ h.toNat := by
          intro h member
          obtain ⟨next, held, rfl⟩ := List.mem_map.mp member
          exact least next held
        have larger : ∀ h ∈ hashesFrom (some pair.1) pairs, pair.1.toNat < h.toNat := by
          intro h member
          obtain ⟨other, held⟩ := (members h).mp member
          refine lt_of_le_of_ne (from_ h held) fun equal => other ?_
          rw [UInt64.toNat_inj.mp equal]
        rw [if_neg same]
        refine ⟨fun h => ?_, List.pairwise_cons.mpr ⟨larger, ascending⟩⟩
        rw [List.mem_cons, members, List.map_cons, List.mem_cons]
        constructor
        · rintro (rfl | ⟨other, held⟩)
          · exact ⟨fun is => same is.symm, .inl rfl⟩
          · refine ⟨fun is => other ?_, .inr held⟩
            have low := above h is.symm pair List.mem_cons_self
            rw [UInt64.toNat_inj.mp (Nat.le_antisymm low (from_ h held))]
        · rintro ⟨-, rfl | held⟩
          · exact .inl rfl
          · by_cases first : h = pair.1
            · exact .inl first
            · exact .inr ⟨fun is => first (Option.some.inj is), held⟩

/-- What is read back: the pairs and their hashes, or an error. -/
structure Pairs.Yields (stored : Pairs) (distinct : List Pair) : Prop where
  counts : stored.counts = (distinct.length, Pairs.sameHash distinct)
  source : ∀ reads, ∃ source items fails, stored.source reads = .ok source ∧ source.Placed ∧
    Drains From.next source items fails ∧ (fails = false → items = distinct) ∧
    (fails = true → ¬ Reliable reads)

theorem Pairs.yields_memory (pairs : List Pair) : (Pairs.memory pairs).Yields pairs :=
  ⟨rfl, fun _ => ⟨_, pairs, false, rfl, trivial, From.memory_drains pairs, fun _ => rfl,
    fun contra => absurd contra (by decide)⟩⟩

theorem whole_flatMap (pairs : List Pair) : Whole (pairs.flatMap pairBytes) := by
  rw [Whole, length_flatMap_pairBytes, Nat.mul_mod_right]

theorem allRecords_flatMap (pairs : List Pair) : allRecords (pairs.flatMap pairBytes) = pairs := by
  have records := recordsOf_flatMap pairs []
  rw [List.append_nil] at records
  rw [allRecords, length_flatMap_pairBytes, Nat.mul_div_cancel_left _ (by decide), records]

/-- The files read as one stream: their records, where each is whole and no read fails. -/
theorem Pairs.file_source {files : List (List UInt8)} (some_ : files ≠ []) (n side : Nat) (reads : Reads) :
    ∃ source items fails, (Pairs.file files n side).source reads = .ok source ∧ source.Placed ∧
      Drains From.next source items fails ∧
      (fails = false → (∀ f ∈ files, Whole f) ∧ items = files.flatMap allRecords) ∧
      (fails = true → (¬ ∀ f ∈ files, Whole f) ∨ ¬ Reliable reads) := by
  cases files with
  | nil => exact absurd rfl some_
  | cons first rest =>
      have placed : (From.file { rest, file := first, held := [], reads } [] 0).Placed :=
        ⟨Nat.le_refl 0, Nat.zero_le _⟩
      obtain ⟨items, fails, drained, -, fine, wrong⟩ := From.drains _ rfl placed
      exact ⟨_, items, fails, rfl, placed, drained, fine, wrong⟩

theorem Pairs.yields_merged {cuts : List Nat} (made : Cuts cuts) {distinct : List Pair}
    (ascending : Ascending keyOf distinct) : (mergedOf cuts distinct).Yields distinct := by
  refine ⟨rfl, fun reads => ?_⟩
  obtain ⟨joined, -, -⟩ := ranges_total made ascending
  have some_ : rangesOf cuts ≠ [] :=
    made.induct (motive := fun b ranges => b < BINS → ranges ≠ []) (fun less => absurd less (lt_irrefl _))
      (fun _ _ _ _ _ _ _ => List.cons_ne_nil _ _) (by decide)
  have whole : ∀ f ∈ (rangesOf cuts).map (fun e => (shareOf distinct e).flatMap pairBytes), Whole f := by
    intro f member
    obtain ⟨e, -, rfl⟩ := List.mem_map.mp member
    exact whole_flatMap _
  have records : ((rangesOf cuts).map fun e => (shareOf distinct e).flatMap pairBytes).flatMap allRecords =
      distinct := by
    rw [List.flatMap_map, ← joined]
    exact List.flatMap_congr fun e _ => by rw [allRecords_flatMap, joined]
  obtain ⟨source, items, fails, opened, placed, drained, fine, wrong⟩ :=
    Pairs.file_source (mt List.map_eq_nil_iff.mp some_) distinct.length (Pairs.sameHash distinct) reads
  exact ⟨source, items, fails, opened, placed, drained, fun sound => (fine sound).2.trans records,
    fun failing => (wrong failing).resolve_left fun torn => torn whole⟩

/-! ## The stream -/

/-- What a stream is stored as: its distinct pairs, ascending, or an error where a read has failed. -/
theorem streamPairs_spec (pairs : List Pair) (threads runBytes : Nat) (reads : Nat → Nat → Reads) :
    ((∃ e, streamPairs pairs threads runBytes true reads = .error e) ∧ ∃ range j, ¬ Reliable (reads range j)) ∨
    ∃ stored, streamPairs pairs threads runBytes true reads = .ok stored ∧
      stored.Yields (sortDedup keyOf pairs) := by
  have begun : Gathered (Scratch.new threads) [] [] [] :=
    ⟨Scratch.kept_new threads, fun pair => by simp⟩
  obtain ⟨runs, gathered⟩ := gather_spec (max (runBytes / PAIR_BYTES) 1) pairs begun
  rw [List.nil_append] at gathered
  unfold streamPairs
  simp only
  generalize gather (max (runBytes / PAIR_BYTES) 1) pairs [] (Scratch.new threads) = state at gathered
  obtain ⟨run, s⟩ := state
  simp only [Bool.not_true, Bool.false_eq_true, if_false] at gathered ⊢
  by_cases fitted : s.runs = []
  · rw [if_pos fitted]
    have none_ : runs = [] := by
      rw [gathered.kept.whole, List.map_eq_nil_iff] at fitted
      exact fitted
    have same : dedup (sortRun run s.threads) = sortDedup keyOf pairs := by
      rw [dedup_sortRun]
      refine eq_sortDedup keyOf_injective _ (sortDedup_ascending keyOf_injective run) fun pair => ?_
      rw [mem_sortDedup keyOf_injective, gathered.members, none_, List.flatten_nil,
        or_iff_right List.not_mem_nil]
    exact .inr ⟨_, rfl, same ▸ Pairs.yields_memory _⟩
  · rw [if_neg fitted]
    have whole : ∃ runs', (if run = [] then s else s.spill run).Kept runs' ∧
        ∀ pair, pair ∈ pairs ↔ pair ∈ runs'.flatten := by
      by_cases empty : run = []
      · rw [if_pos empty]
        refine ⟨runs, gathered.kept, fun pair => ?_⟩
        rw [gathered.members, empty, or_iff_left List.not_mem_nil]
      · rw [if_neg empty]
        refine ⟨_, gathered.spill.kept, fun pair => ?_⟩
        rw [gathered.spill.members, or_iff_left List.not_mem_nil]
    obtain ⟨runs', kept, members⟩ := whole
    generalize (if run = [] then s else s.spill run) = filled at kept
    have same : sortDedup keyOf runs'.flatten = sortDedup keyOf pairs := by
      refine eq_sortDedup keyOf_injective _ (sortDedup_ascending keyOf_injective _) fun pair => ?_
      rw [mem_sortDedup keyOf_injective, members]
    rcases kept.merge_eq reads with ⟨⟨e, failed⟩, unsure⟩ | merged
    · rw [failed]
      exact .inl ⟨⟨_, rfl⟩, unsure⟩
    · rw [merged, same]
      exact .inr ⟨_, rfl, Pairs.yields_merged (cutsOf_cuts ..) (sortDedup_ascending keyOf_injective pairs)⟩

/-! ## What is read of it -/

/-- A source that opens, and yields these items unless a read of it fails. -/
def ReadsBack {σ α : Type} (next : σ → Except Failure (Option (α × σ))) (opened : Except Failure σ)
    (reads : Reads) (items : List α) : Prop :=
  ∃ source got fails, opened = .ok source ∧ Drains next source got fails ∧
    (fails = false → got = items) ∧ (fails = true → ¬ Reliable reads)

/-- A source that opens, and ends in an error. -/
def EndsInError {σ α : Type} (next : σ → Except Failure (Option (α × σ))) (opened : Except Failure σ) :
    Prop :=
  ∃ source got, opened = .ok source ∧ Drains next source got true

theorem Pairs.reps_of_source {stored : Pairs} {reads : Reads} {source : From}
    (opened : stored.source reads = .ok source) :
    stored.reps reads = .ok { source, last := none } := by
  rw [Pairs.reps, opened]
  rfl

theorem Pairs.Yields.all {stored : Pairs} {distinct : List Pair} (yields : stored.Yields distinct)
    (reads : Reads) : ReadsBack From.next (stored.all reads) reads distinct := by
  obtain ⟨source, items, fails, opened, -, drained, fine, wrong⟩ := yields.source reads
  exact ⟨source, items, fails, opened, drained, fine, wrong⟩

theorem Pairs.Yields.reps {stored : Pairs} {distinct : List Pair} (yields : stored.Yields distinct)
    (reads : Reads) : ReadsBack Reps.next (stored.reps reads) reads (hashesFrom none distinct) := by
  obtain ⟨source, items, fails, opened, placed, drained, fine, wrong⟩ := yields.source reads
  exact ⟨_, _, fails, Pairs.reps_of_source opened, Reps.drains drained placed none,
    fun sound => by rw [fine sound], wrong⟩

/-- The distinct hashes of a stream's distinct pairs, ascending. -/
theorem hashes_spec (pairs : List Pair) :
    ((hashesFrom none (sortDedup keyOf pairs)).Pairwise fun a b => a.toNat < b.toNat) ∧
    ∀ h, h ∈ hashesFrom none (sortDedup keyOf pairs) ↔ h ∈ pairs.map Prod.fst := by
  have sorted : (sortDedup keyOf pairs).Pairwise fun a b => a.1.toNat ≤ b.1.toNat :=
    (sortDedup_ascending keyOf_injective pairs).imp fun less => keyOf_le less.le
  obtain ⟨members, ascending⟩ := hashesFrom_spec (sortDedup keyOf pairs) none sorted
    fun l known => by cases known
  refine ⟨ascending, fun h => (members h).trans ?_⟩
  rw [and_iff_right (Option.some_ne_none h), List.mem_map, List.mem_map]
  exact exists_congr fun pair => by rw [mem_sortDedup keyOf_injective]

/-! ## Files cut short -/

theorem Scratch.kept_foldl (runs : List (List Pair)) : ∀ {s : Scratch} {kept : List (List Pair)},
    s.Kept kept → (runs.foldl Scratch.spill s).Kept (kept ++ runs.map (sortDedup keyOf)) := by
  induction runs with
  | nil =>
      intro s kept holds
      rw [List.map_nil, List.append_nil]
      exact holds
  | cons run runs ih =>
      intro s kept holds
      rw [List.map_cons, List.append_cons]
      exact ih (holds.spill run)

/-- A run file shorter than its recorded bins. -/
theorem merge_of_short (threads : Nat) (runs : List (List Pair)) {files : List (List UInt8)}
    (count : files.length = runs.length) {j : Nat} {file : List UInt8} {offsets : List Nat}
    (left : files[j]? = some file)
    (recorded : (runs.foldl Scratch.spill (Scratch.new threads)).bins[j]? = some offsets)
    (short : file.length < PAIR_BYTES * offsets.getD BINS 0) (reads : Nat → Nat → Reads) :
    ∃ e, Scratch.merge { runs.foldl Scratch.spill (Scratch.new threads) with runs := files } reads =
      .error e := by
  have kept := Scratch.kept_foldl runs (Scratch.kept_new threads)
  rw [List.nil_append] at kept
  rw [kept.bins, List.getElem?_map, Option.map_eq_some_iff] at recorded
  obtain ⟨run, held, rfl⟩ := recorded
  have total : before pairBin run BINS = run.length := before_all fun pair _ => pairBin_lt pair
  rw [getD_offsetsOf run (Nat.le_refl _), total] at short
  have holds : Scratch.Recorded
      { runs.foldl Scratch.spill (Scratch.new threads) with runs := files } (runs.map (sortDedup keyOf)) :=
    ⟨kept.bins, by rw [count, List.length_map], kept.ascending⟩
  exact holds.merge_short reads left held short

/-- A merged file that ends inside a record. -/
theorem torn_file {files : List (List UInt8)} {f : List UInt8} (member : f ∈ files)
    (torn : f.length % PAIR_BYTES ≠ 0) (n side : Nat) (reads : Reads) :
    EndsInError From.next ((Pairs.file files n side).all reads) ∧
      EndsInError Reps.next ((Pairs.file files n side).reps reads) := by
  obtain ⟨source, items, fails, opened, placed, drained, fine, -⟩ :=
    Pairs.file_source (List.ne_nil_of_mem member) n side reads
  have failing : fails = true := by
    by_contra sound
    exact torn ((fine (Bool.eq_false_of_not_eq_true sound)).1 f member)
  rw [failing] at drained
  exact ⟨⟨source, items, opened, drained⟩, _, _, Pairs.reps_of_source opened,
    Reps.drains drained placed none⟩

/-- The external pair sort is exact: whatever the stream, the run budget, the threads and how much each
read gets, what is stored yields the distinct pairs and the distinct hashes, ascending, with their counts;
a run is sorted in place; and a file that was cut short ends in an error. -/
theorem pair_sort_exact (pairs : List Pair) (threads runBytes : Nat) :
    (∀ reads,
      ((∃ e, streamPairs pairs threads runBytes true reads = .error e) ∧
        ∃ range j, ¬ Reliable (reads range j)) ∨
      ∃ stored distinct hashes, streamPairs pairs threads runBytes true reads = .ok stored ∧
        Ascending keyOf distinct ∧ (∀ pair, pair ∈ distinct ↔ pair ∈ pairs) ∧
        (hashes.Pairwise fun a b => a.toNat < b.toNat) ∧ (∀ h, h ∈ hashes ↔ h ∈ pairs.map Prod.fst) ∧
        stored.counts = (distinct.length, Pairs.sameHash distinct) ∧
        ∀ back, ReadsBack From.next (stored.all back) back distinct ∧
          ReadsBack Reps.next (stored.reps back) back hashes) ∧
    (∀ run, (sortRun run threads).Perm run ∧ Sorted keyOf (sortRun run threads)) ∧
    (∀ (runs : List (List Pair)) (files : List (List UInt8)), files.length = runs.length →
      ∀ (j : Nat) (file : List UInt8) (offsets : List Nat), files[j]? = some file →
        (runs.foldl Scratch.spill (Scratch.new threads)).bins[j]? = some offsets →
        file.length < PAIR_BYTES * offsets.getD BINS 0 → ∀ reads, ∃ e,
          Scratch.merge { runs.foldl Scratch.spill (Scratch.new threads) with runs := files } reads =
            .error e) ∧
    ∀ files : List (List UInt8), (∃ f ∈ files, f.length % PAIR_BYTES ≠ 0) → ∀ n side reads,
      EndsInError From.next ((Pairs.file files n side).all reads) ∧
        EndsInError Reps.next ((Pairs.file files n side).reps reads) := by
  refine ⟨fun reads => ?_, fun run => sortRun_spec run threads, ?_, ?_⟩
  · refine (streamPairs_spec pairs threads runBytes reads).imp_right ?_
    rintro ⟨stored, ran, yields⟩
    obtain ⟨ascending, members⟩ := hashes_spec pairs
    exact ⟨stored, sortDedup keyOf pairs, hashesFrom none (sortDedup keyOf pairs), ran,
      sortDedup_ascending keyOf_injective pairs, mem_sortDedup keyOf_injective pairs, ascending, members,
      yields.counts, fun back => ⟨yields.all back, yields.reps back⟩⟩
  · intro runs files count j file offsets left recorded short reads
    exact merge_of_short threads runs count left recorded short reads
  · rintro files ⟨f, member, torn⟩ n side reads
    exact torn_file member torn n side reads

theorem pair_sort_exact_torn :
    (∃ e, Scratch.merge { [[(5, 1)]].foldl Scratch.spill (Scratch.new 2) with runs := [[7]] }
      (fun _ _ _ => some 0) = .error e) ∧
    EndsInError From.next ((Pairs.file [[1, 2, 3]] 0 0).all fun _ => some 0) := by
  have one : (offsetsOf (dedup (sortRun [(5, 1)] 2))).getD BINS 0 = 1 := by
    rw [getD_offsetsOf _ (Nat.le_refl _), dedup_sortRun, sortDedup, List.mergeSort_singleton]
    decide
  obtain ⟨-, -, shorter, torn⟩ := pair_sort_exact [(5, 1)] 2 16
  refine ⟨shorter [[(5, 1)]] [[7]] rfl 0 [7] (offsetsOf (dedup (sortRun [(5, 1)] 2))) rfl rfl ?_ _,
    (torn [[1, 2, 3]] ?_ 0 0 _).1⟩
  · rw [one]
    decide
  · exact ⟨_, List.mem_singleton_self _, by decide⟩

end Lexindex.CompactHash
