import Mathlib
import Lexindex.DoubleArray.Trie

/-!
# The trie of a lexicon

Every prefix of a key is one node: the breadth-first loop numbers each once, a node's
children are the prefixes one label longer, and the node a key ends at holds its id.
-/

set_option autoImplicit false

namespace Lexindex.DoubleArray

/-! ## Runs -/

/-- Equal labels lie together. -/
def Together (labelAt : Nat → Nat) (lo hi : Nat) : Prop :=
  ∀ i j k, lo ≤ i → i ≤ j → j ≤ k → k < hi → labelAt i = labelAt k → labelAt j = labelAt i

/-- `r` is the run of its label among the ids `lo .. hi`. -/
structure IsRun (labelAt : Nat → Nat) (lo hi : Nat) (r : Nat × Nat × Nat) : Prop where
  low : lo ≤ r.2.1
  some_id : r.2.1 < r.2.2
  high : r.2.2 ≤ hi
  exact : ∀ i, lo ≤ i → i < hi → (r.2.1 ≤ i ∧ i < r.2.2 ↔ labelAt i = r.1)

theorem runEnd_spec (labelAt : Nat → Nat) (c hi j : Nat) :
    j ≤ Trie.runEnd labelAt c hi j ∧ (j ≤ hi → Trie.runEnd labelAt c hi j ≤ hi) ∧
      (∀ i, j ≤ i → i < Trie.runEnd labelAt c hi j → labelAt i = c) ∧
      (Trie.runEnd labelAt c hi j < hi → labelAt (Trie.runEnd labelAt c hi j) ≠ c) := by
  fun_induction Trie.runEnd labelAt c hi j with
  | case1 j more ih =>
      obtain ⟨reached, bounded, same, stops⟩ := ih
      refine ⟨by omega, fun _ => bounded (by omega), fun i above below => ?_, stops⟩
      by_cases here : i = j
      · exact here ▸ more.2
      · exact same i (by omega) below
  | case2 j stop =>
      exact ⟨Nat.le_refl _, fun inside => inside, fun i above below => by omega,
        fun below same => stop ⟨below, same⟩⟩

theorem runs_spec {labelAt : Nat → Nat} {hi lo : Nat} (together : Together labelAt lo hi) :
    (∀ r ∈ Trie.runs labelAt hi lo, IsRun labelAt lo hi r) ∧
      ((Trie.runs labelAt hi lo).map fun r => r.1).Nodup ∧
      ∀ i, lo ≤ i → i < hi → labelAt i ∈ (Trie.runs labelAt hi lo).map fun r => r.1 := by
  fun_induction Trie.runs labelAt hi lo with
  | case1 lo some_left ih =>
      obtain ⟨reached, bounded, same, stops⟩ :=
        runEnd_spec labelAt (labelAt lo) hi (lo + 1)
      have ended := bounded some_left
      generalize Trie.runEnd labelAt (labelAt lo) hi (lo + 1) = past at *
      have later : Together labelAt past hi := fun i j k iLow => together i j k (by omega)
      obtain ⟨each, distinct, covered⟩ := ih later
      -- A label met again past the run would have kept it going.
      have apart : ∀ i, past ≤ i → i < hi → labelAt i ≠ labelAt lo := by
        intro i above below again
        exact stops (by omega) (together lo past i (by omega) (by omega) above below again.symm)
      refine ⟨?_, ?_, ?_⟩
      · intro r member
        rcases List.mem_cons.mp member with rfl | member
        · refine ⟨Nat.le_refl _, reached, ended, fun i above below => ⟨fun inside => ?_, fun held => ?_⟩⟩
          · by_cases here : i = lo
            · exact congrArg labelAt here
            · exact same i (by simp only at inside; omega) inside.2
          · refine ⟨above, Nat.lt_of_not_le fun beyond => apart i beyond below held⟩
        · have run := each r member
          have runLow := run.low
          refine ⟨by omega, run.some_id, run.high, fun i above below => ?_⟩
          by_cases before : i < past
          · have inRun : labelAt i = labelAt lo := by
              by_cases here : i = lo
              · exact congrArg labelAt here
              · exact same i (by omega) before
            have first := (run.exact r.2.1 runLow (Nat.lt_of_lt_of_le run.some_id run.high)).mp
              ⟨Nat.le_refl _, run.some_id⟩
            have other := apart r.2.1 runLow (Nat.lt_of_lt_of_le run.some_id run.high)
            constructor
            · intro inside
              omega
            · intro held
              exact absurd (by rw [first, ← held, inRun]) other
          · exact run.exact i (by omega) below
      · rw [List.map_cons, List.nodup_cons]
        refine ⟨fun member => ?_, distinct⟩
        obtain ⟨r, member, label⟩ := List.mem_map.mp member
        have run := each r member
        have inside := Nat.lt_of_lt_of_le run.some_id run.high
        have first := (run.exact r.2.1 run.low inside).mp ⟨Nat.le_refl _, run.some_id⟩
        exact apart r.2.1 run.low inside (first.trans label)
      · intro i above below
        rw [List.map_cons, List.mem_cons]
        by_cases before : i < past
        · refine .inl ?_
          by_cases here : i = lo
          · exact congrArg labelAt here
          · exact same i (by omega) before
        · exact .inr (covered i (by omega) below)
  | case2 lo none_left => exact ⟨by simp, by simp, fun i above below => by omega⟩

/-! ## The keys -/

/-- What the loop is handed: the keys' labels on end, where each starts, and the order of the keys
from `low` on: the keys with a prefix lie together, the prefix first if it is one of them. -/
structure Lexicon (labels starts : List Nat) (low : Nat) (L : List (List Nat)) : Prop where
  starts_length : starts.length = L.length + 1
  labels_length : labels.length = (L.map List.length).sum
  width : ∀ i, i < L.length → starts.getD (i + 1) 0 - starts.getD i 0 = (L.getD i []).length
  reads : ∀ i d c, i < L.length → (L.getD i [])[d]? = some c →
    labels.getD (starts.getD i 0 + d) 0 = c
  together : ∀ i j k p, low ≤ i → i ≤ j → j ≤ k → k < L.length → p <+: L.getD i [] →
    p <+: L.getD k [] → p <+: L.getD j []
  shorter_first : ∀ i j, low ≤ i → i < j → j < L.length → ¬ L.getD j [] <+: L.getD i []
  some_label : ∀ i, low ≤ i → i < L.length → L.getD i [] ≠ []
  low_le : low ≤ L.length

/-- The nodes of the trie: the root, and every prefix of a key. -/
def prefixes (L : List (List Nat)) : List (List Nat) :=
  [] :: L.flatMap fun key => key.inits.tail

theorem mem_prefixes {L : List (List Nat)} {p : List Nat} :
    p ∈ prefixes L ↔ p = [] ∨ ∃ i, i < L.length ∧ p <+: L.getD i [] := by
  have tail_inits (key : List Nat) : key.inits = [] :: key.inits.tail := by
    cases key <;> simp
  rw [prefixes, List.mem_cons, List.mem_flatMap]
  by_cases root : p = []
  · simp [root]
  · have mem_tail (key : List Nat) : p ∈ key.inits.tail ↔ p <+: key := by
      rw [← List.mem_inits, tail_inits key, List.mem_cons, List.tail_cons]
      simp [root]
    simp only [root, false_or, mem_tail]
    constructor
    · rintro ⟨key, member, before⟩
      obtain ⟨i, inside, rfl⟩ := List.getElem_of_mem member
      exact ⟨i, inside, by rwa [List.getD_eq_getElem _ _ inside]⟩
    · rintro ⟨i, inside, before⟩
      rw [List.getD_eq_getElem _ _ inside] at before
      exact ⟨L[i], List.getElem_mem inside, before⟩

theorem prefixes_length (L : List (List Nat)) :
    (prefixes L).length = (L.map List.length).sum + 1 := by
  rw [prefixes, List.length_cons, List.length_flatMap]
  congr 2
  refine List.map_congr_left fun key _ => ?_
  rw [List.length_tail, List.length_inits, Nat.add_sub_cancel]

/-- The number of nodes. -/
def nodeCount (L : List (List Nat)) : Nat :=
  (prefixes L).dedup.length

theorem length_le_nodeCount {L paths : List (List Nat)} (distinct : paths.Nodup)
    (named : ∀ p ∈ paths, p ∈ prefixes L) : paths.length ≤ nodeCount L :=
  (distinct.subperm fun p member => List.mem_dedup.mpr (named p member)).length_le

theorem nodeCount_le (L : List (List Nat)) : nodeCount L ≤ (L.map List.length).sum + 1 := by
  rw [← prefixes_length]
  exact (List.dedup_sublist _).length_le

theorem length_lt_nodeCount {L : List (List Nat)} {p : List Nat} (named : p ∈ prefixes L) :
    p.length < nodeCount L := by
  have each : ∀ q ∈ (List.range (p.length + 1)).map p.take, q ∈ prefixes L := by
    intro q member
    obtain ⟨size, -, rfl⟩ := List.mem_map.mp member
    have before := List.take_prefix size p
    rcases mem_prefixes.mp named with rfl | ⟨i, inside, whole⟩
    · rw [List.prefix_nil] at before
      exact mem_prefixes.mpr (.inl before)
    · exact mem_prefixes.mpr (.inr ⟨i, inside, before.trans whole⟩)
  have distinct : ((List.range (p.length + 1)).map p.take).Nodup := by
    refine (List.nodup_map_iff_inj_on List.nodup_range).mpr fun a aIn b bIn same => ?_
    have sizes := congrArg List.length same
    rw [List.mem_range] at aIn bIn
    rw [List.length_take, List.length_take] at sizes
    omega
  have bound := length_le_nodeCount distinct each
  rw [List.length_map, List.length_range] at bound
  omega

section Numbering

variable {labels starts : List Nat} {low : Nat} {L : List (List Nat)}

/-- The ids `lo .. hi` are those of the keys under the node `p`. -/
structure Spans (low : Nat) (L : List (List Nat)) (p : List Nat) (span : Nat × Nat × Nat) :
    Prop where
  depth : span.2.2 = p.length
  low_le : low ≤ span.1
  bounded : span.1 ≤ span.2.1
  high_le : span.2.1 ≤ L.length
  exact : ∀ i, low ≤ i → i < L.length → (span.1 ≤ i ∧ i < span.2.1 ↔ p <+: L.getD i [])

/-- The word of the node `p`: the id of the key it spells. -/
def IsWord (low : Nat) (L : List (List Nat)) (p : List Nat) (word : Nat) : Prop :=
  (∀ i, low ≤ i → i < L.length → L.getD i [] = p → word = i) ∧
    ((∀ i, low ≤ i → i < L.length → L.getD i [] ≠ p) → word = NO_WORD)

/-- The test for the key a node spells finds it. -/
theorem Lexicon.spelled_iff (lexicon : Lexicon labels starts low L) {p : List Nat}
    {lo hi d : Nat} (spans : Spans low L p (lo, hi, d)) :
    (lo < hi ∧ starts.getD (lo + 1) 0 - starts.getD lo 0 = d) ↔ lo < hi ∧ L.getD lo [] = p := by
  refine and_congr_right fun some_key => ?_
  have lowLe : low ≤ lo := spans.low_le
  have highLe : hi ≤ L.length := spans.high_le
  have depth : d = p.length := spans.depth
  have inside : lo < L.length := by omega
  have before : p <+: L.getD lo [] := (spans.exact lo lowLe inside).mp ⟨Nat.le_refl _, some_key⟩
  rw [lexicon.width lo inside, depth]
  constructor
  · intro same
    exact (before.eq_of_length same.symm).symm
  · intro same
    rw [same]

/-- Past the key a node spells, every key under it goes on with the label read. -/
theorem Lexicon.goes_on (lexicon : Lexicon labels starts low L) {p : List Nat} {lo hi d i : Nat}
    (spans : Spans low L p (lo, hi, d))
    (above : (if lo < hi ∧ starts.getD (lo + 1) 0 - starts.getD lo 0 = d then lo + 1 else lo) ≤ i)
    (below : i < hi) (c : Nat) :
    labels.getD (starts.getD i 0 + d) 0 = c ↔ p ++ [c] <+: L.getD i [] := by
  have spelled := lexicon.spelled_iff spans
  have lowLe : low ≤ lo := spans.low_le
  have highLe : hi ≤ L.length := spans.high_le
  have depth : d = p.length := spans.depth
  have loLe : lo ≤ i := by
    split at above <;> omega
  have inside : i < L.length := by omega
  have before : p <+: L.getD i [] := (spans.exact i (by omega) inside).mp ⟨loLe, below⟩
  have unfinished : L.getD i [] ≠ p := by
    intro same
    by_cases here : i = lo
    · subst here
      rw [if_pos (spelled.mpr ⟨below, same⟩)] at above
      omega
    · refine lexicon.shorter_first lo i lowLe (by omega) inside ?_
      rw [same]
      exact (spans.exact lo lowLe (by omega)).mp ⟨Nat.le_refl _, show lo < hi by omega⟩
  obtain ⟨rest, whole⟩ := before
  cases rest with
  | nil => exact absurd (by rw [← whole, List.append_nil]) unfinished
  | cons x rest =>
      have read : labels.getD (starts.getD i 0 + d) 0 = x := by
        refine lexicon.reads i d x inside ?_
        rw [← whole, depth, List.getElem?_append_right (Nat.le_refl _), Nat.sub_self,
          List.getElem?_cons_zero]
      rw [read, ← whole, List.prefix_append_right_inj, List.cons_prefix_cons]
      simp [eq_comm]

/-- What a node's runs are: one for each label some key under it goes on with. -/
theorem Lexicon.sortedRuns_spec (lexicon : Lexicon labels starts low L) {p : List Nat}
    {lo hi d : Nat} (spans : Spans low L p (lo, hi, d)) (found : List (Nat × Nat × Nat))
    (sorted : found = Trie.sortedRuns labels starts d
      (if lo < hi ∧ starts.getD (lo + 1) 0 - starts.getD lo 0 = d then lo + 1 else lo) hi) :
    (∀ r ∈ found, Spans low L (p ++ [r.1]) (r.2.1, r.2.2, d + 1) ∧ p ++ [r.1] ∈ prefixes L) ∧
      (found.map fun r => r.1).Pairwise (· < ·) ∧
      ∀ c i, low ≤ i → i < L.length → p ++ [c] <+: L.getD i [] → c ∈ found.map fun r => r.1 := by
  have spelled := lexicon.spelled_iff spans
  have onward := fun i => @Lexicon.goes_on labels starts low L lexicon p lo hi d i spans
  have lowLe : low ≤ lo := spans.low_le
  have highLe : hi ≤ L.length := spans.high_le
  have loLeHi : lo ≤ hi := spans.bounded
  have depth : d = p.length := spans.depth
  rw [Trie.sortedRuns] at sorted
  have startLe : lo ≤ (if lo < hi ∧ starts.getD (lo + 1) 0 - starts.getD lo 0 = d then lo + 1
      else lo) := by
    split <;> omega
  -- Only the key the node spells lies before the first id left.
  have early : ∀ i, lo ≤ i → i < (if lo < hi ∧ starts.getD (lo + 1) 0 - starts.getD lo 0 = d
      then lo + 1 else lo) → L.getD i [] = p := by
    intro i above below
    split at below
    · rename_i here
      have same : i = lo := by omega
      exact same ▸ (spelled.mp here).2
    · omega
  generalize (if lo < hi ∧ starts.getD (lo + 1) 0 - starts.getD lo 0 = d then lo + 1
    else lo) = from_ at *
  have together : Together (fun i => labels.getD (starts.getD i 0 + d) 0) from_ hi := by
    intro i j k iLow ij jk kHigh same
    refine (onward j (by omega) (by omega) _).mpr ?_
    refine lexicon.together i j k _ (by omega) ij jk (by omega) ?_ ?_
    · exact (onward i iLow (by omega) _).mp rfl
    · exact (onward k (by omega) kHigh _).mp same.symm
  obtain ⟨each, distinct, covered⟩ := runs_spec together
  have perm : found.Perm (Trie.runs (fun i => labels.getD (starts.getD i 0 + d) 0) hi from_) := by
    rw [sorted]
    exact List.mergeSort_perm ..
  refine ⟨fun r member => ?_, ?_, ?_⟩
  · have run := each r (perm.mem_iff.mp member)
    have runLow := run.low
    have someId := run.some_id
    have runHigh := run.high
    refine ⟨⟨?_, Nat.le_trans (Nat.le_trans lowLe startLe) runLow, Nat.le_of_lt someId,
      Nat.le_trans runHigh highLe, fun i iLow inside => ?_⟩, ?_⟩
    · rw [List.length_append, List.length_singleton, ← depth]
    · by_cases under : from_ ≤ i ∧ i < hi
      · rw [← onward i under.1 under.2]
        exact run.exact i under.1 under.2
      · refine ⟨fun held => ?_, fun longer => ?_⟩
        · simp only at held
          omega
        have shorter := (spans.exact i iLow inside).mpr
          ((List.prefix_append p [r.1]).trans longer)
        simp only at shorter
        have same := early i shorter.1 (by omega)
        have size := longer.length_le
        rw [same, List.length_append, List.length_singleton] at size
        omega
    · refine mem_prefixes.mpr (.inr ⟨r.2.1, by omega, ?_⟩)
      exact (onward r.2.1 runLow (by omega) _).mp
        ((run.exact r.2.1 runLow (by omega)).mp ⟨Nat.le_refl _, someId⟩)
  · have ordered : found.Pairwise fun r s => r.1 ≤ s.1 := by
      rw [sorted]
      have pairs := @List.pairwise_mergeSort _ (fun r s : Nat × Nat × Nat => r.1 ≤ s.1)
        (by simp; omega) (by simp; omega)
        (Trie.runs (fun i => labels.getD (starts.getD i 0 + d) 0) hi from_)
      exact pairs.imp (by simp)
    have apart : (found.map fun r => r.1).Pairwise (· ≠ ·) := (perm.map _).nodup_iff.mpr distinct
    have weakly : (found.map fun r => r.1).Pairwise (· ≤ ·) := List.pairwise_map.mpr ordered
    exact (weakly.and apart).imp fun both => Nat.lt_of_le_of_ne both.1 both.2
  · intro c i iLow inside longer
    have under := (spans.exact i iLow inside).mpr ((List.prefix_append p [c]).trans longer)
    simp only at under
    have late : from_ ≤ i := by
      by_contra before
      have same := early i under.1 (by omega)
      have size := longer.length_le
      rw [same, List.length_append, List.length_singleton] at size
      omega
    rw [(perm.map _).mem_iff, ← (onward i late under.2 c).mpr longer]
    exact covered i late under.2

end Numbering

end Lexindex.DoubleArray
