import Mathlib
import Lexindex.Mphf.GroupedSound

/-!
# Every source feeds the same chunks

A chunk of a level is the groups of its buckets, one after another, with the counts
that say where each begins.  Keys grouped already, a stream cut at the chunks' ends
and keys in any order sorted a chunk at a time all hand out exactly that.
-/

set_option autoImplicit false

namespace Lexindex.Mphf

/-- The bucket of a key on a level. -/
def bucketKey (buckets h : Nat) : Nat :=
  bucketOf h buckets

/-- Where each of a chunk's buckets begins in it, and where the last one ends. -/
def chunkOffsets (hs : List Nat) (buckets first count : Nat) : List Nat :=
  (List.range (count + 1)).map fun i =>
    before (bucketKey buckets) hs (first + i) - before (bucketKey buckets) hs first

/-- Chunk `k` of the keys of a level. -/
def chunkAt (hs starts : List Nat) (buckets k : Nat) : Chunk where
  index := k
  keys := between (bucketKey buckets) hs (firstOf starts k) (chunkBuckets starts buckets k)
  start := chunkOffsets hs buckets (firstOf starts k) (chunkBuckets starts buckets k)

theorem chunkOffsets_length (hs : List Nat) (buckets first count : Nat) :
    (chunkOffsets hs buckets first count).length = count + 1 := by
  rw [chunkOffsets, List.length_map, List.length_range]

theorem chunkOffsets_getD (hs : List Nat) (buckets first : Nat) {count i : Nat} (le : i ≤ count) :
    (chunkOffsets hs buckets first count).getD i 0 =
      before (bucketKey buckets) hs (first + i) - before (bucketKey buckets) hs first := by
  rw [chunkOffsets, List.getD_eq_getElem?_getD, List.getElem?_map,
    List.getElem?_range (by omega)]
  rfl

/-! ## Boundaries of grouped keys -/

/-- The running maximum of the ends, from `low`. -/
def runningMax (low : Nat) : List Nat → List Nat
  | [] => []
  | e :: rest => max low e :: runningMax (max low e) rest

theorem runningMax_fold (ends : List Nat) : ∀ (done : List Nat) (low : Nat),
    (ends.foldl (fun (done : List Nat × Nat) e => (done.1 ++ [max done.2 e], max done.2 e))
      (done, low)).1 = done ++ runningMax low ends := by
  induction ends with
  | nil =>
      intro done low
      rw [List.foldl_nil, runningMax, List.append_nil]
  | cons e rest ih =>
      intro done low
      rw [List.foldl_cons, ih, runningMax, List.append_assoc, List.singleton_append]

/-- The ends the keys store: the last key of a bucket stores how many are in it or before. -/
def storedEnds (keys : List Nat) (buckets first count : Nat) : List Nat :=
  keys.zipIdx.foldl (fun ends key => ends.set (bucketOf key.1 buckets - first) (0 + key.2 + 1))
    (List.replicate count 0)

theorem storedEnds_snoc (keys : List Nat) (h buckets first count : Nat) :
    storedEnds (keys ++ [h]) buckets first count =
      (storedEnds keys buckets first count).set (bucketOf h buckets - first) (keys.length + 1) := by
  rw [storedEnds, List.zipIdx_append, List.foldl_append]
  simp [storedEnds]

theorem storedEnds_length (keys : List Nat) (buckets first count : Nat) :
    (storedEnds keys buckets first count).length = count := by
  induction keys using List.reverseRecOn with
  | nil => simp [storedEnds]
  | append_singleton keys h ih => rw [storedEnds_snoc, List.length_set, ih]

/-- A bucket with a key stores where its keys end; one with none stores nothing. -/
theorem storedEnds_getD {keys : List Nat} {buckets first count : Nat}
    (ordered : InOrder (bucketKey buckets) keys) (within : ∀ h ∈ keys,
      first ≤ bucketOf h buckets ∧ bucketOf h buckets < first + count) {i : Nat} (iLt : i < count) :
    (storedEnds keys buckets first count).getD i 0 =
      if groupOf (bucketKey buckets) keys (first + i) = [] then 0
      else before (bucketKey buckets) keys (first + i + 1) := by
  induction keys using List.reverseRecOn with
  | nil => simp [storedEnds, groupOf, iLt]
  | append_singleton keys h ih =>
      rw [InOrder, List.pairwise_append] at ordered
      have earlier := ih ordered.1 fun g member => within g (List.mem_append_left _ member)
      have hWithin := within h (by simp)
      have last : ∀ g ∈ keys, bucketOf g buckets ≤ bucketOf h buckets :=
        fun g member => ordered.2.2 g member h (by simp)
      rw [storedEnds_snoc, List.getD_eq_getElem?_getD, List.getElem?_set, storedEnds_length,
        groupOf_append, before_append]
      by_cases here : bucketOf h buckets - first = i
      · have own : bucketKey buckets h = first + i := by
          rw [bucketKey]
          omega
        have all : before (bucketKey buckets) keys (first + i + 1) = keys.length := by
          apply before_all
          intro g member
          have le := last g member
          rw [bucketKey] at own ⊢
          omega
        rw [if_pos here, if_pos (by omega), all]
        simp [groupOf, before, own]
      · have apart : bucketKey buckets h ≠ first + i := by
          rw [bucketKey]
          omega
        rw [if_neg here, ← List.getD_eq_getElem?_getD, earlier]
        have none : groupOf (bucketKey buckets) [h] (first + i) = [] := by
          simp [groupOf, apart]
        rw [none, List.append_nil]
        by_cases empty : groupOf (bucketKey buckets) keys (first + i) = []
        · rw [if_pos empty, if_pos empty]
        · obtain ⟨g, member⟩ := List.exists_mem_of_ne_nil _ empty
          obtain ⟨gMember, gKey⟩ := mem_groupOf.mp member
          have le := last g gMember
          rw [bucketKey] at gKey apart
          have above : before (bucketKey buckets) [h] (first + i + 1) = 0 := by
            rw [before, List.countP_eq_zero]
            intro x xMember
            obtain rfl := List.mem_singleton.mp xMember
            rw [decide_eq_true_eq, bucketKey]
            omega
          rw [if_neg empty, if_neg empty, above]
          rfl

/-- Filled in from the left, the stored ends are the counts. -/
theorem runningMax_stored {keys : List Nat} {buckets first : Nat} :
    ∀ (ends : List Nat) (from_ : Nat), first ≤ from_ →
      (∀ i < ends.length, ends.getD i 0 =
        if groupOf (bucketKey buckets) keys (from_ + i) = [] then 0
        else before (bucketKey buckets) keys (from_ + i + 1)) →
      runningMax (before (bucketKey buckets) keys from_) ends =
        (List.range ends.length).map fun i => before (bucketKey buckets) keys (from_ + i + 1) := by
  intro ends
  induction ends with
  | nil =>
      intro from_ _ _
      rfl
  | cons e rest ih =>
      intro from_ le stored
      have eIs := stored 0 (by simp)
      rw [List.getD_cons_zero, Nat.add_zero] at eIs
      have next : max (before (bucketKey buckets) keys from_) e =
          before (bucketKey buckets) keys (from_ + 1) := by
        have grows := @before_mono _ (bucketKey buckets) keys _ _ (Nat.le_succ from_)
        have step := @before_succ _ (bucketKey buckets) keys from_
        rw [eIs]
        split
        · next empty =>
          rw [empty, List.length_nil] at step
          omega
        · exact Nat.max_eq_right grows
      rw [runningMax, next, List.length_cons, List.range_succ_eq_map, List.map_cons, List.map_map,
        ih (from_ + 1) (by omega) ?_]
      · congr 1
        apply List.map_congr_left
        intro i _
        simp only [Function.comp]
        congr 1
        omega
      · intro i iLt
        have later := stored (i + 1) (by simpa using iLt)
        rw [List.getD_cons_succ] at later
        rw [later]
        congr 2 <;> congr 1 <;> omega

theorem bucketEnds_eq {keys : List Nat} {buckets first count : Nat}
    (ordered : InOrder (bucketKey buckets) keys) (within : ∀ h ∈ keys,
      first ≤ bucketOf h buckets ∧ bucketOf h buckets < first + count) :
    0 :: bucketEnds keys 0 buckets first count =
      (List.range (count + 1)).map fun i => before (bucketKey buckets) keys (first + i) := by
  have none : before (bucketKey buckets) keys first = 0 := by
    rw [before, List.countP_eq_zero]
    intro h member
    have le := (within h member).1
    rw [decide_eq_true_eq, bucketKey]
    omega
  have stored := @runningMax_stored keys buckets first (storedEnds keys buckets first count) first
    (Nat.le_refl _) fun i iLt => storedEnds_getD ordered within (by rwa [storedEnds_length] at iLt)
  rw [none, storedEnds_length] at stored
  have endsAre : bucketEnds keys 0 buckets first count =
      runningMax 0 (storedEnds keys buckets first count) := runningMax_fold _ [] 0
  rw [endsAre, stored, List.range_succ_eq_map, List.map_cons, List.map_map, Nat.add_zero, none]
  rfl

/-- Grouped keys cut at a chunk's buckets are the chunk, with its offsets. -/
theorem chunkAt_of_between {hs starts : List Nat} {buckets k : Nat} :
    (⟨k, between (bucketKey buckets) hs (firstOf starts k) (chunkBuckets starts buckets k),
      0 :: bucketEnds (between (bucketKey buckets) hs (firstOf starts k)
        (chunkBuckets starts buckets k)) 0 buckets (starts.getD k 0)
          (chunkBuckets starts buckets k)⟩ : Chunk) = chunkAt hs starts buckets k := by
  have ends := @bucketEnds_eq (between (bucketKey buckets) hs (firstOf starts k)
    (chunkBuckets starts buckets k)) buckets (firstOf starts k) (chunkBuckets starts buckets k)
    (between_inOrder hs _ _) fun h member => (mem_between.mp member).2
  rw [chunkAt, chunkOffsets]
  congr 1
  refine ends.trans ?_
  apply List.map_congr_left
  intro i member
  exact before_between (by rw [List.mem_range] at member; omega)

/-! ## A chunk sorted on its way out -/

/-- The chunk of a key by the table of the chunks. -/
theorem groupOf_chunk {hs starts : List Nat} {buckets k b : Nat} (tiled : Tiled starts buckets)
    (word : buckets < 2 ^ 64) (words : ∀ h ∈ hs, h < 2 ^ 64) (kLt : k < starts.length)
    (firstLe : firstOf starts k ≤ b) (bLt : b < endOf starts buckets k) :
    groupOf (bucketKey buckets)
      (groupOf (fun h => (ChunkOf.new starts buckets).of (bucketOf h buckets)) hs k) b =
      groupOf (bucketKey buckets) hs b := by
  have inside := tiled.inside k kLt
  rw [groupOf, groupOf, List.filter_filter]
  apply List.filter_congr
  intro h member
  by_cases here : bucketOf h buckets = b
  · have inChunk := (ChunkOf.of_eq_iff tiled word (bucketOf_lt (words h member) (by omega)) kLt).mpr
      ⟨by rw [here]; exact firstLe, by rw [here]; exact bLt⟩
    rw [bucketKey, decide_eq_true here, decide_eq_true inChunk]
    rfl
  · simp [bucketKey, here]

theorem mem_groupOf_chunk {hs starts : List Nat} {buckets k h : Nat} (tiled : Tiled starts buckets)
    (word : buckets < 2 ^ 64) (words : ∀ h ∈ hs, h < 2 ^ 64) (kLt : k < starts.length)
    (member : h ∈ groupOf (fun h => (ChunkOf.new starts buckets).of (bucketOf h buckets)) hs k) :
    firstOf starts k ≤ bucketOf h buckets ∧ bucketOf h buckets < endOf starts buckets k := by
  obtain ⟨inHs, inChunk⟩ := mem_groupOf.mp member
  have inside := tiled.inside k kLt
  have nonempty := tiled.nonempty k kLt
  exact (ChunkOf.of_eq_iff tiled word (bucketOf_lt (words h inHs) (by omega)) kLt).mp inChunk

/-- The counting sort of the keys of a run of buckets groups them, with the offsets. -/
theorem sortChunk_spec {keys : List Nat} {buckets first count : Nat}
    (within : ∀ h ∈ keys, first ≤ bucketOf h buckets ∧ bucketOf h buckets < first + count) :
    (Grouped.sortChunk keys buckets first count).1 = between (bucketKey buckets) keys first count ∧
      (Grouped.sortChunk keys buckets first count).2.take (count + 1) =
        (List.range (count + 1)).map fun i => before (bucketKey buckets) keys (first + i) := by
  have small : ∀ h ∈ keys, bucketOf h buckets - first < count := by
    intro h member
    have := within h member
    omega
  have groups : ∀ i, groupOf (fun h => bucketOf h buckets - first) keys i =
      groupOf (bucketKey buckets) keys (first + i) := by
    intro i
    apply List.filter_congr
    intro h member
    have := within h member
    apply decide_eq_decide.mpr
    change bucketOf h buckets - first = i ↔ bucketOf h buckets = first + i
    omega
  have counts : ∀ i, before (fun h => bucketOf h buckets - first) keys i =
      before (bucketKey buckets) keys (first + i) := by
    intro i
    apply List.countP_congr
    intro h member
    have := within h member
    rw [decide_eq_true_eq, decide_eq_true_eq]
    change bucketOf h buckets - first < i ↔ bucketOf h buckets < first + i
    omega
  have begins := @runningSums_tally _ (fun h => bucketOf h buckets - first) 2 (count + 2) count
    keys (by decide) (by omega)
  have tallied := tally_spec (fun h => bucketOf h buckets - first) 2 (count + 2) keys
  have summed := runningSums_spec 2 count (tally (fun h => bucketOf h buckets - first) 2 (count + 2)
    keys) (by omega) (by decide)
  have sorted := @scatter_spec _ (fun h => bucketOf h buckets - first) 1 count keys
    (runningSums 2 count (tally (fun h => bucketOf h buckets - first) 2 (count + 2) keys))
    (List.replicate keys.length 0) small (by omega)
    (fun b bLt => begins b (by omega)) List.length_replicate
  obtain ⟨placed, length, cursors, front⟩ := sorted
  constructor
  · refine placed.trans ?_
    rw [grouped, between, List.range'_eq_map_range, List.flatMap_map]
    exact List.flatMap_congr fun i _ => groups i
  · have zero : (runningSums 2 count (tally (fun h => bucketOf h buckets - first) 2 (count + 2)
        keys)).getD 0 0 = 0 := by
      rw [summed.2.1 0 (by omega), tallied.2 0 (by omega), List.countP_eq_zero]
      intro h _
      rw [decide_eq_true_eq]
      omega
    have read : ∀ i ≤ count, (Grouped.sortChunk keys buckets first count).2.getD i 0 =
        before (bucketKey buckets) keys (first + i) := by
      intro i le
      cases i with
      | zero =>
          refine (front 0 (by decide)).trans (zero.trans ?_)
          rw [← counts, before_zero]
      | succ i => exact (cursors i (by omega)).trans (counts (i + 1))
    have sized : (Grouped.sortChunk keys buckets first count).2.length = count + 2 := by
      refine length.trans ?_
      rw [summed.1, tallied.1]
    apply List.ext_getElem
    · rw [List.length_take, sized, List.length_map, List.length_range]
      omega
    · intro i iLt _
      rw [List.length_take, sized] at iLt
      have readAt := read i (by omega)
      rw [List.getD_eq_getElem?_getD, List.getElem?_eq_getElem (by omega)] at readAt
      rw [List.getElem_take, List.getElem_map, List.getElem_range]
      exact readAt

/-! ## Where a source is -/

/-- A source that holds the keys `hs`; one that is read in order holds them in bucket order. -/
def Source.Holds (buckets : Nat) (hs : List Nat) : Source → Prop
  | .slice keys => keys = hs ∧ InOrder (bucketKey buckets) hs
  | .stream hashes => hashes = hs ∧ InOrder (bucketKey buckets) hs
  | .unsorted keys => keys = hs

/-- The bucket a source has been read up to when `k` chunks are claimed. -/
def reached (starts : List Nat) (buckets k : Nat) : Nat :=
  starts.getD k buckets

/-- A copy being handed out, a group at a time. -/
structure Grouped.Copied (copied : Grouped) (hs starts : List Nat) (buckets : Nat) : Prop where
  hsIs : copied.hs = hs
  bucketsIs : copied.buckets = buckets
  chunkIs : copied.chunk = ChunkOf.new starts buckets
  marked : ∀ g < min mostGroups starts.length, copied.Marked g
  ofChunk : ∀ k < starts.length, copied.groupOf.getD k 0 < min mostGroups starts.length ∧
    copied.firsts.getD (copied.groupOf.getD k 0) 0 ≤ k ∧
    k < copied.firsts.getD (copied.groupOf.getD k 0 + 1) 0
  held : copied.keys = (copied.copyGroup copied.claim.group).1
  bounds : copied.claim.bounds = (copied.copyGroup copied.claim.group).2

/-- A feed of the keys `hs` whose first `k` chunks are claimed. -/
def Feed.At (hs starts : List Nat) (buckets k : Nat) : Feed → Prop
  | .slice keys bounds next =>
      keys = hs ∧ InOrder (bucketKey buckets) hs ∧
        bounds = (List.range (starts.length + 1)).map (fun j =>
          before (bucketKey buckets) hs (reached starts buckets j)) ∧
        min next starts.length = k
  | .stream c =>
      InOrder (bucketKey buckets) hs ∧ c.next = k ∧
        c.pending.toList ++ c.hashes =
          hs.drop (before (bucketKey buckets) hs (reached starts buckets k)) ∧
        c.fed = before (bucketKey buckets) hs (reached starts buckets k)
  | .grouped copied => copied.Copied hs starts buckets ∧ copied.claim.next = k

theorem reached_lt (starts : List Nat) (buckets : Nat) {k : Nat} (kLt : k < starts.length) :
    reached starts buckets k = firstOf starts k := by
  rw [reached, firstOf, List.getD_eq_getElem?_getD, List.getD_eq_getElem?_getD,
    List.getElem?_eq_getElem kLt]
  rfl

theorem reached_succ (starts : List Nat) (buckets k : Nat) :
    reached starts buckets (k + 1) = endOf starts buckets k := rfl

theorem reached_all (starts : List Nat) (buckets : Nat) :
    reached starts buckets starts.length = buckets := by
  rw [reached, List.getD_eq_getElem?_getD, List.getElem?_eq_none (Nat.le_refl _)]
  rfl

theorem first_add_buckets {starts : List Nat} {buckets k : Nat} (tiled : Tiled starts buckets)
    (kLt : k < starts.length) :
    firstOf starts k + chunkBuckets starts buckets k = endOf starts buckets k := by
  have nonempty := tiled.nonempty k kLt
  rw [chunkBuckets_eq]
  omega

section Feeding

variable {hs starts : List Nat} {buckets : Nat} (tiled : Tiled starts buckets)
include tiled

theorem Feed.new_at {source : Source} (words : ∀ h ∈ hs, h < 2 ^ 64) (positive : 0 < buckets)
    (holds : source.Holds buckets hs) (threads : Nat) :
    (Feed.new source starts buckets threads).At hs starts buckets 0 := by
  have begin_ : reached starts buckets 0 = 0 := by
    rw [reached_lt _ _ tiled.some_, tiled.first]
  cases source with
  | slice keys =>
      obtain ⟨rfl, ordered⟩ := holds
      refine ⟨rfl, ordered, ?_, Nat.zero_min _⟩
      have small : ∀ h ∈ keys, bucketKey buckets h < buckets :=
        fun h member => bucketOf_lt (words h member) positive
      have cut : ∀ first, (keys.takeWhile fun h => decide (bucketOf h buckets < first)).length =
          before (bucketKey buckets) keys first := by
        intro first
        have taken := congrArg List.length (ordered.takeWhile first)
        rw [List.length_take, Nat.min_eq_left (before_le_length _ _)] at taken
        exact taken
      rw [List.range_succ, List.map_append, List.map_singleton, reached_all, before_all small]
      congr 1
      apply List.ext_getElem
      · rw [List.length_map, List.length_map, List.length_range]
      · intro j jLt _
        rw [List.length_map] at jLt
        rw [List.getElem_map, List.getElem_map, List.getElem_range, cut, reached_lt _ _ jLt, firstOf,
          List.getD_eq_getElem?_getD, List.getElem?_eq_getElem jLt]
        rfl
  | stream hashes =>
      obtain ⟨rfl, ordered⟩ := holds
      refine ⟨ordered, rfl, ?_, ?_⟩
      · rw [begin_, before_zero]
        rfl
      · rw [begin_, before_zero]
  | unsorted keys =>
      obtain rfl : keys = hs := holds
      refine ⟨⟨rfl, rfl, rfl, fun g gLt => ?_, fun k kLt => ?_, rfl, rfl⟩, rfl⟩
      · exact Grouped.new_marked threads tiled gLt
      · have inGroup := @Grouped.new_groupAt keys _ _ threads tiled _ kLt
        exact ⟨inGroup.2, (Grouped.new_group_iff threads tiled inGroup.2).mpr ⟨kLt, rfl⟩⟩

/-! ## The next chunk -/

omit tiled in
theorem cut_spec {limit : Option Nat} {below : Nat → Bool} {xs : List Nat}
    (same : ∀ h ∈ xs, (!Feed.ends buckets limit h) = below h) :
    (Feed.cut buckets limit xs).1 = xs.takeWhile below ∧
      (Feed.cut buckets limit xs).2.1.toList ++ (Feed.cut buckets limit xs).2.2 =
        xs.dropWhile below := by
  induction xs with
  | nil => exact ⟨rfl, rfl⟩
  | cons h rest ih =>
      have own := same h (by simp)
      have later := ih fun g member => same g (List.mem_cons_of_mem _ member)
      rw [Feed.cut, List.takeWhile_cons, List.dropWhile_cons, ← own]
      by_cases last : Feed.ends buckets limit h = true
      · rw [if_pos last, last]
        exact ⟨rfl, rfl⟩
      · rw [if_neg last]
        rw [Bool.not_eq_true] at last
        rw [last]
        exact ⟨congrArg (h :: ·) later.1, later.2⟩

omit tiled in
theorem ends_eq {k h : Nat} (inside : bucketOf h buckets < buckets) :
    (!Feed.ends buckets starts[k + 1]? h) =
      decide (bucketOf h buckets < endOf starts buckets k) := by
  rw [endOf, List.getD_eq_getElem?_getD, Feed.ends]
  cases starts[k + 1]? with
  | none => simp [inside]
  | some l =>
      rw [Option.any_some, ← decide_not, Option.getD_some, decide_eq_decide]
      omega

theorem Feed.stream_next {c : Cutter} {k : Nat} (words : ∀ h ∈ hs, h < 2 ^ 64)
    (positive : 0 < buckets) (kLt : k < starts.length)
    (state : (Feed.stream c).At hs starts buckets k) :
    ((Feed.stream c).next starts buckets).1 = some (chunkAt hs starts buckets k) ∧
      ((Feed.stream c).next starts buckets).2.At hs starts buckets (k + 1) := by
  obtain ⟨ordered, rfl, held, fedIs⟩ := state
  rw [reached_lt _ _ kLt] at held fedIs
  have nonempty := tiled.nonempty c.next kLt
  have heldOrdered : InOrder (bucketKey buckets)
      (hs.drop (before (bucketKey buckets) hs (firstOf starts c.next))) :=
    List.Pairwise.sublist (List.drop_sublist _ _) ordered
  have same : ∀ h ∈ hs.drop (before (bucketKey buckets) hs (firstOf starts c.next)),
      (!Feed.ends buckets starts[c.next + 1]? h) =
        decide (bucketKey buckets h < endOf starts buckets c.next) := by
    intro h member
    have word := words h (List.mem_of_mem_drop member)
    exact ends_eq (bucketOf_lt word positive)
  obtain ⟨read, rest⟩ := cut_spec same
  rw [heldOrdered.takeWhile, ordered.before_drop (Nat.le_of_lt nonempty),
    ← first_add_buckets tiled kLt, ordered.between_eq] at read
  rw [heldOrdered.dropWhile, ordered.before_drop (Nat.le_of_lt nonempty), List.drop_drop] at rest
  have grows := @before_mono _ (bucketKey buckets) hs _ _ (Nat.le_of_lt nonempty)
  rw [Feed.next]
  simp only
  rw [if_neg (Nat.not_le.mpr kLt), held, read]
  refine ⟨congrArg some chunkAt_of_between, ordered, rfl, ?_, ?_⟩
  · rw [reached_succ]
    refine rest.trans ?_
    congr 1
    omega
  · rw [reached_succ, fedIs, between_length, first_add_buckets tiled kLt]
    exact Nat.add_sub_of_le grows

theorem Feed.slice_next {keys bounds : List Nat} {next k : Nat} (kLt : k < starts.length)
    (state : (Feed.slice keys bounds next).At hs starts buckets k) :
    ((Feed.slice keys bounds next).next starts buckets).1 = some (chunkAt hs starts buckets k) ∧
      ((Feed.slice keys bounds next).next starts buckets).2.At hs starts buckets (k + 1) := by
  obtain ⟨rfl, ordered, boundsAre, nextIs⟩ := state
  obtain rfl : next = k := by omega
  have length : bounds.length = starts.length + 1 := by
    rw [boundsAre, List.length_map, List.length_range]
  have read : ∀ j ≤ starts.length, bounds.getD j 0 =
      before (bucketKey buckets) keys (reached starts buckets j) := by
    intro j le
    rw [boundsAre, List.getD_eq_getElem?_getD, List.getElem?_map, List.getElem?_range (by omega)]
    rfl
  have cut : (keys.drop (bounds.getD next 0)).take (bounds.getD (next + 1) 0 - bounds.getD next 0) =
      between (bucketKey buckets) keys (firstOf starts next) (chunkBuckets starts buckets next) := by
    rw [read _ (Nat.le_of_lt kLt), read _ kLt, reached_lt _ _ kLt, reached_succ,
      ← first_add_buckets tiled kLt, ordered.between_eq]
  rw [Feed.next]
  simp only
  rw [if_neg (by omega), cut]
  exact ⟨congrArg some chunkAt_of_between, rfl, ordered, boundsAre, by omega⟩

omit tiled in
theorem Grouped.Copied.turned {copied : Grouped} (holds : copied.Copied hs starts buckets) :
    copied.turned.Copied hs starts buckets ∧ copied.turned.claim.next = copied.claim.next ∧
      copied.turned.claim.group = copied.groupOf.getD copied.claim.next 0 ∧
      copied.turned.groupOf = copied.groupOf := by
  rw [Grouped.turned]
  split
  · exact ⟨⟨holds.hsIs, holds.bucketsIs, holds.chunkIs,
      fun g gLt => ⟨(holds.marked g gLt).positive, (holds.marked g gLt).sharded,
        (holds.marked g gLt).counted, (holds.marked g gLt).mine⟩,
      holds.ofChunk, rfl, rfl⟩, rfl, rfl, rfl⟩
  · next same =>
    rw [ne_eq, not_not] at same
    exact ⟨holds, rfl, same, rfl⟩

theorem Feed.grouped_next {copied : Grouped} {k : Nat} (word : buckets < 2 ^ 64)
    (words : ∀ h ∈ hs, h < 2 ^ 64) (kLt : k < starts.length)
    (state : (Feed.grouped copied).At hs starts buckets k) :
    ((Feed.grouped copied).next starts buckets).1 = some (chunkAt hs starts buckets k) ∧
      ((Feed.grouped copied).next starts buckets).2.At hs starts buckets (k + 1) := by
  obtain ⟨holds, rfl⟩ := state
  obtain ⟨now, nextIs, groupIs, groupsAre⟩ := holds.turned
  have ofChunk := now.ofChunk copied.claim.next kLt
  rw [groupsAre, ← groupIs] at ofChunk
  have slice := Grouped.copyGroup_slice (now.marked _ ofChunk.1) ofChunk.2.1 ofChunk.2.2
  rw [← now.held, ← now.bounds, now.hsIs] at slice
  have chunkKeyIs : copied.turned.chunkKey =
      fun h => (ChunkOf.new starts buckets).of (bucketOf h buckets) := by
    funext h
    rw [Grouped.chunkKey, now.chunkIs, now.bucketsIs]
  rw [chunkKeyIs] at slice
  have cut : copied.turned.chunkKeys copied.claim.next =
      groupOf (fun h => (ChunkOf.new starts buckets).of (bucketOf h buckets)) hs
        copied.claim.next := by
    rw [Grouped.chunkKeys, groupsAre, ← groupIs]
    exact slice
  obtain ⟨sorted, offsets⟩ := sortChunk_spec fun h member => by
    have within := mem_groupOf_chunk tiled word words kLt member
    rwa [← first_add_buckets tiled kLt] at within
  have groups : ∀ b, firstOf starts copied.claim.next ≤ b →
      b < firstOf starts copied.claim.next + chunkBuckets starts buckets copied.claim.next →
      groupOf (bucketKey buckets) (groupOf (fun h =>
        (ChunkOf.new starts buckets).of (bucketOf h buckets)) hs copied.claim.next) b =
        groupOf (bucketKey buckets) hs b := by
    intro b firstLe bLt
    rw [first_add_buckets tiled kLt] at bLt
    exact groupOf_chunk tiled word words kLt firstLe bLt
  rw [Feed.next]
  simp only
  rw [Grouped.next, if_neg (by omega)]
  simp only
  refine ⟨congrArg some ?_, ⟨now.hsIs, now.bucketsIs, now.chunkIs,
    fun g gLt => ⟨(now.marked g gLt).positive, (now.marked g gLt).sharded,
      (now.marked g gLt).counted, (now.marked g gLt).mine⟩,
    now.ofChunk, now.held, now.bounds⟩, rfl⟩
  rw [cut, now.bucketsIs]
  have upTo : ∀ i ≤ chunkBuckets starts buckets copied.claim.next,
      between (bucketKey buckets) (groupOf (fun h =>
        (ChunkOf.new starts buckets).of (bucketOf h buckets)) hs copied.claim.next)
          (firstOf starts copied.claim.next) i =
        between (bucketKey buckets) hs (firstOf starts copied.claim.next) i := by
    intro i le
    refine List.flatMap_congr fun b member => ?_
    rw [List.mem_range'_1] at member
    exact groups b member.1 (by omega)
  have none : before (bucketKey buckets) (groupOf (fun h =>
      (ChunkOf.new starts buckets).of (bucketOf h buckets)) hs copied.claim.next)
        (firstOf starts copied.claim.next) = 0 := by
    rw [before, List.countP_eq_zero]
    intro h member
    have within := mem_groupOf_chunk tiled word words kLt member
    rw [decide_eq_true_eq, bucketKey]
    omega
  rw [chunkAt, chunkOffsets]
  congr 1
  · exact sorted.trans (upTo _ (Nat.le_refl _))
  · refine offsets.trans ?_
    apply List.map_congr_left
    intro i member
    rw [List.mem_range] at member
    have counted := congrArg List.length (upTo i (by omega))
    rw [between_length, between_length, none, Nat.sub_zero] at counted
    exact counted

/-- Claiming a chunk hands out the groups of its buckets, whatever the source. -/
theorem Feed.next_at {feed : Feed} {k : Nat} (word : buckets < 2 ^ 64)
    (words : ∀ h ∈ hs, h < 2 ^ 64) (positive : 0 < buckets) (kLt : k < starts.length)
    (state : feed.At hs starts buckets k) :
    (feed.next starts buckets).1 = some (chunkAt hs starts buckets k) ∧
      (feed.next starts buckets).2.At hs starts buckets (k + 1) := by
  cases feed with
  | slice keys bounds next => exact Feed.slice_next tiled kLt state
  | stream c => exact Feed.stream_next tiled words positive kLt state
  | grouped copied => exact Feed.grouped_next tiled word words kLt state

omit tiled in
/-- Nothing is handed out once every chunk is claimed. -/
theorem Feed.next_end {feed : Feed} (state : feed.At hs starts buckets starts.length) :
    (feed.next starts buckets).1 = none ∧
      (feed.next starts buckets).2.At hs starts buckets starts.length := by
  cases feed with
  | slice keys bounds next =>
      obtain ⟨keysAre, ordered, boundsAre, nextIs⟩ := state
      have length : bounds.length = starts.length + 1 := by
        rw [boundsAre, List.length_map, List.length_range]
      rw [Feed.next]
      simp only
      rw [if_pos (by omega)]
      exact ⟨rfl, keysAre, ordered, boundsAre, by omega⟩
  | stream c =>
      rw [Feed.next]
      simp only
      rw [if_pos (Nat.le_of_eq state.2.1.symm)]
      exact ⟨rfl, state⟩
  | grouped copied =>
      rw [Feed.next]
      simp only
      rw [Grouped.next, if_pos state.2]
      exact ⟨rfl, state⟩

omit tiled in
/-- Every key has been handed out once every chunk is claimed. -/
theorem Feed.fed_at {feed : Feed} (words : ∀ h ∈ hs, h < 2 ^ 64) (positive : 0 < buckets)
    (state : feed.At hs starts buckets starts.length) : feed.fed = hs.length := by
  cases feed with
  | slice keys bounds next =>
      obtain ⟨rfl, _⟩ := state
      rfl
  | stream c =>
      obtain ⟨_, _, _, fedIs⟩ := state
      have small : ∀ h ∈ hs, bucketKey buckets h < buckets :=
        fun h member => bucketOf_lt (words h member) positive
      rw [reached_all, before_all small] at fedIs
      exact fedIs
  | grouped copied =>
      obtain ⟨holds, _⟩ := state
      rw [Feed.fed, holds.hsIs]

end Feeding

end Lexindex.Mphf