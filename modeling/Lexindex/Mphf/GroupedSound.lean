import Mathlib
import Lexindex.Mphf.Chunks

/-!
# A group's copy holds its chunks' keys

A word of group numbers picks out the keys of a group, in order, so a shard hands on
its keys of the group, and the copy of a group is its chunks' keys, chunk after
chunk, each in the order the keys came; the counts say where a chunk begins.
-/

set_option autoImplicit false

namespace Lexindex.Mphf

/-! ## Slices -/

theorem chunksOf_flatten {size : Nat} (positive : 0 < size) (xs : List Nat) :
    (chunksOf size xs).flatten = xs := by
  induction xs using chunksOf.induct size with
  | case1 xs more ih => rw [chunksOf, if_pos more, List.flatten_cons, ih, List.take_append_drop]
  | case2 xs stop =>
      rw [chunksOf, if_neg stop]
      have none : xs = [] := by
        by_contra nonempty
        exact stop ⟨positive, nonempty⟩
      rw [none]
      rfl

theorem chunksOf_nil (size : Nat) : chunksOf size [] = [] := by
  rw [chunksOf, if_neg (by simp)]

theorem chunksOf_cons {size : Nat} (positive : 0 < size) {xs : List Nat} (nonempty : xs ≠ []) :
    chunksOf size xs = xs.take size :: chunksOf size (xs.drop size) := by
  rw [chunksOf, if_pos ⟨positive, nonempty⟩]

theorem chunksOf_length_le {size : Nat} (xs : List Nat) :
    ∀ part ∈ chunksOf size xs, part.length ≤ size := by
  induction xs using chunksOf.induct size with
  | case1 xs more ih =>
      rw [chunksOf, if_pos more]
      intro part member
      rcases List.mem_cons.mp member with rfl | later
      · exact List.length_take_le _ _
      · exact ih part later
  | case2 xs stop =>
      rw [chunksOf, if_neg stop]
      simp

/-- A list of whole pieces has so many of them. -/
theorem chunksOf_whole {size : Nat} (positive : 0 < size) :
    ∀ (count : Nat) (xs : List Nat), xs.length = size * count →
      (chunksOf size xs).length = count := by
  intro count
  induction count with
  | zero =>
      intro xs length
      have none : xs = [] := List.length_eq_zero_iff.mp (by rw [length, Nat.mul_zero])
      rw [none, chunksOf_nil]
      rfl
  | succ count ih =>
      intro xs length
      have nonempty : xs ≠ [] := by
        rintro rfl
        rw [List.length_nil, Nat.mul_succ] at length
        omega
      rw [chunksOf_cons positive nonempty, List.length_cons, ih (xs.drop size)]
      rw [List.length_drop, length, Nat.mul_succ]
      omega

namespace Grouped

/-! ## Words of group numbers -/

theorem pattern_getLsbD : ∀ g < 4, ∀ i < 64,
    (BitVec.ofNat 64 g * even).getLsbD i = g.testBit (i % 2) := by
  decide +kernel

theorem even_getLsbD : ∀ i < 64, even.getLsbD i = decide (i % 2 = 0) := by
  decide +kernel

theorem groupWord_getLsbD {groups : List Nat} {cs : List Nat} (few : cs.length ≤ 32)
    (small : ∀ c ∈ cs, groups.getD c 0 < 4) {i : Nat} (iLt : i < 64) :
    (groupWord groups cs).getLsbD i =
      (decide (i / 2 < cs.length) && (groups.getD (cs.getD (i / 2) 0) 0).testBit (i % 2)) := by
  induction cs using List.reverseRecOn with
  | nil => simp [groupWord]
  | append_singleton cs c ih =>
      rw [List.length_append, List.length_singleton] at few
      have cSmall : groups.getD c 0 < 4 := small c (by simp)
      have snoc : groupWord groups (cs ++ [c]) = groupWord groups cs |||
          (BitVec.ofNat 64 (groups.getD c 0) <<< (2 * cs.length)) := by
        rw [groupWord, List.zipIdx_append, List.foldl_append]
        simp [groupWord]
      rw [snoc, BitVec.getLsbD_or, ih (by omega) fun d member => small d (List.mem_append_left _ member),
        BitVec.getLsbD_shiftLeft, BitVec.getLsbD_ofNat, List.length_append, List.length_singleton]
      by_cases earlier : i / 2 < cs.length
      · have within : i / 2 < cs.length + 1 := by omega
        have inShift : i < 2 * cs.length := by omega
        rw [List.getD_append _ _ _ _ earlier]
        simp [earlier, within, inShift]
      · by_cases here : i / 2 = cs.length
        · have bit : i - 2 * cs.length = i % 2 := by omega
          have notShift : ¬ i < 2 * cs.length := by omega
          have bitLt : i % 2 < 64 := by omega
          rw [List.getD_append_right _ _ _ _ (by omega), here, bit]
          simp [iLt, notShift, bitLt]
        · have outside : ¬ i / 2 < cs.length + 1 := by omega
          have high : (groups.getD c 0).testBit (i - 2 * cs.length) = false := by
            apply Nat.testBit_lt_two_pow
            calc
              groups.getD c 0 < 2 ^ 2 := cSmall
              _ ≤ 2 ^ (i - 2 * cs.length) := Nat.pow_le_pow_right (by decide) (by omega)
          simp only [earlier, outside, high, decide_false, Bool.false_and, Bool.and_false,
            Bool.or_false]

/-- Two group numbers agree when both bits of theirs do. -/
theorem sameGroup : ∀ a < 4, ∀ b < 4,
    (!((a.testBit 0 ^^ b.testBit 0) || (a.testBit 1 ^^ b.testBit 1))) = decide (a = b) := by
  decide

/-- The keys a word of group numbers picks out are those of the group. -/
theorem ours_groupWord {groups : List Nat} {chunkOfKey : Nat → Nat} {keys : List Nat} {g : Nat}
    (few : keys.length ≤ 32) (gLt : g < 4)
    (small : ∀ h ∈ keys, groups.getD (chunkOfKey h) 0 < 4) :
    ours g (groupWord groups (keys.map chunkOfKey)) keys =
      keys.filter fun h => decide (groups.getD (chunkOfKey h) 0 = g) := by
  have wordBit : ∀ i < 64, (groupWord groups (keys.map chunkOfKey)).getLsbD i =
      (decide (i / 2 < keys.length) &&
        (groups.getD (chunkOfKey (keys.getD (i / 2) 0)) 0).testBit (i % 2)) := by
    intro i iLt
    rw [groupWord_getLsbD (by simpa using few) (by simpa using small) iLt, List.length_map]
    by_cases inside : i / 2 < keys.length
    · have read : (keys.map chunkOfKey).getD (i / 2) 0 = chunkOfKey (keys.getD (i / 2) 0) := by
        rw [List.getD_eq_getElem?_getD, List.getD_eq_getElem?_getD, List.getElem?_map,
          List.getElem?_eq_getElem inside]
        rfl
      rw [read]
    · simp [inside]
  have marks : (~~~((groupWord groups (keys.map chunkOfKey) ^^^ (BitVec.ofNat 64 g * even)) |||
        (groupWord groups (keys.map chunkOfKey) ^^^ (BitVec.ofNat 64 g * even)) >>> 1) &&& even &&&
        (BitVec.allOnes 64 >>> (64 - 2 * keys.length))).ones =
      ((List.range keys.length).filter fun j =>
        decide (groups.getD (chunkOfKey (keys.getD j 0)) 0 = g)).map (2 * ·) := by
    have rightSorted : (((List.range keys.length).filter fun j =>
        decide (groups.getD (chunkOfKey (keys.getD j 0)) 0 = g)).map (2 * ·)).Pairwise (· < ·) := by
      rw [List.pairwise_map]
      refine (List.Pairwise.filter _ List.pairwise_lt_range).imp ?_
      intro a b lt
      omega
    refine (Word.ones_sorted _).eq_of_mem_iff rightSorted ?_
    intro i
    rw [Word.mem_ones, List.mem_map]
    simp only [List.mem_filter, List.mem_range, decide_eq_true_eq]
    by_cases iLt : i < 64
    · rw [BitVec.getLsbD_and, BitVec.getLsbD_and, BitVec.getLsbD_not, BitVec.getLsbD_or,
        BitVec.getLsbD_ushiftRight, BitVec.getLsbD_ushiftRight, BitVec.getLsbD_xor,
        BitVec.getLsbD_xor, BitVec.getLsbD_allOnes, even_getLsbD i iLt, wordBit i iLt,
        pattern_getLsbD g gLt i iLt]
      by_cases isEven : i % 2 = 0
      · have nextLt : 1 + i < 64 := by omega
        have nextHalf : (1 + i) / 2 = i / 2 := by omega
        have nextBit : (1 + i) % 2 = 1 := by omega
        rw [wordBit _ nextLt, pattern_getLsbD g gLt _ nextLt, nextHalf, nextBit, isEven]
        by_cases inside : i / 2 < keys.length
        · have masked : 64 - 2 * keys.length + i < 64 := by omega
          have keyMember : keys.getD (i / 2) 0 ∈ keys := by
            rw [List.getD_eq_getElem?_getD, List.getElem?_eq_getElem inside]
            exact List.getElem_mem inside
          have same := sameGroup _ (small _ keyMember) g gLt
          simp only [iLt, inside, masked, decide_true, Bool.true_and, Bool.and_true]
          rw [same, decide_eq_true_eq]
          constructor
          · intro inGroup
            exact ⟨i / 2, ⟨inside, inGroup⟩, by omega⟩
          · rintro ⟨j, ⟨_, inGroup⟩, rfl⟩
            rwa [Nat.mul_div_cancel_left j (by decide : 0 < 2)]
        · have unmasked : ¬ 64 - 2 * keys.length + i < 64 := by omega
          simp only [unmasked, decide_false, Bool.and_false, Bool.false_eq_true, false_iff]
          rintro ⟨j, ⟨jLt, _⟩, rfl⟩
          omega
      · simp only [isEven, decide_false, Bool.and_false, Bool.false_and, Bool.false_eq_true,
          false_iff]
        rintro ⟨j, _, rfl⟩
        omega
    · rw [BitVec.getLsbD_of_ge _ _ (by omega)]
      simp only [Bool.false_eq_true, false_iff]
      rintro ⟨j, ⟨jLt, _⟩, rfl⟩
      omega
  have whole : keys = (List.range keys.length).map fun j => keys.getD j 0 := by
    apply List.ext_getElem?
    intro j
    rw [List.getElem?_map]
    by_cases inside : j < keys.length
    · rw [List.getElem?_eq_getElem inside, List.getElem?_range inside, Option.map_some,
        List.getD_eq_getElem?_getD, List.getElem?_eq_getElem inside]
      rfl
    · rw [List.getElem?_eq_none (by omega), List.getElem?_eq_none (by simpa using inside)]
      rfl
  rw [ours, marks, List.map_map]
  conv_rhs => rw [whole, List.filter_map]
  apply List.map_congr_left
  intro j _
  simp only [Function.comp]
  rw [Nat.mul_div_cancel_left j (by decide : 0 < 2)]

/-! ## Shards -/

section Shards

variable {hs : List Nat} {buckets : Nat} {chunk : ChunkOf} {groups : List Nat} {chunks : Nat}

/-- The keys of a group among those of a shard. -/
def inGroup (buckets : Nat) (chunk : ChunkOf) (groups : List Nat) (g : Nat) (part : List Nat) :
    List Nat :=
  part.filter fun h => decide (groups.getD (chunk.of (bucketOf h buckets)) 0 = g)

theorem mark_words (part : List Nat) :
    (mark part buckets chunk groups chunks).2 =
      (chunksOf 32 part).map fun keys =>
        groupWord groups (keys.map fun h => chunk.of (bucketOf h buckets)) := by
  rw [mark, List.map_map]
  rfl

/-- A shard's own words pick out its keys of the group. -/
theorem ours_mark {g : Nat} (gLt : g < 4) (small : ∀ c, groups.getD c 0 < 4) (part : List Nat)
    (rest : List Word) :
    (((mark part buckets chunk groups chunks).2 ++ rest).zip (chunksOf 32 part)).flatMap
        (fun word => ours g word.1 word.2) =
      inGroup buckets chunk groups g part := by
  have zipped : ((mark part buckets chunk groups chunks).2 ++ rest).zip (chunksOf 32 part) =
      (chunksOf 32 part).map fun keys =>
        (groupWord groups (keys.map fun h => chunk.of (bucketOf h buckets)), keys) := by
    have sameLength : (mark part buckets chunk groups chunks).2.length =
        (chunksOf 32 part).length := by
      rw [mark_words, List.length_map]
    have apart := @List.zip_append Word (List Nat) _ rest (chunksOf 32 part) [] sameLength
    rw [List.append_nil, List.zip_nil_right, List.append_nil] at apart
    have paired : ∀ parts : List (List Nat), (parts.map fun keys =>
        groupWord groups (keys.map fun h => chunk.of (bucketOf h buckets))).zip (parts.map id) =
          parts.map fun keys =>
            (groupWord groups (keys.map fun h => chunk.of (bucketOf h buckets)), keys) :=
      fun _ => List.zip_map'
    have ownWords := paired (chunksOf 32 part)
    rw [List.map_id] at ownWords
    rw [apart, mark_words]
    exact ownWords
  rw [zipped, List.flatMap_map]
  have each : ∀ keys ∈ chunksOf 32 part,
      ours g (groupWord groups (keys.map fun h => chunk.of (bucketOf h buckets))) keys =
        inGroup buckets chunk groups g keys := by
    intro keys member
    exact ours_groupWord (chunksOf_length_le part keys member) gLt fun h _ => small _
  rw [List.flatMap_congr each]
  conv_rhs => rw [← chunksOf_flatten (by decide : 0 < 32) part]
  rw [inGroup, List.filter_flatten, List.flatMap_def]
  rfl

/-- Each shard hands on its keys of the group, in order. -/
theorem ofShard_spec {grouped : Grouped} {g : Nat} (gLt : g < 4)
    (small : ∀ c, groups.getD c 0 < 4) (positive : 0 < grouped.per) (whole : 32 ∣ grouped.per) :
    ∀ (xs : List Nat) (earlier : List Word) (s : Nat), earlier.length = s * grouped.per / 32 →
      grouped.ids = earlier ++
        ((chunksOf grouped.per xs).map fun part =>
          (mark part buckets chunk groups chunks).2).flatten →
      ((chunksOf grouped.per xs).zipIdx s).map (fun part => grouped.ofShard g part.2 part.1) =
        (chunksOf grouped.per xs).map (inGroup buckets chunk groups g) := by
  intro xs
  induction xs using chunksOf.induct grouped.per with
  | case1 xs more ih =>
      intro earlier s length idsAre
      rw [chunksOf_cons more.1 more.2] at idsAre ⊢
      rw [List.map_cons, List.flatten_cons, ← List.append_assoc] at idsAre
      have taken : xs.take grouped.per ≠ [] := by
        rw [ne_eq, List.take_eq_nil_iff]
        rintro (zero | none)
        · omega
        · exact more.2 none
      have wordsNonempty : (mark (xs.take grouped.per) buckets chunk groups chunks).2 ≠ [] := by
        rw [mark_words, chunksOf_cons (by decide) taken]
        simp
      have own : grouped.ofShard g s (xs.take grouped.per) =
          inGroup buckets chunk groups g (xs.take grouped.per) := by
        rw [ofShard, idsAre, List.append_assoc, ← length, List.drop_left, if_neg]
        · exact ours_mark gLt small _ _
        · intro none
          exact wordsNonempty (List.append_eq_nil_iff.mp none).1
      rw [List.zipIdx_cons, List.map_cons, List.map_cons, own]
      congr 1
      by_cases last : xs.drop grouped.per = []
      · rw [last, chunksOf_nil]
        rfl
      · refine ih _ (s + 1) ?_ idsAre
        have full : (xs.take grouped.per).length = 32 * (grouped.per / 32) := by
          rw [List.length_take, Nat.mul_div_cancel' whole]
          have := List.length_pos_of_ne_nil last
          rw [List.length_drop] at this
          omega
        rw [List.length_append, length, mark_words, List.length_map,
          chunksOf_whole (by decide) _ _ full, Nat.add_mul, Nat.one_mul]
        obtain ⟨q, qIs⟩ := whole
        rw [qIs, Nat.mul_left_comm, Nat.mul_div_cancel_left _ (by decide : 0 < 32),
          Nat.mul_div_cancel_left _ (by decide : 0 < 32), ← Nat.mul_add,
          Nat.mul_div_cancel_left _ (by decide : 0 < 32)]
  | case2 xs stop =>
      intro earlier s _ _
      rw [chunksOf, if_neg stop]
      rfl

end Shards

/-! ## A group's copy -/

/-- The chunk a key is in. -/
def chunkKey (grouped : Grouped) (h : Nat) : Nat :=
  grouped.chunk.of (bucketOf h grouped.buckets)

/-- What the marks say of group `g`: its keys in each shard, and the count of each of
its chunks. -/
structure Marked (grouped : Grouped) (g : Nat) : Prop where
  positive : 0 < grouped.per
  sharded : ((chunksOf grouped.per grouped.hs).zipIdx.map fun part =>
      grouped.ofShard g part.2 part.1) =
    (chunksOf grouped.per grouped.hs).map (inGroup grouped.buckets grouped.chunk grouped.groupOf g)
  counted : ∀ c, grouped.firsts.getD g 0 ≤ c → c < grouped.firsts.getD (g + 1) 0 →
    (grouped.counts.map fun count => count.getD c 0).sum =
      (Lexindex.groupOf grouped.chunkKey grouped.hs c).length
  mine : ∀ c, grouped.firsts.getD g 0 ≤ c → c < grouped.firsts.getD (g + 1) 0 →
    grouped.groupOf.getD c 0 = g

/-- The bounds of `count` chunks from `c0` on. -/
theorem bounds_spec (sizes : Nat → Nat) (c0 : Nat) : ∀ count,
    ((List.range' c0 count).foldl (fun (bounds : List Nat) c =>
      bounds ++ [bounds.getLastD 0 + sizes c]) [0]).length = count + 1 ∧
    ∀ i ≤ count, ((List.range' c0 count).foldl (fun (bounds : List Nat) c =>
      bounds ++ [bounds.getLastD 0 + sizes c]) [0]).getD i 0 =
        ((List.range' c0 i).map sizes).sum := by
  intro count
  induction count with
  | zero =>
      refine ⟨rfl, fun i le => ?_⟩
      obtain rfl : i = 0 := by omega
      rfl
  | succ count ih =>
      obtain ⟨length, read⟩ := ih
      rw [List.range'_concat, List.foldl_append, List.foldl_cons, List.foldl_nil, Nat.one_mul]
      refine ⟨by rw [List.length_append, length, List.length_singleton], fun i le => ?_⟩
      by_cases last : i = count + 1
      · subst last
        have lastRead := read count (Nat.le_refl _)
        rw [List.getLastD_eq_getLast?, List.getLast?_eq_getElem?, length, Nat.add_sub_cancel,
          ← List.getD_eq_getElem?_getD, lastRead, List.getD_append_right _ _ _ _ (by omega),
          length, Nat.sub_self, List.range'_concat, List.map_append, List.sum_append, Nat.one_mul]
        simp
      · rw [List.getD_append _ _ _ _ (by omega)]
        exact read i (by omega)

theorem copyGroup_spec {grouped : Grouped} {g : Nat} (marked : grouped.Marked g) :
    (grouped.copyGroup g).1 =
        (List.range' (grouped.firsts.getD g 0)
          (grouped.firsts.getD (g + 1) 0 - grouped.firsts.getD g 0)).flatMap
          (Lexindex.groupOf grouped.chunkKey grouped.hs) ∧
      ∀ i ≤ grouped.firsts.getD (g + 1) 0 - grouped.firsts.getD g 0,
        (grouped.copyGroup g).2.getD i 0 =
          ((List.range' (grouped.firsts.getD g 0) i).flatMap
            (Lexindex.groupOf grouped.chunkKey grouped.hs)).length := by
  constructor
  · unfold copyGroup
    simp only
    rw [marked.sharded]
    refine List.flatMap_congr fun c member => ?_
    rw [List.mem_range'_1] at member
    have ofChunk := marked.mine c member.1 (by omega)
    have whole := chunksOf_flatten marked.positive grouped.hs
    conv_rhs => rw [← whole, Lexindex.groupOf, List.filter_flatten, List.flatten_eq_flatMap]
    rw [List.flatMap_map, List.flatMap_map]
    refine List.flatMap_congr fun part _ => ?_
    rw [inGroup, List.filter_filter]
    apply List.filter_congr
    intro h _
    by_cases here : grouped.chunk.of (bucketOf h grouped.buckets) = c
    · rw [chunkKey, here, ofChunk, decide_eq_true rfl, decide_eq_true rfl]
      rfl
    · simp [chunkKey, here]
  · intro i le
    unfold copyGroup
    simp only
    rw [(bounds_spec _ _ _).2 i le, List.length_flatMap]
    congr 1
    apply List.map_congr_left
    intro c member
    rw [List.mem_range'_1] at member
    exact marked.counted c member.1 (by omega)

/-- A chunk is cut out of its group's copy at the bounds. -/
theorem copyGroup_slice {grouped : Grouped} {g c : Nat} (marked : grouped.Marked g)
    (first : grouped.firsts.getD g 0 ≤ c) (last : c < grouped.firsts.getD (g + 1) 0) :
    (((grouped.copyGroup g).1.drop
        ((grouped.copyGroup g).2.getD (c - grouped.firsts.getD g 0) 0)).take
        ((grouped.copyGroup g).2.getD (c - grouped.firsts.getD g 0 + 1) 0 -
          (grouped.copyGroup g).2.getD (c - grouped.firsts.getD g 0) 0)) =
      Lexindex.groupOf grouped.chunkKey grouped.hs c := by
  obtain ⟨copied, bounds⟩ := copyGroup_spec marked
  rw [bounds _ (by omega), bounds _ (by omega), copied]
  obtain ⟨i, rfl⟩ := Nat.exists_eq_add_of_le first
  obtain ⟨more, moreIs⟩ : ∃ more, grouped.firsts.getD (g + 1) 0 - grouped.firsts.getD g 0 =
      i + (more + 1) :=
    ⟨grouped.firsts.getD (g + 1) 0 - grouped.firsts.getD g 0 - i - 1, by omega⟩
  rw [moreIs, Nat.add_sub_cancel_left, List.range'_concat, List.flatMap_append, List.length_append,
    Nat.add_sub_cancel_left, ← List.range'_append, List.flatMap_append, List.drop_left,
    List.range'_succ, List.flatMap_cons, Nat.one_mul]
  rw [List.flatMap_nil, List.append_nil, List.flatMap_cons, List.take_left]

/-! ## Marking -/

section New

variable {hs starts : List Nat} {buckets : Nat} (threads : Nat)

theorem mark_counts {chunk : ChunkOf} {groups : List Nat} {chunks c : Nat} (cLt : c < chunks)
    (part : List Nat) :
    ((mark part buckets chunk groups chunks).1).getD c 0 =
      (Lexindex.groupOf (fun h => chunk.of (bucketOf h buckets)) part c).length := by
  have flat : ((chunksOf 32 part).map fun keys =>
      keys.map fun h => chunk.of (bucketOf h buckets)).flatten =
        part.map fun h => chunk.of (bucketOf h buckets) := by
    rw [← List.map_flatten, chunksOf_flatten (by decide)]
  have counted := (@tally_spec Nat id 0 chunks
    (part.map fun h => chunk.of (bucketOf h buckets))).2 c cLt
  rw [mark]
  simp only
  rw [flat]
  refine counted.trans ?_
  rw [List.countP_map, Lexindex.groupOf, ← List.countP_eq_length_filter]
  rfl

/-- The group of a chunk by its start. -/
def groupAt (starts : List Nat) (buckets s : Nat) : Nat :=
  s * min mostGroups starts.length / buckets % 2 ^ 8

theorem groupAt_eq (tiled : Tiled starts buckets) {s : Nat} (sLt : s < buckets) :
    groupAt starts buckets s = s * min mostGroups starts.length / buckets ∧
      groupAt starts buckets s < min mostGroups starts.length := by
  have positive : 0 < min mostGroups starts.length := by
    have some_ := tiled.some_
    simp only [mostGroups]
    omega
  have small : s * min mostGroups starts.length / buckets < min mostGroups starts.length := by
    rw [Nat.div_lt_iff_lt_mul (by omega), Nat.mul_comm]
    exact Nat.mul_lt_mul_of_pos_left sLt positive
  have most : min mostGroups starts.length ≤ 4 := Nat.min_le_left _ _
  have kept : groupAt starts buckets s = s * min mostGroups starts.length / buckets :=
    Nat.mod_eq_of_lt (by omega)
  exact ⟨kept, by rw [kept]; exact small⟩

theorem groups_inOrder (tiled : Tiled starts buckets) :
    InOrder id (starts.map (groupAt starts buckets)) := by
  rw [InOrder, List.pairwise_map, List.pairwise_iff_getElem]
  intro i j iLt jLt lt
  have readAt : ∀ k (kLt : k < starts.length), firstOf starts k = starts[k] := by
    intro k kLt
    rw [firstOf, List.getD_eq_getElem?_getD, List.getElem?_eq_getElem kLt]
    rfl
  have inside : ∀ k (kLt : k < starts.length), starts[k] < buckets := by
    intro k kLt
    have nonempty := tiled.nonempty k kLt
    have inside := tiled.inside k kLt
    rw [readAt k kLt] at nonempty
    omega
  have le := tiled.first_mono (Nat.le_of_lt lt) jLt
  rw [readAt i iLt, readAt j jLt] at le
  rw [id, id, (groupAt_eq tiled (inside i iLt)).1, (groupAt_eq tiled (inside j jLt)).1]
  exact Nat.div_le_div_right (Nat.mul_le_mul_right _ le)

/-- A chunk below a group's first is in a group below it. -/
theorem lt_firsts_iff (tiled : Tiled starts buckets) (g c : Nat) :
    c < ((starts.map (groupAt starts buckets)).takeWhile fun x => decide (x < g)).length ↔
      c < starts.length ∧ (starts.map (groupAt starts buckets)).getD c 0 < g := by
  have ordered := groups_inOrder tiled
  have cut := ordered.takeWhile g
  simp only [id] at cut
  rw [cut, List.length_take, Nat.min_eq_left (before_le_length _ g)]
  constructor
  · intro below
    have inside := Nat.lt_of_lt_of_le below (before_le_length _ g)
    refine ⟨by rwa [List.length_map] at inside, ?_⟩
    exact (ordered.lt_before_iff inside 0).mp below
  · rintro ⟨inside, below⟩
    exact (ordered.lt_before_iff (by rwa [List.length_map]) 0).mpr below

theorem new_groupOf : (new hs buckets starts threads).groupOf = starts.map (groupAt starts buckets) :=
  rfl

theorem new_firsts {g : Nat} (le : g ≤ min mostGroups starts.length) :
    (new hs buckets starts threads).firsts.getD g 0 =
      ((starts.map (groupAt starts buckets)).takeWhile fun x => decide (x < g)).length := by
  have inside : g < min mostGroups starts.length + 1 := by omega
  change ((List.range (min mostGroups starts.length + 1)).map fun g =>
    ((starts.map (groupAt starts buckets)).takeWhile fun x => decide (x < g)).length).getD g 0 = _
  rw [List.getD_eq_getElem?_getD, List.getElem?_map, List.getElem?_range inside]
  rfl

theorem new_groupAt (tiled : Tiled starts buckets) {k : Nat} (kLt : k < starts.length) :
    (new hs buckets starts threads).groupOf.getD k 0 = groupAt starts buckets (firstOf starts k) ∧
      (new hs buckets starts threads).groupOf.getD k 0 < min mostGroups starts.length := by
  have read : (starts.map (groupAt starts buckets)).getD k 0 =
      groupAt starts buckets (firstOf starts k) := by
    rw [firstOf, List.getD_eq_getElem?_getD, List.getD_eq_getElem?_getD, List.getElem?_map,
      List.getElem?_eq_getElem kLt]
    rfl
  rw [new_groupOf, read]
  have nonempty := tiled.nonempty k kLt
  have inside := tiled.inside k kLt
  exact ⟨rfl, (groupAt_eq tiled (by omega)).2⟩

/-- The chunks from a group's first to the next one's are those of the group. -/
theorem new_group_iff (tiled : Tiled starts buckets) {g c : Nat}
    (gLt : g < min mostGroups starts.length) :
    (new hs buckets starts threads).firsts.getD g 0 ≤ c ∧
        c < (new hs buckets starts threads).firsts.getD (g + 1) 0 ↔
      c < starts.length ∧ (new hs buckets starts threads).groupOf.getD c 0 = g := by
  rw [new_firsts threads (by omega), new_firsts threads (by omega), ← Nat.not_lt,
    lt_firsts_iff tiled, lt_firsts_iff tiled, new_groupOf]
  omega

theorem new_per : 32 ∣ (new hs buckets starts threads).per ∧
    0 < (new hs buckets starts threads).per := by
  change 32 ∣ max (divCeil (divCeil hs.length (max threads 1)) 32 * 32) (2 ^ 16) ∧
    0 < max (divCeil (divCeil hs.length (max threads 1)) 32 * 32) (2 ^ 16)
  omega

/-- Every group's keys are marked and counted. -/
theorem new_marked (tiled : Tiled starts buckets) {g : Nat}
    (gLt : g < min mostGroups starts.length) : (new hs buckets starts threads).Marked g := by
  have most : min mostGroups starts.length ≤ 4 := Nat.min_le_left _ _
  have small : ∀ c, (new hs buckets starts threads).groupOf.getD c 0 < 4 := by
    intro c
    by_cases cLt : c < starts.length
    · have := (@new_groupAt hs _ _ threads tiled _ cLt).2
      omega
    · rw [new_groupOf, List.getD_eq_getElem?_getD, List.getElem?_eq_none (by simpa using cLt)]
      decide
  have per := @new_per hs starts buckets threads
  refine ⟨per.2, ?_, ?_, ?_⟩
  · by_cases one : 1 < min mostGroups starts.length
    · have idsAre : (new hs buckets starts threads).ids =
          ([] : List Word) ++ ((chunksOf (new hs buckets starts threads).per
            (new hs buckets starts threads).hs).map fun part =>
              (mark part buckets (ChunkOf.new starts buckets)
                (new hs buckets starts threads).groupOf starts.length).2).flatten := by
        change (if 1 < min mostGroups starts.length then
          (((chunksOf (new hs buckets starts threads).per hs).map fun part =>
            mark part buckets (ChunkOf.new starts buckets)
              (starts.map (groupAt starts buckets)) starts.length).map Prod.snd).flatten else []) = _
        rw [if_pos one, List.map_map]
        rfl
      exact ofShard_spec (by omega) small per.2 per.1 hs [] 0 (by simp) idsAre
    · have idsNone : (new hs buckets starts threads).ids = [] := by
        change (if 1 < min mostGroups starts.length then
          (((chunksOf (new hs buckets starts threads).per hs).map fun part =>
            mark part buckets (ChunkOf.new starts buckets)
              (starts.map (groupAt starts buckets)) starts.length).map Prod.snd).flatten else []) = _
        rw [if_neg one]
      have whole : ∀ part : List Nat × Nat,
          (new hs buckets starts threads).ofShard g part.2 part.1 = part.1 := by
        intro part
        rw [ofShard, idsNone, List.drop_nil, if_pos rfl]
      have only : ∀ c, (new hs buckets starts threads).groupOf.getD c 0 = g := by
        intro c
        by_cases cLt : c < starts.length
        · have := (@new_groupAt hs _ _ threads tiled _ cLt).2
          omega
        · rw [new_groupOf, List.getD_eq_getElem?_getD, List.getElem?_eq_none (by simpa using cLt),
            Option.getD_none]
          omega
      rw [List.map_congr_left (fun part _ => whole part), List.zipIdx_map_fst]
      refine (List.map_id'' ?_ _).symm
      intro part
      rw [inGroup, List.filter_eq_self]
      intro h _
      exact decide_eq_true (only _)
  · intro c first last
    obtain ⟨cLt, _⟩ := (new_group_iff threads tiled gLt).mp ⟨first, last⟩
    have countsAre : (new hs buckets starts threads).counts =
        (chunksOf (new hs buckets starts threads).per hs).map fun part =>
          (mark part buckets (ChunkOf.new starts buckets)
            (new hs buckets starts threads).groupOf starts.length).1 := by
      change List.map Prod.fst (List.map _ _) = _
      rw [List.map_map]
      rfl
    have each : ∀ part : List Nat,
        ((mark part buckets (ChunkOf.new starts buckets)
          (new hs buckets starts threads).groupOf starts.length).1).getD c 0 =
        (Lexindex.groupOf (new hs buckets starts threads).chunkKey part c).length :=
      fun part => mark_counts cLt part
    have whole : (chunksOf (new hs buckets starts threads).per hs).flatten = hs :=
      chunksOf_flatten per.2 hs
    have hsIs : (new hs buckets starts threads).hs = hs := rfl
    rw [countsAre, List.map_map, hsIs]
    conv_rhs => rw [← whole]
    rw [Lexindex.groupOf, List.filter_flatten, List.length_flatten, List.map_map]
    congr 1
    apply List.map_congr_left
    intro part _
    exact each part
  · intro c first last
    exact ((new_group_iff threads tiled gLt).mp ⟨first, last⟩).2

end New

end Grouped

end Lexindex.Mphf
