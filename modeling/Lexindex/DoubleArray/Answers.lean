import Mathlib
import Lexindex.DoubleArray.Assembled
import Lexindex.DoubleArray.Placed
import Lexindex.DoubleArray.ReadBack
import Lexindex.DoubleArray.TrieBuilt
import Lexindex.Lib.Ascending

/-!
# What a build is made of

The trie a build places is that of its keys, and what it loads holds the slots of that trie, the
labels of its characters, and the id of the empty key.
-/

set_option autoImplicit false

namespace Lexindex.DoubleArray

open Mphf (IndexError)

/-- The keys' characters. -/
def charsIn (keys : List String) : List (List Char) :=
  keys.map String.toList

/-- Every prefix of a key, and the empty one. -/
def frontsOf (keys : List String) : List (List Char) :=
  [] :: keys.flatMap fun k => k.toList.inits

/-- The code points of the keys' characters. -/
def codesIn (keys : List String) : List (List Nat) :=
  keys.map fun k => k.toList.map Char.toNat

/-- The keys' characters with their frequencies, as a build ranks them. -/
def charsFor (keys : List String) : List (Nat × Nat) :=
  charsOf (decodeKeys keys [] []).1

/-- The keys' code points, the most frequent first. -/
def orderOf (keys : List String) : List Nat :=
  (charsFor keys).map Prod.snd

/-- The id of the empty key. -/
def emptyOf (keys : List String) : Option Nat :=
  if keys.head? = some "" then some 0 else none

/-- The number of the first key that is not empty. -/
def lowOf (keys : List String) : Nat :=
  if (emptyOf keys).isSome then 1 else 0

section Parts

variable {keys : List String}

theorem getD_charsIn (i : Nat) : (charsIn keys).getD i [] = (keys.getD i "").toList := by
  rw [charsIn, List.getD_eq_getElem?_getD, List.getElem?_map, List.getD_eq_getElem?_getD]
  cases keys[i]? <;> rfl

theorem charsIn_sorted (sorted : isSorted keys) : (charsIn keys).Pairwise (· < ·) := by
  have chain : keys.Pairwise fun a b => bytesOf a < bytesOf b := by
    have transitive : ∀ {a b c : String}, bytesOf a < bytesOf b → bytesOf b < bytesOf c →
        bytesOf a < bytesOf c := fun less more => less.trans more
    have : IsTrans String fun a b => bytesOf a < bytesOf b := ⟨fun _ _ _ => transitive⟩
    exact List.isChain_iff_pairwise.mp sorted
  exact List.pairwise_map.mpr (chain.imp fun less => (bytesOf_lt_iff _ _).mp less)

theorem mem_frontsOf {p : List Char} : p ∈ frontsOf keys ↔ p = [] ∨ ∃ k ∈ charsIn keys, p <+: k := by
  rw [frontsOf, List.mem_cons, List.mem_flatMap]
  refine or_congr_right ?_
  simp only [List.mem_inits, charsIn, List.mem_map, exists_exists_and_eq_and]

theorem orderOf_ranks (keys : List String) : Ranks (orderOf keys) (charsIn keys) := by
  obtain ⟨distinct, members⟩ := charsOf_spec (decodeKeys keys [] []).1
  refine ⟨distinct, fun cp => (members cp).trans ?_⟩
  rw [decodeKeys_eq, List.nil_append, List.mem_flatten]
  constructor
  · rintro ⟨codes, isKey, inKey⟩
    obtain ⟨k, kIn, rfl⟩ := List.mem_map.mp isKey
    obtain ⟨c, cIn, rfl⟩ := List.mem_map.mp inKey
    exact ⟨k.toList, List.mem_map_of_mem kIn, c, cIn, rfl⟩
  · rintro ⟨k, isKey, c, cIn, rfl⟩
    obtain ⟨k', kIn, rfl⟩ := List.mem_map.mp isKey
    exact ⟨_, List.mem_map_of_mem kIn, List.mem_map_of_mem cIn⟩

/-- A node a prefix. -/
theorem nodeCount_le_fronts (order : List Nat) :
    nodeCount (labelled order (charsIn keys)) ≤ (frontsOf keys).dedup.length := by
  have spelled : ∀ p ∈ (prefixes (labelled order (charsIn keys))).dedup,
      p ∈ (frontsOf keys).dedup.map (spellIn order) := by
    intro p member
    rw [List.mem_dedup, mem_prefixes] at member
    rw [List.mem_map]
    rcases member with rfl | ⟨i, inside, front⟩
    · exact ⟨[], List.mem_dedup.mpr (mem_frontsOf.mpr (.inl rfl)), rfl⟩
    · rw [labelled, List.length_map] at inside
      rw [labelled_getD] at front
      obtain ⟨q, qFront, rfl⟩ := List.prefix_map_iff.mp front
      exact ⟨q, List.mem_dedup.mpr (mem_frontsOf.mpr (.inr ⟨_, getD_mem inside, qFront⟩)), rfl⟩
  have counted := ((List.nodup_dedup _).subperm spelled).length_le
  rwa [List.length_map] at counted

theorem startsOf_map {α β : Type} (f : α → β) (parts : List (List α)) :
    startsOf (parts.map (List.map f)) = startsOf parts := by
  rw [startsOf, startsOf, List.length_map]
  refine List.map_congr_left fun i _ => ?_
  rw [← List.map_take, ← List.map_flatten, List.length_map]

theorem labelled_eq (order : List Nat) :
    labelled order (charsIn keys) = (codesIn keys).map (List.map (labelIn order)) := by
  rw [labelled, charsIn, codesIn, List.map_map, List.map_map]
  refine List.map_congr_left fun k _ => ?_
  simp only [Function.comp_apply, List.map_map]
  rfl

/-- What the trie is built from. -/
theorem decoded_eq (keys : List String) :
    (decodeKeys keys [] []).1.map (labelOf (codeTable (charsFor keys)) (suppOf (charsFor keys))) =
        (labelled (orderOf keys) (charsIn keys)).flatten ∧
      (decodeKeys keys [] []).2 = startsOf (labelled (orderOf keys) (charsIn keys)) := by
  have distinct := (orderOf_ranks keys).distinct
  have labels : (labelOf (codeTable (charsFor keys)) (suppOf (charsFor keys))) =
      labelIn (orderOf keys) := funext fun cp => labelOf_eq distinct cp
  rw [labels, labelled_eq, startsOf_map, decodeKeys_eq]
  refine ⟨?_, ?_⟩
  · rw [List.nil_append, List.map_flatten]
    rfl
  · simp only [List.nil_append, List.length_nil, Nat.zero_add, List.map_id']
    rfl

/-- Only the first key may be empty. -/
theorem low_spec (sorted : isSorted keys) :
    (∀ i, lowOf keys ≤ i → i < (charsIn keys).length → (charsIn keys).getD i [] ≠ []) ∧
      (∀ i, i < lowOf keys → (charsIn keys).getD i [] = []) ∧ lowOf keys ≤ (charsIn keys).length ∧
      emptyOf keys = if [] ∈ charsIn keys then some ((charsIn keys).idxOf []) else none := by
  have ascending := charsIn_sorted sorted
  have later : ∀ i, 0 < i → i < (charsIn keys).length → (charsIn keys).getD i [] ≠ [] := by
    intro i above inside bare
    have less := getD_lt ascending above inside
    rw [bare] at less
    exact List.not_lt_nil _ less
  cases keys with
  | nil => exact ⟨fun i _ inside => absurd inside (Nat.not_lt_zero i),
      fun i below => absurd below (Nat.not_lt_zero i), Nat.zero_le _, rfl⟩
  | cons k keys =>
      have first : (charsIn (k :: keys)).getD 0 [] = k.toList := rfl
      by_cases bare : k = ""
      · subst bare
        have low : lowOf ("" :: keys) = 1 := rfl
        rw [low]
        refine ⟨later, fun i below => ?_, Nat.succ_le_of_lt (by simp [charsIn]), ?_⟩
        · rw [Nat.lt_one_iff.mp below]
          rfl
        · have member : [] ∈ charsIn ("" :: keys) := List.mem_cons_self
          rw [if_pos member]
          rfl
      · have absent : emptyOf (k :: keys) = none := by
          rw [emptyOf, List.head?_cons, if_neg]
          exact fun same => bare (Option.some.inj same)
        have low : lowOf (k :: keys) = 0 := by
          rw [lowOf, absent]
          rfl
        have some_first : k.toList ≠ [] := fun same => bare (String.toList_inj.mp same)
        have each : ∀ i, i < (charsIn (k :: keys)).length → (charsIn (k :: keys)).getD i [] ≠ [] := by
          intro i inside
          rcases Nat.eq_zero_or_pos i with rfl | above
          · rwa [first]
          · exact later i above inside
        rw [low, absent, if_neg]
        · exact ⟨fun i _ => each i, fun i below => absurd below (Nat.not_lt_zero i), Nat.zero_le _, rfl⟩
        · intro member
          obtain ⟨i, inside, same⟩ := List.getElem_of_mem member
          exact each i inside ((List.getD_eq_getElem _ _ inside).trans same)

/-- The labels of a row are ranks of characters. -/
theorem rowOk {order : List Nat} {K : List (List Char)} {low : Nat} {t : Trie}
    {paths : List (List Nat)} (trie : TrieOf low (labelled order K) t paths) {v : Nat}
    (isNode : v < t.label.length) : RowOk order.length (t.row v) := by
  have inside : v < paths.length := trie.labels ▸ isNode
  have path : paths[v]? = some paths[v] := List.getElem?_eq_getElem inside
  have node := trie.node v _ path
  refine ⟨node.ascending, fun l member => ?_⟩
  obtain ⟨kid, isKid, rfl⟩ := List.mem_map.mp member
  have path' := node.kids kid isKid
  rcases mem_prefixes.mp (trie.named _ (List.mem_of_getElem? path')) with bare | ⟨i, -, front⟩
  · simp at bare
  · have among : t.labelOf kid ∈ (labelled order K).getD i [] := front.subset (by simp)
    rw [labelled_getD] at among
    obtain ⟨c, -, label⟩ := List.mem_map.mp among
    exact label ▸ labelIn_le order c.toNat

/-- The trie a build places, placed. -/
theorem laid_of_place (sorted : isSorted keys) (few : keys.length ≤ MAX_KEYS)
    (nodes : (frontsOf keys).dedup.length < 2 ^ 32) (narrow : (charsFor keys).length ≤ MAX_ALPHABET)
    {t : Trie} (built : Trie.build ((decodeKeys keys [] []).1.map
      (labelOf (codeTable (charsFor keys)) (suppOf (charsFor keys)))) (decodeKeys keys [] []).2
      (lowOf keys) = some t) {base : List Nat} (placed : place t (charsFor keys).length = some (.ok base)) :
    ∃ paths, Laid (orderOf keys) (charsIn keys) (lowOf keys) t paths base := by
  obtain ⟨some_char, bare, low_le, -⟩ := low_spec sorted
  have ascending := charsIn_sorted sorted
  have ranks := orderOf_ranks keys
  have width : (orderOf keys).length = (charsFor keys).length := List.length_map _
  obtain ⟨labels, starts⟩ := decoded_eq keys
  rw [labels, starts] at built
  obtain ⟨t', paths, built', trie⟩ := (lexicon_of ranks ascending low_le some_char).build
    (Nat.lt_of_le_of_lt (nodeCount_le_fronts _) nodes)
  obtain rfl : t = t' := Option.some.inj (built.symm.trans built')
  have count := trie.labels
  have small := trie.small
  have some_node : 0 < t.label.length := count ▸ (List.getElem?_eq_some_iff.mp trie.root).1
  rw [← width] at placed narrow
  have roomy : (orderOf keys).length < MAX_SLOTS := Nat.lt_of_le_of_lt narrow (by decide)
  have placement := place_placement (by omega) some_node roomy (fun v isNode => rowOk trie isNode) placed
  have sized : (charsIn keys).length = keys.length := List.length_map _
  exact ⟨paths, ranks, ascending, by omega, narrow, some_char, bare, trie, placement⟩

/-- What a build loads. -/
def builtIndex (keys : List String) (t : Trie) (base : List Nat) : DoubleArrayIndex :=
  { slots := slotsOf t base (slotCount (orderOf keys) base)
    table := codeTable (charsFor keys)
    supp := suppOf (charsFor keys)
    n := keys.length
    empty := emptyOf keys }

theorem table_words {chars : List (Nat × Nat)} (distinct : (chars.map Prod.snd).Nodup)
    (narrow : chars.length ≤ MAX_ALPHABET) : ∀ x ∈ codeTable chars, x ≤ chars.length ∧ x < 2 ^ 16 := by
  intro x member
  obtain ⟨sized, entries⟩ := codeTable_spec distinct
  obtain ⟨cp, inside, rfl⟩ := List.getElem_of_mem member
  have read := entries cp (sized ▸ inside)
  rw [List.getElem?_eq_getElem inside, Option.some.injEq] at read
  have label := labelIn_le (chars.map Prod.snd) cp
  rw [List.length_map] at label
  rw [MAX_ALPHABET, LABEL_MASK] at narrow
  omega

theorem supp_words {chars : List (Nat × Nat)} (distinct : (chars.map Prod.snd).Nodup)
    (narrow : chars.length ≤ MAX_ALPHABET) (scalars : ∀ cp ∈ chars.map Prod.snd, cp < 0x110000) :
    ∀ e ∈ suppOf chars, (BMP ≤ e.1 ∧ e.1 < 0x110000) ∧ (e.2 ≠ 0 ∧ e.2 ≤ chars.length) ∧
      e.1 < 2 ^ 32 ∧ e.2 < 2 ^ 16 := by
  intro e member
  obtain ⟨⟨large, among⟩, label⟩ := (mem_suppOf distinct).mp member
  have scalar := scalars e.1 among
  have some_label := labelIn_ne_zero.mpr among
  have most := labelIn_le (chars.map Prod.snd) e.1
  rw [List.length_map] at most
  rw [MAX_ALPHABET, LABEL_MASK] at narrow
  omega

theorem scalars_of (keys : List String) : ∀ cp ∈ orderOf keys, cp < 0x110000 := by
  intro cp member
  obtain ⟨k, -, c, -, rfl⟩ := ((orderOf_ranks keys).members cp).mp member
  exact char_lt c

theorem emptyOf_lt (sorted : isSorted keys) : ∀ id, emptyOf keys = some id → id < keys.length := by
  intro id held
  obtain ⟨-, -, -, empty⟩ := low_spec sorted
  rw [empty] at held
  split at held
  · rename_i member
    have inside := List.idxOf_lt_length_iff.mpr member
    rw [Option.some.inj held] at inside
    rwa [charsIn, List.length_map] at inside
  · cases held

end Parts

end Lexindex.DoubleArray

/-!
## The answers of a built index

What an index that follows the trie of some keys answers, told by the keys: a key's place, the keys a
text starts with, and the keys that occur in it.
-/

namespace Lexindex.DoubleArray

open DoubleArrayIndex (sliced endsOf textLabels occurrencesAt)

/-- A key's place among the keys. -/
def placeOf (keys : List String) (key : String) : Option Nat :=
  if key ∈ keys then some (keys.idxOf key) else none

/-- The keys that are prefixes of `query`, shortest first, each with its place. -/
def prefixesIn (keys : List String) (query : String) : List (String × Nat) :=
  ((query.toList.inits.map String.ofList).filter (· ∈ keys)).map fun k => (k, keys.idxOf k)

/-- The bytes some characters take. -/
def byteLen (chars : List Char) : Nat :=
  (chars.flatMap String.utf8EncodeChar).length

/-- The keys but the empty one that occur in `text`, by where they start, shortest first: start and
end in bytes, and the key's place. -/
def occurrencesIn (keys : List String) (text : String) : List (Nat × Nat × Nat) :=
  (List.range text.toList.length).flatMap fun p =>
    (((text.toList.drop p).inits.tail.map String.ofList).filter (· ∈ keys)).map fun k =>
      (byteLen (text.toList.take p), byteLen (text.toList.take p) + (bytesOf k).length, keys.idxOf k)

/-- An index that answers every query from the keys. -/
structure Answers (idx : DoubleArrayIndex) (keys : List String) : Prop where
  id : ∀ key, idx.id key = some (placeOf keys key)
  common : ∀ query, idx.commonPrefix query = some (prefixesIn keys query)
  longest : ∀ query, idx.longestPrefix query = some (prefixesIn keys query).getLast?
  occurrences : ∀ text, idx.forEachOccurrence text = some (occurrencesIn keys text)

/-! ### Keys and their characters -/

section Chars

variable {keys : List String}

theorem mem_charsIn {w : List Char} : w ∈ charsIn keys ↔ String.ofList w ∈ keys := by
  rw [charsIn, List.mem_map]
  constructor
  · rintro ⟨k, isKey, rfl⟩
    rwa [String.ofList_toList]
  · intro isKey
    exact ⟨_, isKey, String.toList_ofList⟩

theorem idxOf_charsIn (w : List Char) : (charsIn keys).idxOf w = keys.idxOf (String.ofList w) := by
  induction keys with
  | nil => rfl
  | cons k keys ih =>
      have same : k.toList = w ↔ k = String.ofList w := by
        rw [← String.toList_inj, String.toList_ofList]
      rw [charsIn, List.map_cons, List.idxOf_cons, List.idxOf_cons, ← charsIn, ih]
      by_cases here : k = String.ofList w
      · rw [beq_iff_eq.mpr (same.mpr here), beq_iff_eq.mpr here]
      · rw [beq_eq_false_iff_ne.mpr (fun first => here (same.mp first)), beq_eq_false_iff_ne.mpr here]

theorem placeIn_charsIn (w : List Char) : placeIn (charsIn keys) w = placeOf keys (String.ofList w) := by
  rw [placeIn, placeOf, idxOf_charsIn]
  exact if_congr mem_charsIn rfl rfl

/-- The characters of the keys that match from the start of some characters. -/
theorem map_matches {β : Type} (f : List Char → Nat → β) (chars : List (List Char)) :
    ((chars.filter (· ∈ charsIn keys)).map fun w => f w ((charsIn keys).idxOf w)) =
      ((chars.map String.ofList).filter (· ∈ keys)).map fun k => f k.toList (keys.idxOf k) := by
  have kept : (fun w => decide (w ∈ charsIn keys)) = (fun k => decide (k ∈ keys)) ∘ String.ofList := by
    funext w
    exact decide_eq_decide.mpr mem_charsIn
  rw [kept, List.filter_map, List.map_map]
  refine List.map_congr_left fun w _ => ?_
  simp only [Function.comp_apply, String.toList_ofList, idxOf_charsIn]

end Chars

/-! ### Queries -/

section Queries

variable {idx : DoubleArrayIndex} {keys : List String} {row : List Char → Nat}
  (follows : Follows idx (charsIn keys) row)
include follows

theorem id_answers (key : String) : idx.id key = some (placeOf keys key) := by
  rw [DoubleArrayIndex.id_eq_idWalk]
  by_cases bare : key.toList = []
  · have isEmpty : String.ofList [] = key := by rw [← bare, String.ofList_toList]
    rw [if_pos bare, follows.empty, ← isEmpty, ← placeIn_charsIn, placeIn]
  · rw [if_neg bare]
    have walked := follows.idWalk key.toList [] bare (.inl rfl)
    rw [follows.root, List.nil_append, placeIn_charsIn, String.ofList_toList] at walked
    exact walked

/-- The empty key first, then the walk's. -/
theorem forEachCommonPrefix_answers (query : String) :
    idx.forEachCommonPrefix query = some ((query.toList.inits.filter (· ∈ charsIn keys)).map fun w =>
      (byteLen w, (charsIn keys).idxOf w)) := by
  have walked := follows.prefixWalk query.toList [] (.inl rfl)
  rw [follows.root, List.flatMap_nil, List.length_nil] at walked
  have tails : matchesAfter (charsIn keys) [] query.toList =
      query.toList.inits.tail.filter (· ∈ charsIn keys) := by
    rw [matchesAfter]
    simp only [List.nil_append, List.map_id']
  rw [DoubleArrayIndex.forEachCommonPrefix_eq, walked, Option.map_some, tails, inits_eq query.toList,
    List.filter_cons, DoubleArrayIndex.emptyPrefix, follows.empty]
  by_cases isKey : [] ∈ charsIn keys
  · rw [if_pos isKey, if_pos (decide_eq_true isKey)]
    rfl
  · rw [if_neg isKey, if_neg (by simpa using isKey)]
    rfl

theorem commonPrefix_answers (query : String) :
    idx.commonPrefix query = some (prefixesIn keys query) := by
  rw [DoubleArrayIndex.commonPrefix, forEachCommonPrefix_answers follows, Option.bind_some]
  have cut : ∀ w ∈ query.toList.inits.filter (· ∈ charsIn keys),
      (sliced query (byteLen w)).map (fun key => (key, (charsIn keys).idxOf w)) =
        some (String.ofList w, (charsIn keys).idxOf w) := by
    intro w among
    have front := (List.mem_inits w query.toList).mp (List.mem_of_mem_filter among)
    rw [byteLen, DoubleArrayIndex.sliced_prefix front, Option.map_some]
  rw [List.mapM_map]
  have read := mapM_some (f := fun w => (sliced query (byteLen w)).map
    fun key => (key, (charsIn keys).idxOf w)) (g := fun w => (String.ofList w, (charsIn keys).idxOf w)) cut
  refine Eq.trans read (congrArg some ?_)
  rw [prefixesIn, map_matches (fun w i => (String.ofList w, i))]
  simp only [String.ofList_toList]

theorem longestPrefix_answers (query : String) :
    idx.longestPrefix query = some (prefixesIn keys query).getLast? := by
  rw [DoubleArrayIndex.longestPrefix, forEachCommonPrefix_answers follows, Option.bind_some, prefixesIn]
  have same := @map_matches keys _ (fun w i => (String.ofList w, i)) query.toList.inits
  simp only [String.ofList_toList] at same
  rw [← same, List.getLast?_map, List.getLast?_map]
  cases last : (query.toList.inits.filter (· ∈ charsIn keys)).getLast? with
  | none => rfl
  | some w =>
      have among := List.mem_of_getLast? last
      have front := (List.mem_inits w query.toList).mp (List.mem_of_mem_filter among)
      simp only [Option.map_some, byteLen, DoubleArrayIndex.sliced_prefix front]

omit follows in
/-- Where the characters before one end. -/
theorem endsOf_getElem? (chars : List Char) (i p : Nat) (inside : p ≤ chars.length) :
    (i :: endsOf chars i)[p]? = some (i + byteLen (chars.take p)) := by
  induction chars generalizing i p with
  | nil =>
      obtain rfl : p = 0 := Nat.le_zero.mp inside
      rfl
  | cons c rest ih =>
      cases p with
      | zero => rfl
      | succ p =>
          rw [List.getElem?_cons_succ, endsOf, ih _ p (Nat.le_of_succ_le_succ inside), List.take_succ_cons,
            byteLen, byteLen, List.flatMap_cons, List.length_append, Nat.add_assoc]

omit follows in
theorem byteLen_take_add (chars : List Char) (p : Nat) {w : List Char} (front : w <+: chars.drop p) :
    byteLen (chars.take (p + w.length)) = byteLen (chars.take p) + byteLen w := by
  rw [List.take_add, byteLen, List.flatMap_append, List.length_append,
    ← List.prefix_iff_eq_take.mp front]
  rfl

/-- The matches from a character on. -/
theorem occurrencesAt_answers {text : String} {p : Nat} (inside : p < text.toList.length) :
    idx.occurrencesAt text p =
      some (((text.toList.drop p).inits.tail.filter (· ∈ charsIn keys)).map fun w =>
        (p, p + w.length, byteLen (text.toList.take p), byteLen (text.toList.take p) + byteLen w,
          (charsIn keys).idxOf w)) := by
  have walked := follows.matchesFrom (text.toList.drop p) [] p (.inl rfl)
  rw [follows.root, List.length_nil, Nat.add_zero] at walked
  have labels : (idx.textLabels text ++ [0]).drop p =
      ((text.toList.drop p).map fun c => idx.label c.toNat % 2 ^ 16) ++ [0] := by
    rw [idx.drop_textLabels inside, textLabels, List.map_drop]
  have tails : matchesAfter (charsIn keys) [] (text.toList.drop p) =
      (text.toList.drop p).inits.tail.filter (· ∈ charsIn keys) := by
    rw [matchesAfter]
    simp only [List.nil_append, List.map_id']
  rw [occurrencesAt, labels, walked, Option.bind_some, tails, List.mapM_map]
  refine mapM_some fun w among => ?_
  have front : w <+: text.toList.drop p :=
    (List.mem_inits w _).mp (List.mem_of_mem_tail (List.mem_of_mem_filter among))
  have within := front.length_le
  rw [List.length_drop] at within
  rw [Function.comp_apply, endsOf_getElem? _ _ _ inside.le, Option.bind_some,
    endsOf_getElem? _ _ _ (by omega),
    Option.map_some, byteLen_take_add _ _ front, Nat.zero_add, Nat.zero_add]

theorem occurrences_answers (text : String) :
    idx.forEachOccurrence text = some (occurrencesIn keys text) := by
  have each := mapM_some (f := idx.occurrencesAt text) fun p member =>
    occurrencesAt_answers follows (List.mem_range.mp member)
  rw [DoubleArrayIndex.forEachOccurrence, DoubleArrayIndex.occurrences_eq, each, Option.map_some,
    Option.map_some, ← List.flatMap_def, List.map_flatMap, occurrencesIn]
  refine congrArg some (List.flatMap_congr fun p _ => ?_)
  rw [List.map_map]
  have same := @map_matches keys _ (fun w i => (byteLen (text.toList.take p),
    byteLen (text.toList.take p) + byteLen w, i)) (text.toList.drop p).inits.tail
  refine Eq.trans same (List.map_congr_left fun k _ => ?_)
  rw [byteLen, byteLen, bytesOf_eq]

theorem answers : Answers idx keys :=
  ⟨id_answers follows, commonPrefix_answers follows, longestPrefix_answers follows,
    occurrences_answers follows⟩

end Queries

end Lexindex.DoubleArray
