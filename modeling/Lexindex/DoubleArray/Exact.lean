import Mathlib
import Lexindex.DoubleArray.Accepts
import Lexindex.DoubleArray.Answers
import Lexindex.DoubleArray.PlaceTotal

/-!
# A double array is exact

A build ends, refused only where ids, labels or bases would not fit; and the index it returns answers
every query from the keys, as does what its blob loads as.
-/

set_option autoImplicit false

namespace Lexindex.DoubleArray

open Mphf (IndexError)

/-! ## The keys, sorted and distinct -/

theorem ranked_eq (items : List String) : ranked items = sortDedup bytesOf items := by
  rw [ranked]
  split
  · rename_i sorted
    refine eq_sortDedup (fun _ _ => bytesOf_inj) items ?_ fun _ => Iff.rfl
    have : IsTrans String fun a b => bytesOf a < bytesOf b := ⟨fun _ _ _ less more => less.trans more⟩
    exact List.isChain_iff_pairwise.mp sorted
  · rfl

theorem ranked_sorted (items : List String) : isSorted (ranked items) := by
  rw [ranked_eq]
  exact List.Pairwise.isChain (sortDedup_ascending (fun _ _ => bytesOf_inj) items)

theorem mem_ranked {items : List String} (key : String) : key ∈ ranked items ↔ key ∈ items := by
  rw [ranked_eq]
  exact mem_sortDedup (fun _ _ => bytesOf_inj) items key

theorem fronts_ranked (items : List String) :
    (frontsOf (ranked items)).dedup.length = (frontsOf items).dedup.length := by
  refine ((List.perm_ext_iff_of_nodup (List.nodup_dedup _) (List.nodup_dedup _)).mpr
    fun p => ?_).length_eq
  rw [List.mem_dedup, List.mem_dedup, mem_frontsOf, mem_frontsOf]
  simp only [mem_charsIn, mem_ranked]

/-- The blob a build writes. -/
def blobFor (keys : List String) (t : Trie) (base : List Nat) : Except IndexError (List UInt8) :=
  let nSlots := slotCount (orderOf keys) base
  if MAX_SLOTS < nSlots then .error tooMany
  else
    let body := bodyBytes (slotsOf t base nSlots) (codeTable (charsFor keys)) (suppOf (charsFor keys))
    .ok (headerBytes keys.length (emptyOf keys) nSlots (tableLen (charsFor keys))
      (suppOf (charsFor keys)).length (charsFor keys).length (Blob.hashBlock body) ++ body)

/-- `buildRanked`, up to the blob it loads. -/
def buildBytes (keys : List String) : Option (Except IndexError (List UInt8)) :=
  if MAX_KEYS < keys.length then
    some (.error (.build "double-array: more than 8 388 608 keys; ids are 23 bits"))
  else if MAX_ALPHABET < (charsFor keys).length then
    some (.error (.build "double-array: more than 65 535 distinct characters; labels are 16 bits"))
  else
    (Trie.build ((decodeKeys keys [] []).1.map
      (labelOf (codeTable (charsFor keys)) (suppOf (charsFor keys)))) (decodeKeys keys [] []).2
      (lowOf keys)).bind fun t =>
        (place t (charsFor keys).length).map fun placed => placed.bind (blobFor keys t)

section Build

variable {keys : List String}

/-- The labels and the bounds of the keys, as the trie of a build reads them. -/
def trieFor (keys : List String) : Option Trie :=
  Trie.build ((decodeKeys keys [] []).1.map (labelOf (codeTable (charsFor keys)) (suppOf (charsFor keys))))
    (decodeKeys keys [] []).2 (lowOf keys)

theorem layOut_eq (keys : List String) (t : Trie) (base : List Nat) :
    layOut keys.length (emptyOf keys) (charsFor keys) t base =
      (blobFor keys t base).bind fun bytes => fromShared bytes false := by
  have width : (if (charsFor keys).length = 0 then 0
      else base.foldl max 0 + (charsFor keys).length + 1) = slotCount (orderOf keys) base := by
    rw [slotCount, orderOf, List.length_map]
  rw [layOut, blobFor]
  simp only [width]
  by_cases many : MAX_SLOTS < slotCount (orderOf keys) base
  · rw [if_pos many, if_pos many, Except.bind]
  · rw [if_neg many, if_neg many, Except.bind]

/-- A build loads the blob it writes. -/
theorem buildRanked_eq (keys : List String) : buildRanked keys =
    (buildBytes keys).map fun written => written.bind fun bytes => fromShared bytes false := by
  rw [buildBytes]
  by_cases many : MAX_KEYS < keys.length
  · rw [buildRanked, if_pos many, if_pos many]
    rfl
  rw [if_neg many]
  by_cases wide : MAX_ALPHABET < (charsFor keys).length
  · rw [if_pos wide, buildRanked, if_neg many]
    exact if_pos wide
  rw [if_neg wide]
  cases built : trieFor keys with
  | none =>
      have unfolded := built
      rw [trieFor, charsFor, lowOf, emptyOf] at unfolded
      rw [trieFor] at built
      rw [built, buildRanked, if_neg many]
      rw [charsFor] at wide
      dsimp only
      rw [if_neg wide, unfolded]
      rfl
  | some t =>
      have unfolded := built
      rw [trieFor, charsFor, lowOf, emptyOf] at unfolded
      rw [trieFor] at built
      rw [built, buildRanked, if_neg many, Option.bind_some, Option.map_map]
      have wide' := wide
      rw [charsFor] at wide'
      dsimp only
      rw [if_neg wide', unfolded]
      dsimp only
      cases placed : place t (charsFor keys).length with
      | none =>
          rw [charsFor] at placed
          rw [placed]
          rfl
      | some outcome =>
          rw [charsFor] at placed
          rw [placed]
          cases outcome with
          | error refused => rfl
          | ok base => exact congrArg some (layOut_eq keys t base)

/-! ## What is written is accepted -/

theorem supp_codes (chars : List (Nat × Nat)) (first : Nat) :
    ((chars.zipIdx first).filterMap fun e =>
      if e.1.2 < BMP then none else some (e.1.2, e.2 + 1)).map Prod.fst =
      (chars.map Prod.snd).filter (BMP ≤ ·) := by
  induction chars generalizing first with
  | nil => rfl
  | cons c chars ih =>
      rw [List.zipIdx_cons, List.filterMap_cons, List.map_cons, List.filter_cons]
      by_cases low : c.2 < BMP
      · rw [if_pos low, if_neg (by simpa using low)]
        exact ih (first + 1)
      · rw [if_neg low, if_pos (by simpa using Nat.le_of_not_lt low), List.map_cons, ih (first + 1)]

theorem supp_ascending {chars : List (Nat × Nat)} (distinct : (chars.map Prod.snd).Nodup) :
    (suppOf chars).Pairwise fun a b => a.1 < b.1 := by
  have ordered : (suppOf chars).Pairwise fun a b => a.1 ≤ b.1 := by
    have pairs := @List.pairwise_mergeSort _
      (fun a b : Nat × Nat => decide (a.1 < b.1 ∨ a.1 = b.1 ∧ a.2 ≤ b.2)) (by simp; omega) (by simp; omega)
      (chars.zipIdx.filterMap fun e => if e.1.2 < BMP then none else some (e.1.2, e.2 + 1))
    refine pairs.imp fun held => ?_
    rw [decide_eq_true_iff] at held
    omega
  have apart : ((suppOf chars).map Prod.fst).Pairwise (· ≠ ·) := by
    have perm : (suppOf chars).Perm (chars.zipIdx.filterMap fun e =>
        if e.1.2 < BMP then none else some (e.1.2, e.2 + 1)) := List.mergeSort_perm ..
    refine (perm.map Prod.fst).nodup_iff.mpr ?_
    rw [supp_codes]
    exact distinct.filter _
  have apart' := List.pairwise_map.mp apart
  exact (ordered.and apart').imp fun both => Nat.lt_of_le_of_ne both.1 both.2

/-- The parts of a blob written. -/
def blobOf (keys : List String) (t : Trie) (base : List Nat) : List UInt8 :=
  blobBytes keys.length (emptyOf keys) (slotsOf t base (slotCount (orderOf keys) base))
    (codeTable (charsFor keys)) (suppOf (charsFor keys)) (charsFor keys).length

/-- What a build makes, if it makes an index. -/
structure Made (keys : List String) (t : Trie) (paths : List (List Nat)) (base : List Nat) : Prop where
  laid : Laid (orderOf keys) (charsIn keys) (lowOf keys) t paths base
  few : keys.length ≤ MAX_KEYS
  narrow : (charsFor keys).length ≤ MAX_ALPHABET
  room : slotCount (orderOf keys) base ≤ MAX_SLOTS

variable {t : Trie} {paths : List (List Nat)} {base : List Nat}

theorem Made.accepted (made : Made keys t paths base) (sorted : isSorted keys) (verifyPayload : Bool) :
    fromShared (blobOf keys t base) verifyPayload = .ok (builtIndex keys t base) := by
  have distinct := (orderOf_ranks keys).distinct
  have width : (orderOf keys).length = (charsFor keys).length := List.length_map _
  have sized : (charsIn keys).length = keys.length := List.length_map _
  have slotsLength : (slotsOf t base (slotCount (orderOf keys) base)).length =
      slotCount (orderOf keys) base := by
    rw [slotsOf_eq, writes_length, List.length_replicate]
  have tableFits : (codeTable (charsFor keys)).length ≤ BMP := by
    rw [(codeTable_spec distinct).1]
    exact tableLen_le _
  have suppFits : (suppOf (charsFor keys)).length ≤ (charsFor keys).length := by
    rw [suppOf, List.length_mergeSort]
    exact (List.length_filterMap_le _ _).trans (by rw [List.length_zipIdx])
  have shape : if (charsFor keys).length = 0 then
      (slotsOf t base (slotCount (orderOf keys) base)).length = 0
      else (charsFor keys).length < (slotsOf t base (slotCount (orderOf keys) base)).length := by
    rw [slotsLength, slotCount, width]
    split
    · rfl
    · omega
  have exacts := slots_exact made.laid
  rw [sized, width] at exacts
  refine fromShared_written made.few (emptyOf_lt sorted) (slotsLength.trans_le made.room) tableFits suppFits
    made.narrow shape ?_ (table_words distinct made.narrow)
    (supp_words distinct made.narrow (scalars_of keys)) (supp_ascending distinct) verifyPayload
  rw [slotsLength]
  exact exacts

theorem blobFor_eq (keys : List String) (t : Trie) (base : List Nat) : blobFor keys t base =
    if MAX_SLOTS < slotCount (orderOf keys) base then .error tooMany else .ok (blobOf keys t base) := by
  have slotsLength : (slotsOf t base (slotCount (orderOf keys) base)).length =
      slotCount (orderOf keys) base := by
    rw [slotsOf_eq, writes_length, List.length_replicate]
  have tableLength : (codeTable (charsFor keys)).length = tableLen (charsFor keys) :=
    (codeTable_spec (orderOf_ranks keys).distinct).1
  rw [blobFor, blobOf, blobBytes, slotsLength, tableLength]

/-- How a build ends. -/
inductive Written (keys : List String) : Option (Except IndexError (List UInt8)) → Prop
  | keys (many : MAX_KEYS < keys.length) : Written keys
      (some (.error (.build "double-array: more than 8 388 608 keys; ids are 23 bits")))
  | characters (few : keys.length ≤ MAX_KEYS) (many : MAX_ALPHABET < (charsFor keys).length) :
      Written keys (some (.error (.build
        "double-array: more than 65 535 distinct characters; labels are 16 bits")))
  | slots (few : keys.length ≤ MAX_KEYS) (narrow : (charsFor keys).length ≤ MAX_ALPHABET) :
      Written keys (some (.error tooMany))
  | blob {t : Trie} {paths : List (List Nat)} {base : List Nat} (made : Made keys t paths base) :
      Written keys (some (.ok (blobOf keys t base)))

theorem buildBytes_written (sorted : isSorted keys) (nodes : (frontsOf keys).dedup.length < 2 ^ 32) :
    Written keys (buildBytes keys) := by
  rw [buildBytes]
  split
  · rename_i many
    exact .keys many
  rename_i few
  split
  · rename_i many
    exact .characters (Nat.not_lt.mp few) many
  rename_i narrow
  obtain ⟨some_char, -, low_le, -⟩ := low_spec sorted
  have width : (orderOf keys).length = (charsFor keys).length := List.length_map _
  obtain ⟨labels, starts⟩ := decoded_eq keys
  obtain ⟨t, paths, built, trie⟩ :=
    (lexicon_of (orderOf_ranks keys) (charsIn_sorted sorted) low_le some_char).build
      (Nat.lt_of_le_of_lt (nodeCount_le_fronts _) nodes)
  have count := trie.labels
  have small := trie.small
  have some_node : 0 < t.label.length := count ▸ (List.getElem?_eq_some_iff.mp trie.root).1
  have ok : ∀ v, v < t.label.length → RowOk (charsFor keys).length (t.row v) := fun v isNode =>
    width ▸ rowOk trie isNode
  obtain ⟨outcome, placed, ends⟩ := place_ends (by omega) some_node (Nat.not_lt.mp narrow) ok
  rw [← labels, ← starts] at built
  rw [built, Option.bind_some, placed, Option.map_some]
  rcases ends with rfl | ⟨base, rfl⟩
  · exact .slots (Nat.not_lt.mp few) (Nat.not_lt.mp narrow)
  obtain ⟨paths, laid⟩ := laid_of_place sorted (Nat.not_lt.mp few) nodes (Nat.not_lt.mp narrow) built placed
  rw [Except.bind, blobFor_eq]
  split
  · exact .slots (Nat.not_lt.mp few) (Nat.not_lt.mp narrow)
  · rename_i room
    exact .blob ⟨laid, Nat.not_lt.mp few, Nat.not_lt.mp narrow, Nat.not_lt.mp room⟩

end Build

/-! ## The index -/

section Items

variable (items : List String) (nodes : (frontsOf items).dedup.length < 2 ^ 32)
include nodes

/-- The blob a build writes loads as the index the build returns, its payload verified or not. -/
theorem blob_round_trip :
    (∃ refused, buildBytes (ranked items) = some (.error refused) ∧ build items = some (.error refused)) ∨
      ∃ bytes idx, buildBytes (ranked items) = some (.ok bytes) ∧ build items = some (.ok idx) ∧
        ∀ verifyPayload, fromShared bytes verifyPayload = .ok idx := by
  have sorted := ranked_sorted items
  have written := buildBytes_written sorted (fronts_ranked items ▸ nodes)
  rw [build, buildRanked_eq]
  generalize buildBytes (ranked items) = result at written
  cases written with
  | keys many => exact .inl ⟨_, rfl, rfl⟩
  | characters few many => exact .inl ⟨_, rfl, rfl⟩
  | slots few narrow => exact .inl ⟨_, rfl, rfl⟩
  | @blob t paths base made =>
      refine .inr ⟨_, builtIndex (ranked items) t base, rfl, ?_, made.accepted sorted⟩
      rw [Option.map_some, Except.bind, made.accepted sorted]

end Items

theorem blob_round_trip_of_five :
    (∃ refused, buildBytes (ranked ["ab", "", "a", "é", "ab"]) = some (.error refused) ∧
        build ["ab", "", "a", "é", "ab"] = some (.error refused)) ∨
      ∃ bytes idx, buildBytes (ranked ["ab", "", "a", "é", "ab"]) = some (.ok bytes) ∧
        build ["ab", "", "a", "é", "ab"] = some (.ok idx) ∧
        ∀ verifyPayload, fromShared bytes verifyPayload = .ok idx :=
  blob_round_trip ["ab", "", "a", "é", "ab"] (by decide)

end Lexindex.DoubleArray
