import Mathlib
import Lexindex.PerfectHash.StreamFill

/-!
# The streamed build is the build in memory

Over keys whose hashes are all different, both passes of a streamed build write the blob of the
index built in memory, whatever the window; and a second pass that is seen to differ is refused.
-/

set_option autoImplicit false

namespace Lexindex.PerfectHash

open Faulting
open Mphf (IndexError)
open Arena (prefixForLengths layOutBlocked NARROW_LIMIT frontOf tagFor)

/-! ## Digests -/

theorem rotate_injective {a b : UInt64} (same : a <<< 5 ||| a >>> 59 = b <<< 5 ||| b >>> 59) :
    a = b := by
  have back (x : UInt64) : (x <<< 5 ||| x >>> 59) >>> 5 ||| (x <<< 5 ||| x >>> 59) <<< 59 = x := by
    rw [← UInt64.toBitVec_inj]
    ext i inside
    simp
    by_cases low : i < 59
    · grind
    · grind
  rw [← back a, same, back b]

theorem odd_factor_injective {a b : UInt64}
    (same : a * 0x9e3779b97f4a7c15 = b * 0x9e3779b97f4a7c15) : a = b := by
  have back (x : UInt64) : x * 0x9e3779b97f4a7c15 * 0xf1de83e19937733d = x := by
    rw [UInt64.mul_assoc]
    exact UInt64.mul_one x
  rw [← back a, same, back b]

theorem foldDigest_left {a b fingerprint : UInt64}
    (same : foldDigest a fingerprint = foldDigest b fingerprint) : a = b := by
  have mixed := odd_factor_injective same
  have cancel (x : UInt64) : x ^^^ fingerprint ^^^ fingerprint = x := by
    rw [UInt64.xor_assoc, UInt64.xor_self, UInt64.xor_zero]
  refine rotate_injective ?_
  rw [← cancel (a <<< 5 ||| a >>> 59), mixed, cancel]

theorem foldDigest_right {digest a b : UInt64} (same : foldDigest digest a = foldDigest digest b) :
    a = b := by
  have mixed := odd_factor_injective same
  have cancel (x : UInt64) : (digest <<< 5 ||| digest >>> 59) ^^^
      ((digest <<< 5 ||| digest >>> 59) ^^^ x) = x := by
    rw [← UInt64.xor_assoc, UInt64.xor_self, UInt64.zero_xor]
  rw [← cancel a, mixed, cancel]

theorem fold_injective (hashes : List UInt64) : ∀ {a b : UInt64},
    hashes.foldl foldDigest a = hashes.foldl foldDigest b → a = b := by
  induction hashes with
  | nil => exact fun same => same
  | cons hash hashes ih => exact fun same => foldDigest_left (ih same)

/-- Lists that differ at one place have different digests. -/
theorem fold_differs {hashes others : List UInt64} {i : Nat} {a b : UInt64} (differ : a ≠ b)
    (here : hashes[i]? = some a) (there : others[i]? = some b)
    (elsewhere : ∀ j, j ≠ i → hashes[j]? = others[j]?) (digest : UInt64) :
    hashes.foldl foldDigest digest ≠ others.foldl foldDigest digest := by
  obtain ⟨inside, rfl⟩ := List.getElem?_eq_some_iff.mp here
  obtain ⟨within, rfl⟩ := List.getElem?_eq_some_iff.mp there
  have before : hashes.take i = others.take i := by
    refine List.ext_getElem? fun j => ?_
    by_cases small : j < i
    · rw [List.getElem?_take_of_lt small, List.getElem?_take_of_lt small, elsewhere j small.ne]
    · rw [List.getElem?_take_eq_none (by omega), List.getElem?_take_eq_none (by omega)]
  have after : hashes.drop (i + 1) = others.drop (i + 1) := by
    refine List.ext_getElem? fun j => ?_
    rw [List.getElem?_drop, List.getElem?_drop, elsewhere _ (by omega)]
  have cut {items : List UInt64} (small : i < items.length) : items.foldl foldDigest digest =
      (items.drop (i + 1)).foldl foldDigest
        (foldDigest ((items.take i).foldl foldDigest digest) items[i]) := by
    conv => lhs; rw [← List.take_append_drop i items, ← List.cons_getElem_drop_succ (h := small)]
    rw [List.foldl_append, List.foldl_cons]
  rw [cut inside, cut within, before, after]
  exact fun same => differ (foldDigest_right (fold_injective _ same))

variable {h : Hashing}

/-! ## What a pass brings -/

theorem replays_iff {lens : List Nat} (keys : List String) : ∀ {rows : List (UInt64 × Nat)},
    Replays h lens keys rows ↔ ∀ (i : Nat) (key : String), keys[i]? = some key →
      ∃ row, rows[i]? = some row ∧ h.hashKey key = row.1 ∧
        (bytesOf key).length = lens.getD row.2 0 := by
  induction keys with
  | nil => simp [Replays]
  | cons key keys ih =>
      intro rows
      cases rows with
      | nil =>
          refine iff_of_false id fun each => ?_
          obtain ⟨row, here, -⟩ := each 0 key rfl
          cases here
      | cons row rows =>
          rw [Replays, ih]
          constructor
          · rintro ⟨hashed, length, rest⟩ i other here
            cases i with
            | zero =>
                obtain rfl : key = other := Option.some.inj here
                exact ⟨row, rfl, hashed, length⟩
            | succ i => exact rest i other here
          · intro each
            obtain ⟨first, here, hashed, length⟩ := each 0 key rfl
            obtain rfl : row = first := Option.some.inj here
            exact ⟨hashed, length, fun i other there => each (i + 1) other there⟩

/-- A second pass that the first can be told from: in its count, in a hash or a length at some
place, or in the second hash at one place alone. -/
def Drifted (h : Hashing) (first second : List String) : Prop :=
  first.length ≠ second.length ∨ ∃ (i : Nat) (a b : String),
    first[i]? = some a ∧ second[i]? = some b ∧ (h.hashKey a ≠ h.hashKey b ∨ (bytesOf a).length ≠ (bytesOf b).length ∨
      (h.hashPair (bytesOf a)).2 ≠ (h.hashPair (bytesOf b)).2 ∧
        ∀ j, j ≠ i → (first[j]?).map (fun key => (h.hashPair (bytesOf key)).2) =
          (second[j]?).map fun key => (h.hashPair (bytesOf key)).2)

/-! ## The slots -/

section Slots

variable {keys : List String} {mph : h.Mphf}

theorem Parted.no_extras {hashes firsts : List UInt64} {extras : List (UInt64 × Nat)}
    (parted : Parted hashes firsts extras) (once : hashes.Nodup) : extras = [] := by
  refine List.eq_nil_iff_forall_not_mem.mpr fun p member => ?_
  obtain ⟨here, j, less, there⟩ := (parted.repeats p).mp member
  obtain ⟨jIn, jIs⟩ := List.getElem?_eq_some_iff.mp there
  obtain ⟨pIn, pIs⟩ := List.getElem?_eq_some_iff.mp here
  have same := (once.getElem_inj_iff).mp (jIs.trans pIs.symm)
  omega

/-- The slot of each key's hash. -/
def slotsOf (h : Hashing) (mph : h.Mphf) (keys : List String) : List Nat :=
  (keys.map h.hashKey).map (h.slot mph)

/-- Slots for the keys: each has its own, and none is past the last. -/
structure Slotted (h : Hashing) (mph : h.Mphf) (keys : List String) : Prop where
  once : (slotsOf h mph keys).Nodup
  inside : ∀ slot ∈ slotsOf h mph keys, slot < (slotsOf h mph keys).length

theorem slotsOf_length : (slotsOf h mph keys).length = keys.length := by
  rw [slotsOf, List.length_map, List.length_map]

theorem slotted (once : (keys.map h.hashKey).Nodup)
    (placed : PlacesAll (h.slot mph) (mphInput (keys.map h.hashKey)).1) : Slotted h mph keys := by
  have parted := mphInput_parted (keys.map h.hashKey)
  have count := parted.count
  rw [parted.no_extras once, List.length_nil, Nat.add_zero, List.length_map] at count
  refine ⟨List.Nodup.map_on (fun a aIn b bIn same => placed.2 a ((parted.members a).mpr aIn) b
    ((parted.members b).mpr bIn) same) once, fun slot member => ?_⟩
  obtain ⟨hash, listed, rfl⟩ := List.mem_map.mp member
  rw [slotsOf_length, ← count]
  exact placed.1 hash ((parted.members hash).mpr listed)

/-- The keys in their slots. -/
def rowsOf (h : Hashing) (mph : h.Mphf) (keys : List String) : List String :=
  bySlot "" keys (slotsOf h mph keys)

variable (slots : Slotted h mph keys)
include slots

theorem rowsOf_length : (rowsOf h mph keys).length = keys.length :=
  (bySlot_spec slotsOf_length.symm slots.once slots.inside).1

theorem rowsOf_map {β : Type} {blank : β} (f : String → β) :
    bySlot blank (keys.map f) (slotsOf h mph keys) = (rowsOf h mph keys).map f :=
  bySlot_map f slotsOf_length.symm slots.once slots.inside

theorem rowsOf_slot {i : Nat} {key : String} (here : keys[i]? = some key) :
    (rowsOf h mph keys)[h.slot mph (h.hashKey key)]? = some key := by
  refine (bySlot_spec slotsOf_length.symm slots.once slots.inside).2
    (key, h.slot mph (h.hashKey key)) (List.mem_of_getElem? (i := i) ?_)
  rw [List.getElem?_zip_eq_some]
  refine ⟨here, ?_⟩
  rw [slotsOf, List.getElem?_map, List.getElem?_map, here]
  rfl

/-- What the second pass is checked against. -/
theorem replayed_row {i : Nat} {key : String} (here : keys[i]? = some key) :
    ((keys.map h.hashKey).zip (slotsOf h mph keys))[i]? =
        some (h.hashKey key, h.slot mph (h.hashKey key)) ∧
      ((rowsOf h mph keys).map fun key => (bytesOf key).length).getD
        (h.slot mph (h.hashKey key)) 0 = (bytesOf key).length := by
  constructor
  · rw [List.getElem?_zip_eq_some]
    refine ⟨by rw [List.getElem?_map, here]; rfl, ?_⟩
    rw [slotsOf, List.getElem?_map, List.getElem?_map, here]
    rfl
  · rw [List.getD_eq_getElem?_getD, List.getElem?_map, rowsOf_slot slots here]
    rfl

/-- A second pass is taken where it has the hashes and the lengths of the first. -/
theorem replays_first_iff {second : List String} (count : keys.length = second.length) :
    Replays h ((rowsOf h mph keys).map fun key => (bytesOf key).length) second
        ((keys.map h.hashKey).zip (slotsOf h mph keys)) ↔
      ∀ (i : Nat) (a b : String), keys[i]? = some a → second[i]? = some b →
        h.hashKey a = h.hashKey b ∧ (bytesOf a).length = (bytesOf b).length := by
  rw [replays_iff]
  constructor
  · intro each i a b here there
    obtain ⟨row, at_, hashed, length⟩ := each i b there
    obtain ⟨rowIs, lengthIs⟩ := replayed_row slots here
    obtain rfl := Option.some.inj (rowIs.symm.trans at_)
    exact ⟨hashed.symm, (length.trans lengthIs).symm⟩
  · intro each i b there
    obtain ⟨inside, -⟩ := List.getElem?_eq_some_iff.mp there
    have here := List.getElem?_eq_getElem (count ▸ inside : i < keys.length)
    obtain ⟨rowIs, lengthIs⟩ := replayed_row slots here
    obtain ⟨hashed, length⟩ := each i _ b here there
    exact ⟨_, rowIs, hashed.symm, length.symm.trans lengthIs.symm⟩

end Slots

/-! ## The index in memory -/

section InMemory

variable {keys : List String} {mph : h.Mphf} {fingerprints : Bool}

theorem sideTable_nil {m : Nat} : sideTable m [] = [] := by
  rw [sideTable, List.map_nil, List.zipIdx_nil, List.mergeSort_nil]

/-- The index of keys whose hashes all differ. -/
def indexOf (h : Hashing) (mph : h.Mphf) (keys : List String) (fingerprints : Bool) :
    PerfectHashIndex h where
  mph := some mph
  arena := rowsOf h mph keys
  fingerprints := if fingerprints then some ((rowsOf h mph keys).map h.fingerprint) else none
  n := keys.length
  side := []

theorem buildOrdered_fingerprints {idx : PerfectHashIndex h}
    (result : buildOrdered h keys fingerprints = .ok idx) :
    idx.fingerprints = if fingerprints then some (idx.arena.map h.fingerprint) else none := by
  simp only [buildOrdered, bind_eq_ok, pure_eq_ok] at result
  obtain ⟨mph, -, bySlot, -, rfl⟩ := result
  rfl

/-- What a build in memory makes of such keys, in whatever order they come. -/
theorem buildWith_index (some_key : keys ≠ []) (once : (keys.map h.hashKey).Nodup)
    {idx : PerfectHashIndex h} (result : buildWith h keys fingerprints = .ok idx) :
    ∃ mph, h.buildMphf (mphInput (keys.map h.hashKey)).1 = .ok mph ∧
      PlacesAll (h.slot mph) (mphInput (keys.map h.hashKey)).1 ∧
      (∀ key ∈ keys, (bytesOf key).length < 2 ^ 32) ∧ keys.length < 2 ^ 32 ∧
      idx = indexOf h mph keys fingerprints := by
  have distinct : keys.Nodup := once.of_map _
  have members (key : String) : key ∈ sortDedup bytesOf keys ↔ key ∈ keys :=
    mem_sortDedup (fun _ _ => bytesOf_inj) keys key
  have sortedOnce : (sortDedup bytesOf keys).Nodup :=
    (sortDedup_ascending (fun _ _ => bytesOf_inj) keys).nodup
  have perm : (sortDedup bytesOf keys).Perm keys :=
    (List.perm_ext_iff_of_nodup sortedOnce distinct).mpr members
  have some_sorted : sortDedup bytesOf keys ≠ [] := fun none => some_key (by
    rw [none] at perm
    exact perm.nil_eq.symm)
  simp only [buildWith, bind_eq_ok, refuse_eq_ok, if_neg some_sorted] at result
  obtain ⟨-, few, -, short, ordered⟩ := result
  obtain ⟨mph, filled⟩ := buildOrdered_filled sortedOnce ordered
  have prints := buildOrdered_fingerprints ordered
  have hashPerm := perm.map h.hashKey
  have none := filled.parted.no_extras (hashPerm.nodup_iff.mpr once)
  have firsts : (mphInput ((sortDedup bytesOf keys).map h.hashKey)).1 =
      (mphInput (keys.map h.hashKey)).1 :=
    filled.parted.same_firsts (mphInput_parted _) fun hash => hashPerm.mem_iff
  rw [none, firsts] at filled
  have reps (key : String) (member : key ∈ keys) :
      h.slot mph (h.hashKey key) < (mphInput (keys.map h.hashKey)).1.length ∧
        idx.arena[h.slot mph (h.hashKey key)]? = some key := by
    obtain ⟨i, here⟩ := List.mem_iff_getElem?.mp ((members key).mpr member)
    exact filled.reps i key here List.not_mem_nil
  have hashes (hash : UInt64) (member : hash ∈ (mphInput (keys.map h.hashKey)).1) :
      ∃ key ∈ keys, h.hashKey key = hash :=
    List.mem_map.mp (((mphInput_parted (keys.map h.hashKey)).members hash).mp member)
  have placed : PlacesAll (h.slot mph) (mphInput (keys.map h.hashKey)).1 := by
    refine ⟨fun a member => ?_, fun a aIn b bIn same => ?_⟩
    · obtain ⟨key, listed, rfl⟩ := hashes a member
      exact (reps key listed).1
    · obtain ⟨key, listed, rfl⟩ := hashes a aIn
      obtain ⟨other, otherListed, rfl⟩ := hashes b bIn
      have one := (reps key listed).2
      rw [same, (reps other otherListed).2] at one
      rw [Option.some.inj one]
  have slots := slotted once placed
  have arena : idx.arena = rowsOf h mph keys := by
    have pairs : (keys.zip (slotsOf h mph keys)).length = keys.length := by
      rw [List.length_zip, slotsOf_length, Nat.min_self]
    refine @rows_unique _ (keys.zip (slotsOf h mph keys)) _ _ ?_ (fun e member => ?_) ?_ ?_
      (fun e member => ?_) (bySlot_spec slotsOf_length.symm slots.once slots.inside).2
    · rw [List.map_snd_zip slotsOf_length.le]
      exact slots.once
    · rw [pairs, ← slotsOf_length]
      exact slots.inside e.2 (List.of_mem_zip member).2
    · rw [filled.size, perm.length_eq, pairs]
    · rw [pairs]
      exact rowsOf_length slots
    · obtain ⟨i, here⟩ := List.mem_iff_getElem?.mp member
      rw [List.getElem?_zip_eq_some, slotsOf, List.getElem?_map, List.getElem?_map] at here
      obtain ⟨key, slot⟩ := here
      rw [key] at slot
      rw [← Option.some.inj slot]
      exact (reps e.1 (List.mem_of_getElem? key)).2
  refine ⟨mph, filled.built, placed, fun key member => ?_, ?_, ?_⟩
  · have all := short
    rw [List.any_eq_true] at all
    by_contra long
    exact all ⟨key, (members key).mpr member, decide_eq_true (by omega)⟩
  · rw [← perm.length_eq]
    omega
  · have side : idx.side = [] := filled.side.trans sideTable_nil
    obtain ⟨perfect, count⟩ := And.intro filled.perfect filled.count
    cases idx
    simp only at arena prints perfect side count
    subst arena prints perfect side count
    rw [indexOf, perm.length_eq]

end InMemory

/-! ## The streamed build -/

section Streamed

variable {keys second : List String} {mph : h.Mphf} {fingerprints : Bool} {window : Nat}
  {around : Surroundings} (mphBytes : h.Mphf → List UInt8)

/-- The lengths by slot. -/
def lensOf (h : Hashing) (mph : h.Mphf) (keys : List String) : List Nat :=
  (rowsOf h mph keys).map fun key => (bytesOf key).length

theorem lensOf_length (slots : Slotted h mph keys) :
    (lensOf h mph keys).length = keys.length := by
  rw [lensOf, List.length_map, rowsOf_length slots]

theorem lensOf_sum (slots : Slotted h mph keys) (few : keys.length < 2 ^ 32)
    (short : ∀ key ∈ keys, (bytesOf key).length < 2 ^ 32) :
    (∀ len ∈ lensOf h mph keys, len < 2 ^ 32) ∧ (lensOf h mph keys).sum < 2 ^ 64 := by
  have each : ∀ len ∈ lensOf h mph keys, len < 2 ^ 32 := by
    intro len member
    obtain ⟨key, listed, rfl⟩ := List.mem_map.mp member
    obtain ⟨i, here⟩ := List.mem_iff_getElem?.mp listed
    obtain ⟨inside, -⟩ := List.getElem?_eq_some_iff.mp here
    rw [rowsOf_length slots, ← @slotsOf_length h keys mph] at inside
    obtain ⟨hash, hashIn, slot⟩ := List.mem_map.mp (slots_cover slots.once slots.inside inside)
    obtain ⟨other, otherIn, rfl⟩ := List.mem_map.mp hashIn
    obtain ⟨j, there⟩ := List.mem_iff_getElem?.mp otherIn
    have placed := rowsOf_slot slots there
    rw [slot, here] at placed
    rw [Option.some.inj placed]
    exact short other otherIn
  refine ⟨each, ?_⟩
  have bound := List.sum_le_card_nsmul (lensOf h mph keys) (2 ^ 32 - 1) fun len member => by
    have less := each len member
    omega
  rw [lensOf_length slots, smul_eq_mul] at bound
  have most : keys.length * (2 ^ 32 - 1) ≤ (2 ^ 32 - 1) * (2 ^ 32 - 1) :=
    Nat.mul_le_mul_right _ (by omega)
  omega

/-- The fingerprints by slot. -/
def printsOf (h : Hashing) (mph : h.Mphf) (keys : List String) (fingerprints : Bool) :
    Option (List UInt8) :=
  if fingerprints then some ((rowsOf h mph keys).map h.fingerprint) else none

/-- The tag the lengths choose. -/
def tagOf (h : Hashing) (mph : h.Mphf) (keys : List String) (fingerprints : Bool) : UInt8 :=
  tagFor (lensOf h mph keys) (lensOf h mph keys).sum (printsOf h mph keys fingerprints).isSome
    NARROW_LIMIT

/-- What stands before the keys in the arena, and behind them. -/
def frontBytes (h : Hashing) (mph : h.Mphf) (keys : List String) (fingerprints : Bool) :
    List UInt8 :=
  frontOf (tagOf h mph keys fingerprints) (lensOf h mph keys) (printsOf h mph keys fingerprints)

def tailBytes (h : Hashing) (mph : h.Mphf) (keys : List String) (fingerprints : Bool) :
    List UInt8 :=
  Arena.tailOf (tagOf h mph keys fingerprints) (lensOf h mph keys)

theorem printsOf_sized : ∀ prints, printsOf h mph keys fingerprints = some prints →
    prints.length = (lensOf h mph keys).length := by
  intro prints some_prints
  rw [printsOf] at some_prints
  split at some_prints
  · rw [← Option.some.inj some_prints, List.length_map, lensOf, List.length_map]
  · cases some_prints

/-- The parts a payload is hashed by do not show. -/
theorem withHeader_parts (n mphLen sideLen : Nat) (parts : List (List UInt8)) :
    withHeader n mphLen sideLen parts = withHeader n mphLen sideLen [parts.flatten] := by
  simp only [withHeader, Blob.BlockHasher.finish_updates, List.flatten_cons, List.flatten_nil,
    List.append_nil]

/-- The blob the index is written to, laid out blocked. -/
theorem blockedBlob_eq (slots : Slotted h mph keys) (few : keys.length < 2 ^ 32)
    (short : ∀ key ∈ keys, (bytesOf key).length < 2 ^ 32) :
    blockedBlob mphBytes (indexOf h mph keys fingerprints) =
      some (withHeader keys.length (mphBytes mph).length 0 [mphBytes mph ++
        (frontBytes h mph keys fingerprints ++ (rowsOf h mph keys).flatMap bytesOf ++
          tailBytes h mph keys fingerprints)]) := by
  obtain ⟨each, -⟩ := lensOf_sum slots few short
  have laid := @Arena.layOutBlocked_eq (lensOf h mph keys) (printsOf h mph keys fingerprints)
    NARROW_LIMIT (rowsOf h mph keys) rfl printsOf_sized
    (by rwa [lensOf_length slots]) each
  have prints : (indexOf h mph keys fingerprints).fingerprints =
      printsOf h mph keys fingerprints := rfl
  rw [blockedBlob, prints, indexOf]
  simp only [laid]
  rw [sideBytes, List.flatMap_nil, Option.map_some, Option.getD_some]
  change some (withHeader _ _ _ _) = _
  rw [withHeader_parts]
  simp only [List.flatten_cons, List.flatten_nil, List.append_nil]
  rfl

/-- How the first pass says the file is laid out. -/
def layoutOf (mph : h.Mphf) (keys : List String) (fingerprints : Bool) (window : Nat) :
    ArenaLayout where
  front := frontBytes h mph keys fingerprints
  tail := tailBytes h mph keys fingerprints
  tag := tagOf h mph keys fingerprints
  dataStart := HEADER_V5 + (mphBytes mph).length + (frontBytes h mph keys fingerprints).length
  dataLen := (lensOf h mph keys).sum
  window := window

theorem layoutOf_places (slots : Slotted h mph keys) (few : keys.length < 2 ^ 32)
    (short : ∀ key ∈ keys, (bytesOf key).length < 2 ^ 32) :
    Places (layoutOf mphBytes mph keys fingerprints window) (lensOf h mph keys) where
  span := fun i inside => Arena.spanAt_written le_rfl printsOf_sized
    (by rwa [lensOf_length slots]) (lensOf_sum slots few short).2 inside
  dataLen := rfl

/-- The file before the keys are in it, and its parts before and behind them. -/
def fileFront (mph : h.Mphf) (keys : List String) (fingerprints : Bool) : List UInt8 :=
  List.replicate HEADER_V5 0 ++ mphBytes mph ++ frontBytes h mph keys fingerprints

theorem fileFront_length : (fileFront mphBytes mph keys fingerprints).length =
    (layoutOf mphBytes mph keys fingerprints window).dataStart := by
  rw [fileFront, List.length_append, List.length_append, List.length_replicate]
  rfl

theorem zeros_lengths (lens : List Nat) :
    (lens.map fun len => List.replicate len (0 : UInt8)).map List.length = lens := by
  rw [List.map_map]
  exact (List.map_congr_left fun len _ => List.length_replicate).trans (List.map_id _)

/-- The rows a second pass is checked against are the slots, one for each key. -/
theorem slotRows : ((keys.map h.hashKey).zip (slotsOf h mph keys)).map Prod.snd =
      slotsOf h mph keys ∧
    ((keys.map h.hashKey).zip (slotsOf h mph keys)).length = keys.length := by
  have count : (keys.map h.hashKey).length = (slotsOf h mph keys).length := by
    rw [slotsOf_length, List.length_map]
  refine ⟨List.map_snd_zip count.ge, ?_⟩
  rw [List.length_zip, count, Nat.min_self, slotsOf_length]

theorem slotRows_inside (slots : Slotted h mph keys) :
    ∀ row ∈ (keys.map h.hashKey).zip (slotsOf h mph keys), row.2 < (lensOf h mph keys).length := by
  intro row member
  have inside := slots.inside row.2 (List.of_mem_zip member).2
  rwa [slotsOf_length, ← lensOf_length slots] at inside

/-- Past the first pass, a build is its fill and what is checked of it. -/
theorem streamed_filled (some_key : keys ≠ []) (once : (keys.map h.hashKey).Nodup)
    (few : keys.length < 2 ^ 32) (short : ∀ key ∈ keys, (bytesOf key).length < 2 ^ 32)
    (built : h.buildMphf (mphInput (keys.map h.hashKey)).1 = .ok mph)
    (placed : PlacesAll (h.slot mph) (mphInput (keys.map h.hashKey)).1)
    (first : around.afterFirst = .ok ()) :
    streamed h mphBytes keys second fingerprints window around =
      (fillMap h (layoutOf mphBytes mph keys fingerprints window) second
          ((keys.map h.hashKey).zip (slotsOf h mph keys)) (fileFront mphBytes mph keys fingerprints ++
            List.replicate (lensOf h mph keys).sum 0 ++ tailBytes h mph keys fingerprints) >>=
        fun filled => do
          refuseIf (filled.2.1 ≠ keys.length ∨ filled.2.2 ≠ digestOf h keys 0) replayMismatch
          around.afterSecond.mapError Stop.refused
          pure (withHeader keys.length (mphBytes mph).length 0 [filled.1.drop HEADER_V5])) := by
  have parted := mphInput_parted (keys.map h.hashKey)
  have slots := slotted once placed
  have checked := (checkSlots_iff parted).mpr placed
  have extras := parted.no_extras once
  obtain ⟨firsts, input⟩ : ∃ firsts, mphInput (keys.map h.hashKey) = (firsts, []) :=
    ⟨_, Prod.ext rfl extras⟩
  rw [input] at built checked
  have slotOf : (keys.map h.hashKey).zipIdx.map (rowOf (h.slot mph) firsts.length []) =
      slotsOf h mph keys := by
    have each : rowOf (h.slot mph) firsts.length [] = h.slot mph ∘ Prod.fst := by
      funext p
      exact rowOf_rep List.not_mem_nil
    rw [each, slotsOf, ← List.map_map, List.zipIdx_map_fst]
  have lens : bySlot 0 (keys.map fun key => (bytesOf key).length) (slotsOf h mph keys) =
      lensOf h mph keys := rowsOf_map slots _
  have prints : (if fingerprints then some (bySlot 0 (keys.map h.fingerprint) (slotsOf h mph keys))
      else none) = printsOf h mph keys fingerprints := by
    rw [rowsOf_map slots, printsOf]
  obtain ⟨size, table⟩ := Arena.prefixLen_some (@Arena.tagFor_chosen (lensOf h mph keys)
    (lensOf h mph keys).sum NARROW_LIMIT (printsOf h mph keys fingerprints).isSome)
    (by rwa [lensOf_length slots])
  have arena := Arena.prefixForLengths_eq printsOf_sized table
  have fits : ¬ keys.any (fun key => decide (2 ^ 32 ≤ (bytesOf key).length)) = true := by
    simpa using short
  have okBind {α β : Type} (value : α) (next : α → Faulting IndexError β) :
      (Except.ok value >>= next) = next value := rfl
  have lifted {α : Type} (value : α) :
      (Except.ok value : Except IndexError α).mapError Stop.refused = .ok value := rfl
  have noSide : sideBytes [] = [] := rfl
  rw [streamed]
  simp only [refuseIf, if_neg fits, first, if_neg (Nat.not_le.mpr few), if_neg some_key, input,
    built, okBind, lifted, checked, slotOf, lens, prints, arena, List.anyM_nil, pure_bind,
    Bool.false_eq_true, if_false, sideTable_nil, noSide, List.append_nil, List.length_nil]
  rfl

/-- What a second pass comes to that is as the first was, for all that is checked of one key. -/
theorem streamed_replayed (some_window : 0 < window) (some_key : keys ≠ [])
    (once : (keys.map h.hashKey).Nodup) (few : keys.length < 2 ^ 32)
    (short : ∀ key ∈ keys, (bytesOf key).length < 2 ^ 32)
    (built : h.buildMphf (mphInput (keys.map h.hashKey)).1 = .ok mph)
    (placed : PlacesAll (h.slot mph) (mphInput (keys.map h.hashKey)).1)
    (first : around.afterFirst = .ok ()) (count : keys.length = second.length)
    (same : ∀ (i : Nat) (a b : String), keys[i]? = some a → second[i]? = some b →
      h.hashKey a = h.hashKey b ∧ (bytesOf a).length = (bytesOf b).length) :
    streamed h mphBytes keys second fingerprints window around = (do
      refuseIf (digestOf h second 0 ≠ digestOf h keys 0) replayMismatch
      around.afterSecond.mapError Stop.refused
      pure (withHeader keys.length (mphBytes mph).length 0 [mphBytes mph ++
        (frontBytes h mph keys fingerprints ++
          (bySlot [] (second.map bytesOf) (slotsOf h mph keys)).flatten ++
          tailBytes h mph keys fingerprints)])) := by
  have slots := slotted once placed
  have rows := @slotRows h keys mph
  have replays := (replays_first_iff slots count).mpr same
  have filled := @fillMap_whole h (layoutOf mphBytes mph keys fingerprints window)
    (lensOf h mph keys) (fileFront mphBytes mph keys fingerprints)
    (tailBytes h mph keys fingerprints) second _
    ((lensOf h mph keys).map fun len => List.replicate len 0)
    (layoutOf_places mphBytes slots few short) some_window
    (fileFront_length mphBytes) (by rw [lensOf_length slots]; omega)
    (by rw [rows.2, lensOf_length slots]) (rows.1.symm ▸ slots.once) (slotRows_inside slots)
    replays (by rw [rows.2, count]) (zeros_lengths _)
  rw [streamed_filled mphBytes some_key once few short built placed first, ← zeros_flatten, filled,
    rows.1]
  change (refuseIf (second.length ≠ keys.length ∨ _) replayMismatch >>= _) = _
  have alike : ¬ second.length ≠ keys.length := not_not.mpr count.symm
  have whole (segs : List UInt8) : (fileFront mphBytes mph keys fingerprints ++ segs ++
      tailBytes h mph keys fingerprints).drop HEADER_V5 = mphBytes mph ++
        (frontBytes h mph keys fingerprints ++ segs ++ tailBytes h mph keys fingerprints) := by
    simp only [fileFront, List.append_assoc]
    exact List.drop_left' List.length_replicate
  simp only [alike, false_or, whole]

theorem streamed_mismatch (some_window : 0 < window) (some_key : keys ≠ [])
    (once : (keys.map h.hashKey).Nodup) (few : keys.length < 2 ^ 32)
    (short : ∀ key ∈ keys, (bytesOf key).length < 2 ^ 32)
    (built : h.buildMphf (mphInput (keys.map h.hashKey)).1 = .ok mph)
    (placed : PlacesAll (h.slot mph) (mphInput (keys.map h.hashKey)).1)
    (first : around.afterFirst = .ok ()) (drifted : Drifted h keys second) :
    streamed h mphBytes keys second fingerprints window around =
      .error (.refused replayMismatch) := by
  have slots := slotted once placed
  have rows := @slotRows h keys mph
  have places := @layoutOf_places h keys mph fingerprints window mphBytes slots few short
  have from_ := @fileFront_length h keys mph fingerprints window mphBytes
  have count : ((keys.map h.hashKey).zip (slotsOf h mph keys)).length =
      (lensOf h mph keys).length := by rw [rows.2, lensOf_length slots]
  have inside := slotRows_inside slots
  have sizes := zeros_lengths (lensOf h mph keys)
  by_cases replays : Replays h (lensOf h mph keys) second
      ((keys.map h.hashKey).zip (slotsOf h mph keys))
  · by_cases alike : keys.length = second.length
    · -- The keys pass one by one, and the digests tell them apart.
      have same := (replays_first_iff slots alike).mp replays
      rw [streamed_replayed mphBytes some_window some_key once few short built placed first alike
        same]
      have differ : digestOf h second 0 ≠ digestOf h keys 0 := by
        rcases drifted with other | ⟨i, a, b, here, there, hash | length | ⟨print, elsewhere⟩⟩
        · exact absurd alike other
        · exact absurd (same i a b here there).1 hash
        · exact absurd (same i a b here there).2 length
        · refine Ne.symm (@fold_differs (keys.map fun key => (h.hashPair (bytesOf key)).2)
            (second.map fun key => (h.hashPair (bytesOf key)).2) i _ _ print ?_ ?_
            (fun j apart => ?_) 0)
          · rw [List.getElem?_map, here]
            rfl
          · rw [List.getElem?_map, there]
            rfl
          · rw [List.getElem?_map, List.getElem?_map]
            exact elsewhere j apart
      rw [refuseIf, if_pos differ]
      rfl
    · have less : second.length ≠ ((keys.map h.hashKey).zip (slotsOf h mph keys)).length := by
        rw [rows.2]
        exact Ne.symm alike
      obtain ⟨after, filled⟩ := @fillMap_short h _ _ _ (tailBytes h mph keys fingerprints) _ _ _
        places some_window from_ count inside replays less sizes
      rw [streamed_filled mphBytes some_key once few short built placed first, ← zeros_flatten,
        filled]
      change (refuseIf (second.length ≠ keys.length ∨ _) replayMismatch >>= _) = _
      rw [refuseIf, if_pos (.inl fun same => alike same.symm)]
      rfl
  · have refused := @fillMap_other h _ _ _ (tailBytes h mph keys fingerprints) _ _ _ places
      some_window from_ count inside replays sizes
    rw [streamed_filled mphBytes some_key once few short built placed first, ← zeros_flatten,
      refused]
    rfl

/-- The same keys again write the blob of the index in memory. -/
theorem streamed_again (some_window : 0 < window) (some_key : keys ≠ [])
    (once : (keys.map h.hashKey).Nodup) (few : keys.length < 2 ^ 32)
    (short : ∀ key ∈ keys, (bytesOf key).length < 2 ^ 32)
    (built : h.buildMphf (mphInput (keys.map h.hashKey)).1 = .ok mph)
    (placed : PlacesAll (h.slot mph) (mphInput (keys.map h.hashKey)).1)
    (first : around.afterFirst = .ok ()) (last : around.afterSecond = .ok ()) :
    ∃ blob, blockedBlob mphBytes (indexOf h mph keys fingerprints) = some blob ∧
      streamed h mphBytes keys keys fingerprints window around = .ok blob := by
  have slots := slotted once placed
  have same : ∀ (i : Nat) (a b : String), keys[i]? = some a → keys[i]? = some b →
      h.hashKey a = h.hashKey b ∧ (bytesOf a).length = (bytesOf b).length := by
    intro i a b here there
    rw [here] at there
    rw [Option.some.inj there]
    exact ⟨rfl, rfl⟩
  have data : (bySlot [] (keys.map bytesOf) (slotsOf h mph keys)).flatten =
      (rowsOf h mph keys).flatMap bytesOf := by
    rw [rowsOf_map slots, List.flatMap]
  refine ⟨_, blockedBlob_eq mphBytes slots few short, ?_⟩
  rw [streamed_replayed mphBytes some_window some_key once few short built placed first rfl same,
    refuseIf, if_neg (not_not.mpr rfl), last, data]
  rfl

/-- A build whose second pass is seen to differ is refused, however the rest goes. -/
theorem streamed_refused (some_window : 0 < window) (some_key : keys ≠ [])
    (once : (keys.map h.hashKey).Nodup) (drifted : Drifted h keys second) :
    ∃ error, streamed h mphBytes keys second fingerprints window around =
      .error (.refused error) := by
  by_cases short : ∀ key ∈ keys, (bytesOf key).length < 2 ^ 32
  swap
  · have long : keys.any (fun key => decide (2 ^ 32 ≤ (bytesOf key).length)) = true := by
      simpa using short
    exact ⟨tooLong, by rw [streamed, refuseIf, if_pos long]; rfl⟩
  have fits : ¬ keys.any (fun key => decide (2 ^ 32 ≤ (bytesOf key).length)) = true := by
    simpa using short
  have okBind {α β : Type} (value : α) (next : α → Faulting IndexError β) :
      (Except.ok value >>= next) = next value := rfl
  have lifted {α : Type} (value : α) :
      (Except.ok value : Except IndexError α).mapError Stop.refused = .ok value := rfl
  cases first : around.afterFirst with
  | error e =>
      refine ⟨e, ?_⟩
      rw [streamed]
      simp only [refuseIf, if_neg fits, first, okBind]
      rfl
  | ok checked =>
      by_cases few : keys.length < 2 ^ 32
      swap
      · refine ⟨tooMany, ?_⟩
        rw [streamed]
        simp only [refuseIf, if_neg fits, first, okBind, lifted, if_pos (Nat.not_lt.mp few)]
        rfl
      cases built : h.buildMphf (mphInput (keys.map h.hashKey)).1 with
      | error e =>
          refine ⟨e, ?_⟩
          rw [streamed]
          simp only [refuseIf, if_neg fits, first, okBind, lifted, if_neg (Nat.not_le.mpr few),
            if_neg some_key, built]
          rfl
      | ok mph =>
          by_cases placed : PlacesAll (h.slot mph) (mphInput (keys.map h.hashKey)).1
          · exact ⟨_, streamed_mismatch mphBytes some_window some_key once few short built placed
              first drifted⟩
          · have parted := mphInput_parted (keys.map h.hashKey)
            cases checked : checkSlots (h.slot mph)
                (fun i => ((mphInput (keys.map h.hashKey)).2.map Prod.snd).contains i)
                (keys.map h.hashKey).zipIdx
                (List.replicate (mphInput (keys.map h.hashKey)).1.length false) with
            | ok done => exact absurd ((checkSlots_iff parted).mp checked) placed
            | error e =>
                refine ⟨e, ?_⟩
                rw [streamed]
                simp only [refuseIf, if_neg fits, first, okBind, lifted,
                  if_neg (Nat.not_le.mpr few), if_neg some_key, built, checked]
                rfl

end Streamed

/-! ## What is at the path -/

/-- No keys are laid out too. -/
theorem blockedBlob_empty (mphBytes : h.Mphf → List UInt8) (fingerprints : Bool) :
    ∃ blob, blockedBlob mphBytes (emptyIndex (h := h) fingerprints) = some blob := by
  have laid := @Arena.layOutBlocked_eq [] (if fingerprints then some [] else none) NARROW_LIMIT []
    rfl (by
      intro prints stored
      split at stored
      · rw [← Option.some.inj stored]
        rfl
      · cases stored) (by decide) (fun len member => absurd member List.not_mem_nil)
  rw [blockedBlob, emptyIndex]
  simp only [laid]
  exact ⟨_, rfl⟩

/-- Over keys whose hashes all differ, with fingerprints or not and in whatever window, the two
passes of a streamed build leave the blob of the index built in memory, laid out blocked; and a
second pass that brings another count, another hash or length at some place, or another second hash
at one place alone, is refused with what was at the path still there.  Over no keys there is no
second pass. -/
theorem build_to_file_windowed_exact (h : Hashing) (mphBytes : h.Mphf → List UInt8)
    (keys : List String) (once : (keys.map h.hashKey).Nodup) (fingerprints : Bool) (window : Nat)
    (some_window : 1 ≤ window) (target : Option (List UInt8)) :
    (∀ idx, buildWith h keys fingerprints = .ok idx → ∃ blob, blockedBlob mphBytes idx = some blob ∧
      buildToFileWindowed h mphBytes keys keys fingerprints window ⟨.ok (), .ok (), .ok ()⟩ target =
        (.ok keys.length, some blob)) ∧
    ∀ (second : List String) (around : Surroundings), keys ≠ [] → Drifted h keys second →
      ∃ error, buildToFileWindowed h mphBytes keys second fingerprints window around target =
        (.error (.refused error), target) := by
  constructor
  · intro idx result
    by_cases some_key : keys = []
    · subst some_key
      have nothing : sortDedup bytesOf [] = [] := by simp [sortDedup]
      have made : buildWith h [] fingerprints = .ok (emptyIndex fingerprints) := by
        rw [buildWith, nothing]
        rfl
      obtain rfl := Except.ok.inj (made.symm.trans result)
      obtain ⟨blob, laid⟩ := blockedBlob_empty (h := h) mphBytes fingerprints
      refine ⟨blob, laid, ?_⟩
      have contents : streamed h mphBytes [] [] fingerprints window ⟨.ok (), .ok (), .ok ()⟩ =
          .ok blob := by
        rw [streamed]
        simp only [laid]
        rfl
      rw [buildToFileWindowed, contents]
      rfl
    · obtain ⟨mph, built, placed, short, few, rfl⟩ := buildWith_index some_key once result
      obtain ⟨blob, laid, contents⟩ := @streamed_again h keys mph fingerprints window
        ⟨.ok (), .ok (), .ok ()⟩ mphBytes some_window some_key once few short built placed rfl rfl
      refine ⟨blob, laid, ?_⟩
      rw [buildToFileWindowed, contents]
      rfl
  · intro second around some_key drifted
    obtain ⟨error, refused⟩ := @streamed_refused h keys second fingerprints window around mphBytes
      some_window some_key once drifted
    refine ⟨error, ?_⟩
    rw [buildToFileWindowed, refused]
    rfl

/-- A key of two bytes through windows of one, and a source that is empty when it is asked again. -/
theorem build_to_file_windowed_single :
    (∃ idx, buildWith byLength ["bc"] true = .ok idx ∧ ∃ blob,
      blockedBlob (fun _ => [7]) idx = some blob ∧ buildToFileWindowed byLength (fun _ => [7])
        ["bc"] ["bc"] true 1 ⟨.ok (), .ok (), .ok ()⟩ none = (.ok 1, some blob)) ∧
    ∃ error, buildToFileWindowed byLength (fun _ => [7]) ["bc"] [] true 1
      ⟨.ok (), .ok (), .ok ()⟩ (some [7]) = (.error (.refused error), some [7]) := by
  have once : (["bc"].map byLength.hashKey).Nodup := List.nodup_singleton _
  have sorted : sortDedup bytesOf ["bc"] = ["bc"] := by simp [sortDedup]
  have input : mphInput (["bc"].map byLength.hashKey) = ([2], []) := by
    simp [mphInput, Hashing.hashKey, byLength]
    decide
  have built : ∃ idx, buildWith byLength ["bc"] true = .ok idx := by
    rw [buildWith, sorted]
    simp only [buildOrdered, input]
    exact ⟨_, rfl⟩
  obtain ⟨idx, built⟩ := built
  refine ⟨⟨idx, built, ?_⟩, ?_⟩
  · exact (build_to_file_windowed_exact byLength (fun _ => [7]) ["bc"] once true 1 le_rfl none).1
      idx built
  · exact (build_to_file_windowed_exact byLength (fun _ => [7]) ["bc"] once true 1 le_rfl
      (some [7])).2 [] _ (by decide) (.inl (by decide))

end Lexindex.PerfectHash
