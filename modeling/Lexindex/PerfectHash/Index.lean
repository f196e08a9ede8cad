import Mathlib
import Lexindex.Lib.Ascending
import Lexindex.Lib.Checked
import Lexindex.Lib.Utf8
import Lexindex.Mphf.Remap

/-!
# A dictionary over a perfect hash

A perfect hash over the distinct hashes of the keys gives a slot to the first key with each
hash; the keys that repeat one come after the slots and are found through a side table.  The
arena is its rows, in id order: how they are laid out in bytes changes no answer.
-/

set_option autoImplicit false

namespace Lexindex.PerfectHash

open Mphf (IndexError)

/-- The hashes of a key, and the perfect hash built over the first of them. -/
structure Hashing where
  /-- `hash_pair_bytes`: the key hash and the fingerprint hash. -/
  hashPair : List UInt8 → UInt64 × UInt64
  Mphf : Type
  buildMphf : List UInt64 → Except IndexError Mphf
  slot : Mphf → UInt64 → Nat

/-- `hash_key`. -/
def Hashing.hashKey (h : Hashing) (key : String) : UInt64 :=
  (h.hashPair (bytesOf key)).1

/-- The fingerprint an index stores. -/
def Hashing.fingerprint (h : Hashing) (key : String) : UInt8 :=
  (h.hashPair (bytesOf key)).2.toUInt8

structure PerfectHashIndex (h : Hashing) where
  /-- `none` for no keys. -/
  mph : Option h.Mphf
  /-- The key of each id. -/
  arena : List String
  /-- A fingerprint for each id, where the index stores them. -/
  fingerprints : Option (List UInt8)
  n : Nat
  /-- The hash and the id of each key that repeats a hash, sorted. -/
  side : List (UInt64 × Nat)

variable {h : Hashing}

namespace PerfectHashIndex

def len (idx : PerfectHashIndex h) : Nat :=
  idx.n

def key (idx : PerfectHashIndex h) (id : Nat) : Option String :=
  idx.arena[id]?

/-- Whether the row of a slot is the key, past its fingerprint where there is one. -/
def holds (idx : PerfectHashIndex h) (slot : Nat) (key : String) : Bool :=
  match idx.fingerprints with
  | none => idx.arena[slot]? == some key
  | some fps => fps[slot]? == some (h.fingerprint key) && idx.arena[slot]? == some key

/-- The first of the side keys with the hash that is the key. -/
def sideLookup (idx : PerfectHashIndex h) (hash : UInt64) (key : String) : Option Nat :=
  (((idx.side.dropWhile fun e => e.1.toNat < hash.toNat).takeWhile fun e => e.1 == hash).find?
    fun e => idx.arena[e.2]? == some key).map Prod.snd

/-- The id of a key. -/
def id (idx : PerfectHashIndex h) (key : String) : Option Nat :=
  match idx.mph with
  | none => none
  | some mph =>
      let slot := h.slot mph (h.hashKey key)
      if idx.holds slot key then some slot
      else if idx.side.isEmpty then none
      else idx.sideLookup (h.hashKey key) key

end PerfectHashIndex

/-! ## The collisions -/

/-- Pairs of a hash and where it stands, in the order of the hashes and then of the places. -/
def pairKey (p : UInt64 × Nat) : Nat ×ₗ Nat :=
  toLex (p.1.toNat, p.2)

/-- The first of each chunk of pairs with one hash, and the others. -/
def chunked : Option UInt64 → List (UInt64 × Nat) → List UInt64 × List (UInt64 × Nat)
  | _, [] => ([], [])
  | last, p :: rest =>
      let (firsts, extras) := chunked (some p.1) rest
      if last = some p.1 then (firsts, p :: extras) else (p.1 :: firsts, extras)

/-- One representative of each hash for the perfect hash, and the others in their order. -/
def splitCollisions (hashes : List UInt64) : List UInt64 × List (UInt64 × Nat) :=
  let pairs := hashes.zipIdx.mergeSort fun a b => pairKey a ≤ pairKey b
  let (mphHashes, extras) := chunked none pairs
  (mphHashes, extras.mergeSort fun a b => a.2 ≤ b.2)

/-- What the perfect hash is built from: the sorted hashes, parted only where two are equal. -/
def mphInput (hashes : List UInt64) : List UInt64 × List (UInt64 × Nat) :=
  let sorted := hashes.mergeSort fun a b => a.toNat ≤ b.toNat
  if sorted.IsChain (· ≠ ·) then (sorted, []) else splitCollisions hashes

/-! ## The builds -/

def notPerfect : IndexError :=
  .build "perfect-hash: construction was not minimal/perfect"

/-- The place of each representative by its slot; `extra` marks the places of the others. -/
def placeReps (slot : UInt64 → Nat) (extra : Nat → Bool) :
    List (UInt64 × Nat) → List (Option Nat) → Except IndexError (List (Option Nat))
  | [], bySlot => .ok bySlot
  | (hash, i) :: rest, bySlot =>
      if extra i then placeReps slot extra rest bySlot
      else do
        refuse (bySlot.length ≤ slot hash ∨ bySlot.getD (slot hash) none ≠ none) notPerfect
        placeReps slot extra rest (bySlot.set (slot hash) (some i))

/-- The side table: ids from `m` in the order of the extras, sorted by hash. -/
def sideTable (m : Nat) (extras : List (UInt64 × Nat)) : List (UInt64 × Nat) :=
  ((extras.map Prod.fst).zipIdx m).mergeSort fun a b => pairKey a ≤ pairKey b

def tooMany : IndexError :=
  .build "perfect-hash: more than u32::MAX keys; ids are u32"

def tooLong : IndexError :=
  .build "perfect-hash: a key is longer than u32::MAX bytes"

def emptyIndex (fingerprints : Bool) : PerfectHashIndex h where
  mph := none
  arena := []
  fingerprints := if fingerprints then some [] else none
  n := 0
  side := []

/-- The index of distinct keys, in the order they are given.  Every slot has got a key when the
arena is filled, or the source would panic there. -/
def buildOrdered (h : Hashing) (keys : List String) (fingerprints : Bool) :
    Except IndexError (PerfectHashIndex h) := do
  let hashes := keys.map h.hashKey
  let (mphHashes, extras) := mphInput hashes
  let mph ← h.buildMphf mphHashes
  let isExtra := fun i => (extras.map Prod.snd).contains i
  let bySlot ← placeReps (h.slot mph) isExtra hashes.zipIdx
    (List.replicate mphHashes.length none)
  let order := bySlot ++ extras.map fun e => some e.2
  let arena := order.map fun i => (i.bind (keys[·]?)).getD ""
  pure
    { mph := some mph
      arena
      fingerprints := if fingerprints then some (arena.map h.fingerprint) else none
      n := keys.length
      side := sideTable mphHashes.length extras }

/-- The build in memory, of the keys sorted and distinct. -/
def buildWith (h : Hashing) (items : List String) (fingerprints : Bool) :
    Except IndexError (PerfectHashIndex h) := do
  let keys := sortDedup bytesOf items
  refuse (2 ^ 32 ≤ keys.length) tooMany
  refuse (keys.any (fun key => decide (2 ^ 32 ≤ (bytesOf key).length)) = true) tooLong
  if keys = [] then pure (emptyIndex fingerprints) else buildOrdered h keys fingerprints

/-- No two representatives have one slot, and none is past the slots. -/
def checkSlots (slot : UInt64 → Nat) (extra : Nat → Bool) :
    List (UInt64 × Nat) → List Bool → Except IndexError Unit
  | [], _ => .ok ()
  | (hash, i) :: rest, taken =>
      if extra i then checkSlots slot extra rest taken
      else do
        refuse (taken.length ≤ slot hash ∨ taken.getD (slot hash) false = true) notPerfect
        checkSlots slot extra rest (taken.set (slot hash) true)

/-- `slot_of`: the slot of a representative, or an id past them. -/
def rowOf (slot : UInt64 → Nat) (m : Nat) (extras : List (UInt64 × Nat)) (p : UInt64 × Nat) : Nat :=
  if (extras.map Prod.snd).contains p.2 then m + (extras.map Prod.snd).idxOf p.2 else slot p.1

/-- Each key in the row it was given. -/
def fillArena (keys : List String) (rows : List Nat) : List String :=
  (keys.zip rows).foldl (fun arena e => arena.set e.2 e.1) (List.replicate keys.length "")

def repeated : IndexError :=
  .build "perfect-hash: build_to_file needs distinct keys and the source repeated one"

/-- The streamed build, of distinct keys as the source yields them: the file's sections as a load
reads them.  The source is replayed, and yields the same keys. -/
def buildToFile (h : Hashing) (keys : List String) (fingerprints : Bool) :
    Except IndexError (PerfectHashIndex h) := do
  refuse (keys.any (fun key => decide (2 ^ 32 ≤ (bytesOf key).length)) = true) tooLong
  refuse (2 ^ 32 ≤ keys.length) tooMany
  if keys = [] then pure (emptyIndex fingerprints)
  else
    let hashes := keys.map h.hashKey
    let (mphHashes, extras) := mphInput hashes
    let mph ← h.buildMphf mphHashes
    let isExtra := fun i => (extras.map Prod.snd).contains i
    checkSlots (h.slot mph) isExtra hashes.zipIdx (List.replicate mphHashes.length false)
    let row := rowOf (h.slot mph) mphHashes.length extras
    let arena := fillArena keys (hashes.zipIdx.map row)
    refuse (extras.any (fun e => arena[row e]? == arena[h.slot mph e.1]?) = true) repeated
    pure
      { mph := some mph
        arena
        fingerprints := if fingerprints then some (arena.map h.fingerprint) else none
        n := keys.length
        side := sideTable mphHashes.length extras }

end Lexindex.PerfectHash

/-!
## Representatives and extras

The perfect hash is built from the distinct hashes in order, whatever order the keys came in.
The extras are the places of the keys that repeat a hash, in their order.
-/

namespace Lexindex.PerfectHash

theorem pairKey_lt {a b : UInt64 × Nat} :
    pairKey a < pairKey b ↔ a.1.toNat < b.1.toNat ∨ a.1 = b.1 ∧ a.2 < b.2 := by
  rw [pairKey, pairKey, Prod.Lex.toLex_lt_toLex, UInt64.toNat_inj]

theorem pairKey_inj : Function.Injective pairKey := by
  intro a b same
  have parts : (a.1.toNat, a.2) = (b.1.toNat, b.2) := toLex.injective same
  rw [Prod.mk.injEq, UInt64.toNat_inj] at parts
  exact Prod.ext parts.1 parts.2

/-- Of ascending pairs, the first with each hash and the others. -/
theorem chunked_spec {pairs : List (UInt64 × Nat)} : ∀ {last : Option UInt64},
    Ascending pairKey pairs → (∀ hash, last = some hash → ∀ p ∈ pairs, hash.toNat ≤ p.1.toNat) →
      Ascending UInt64.toNat (chunked last pairs).1 ∧
      (∀ hash, hash ∈ (chunked last pairs).1 ↔ last ≠ some hash ∧ ∃ i, (hash, i) ∈ pairs) ∧
      (chunked last pairs).2.Sublist pairs ∧
      ∀ p, p ∈ (chunked last pairs).2 ↔
        p ∈ pairs ∧ (last = some p.1 ∨ ∃ j, j < p.2 ∧ (p.1, j) ∈ pairs) := by
  induction pairs with
  | nil => simp [chunked, Ascending]
  | cons p rest ih =>
      intro last ascending bound
      obtain ⟨least, ascending⟩ := List.pairwise_cons.mp ascending
      have above : ∀ q ∈ rest, p.1.toNat ≤ q.1.toNat := by
        intro q member
        rcases pairKey_lt.mp (least q member) with less | ⟨same, -⟩
        · exact Nat.le_of_lt less
        · rw [same]
      obtain ⟨firsts, members, sublist, extras⟩ := @ih (some p.1) ascending
        fun hash same q member => Option.some.inj same ▸ above q member
      have lastBelow (hash : UInt64) (is : last = some hash) : hash.toNat ≤ p.1.toNat :=
        bound hash is p List.mem_cons_self
      rw [chunked]
      simp only
      by_cases same : last = some p.1
      · rw [if_pos same]
        refine ⟨firsts, fun hash => ?_, sublist.cons_cons p, fun q => ?_⟩
        · rw [members, same]
          refine and_congr_right fun apart => exists_congr fun i => ?_
          rw [List.mem_cons]
          refine ⟨.inr, fun here => here.resolve_left fun first => apart ?_⟩
          rw [← first]
        · rw [List.mem_cons, extras, same]
          constructor
          · rintro (rfl | ⟨later, first | ⟨j, less, member⟩⟩)
            · exact ⟨List.mem_cons_self, .inl rfl⟩
            · exact ⟨List.mem_cons_of_mem _ later, .inl first⟩
            · exact ⟨List.mem_cons_of_mem _ later, .inr ⟨j, less, List.mem_cons_of_mem _ member⟩⟩
          · rintro ⟨member, repeats⟩
            rcases List.mem_cons.mp member with rfl | later
            · exact .inl rfl
            · refine .inr ⟨later, ?_⟩
              rcases repeats with first | ⟨j, less, other⟩
              · exact .inl first
              · rcases List.mem_cons.mp other with here | other
                · exact .inl (by rw [← here])
                · exact .inr ⟨j, less, other⟩
      · rw [if_neg same]
        refine ⟨List.pairwise_cons.mpr ⟨fun hash member => ?_, firsts⟩, fun hash => ?_,
          sublist.cons p, fun q => ?_⟩
        · obtain ⟨apart, i, later⟩ := (members hash).mp member
          refine Nat.lt_of_le_of_ne (above _ later) fun equal => apart ?_
          rw [UInt64.toNat_inj.mp equal]
        · rw [List.mem_cons, members]
          constructor
          · rintro (rfl | ⟨apart, i, later⟩)
            · exact ⟨same, p.2, List.mem_cons_self⟩
            · refine ⟨fun is => apart ?_, i, List.mem_cons_of_mem _ later⟩
              rw [UInt64.toNat_inj.mp (Nat.le_antisymm (above _ later) (lastBelow hash is))]
          · rintro ⟨-, i, member⟩
            rcases List.mem_cons.mp member with here | later
            · exact .inl (by rw [← here])
            · by_cases first : hash = p.1
              · exact .inl first
              · exact .inr ⟨fun is => first (Option.some.inj is).symm, i, later⟩
        · rw [extras]
          constructor
          · rintro ⟨later, first | ⟨j, less, other⟩⟩
            · rw [Option.some.injEq] at first
              rcases pairKey_lt.mp (least q later) with less | ⟨-, less⟩
              · rw [first] at less
                exact absurd less (lt_irrefl _)
              · exact ⟨List.mem_cons_of_mem _ later, .inr ⟨p.2, less, first ▸ List.mem_cons_self⟩⟩
            · exact ⟨List.mem_cons_of_mem _ later, .inr ⟨j, less, List.mem_cons_of_mem _ other⟩⟩
          · rintro ⟨member, repeats⟩
            rcases List.mem_cons.mp member with rfl | later
            · rcases repeats with is | ⟨j, less, other⟩
              · exact absurd is same
              · rcases List.mem_cons.mp other with here | other
                · rw [← here] at less
                  exact absurd less (lt_irrefl _)
                · rcases pairKey_lt.mp (least _ other) with fewer | ⟨-, fewer⟩
                  · exact absurd fewer (lt_irrefl _)
                  · exact absurd less (lt_asymm fewer)
            · refine ⟨later, ?_⟩
              rcases repeats with is | ⟨j, less, other⟩
              · left
                rw [UInt64.toNat_inj.mp (Nat.le_antisymm (above _ later) (lastBelow _ is))]
              · rcases List.mem_cons.mp other with here | other
                · exact .inl (by rw [← here])
                · exact .inr ⟨j, less, other⟩

/-- Hashes parted into one of each, in order, and the repeats, with their places. -/
structure Parted (hashes firsts : List UInt64) (extras : List (UInt64 × Nat)) : Prop where
  ascending : Ascending UInt64.toNat firsts
  members : ∀ hash, hash ∈ firsts ↔ hash ∈ hashes
  ordered : Ascending Prod.snd extras
  repeats : ∀ p, p ∈ extras ↔ hashes[p.2]? = some p.1 ∧ ∃ j, j < p.2 ∧ hashes[j]? = some p.1

theorem mem_zipIdx {hashes : List UInt64} {p : UInt64 × Nat} :
    p ∈ hashes.zipIdx ↔ hashes[p.2]? = some p.1 :=
  List.mem_zipIdx_iff_getElem?

theorem zipIdx_nodup (hashes : List UInt64) : hashes.zipIdx.Nodup := by
  refine List.Nodup.of_map Prod.snd ?_
  rw [List.zipIdx_map_snd]
  exact List.nodup_range'

/-- Sorted and without equal neighbours. -/
theorem ascending_of_chain {hashes : List UInt64} (sorted : Sorted UInt64.toNat hashes)
    (chain : hashes.IsChain (· ≠ ·)) : Ascending UInt64.toNat hashes := by
  induction hashes with
  | nil => exact List.Pairwise.nil
  | cons a rest ih =>
      cases rest with
      | nil => exact List.pairwise_singleton ..
      | cons b rest =>
          obtain ⟨least, sorted⟩ := List.pairwise_cons.mp sorted
          obtain ⟨apart, chain⟩ := List.isChain_cons_cons.mp chain
          have ascending := ih sorted chain
          have first : a.toNat < b.toNat :=
            Nat.lt_of_le_of_ne (least b List.mem_cons_self) fun same =>
              apart (UInt64.toNat_inj.mp same)
          refine List.pairwise_cons.mpr ⟨fun x member => ?_, ascending⟩
          rcases List.mem_cons.mp member with rfl | later
          · exact first
          · exact first.trans ((List.pairwise_cons.mp ascending).1 x later)

theorem idxOf_le {α : Type} [DecidableEq α] {items : List α} {item : α} :
    ∀ {j : Nat}, items[j]? = some item → items.idxOf item ≤ j := by
  induction items with
  | nil => simp
  | cons a items ih =>
      intro j here
      by_cases same : a = item
      · rw [same, List.idxOf_cons_self]
        exact Nat.zero_le j
      · cases j with
        | zero => exact absurd (Option.some.inj here) same
        | succ j =>
            rw [List.idxOf_cons_ne _ same]
            exact Nat.succ_le_succ (ih here)

theorem splitCollisions_parted (hashes : List UInt64) :
    Parted hashes (splitCollisions hashes).1 (splitCollisions hashes).2 := by
  have pairs : Ascending pairKey
      (hashes.zipIdx.mergeSort fun a b => pairKey a ≤ pairKey b) := by
    have once := (List.mergeSort_perm hashes.zipIdx
      fun a b => decide (pairKey a ≤ pairKey b)).nodup_iff.mpr (zipIdx_nodup hashes)
    refine (List.pairwise_and_iff.mpr ⟨sorted_mergeSort pairKey hashes.zipIdx, once⟩).imp ?_
    exact fun ⟨le, apart⟩ => lt_of_le_of_ne le fun same => apart (pairKey_inj same)
  obtain ⟨ascending, members, sublist, extras⟩ := @chunked_spec _ none pairs
    fun hash none => by cases none
  have listed (p : UInt64 × Nat) :
      p ∈ (hashes.zipIdx.mergeSort fun a b => pairKey a ≤ pairKey b) ↔
        hashes[p.2]? = some p.1 :=
    List.mem_mergeSort.trans mem_zipIdx
  refine ⟨ascending, fun hash => ?_, ?_, fun p => ?_⟩
  · refine (members hash).trans ?_
    rw [List.mem_iff_getElem?]
    simp only [listed]
    exact ⟨And.right, fun here => ⟨fun none => (by cases none), here⟩⟩
  · have once : (chunked none (hashes.zipIdx.mergeSort fun a b => pairKey a ≤ pairKey b)).2.Nodup :=
      (pairs.nodup).sublist sublist
    have sortedOnce := (List.mergeSort_perm _
      fun a b : UInt64 × Nat => decide (a.2 ≤ b.2)).nodup_iff.mpr once
    have both := List.pairwise_and_iff.mpr ⟨sorted_mergeSort (@Prod.snd UInt64 Nat) _, sortedOnce⟩
    refine both.imp_of_mem fun {a b} aIn bIn ⟨le, apart⟩ => lt_of_le_of_ne le fun same => apart ?_
    have aHere := (listed a).mp (sublist.subset (List.mem_mergeSort.mp aIn))
    have bHere := (listed b).mp (sublist.subset (List.mem_mergeSort.mp bIn))
    rw [same, bHere, Option.some.injEq] at aHere
    exact Prod.ext aHere.symm same
  · refine List.mem_mergeSort.trans ((extras p).trans ?_)
    simp only [listed]
    exact and_congr_right fun _ => or_iff_right fun none => by cases none

theorem mphInput_parted (hashes : List UInt64) :
    Parted hashes (mphInput hashes).1 (mphInput hashes).2 := by
  rw [mphInput]
  split
  · next chain =>
    have ascending := ascending_of_chain (sorted_mergeSort UInt64.toNat hashes) chain
    have once : hashes.Nodup := (List.mergeSort_perm hashes _).nodup_iff.mp ascending.nodup
    refine ⟨ascending, fun hash => List.mem_mergeSort, List.Pairwise.nil, fun p => ?_⟩
    refine iff_of_false List.not_mem_nil fun ⟨here, j, less, there⟩ => ?_
    obtain ⟨jIn, jIs⟩ := List.getElem?_eq_some_iff.mp there
    obtain ⟨pIn, pIs⟩ := List.getElem?_eq_some_iff.mp here
    have same := (once.getElem_inj_iff).mp (jIs.trans pIs.symm)
    omega
  · exact splitCollisions_parted hashes

section Parted

variable {hashes firsts : List UInt64} {extras : List (UInt64 × Nat)}

/-- An extra's place is that of a key with its hash. -/
theorem Parted.extra_place {hashKey : String → UInt64} {keys : List String}
    (parted : Parted (keys.map hashKey) firsts extras) {p : UInt64 × Nat} (member : p ∈ extras) :
    ∃ key, keys[p.2]? = some key ∧ hashKey key = p.1 := by
  have here := ((parted.repeats p).mp member).1
  rw [List.getElem?_map] at here
  exact Option.map_eq_some_iff.mp here

/-- Parts of hashes with the same members build the same perfect hash. -/
theorem Parted.same_firsts {others otherFirsts : List UInt64} {otherExtras : List (UInt64 × Nat)}
    (parted : Parted hashes firsts extras) (also : Parted others otherFirsts otherExtras)
    (same : ∀ hash, hash ∈ hashes ↔ hash ∈ others) : firsts = otherFirsts :=
  parted.ascending.unique also.ascending fun hash =>
    ((parted.members hash).trans (same hash)).trans (also.members hash).symm

/-- Every place is that of a first or an extra. -/
theorem Parted.count (parted : Parted hashes firsts extras) :
    firsts.length + extras.length = hashes.length := by
  have once : (firsts.map hashes.idxOf ++ extras.map Prod.snd).Nodup := by
    refine List.nodup_append.mpr ⟨?_, ?_, ?_⟩
    · refine List.Nodup.map_on (fun a aIn b _ same => ?_) parted.ascending.nodup
      exact (List.idxOf_inj ((parted.members a).mp aIn)).mp same
    · exact List.pairwise_map.mpr (parted.ordered.imp fun less => less.ne)
    · rintro i first j extra rfl
      obtain ⟨hash, member, rfl⟩ := List.mem_map.mp first
      obtain ⟨p, isExtra, place⟩ := List.mem_map.mp extra
      obtain ⟨here, j, less, there⟩ := (parted.repeats p).mp isExtra
      rw [place] at here less
      rw [List.getElem?_idxOf ((parted.members hash).mp member), Option.some.injEq] at here
      rw [here] at less
      exact absurd less (Nat.not_lt.mpr (idxOf_le there))
  have perm : (firsts.map hashes.idxOf ++ extras.map Prod.snd).Perm
      (List.range hashes.length) := by
    refine (List.perm_ext_iff_of_nodup once List.nodup_range).mpr fun i => ?_
    rw [List.mem_append, List.mem_map, List.mem_map, List.mem_range]
    constructor
    · rintro (⟨hash, member, rfl⟩ | ⟨p, member, rfl⟩)
      · exact List.idxOf_lt_length_iff.mpr ((parted.members hash).mp member)
      · exact (List.getElem?_eq_some_iff.mp ((parted.repeats p).mp member).1).1
    · intro inside
      have here : hashes[i]? = some hashes[i] := List.getElem?_eq_getElem inside
      have member := List.getElem_mem inside
      rcases Nat.lt_or_ge (hashes.idxOf hashes[i]) i with earlier | first
      · exact .inr ⟨(hashes[i], i), (parted.repeats _).mpr ⟨here, _, earlier,
          List.getElem?_idxOf member⟩, rfl⟩
      · refine .inl ⟨hashes[i], (parted.members _).mpr member, Nat.le_antisymm ?_ first⟩
        exact idxOf_le here
  have lengths := perm.length_eq
  rwa [List.length_append, List.length_map, List.length_map, List.length_range] at lengths

end Parted

end Lexindex.PerfectHash
