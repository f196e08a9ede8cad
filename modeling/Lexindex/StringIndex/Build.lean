import Mathlib
import Lexindex.Lib.Ascending
import Lexindex.Lib.Checked
import Lexindex.Lib.Utf8

/-!
# A transducer of keys and ranks

An index maps each key to its rank.  The map is the fst crate's: what a builder was given,
in order, with a refusal of a key that does not exceed the one before, and read back as it
was given.  The bytes it makes of the pairs are a parameter.
-/

set_option autoImplicit false

namespace Lexindex

inductive FstError
  | duplicateKey
  | outOfOrder
  | format
  deriving DecidableEq, Repr

/-- The fst crate: the bytes it writes for some pairs, and the pairs it reads from bytes. -/
structure Fst where
  finish : List (List UInt8 × Nat) → List UInt8
  read : List UInt8 → Option (List (List UInt8 × Nat))

/-- What is finished reads back as the pairs that were inserted. -/
def Fst.ReadsBack (fst : Fst) : Prop :=
  ∀ pairs : List (List UInt8 × Nat), (pairs.Pairwise fun a b => a.1 < b.1) →
    fst.read (fst.finish pairs) = some pairs

/-- One insert: a key must exceed the one before. -/
def mapInsert (pairs : List (List UInt8 × Nat)) (key : List UInt8) (value : Nat) :
    Except FstError (List (List UInt8 × Nat)) :=
  match pairs.getLast? with
  | none => .ok [(key, value)]
  | some (last, _) =>
      if key = last then .error .duplicateKey
      else if key < last then .error .outOfOrder
      else .ok (pairs ++ [(key, value)])

structure StringIndex (fst : Fst) where
  map : List (List UInt8 × Nat)

namespace StringIndex

variable {fst : Fst}

def MAGIC : List UInt8 := [0x42, 0x49, 0x58, 0x34]

/-- Insert the keys with their positions from `rank` on. -/
def insertRanked : List String → Nat → List (List UInt8 × Nat) →
    Except FstError (List (List UInt8 × Nat))
  | [], _, pairs => .ok pairs
  | key :: keys, rank, pairs => do
      let pairs ← mapInsert pairs (bytesOf key) rank
      insertRanked keys (rank + 1) pairs

def build (keys : List String) : Except FstError (StringIndex fst) := do
  let pairs ← insertRanked (sortDedup bytesOf keys) 0 []
  pure { map := pairs }

/-- Feed an ascending key stream to a builder, dropping adjacent duplicates and numbering what
survives; returns how many keys were inserted. -/
def insertSorted : List String → String → Nat → List (List UInt8 × Nat) →
    Except FstError (List (List UInt8 × Nat) × Nat)
  | [], _, n, pairs => .ok (pairs, n)
  | key :: keys, prev, n, pairs =>
      if 0 < n ∧ key = prev then insertSorted keys prev n pairs
      else do
        let pairs ← mapInsert pairs (bytesOf key) n
        insertSorted keys key (n + 1) pairs

/-- The file an ascending key stream is written to, and how many keys it holds. -/
def buildSortedToFile (fst : Fst) (keys : List String) : Except FstError (List UInt8 × Nat) := do
  let inserted ← insertSorted keys "" 0 []
  pure (MAGIC ++ fst.finish inserted.1, inserted.2)

def len (idx : StringIndex fst) : Nat :=
  idx.map.length

def id (idx : StringIndex fst) (key : String) : Option Nat :=
  idx.map.lookup (bytesOf key)

/-- The key whose value is `id`. -/
def key (idx : StringIndex fst) (id : Nat) : Option String :=
  (idx.map.find? fun pair => pair.2 = id).bind fun pair => fromUtf8 pair.1

/-- Every pair, in byte order. -/
def iter (idx : StringIndex fst) : List (String × Nat) :=
  idx.map.filterMap fun pair => (fromUtf8 pair.1).map fun key => (key, pair.2)

def toBytes (idx : StringIndex fst) : List UInt8 :=
  MAGIC ++ fst.finish idx.map

def fromBytes (bytes : List UInt8) : Except FstError (StringIndex fst) :=
  if bytes.take 4 = MAGIC then
    match fst.read (bytes.drop 4) with
    | none => .error .format
    | some pairs => .ok { map := pairs }
  else .error .format

end StringIndex

/-- The pairs of some keys and their ranks, from `rank` on. -/
def rankedFrom (keys : List String) (rank : Nat) : List (List UInt8 × Nat) :=
  (keys.zipIdx rank).map fun e => (bytesOf e.1, e.2)

theorem rankedFrom_length (keys : List String) (rank : Nat) :
    (rankedFrom keys rank).length = keys.length := by
  rw [rankedFrom, List.length_map, List.length_zipIdx]

namespace StringIndex

variable {fst : Fst}

/-- Every key's value is its rank. -/
def IsRanked (idx : StringIndex fst) (keys : List String) : Prop :=
  Ascending bytesOf keys ∧ idx.map = rankedFrom keys 0

section Insert

variable {front keys : List String}

theorem mapInsert_ranked {key : String} (last : ∀ k ∈ front, bytesOf k < bytesOf key) :
    mapInsert (rankedFrom front 0) (bytesOf key) front.length =
      .ok (rankedFrom (front ++ [key]) 0) := by
  rw [mapInsert, rankedFrom, rankedFrom, List.zipIdx_append, List.map_append]
  cases ended : ((front.zipIdx 0).map fun e => (bytesOf e.1, e.2)).getLast? with
  | none =>
      rw [List.getLast?_eq_none_iff] at ended
      have none_yet : front = [] := by simpa using ended
      rw [none_yet]
      rfl
  | some pair =>
      obtain ⟨e, member, rfl⟩ := List.mem_map.mp (List.mem_of_getLast? ended)
      obtain ⟨k, i⟩ := e
      have less := last k (List.fst_mem_of_mem_zipIdx member)
      simp only
      rw [if_neg less.ne', if_neg (not_lt_of_gt less)]
      simp

theorem insertRanked_ascending (keys : List String) : ∀ {front : List String},
    Ascending bytesOf (front ++ keys) →
      insertRanked keys front.length (rankedFrom front 0) = .ok (rankedFrom (front ++ keys) 0) := by
  induction keys with
  | nil =>
      intro front _
      rw [List.append_nil]
      rfl
  | cons key keys ih =>
      intro front ascending
      have whole : front ++ key :: keys = front ++ [key] ++ keys := by simp
      have last : ∀ k ∈ front, bytesOf k < bytesOf key := fun k member =>
        (List.pairwise_append.mp ascending).2.2 k member key List.mem_cons_self
      rw [insertRanked, mapInsert_ranked last]
      rw [whole] at ascending ⊢
      have rest := ih ascending
      rw [List.length_append, List.length_singleton] at rest
      exact rest

/-- A sorted stream inserts its distinct keys with their ranks. -/
theorem insertSorted_from (keys : List String) : ∀ {front : List String} {prev : String},
    Sorted bytesOf (prev :: keys) → Ascending bytesOf (front ++ [prev]) →
      insertSorted keys prev (front.length + 1) (rankedFrom (front ++ [prev]) 0) =
        .ok (rankedFrom (front ++ List.destutter' (· ≠ ·) prev keys) 0,
          (front ++ List.destutter' (· ≠ ·) prev keys).length) := by
  induction keys with
  | nil =>
      intro front prev _ _
      rw [List.destutter'_nil, insertSorted, List.length_append, List.length_singleton]
  | cons key keys ih =>
      intro front prev sorted ascending
      obtain ⟨least, rest⟩ := List.pairwise_cons.mp sorted
      rw [insertSorted]
      by_cases same : key = prev
      · rw [if_pos ⟨Nat.succ_pos _, same⟩, List.destutter'_cons_neg _ (by simpa using same.symm)]
        exact ih (same ▸ rest) ascending
      · have more : bytesOf prev < bytesOf key :=
          (least key List.mem_cons_self).lt_of_ne fun keys => same (bytesOf_inj keys.symm)
        have last : ∀ k ∈ front ++ [prev], bytesOf k < bytesOf key := by
          intro k member
          rcases List.mem_append.mp member with earlier | here
          · exact ((List.pairwise_append.mp ascending).2.2 k earlier prev
              List.mem_cons_self).trans more
          · rw [List.mem_singleton] at here
            exact here ▸ more
        have inserted := mapInsert_ranked last
        rw [List.length_append, List.length_singleton] at inserted
        have further : Ascending bytesOf (front ++ [prev] ++ [key]) :=
          List.pairwise_append.mpr ⟨ascending, List.pairwise_singleton .., fun k member other there =>
            List.mem_singleton.mp there ▸ last k member⟩
        have step := ih rest further
        rw [List.length_append, List.length_singleton] at step
        have parted : front ++ prev :: List.destutter' (· ≠ ·) key keys =
            front ++ [prev] ++ List.destutter' (· ≠ ·) key keys := by simp
        rw [if_neg fun held => same held.2, inserted,
          List.destutter'_cons_pos _ fun held => same held.symm, parted]
        exact step

theorem insertSorted_sorted {keys : List String} (sorted : Sorted bytesOf keys) :
    insertSorted keys "" 0 [] =
      .ok (rankedFrom (keys.destutter (· ≠ ·)) 0, (keys.destutter (· ≠ ·)).length) := by
  cases keys with
  | nil => rfl
  | cons key keys =>
      rw [insertSorted, if_neg fun held => absurd held.1 (lt_irrefl 0), List.destutter_cons']
      have one : mapInsert [] (bytesOf key) 0 = .ok (rankedFrom [key] 0) := rfl
      rw [one]
      exact @insertSorted_from keys [] key sorted (List.pairwise_singleton ..)

end Insert

/-- A build's index has every key at its rank. -/
theorem build_eq (keys : List String) :
    build keys = .ok ({ map := rankedFrom (sortDedup bytesOf keys) 0 } : StringIndex fst) := by
  have inserted := @insertRanked_ascending (sortDedup bytesOf keys) []
    (sortDedup_ascending (fun _ _ => bytesOf_inj) keys)
  rw [List.nil_append] at inserted
  have started : insertRanked (sortDedup bytesOf keys) 0 [] =
      .ok (rankedFrom (sortDedup bytesOf keys) 0) := inserted
  rw [build, started]
  rfl

section Ranked

variable {idx : StringIndex fst} {keys : List String} (ranked : idx.IsRanked keys)
include ranked

theorem IsRanked.len : idx.len = keys.length := by
  rw [StringIndex.len, ranked.2, rankedFrom_length]

theorem IsRanked.iter : idx.iter = keys.zipIdx := by
  rw [StringIndex.iter, ranked.2, rankedFrom, List.filterMap_map]
  have each : ((fun pair : List UInt8 × Nat => (fromUtf8 pair.1).map fun key => (key, pair.2)) ∘
      fun e : String × Nat => (bytesOf e.1, e.2)) = some := by
    funext e
    rw [Function.comp_apply, fromUtf8_bytesOf]
    rfl
  rw [each, List.filterMap_some]

theorem IsRanked.key (id : Nat) : idx.key id = keys[id]? := by
  have from_ : ∀ (keys : List String) (rank id : Nat), rank ≤ id →
      ((rankedFrom keys rank).find? fun pair => pair.2 = id).bind (fun pair => fromUtf8 pair.1) =
        keys[id - rank]? := by
    intro keys
    induction keys with
    | nil => exact fun _ _ _ => rfl
    | cons key keys ih =>
        intro rank id le
        rw [rankedFrom, List.zipIdx_cons, List.map_cons]
        by_cases here : rank = id
        · rw [List.find?_cons_of_pos (by simpa using here), here, Nat.sub_self]
          exact fromUtf8_bytesOf key
        · rw [List.find?_cons_of_neg (by simpa using here)]
          have next : id - rank = id - (rank + 1) + 1 := by omega
          rw [next, List.getElem?_cons_succ]
          exact ih (rank + 1) id (by omega)
  rw [StringIndex.key, ranked.2]
  exact from_ keys 0 id (Nat.zero_le id)

theorem IsRanked.id_iff (key : String) (id : Nat) : idx.id key = some id ↔ keys[id]? = some key := by
  have from_ : ∀ (keys : List String), keys.Nodup → ∀ (rank id : Nat),
      (rankedFrom keys rank).lookup (bytesOf key) = some id ↔
        rank ≤ id ∧ keys[id - rank]? = some key := by
    intro keys
    induction keys with
    | nil => exact fun _ _ _ => by simp [rankedFrom]
    | cons first keys ih =>
        intro distinct rank id
        obtain ⟨apart, distinct⟩ := List.nodup_cons.mp distinct
        rw [rankedFrom, List.zipIdx_cons, List.map_cons, List.lookup_cons]
        by_cases here : key = first
        · rw [← here, beq_self_eq_true]
          simp only [Option.some.injEq]
          constructor
          · rintro rfl
            exact ⟨le_rfl, by rw [Nat.sub_self, List.getElem?_cons_zero]⟩
          · rintro ⟨le, there⟩
            by_contra other
            have next : id - rank = id - (rank + 1) + 1 := by omega
            rw [next, List.getElem?_cons_succ] at there
            exact apart (here ▸ List.mem_of_getElem? there)
        · have unequal : (bytesOf key == bytesOf first) = false :=
            beq_eq_false_iff_ne.mpr fun same => here (bytesOf_inj same)
          rw [unequal]
          simp only
          refine (ih distinct (rank + 1) id).trans ?_
          constructor
          · rintro ⟨le, there⟩
            refine ⟨by omega, ?_⟩
            have next : id - rank = id - (rank + 1) + 1 := by omega
            rw [next, List.getElem?_cons_succ]
            exact there
          · rintro ⟨le, there⟩
            have later : rank ≠ id := by
              rintro rfl
              rw [Nat.sub_self, List.getElem?_cons_zero, Option.some.injEq] at there
              exact here there.symm
            refine ⟨by omega, ?_⟩
            have next : id - rank = id - (rank + 1) + 1 := by omega
            rw [next, List.getElem?_cons_succ] at there
            exact there
  rw [StringIndex.id, ranked.2, from_ keys ranked.1.nodup 0 id]
  simp

end Ranked

end StringIndex

end Lexindex
