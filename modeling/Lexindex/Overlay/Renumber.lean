import Mathlib
import Lexindex.Overlay.Exact
import Lexindex.PerfectHash.Alike

/-!
# Compaction over a perfect hash

The compaction in memory builds from the live keys sorted, the one to a file from the live keys
as the base's rows and the additions come.  The ids past the slots follow the order.
-/

set_option autoImplicit false

namespace Lexindex

open Mphf (IndexError)

namespace PerfectHash

variable {h : Hashing}

instance hashedKeys : OverlayKeys (PerfectHashIndex h) where
  baseLen idx := idx.len
  baseId idx key := idx.id key
  baseKey idx id := idx.key id

namespace PerfectHashIndex

def hasFingerprints (idx : PerfectHashIndex h) : Bool :=
  idx.fingerprints.isSome

def rebuildLike (idx : PerfectHashIndex h) (keys : List String) :
    Except IndexError (PerfectHashIndex h) :=
  buildWith h keys idx.hasFingerprints

/-- The arena in id order, skipping the retired, then the additions. -/
def liveStream (idx : PerfectHashIndex h) (live : Nat → Bool) (additions : List String) :
    List String :=
  ((List.range idx.len).filter live).filterMap idx.key ++ additions

def rebuildToFile (idx : PerfectHashIndex h) (live : Nat → Bool) (additions : List String) :
    Except IndexError (PerfectHashIndex h) :=
  buildToFile h (idx.liveStream live additions) idx.hasFingerprints

end PerfectHashIndex

/-- An index that a build came to, in memory or to a file from distinct keys. -/
def Built (idx : PerfectHashIndex h) : Prop :=
  (∃ items fingerprints, buildWith h items fingerprints = .ok idx) ∨
    ∃ keys fingerprints, keys.Nodup ∧ buildToFile h keys fingerprints = .ok idx

theorem buildWith_filled {items : List String} {fingerprints : Bool} {idx : PerfectHashIndex h}
    (result : buildWith h items fingerprints = .ok idx) :
    (sortDedup bytesOf items = [] ∧ idx = emptyIndex fingerprints) ∨
      ∃ mph, Filled (sortDedup bytesOf items)
        (mphInput ((sortDedup bytesOf items).map h.hashKey)).1
        (mphInput ((sortDedup bytesOf items).map h.hashKey)).2 mph idx := by
  have distinct := (sortDedup_ascending (fun _ _ => bytesOf_inj) items).nodup
  simp only [buildWith, bind_eq_ok, refuse_eq_ok] at result
  obtain ⟨-, -, -, -, result⟩ := result
  split at result
  · next none => exact .inl ⟨none, (pure_eq_ok.mp result).symm⟩
  · exact .inr (buildOrdered_filled distinct result)

theorem buildToFile_cases {keys : List String} (distinct : keys.Nodup) {fingerprints : Bool}
    {idx : PerfectHashIndex h} (result : buildToFile h keys fingerprints = .ok idx) :
    (keys = [] ∧ idx = emptyIndex fingerprints) ∨
      ∃ mph, Filled keys (mphInput (keys.map h.hashKey)).1 (mphInput (keys.map h.hashKey)).2
        mph idx := by
  by_cases none : keys = []
  · left
    refine ⟨none, ?_⟩
    simp only [buildToFile, bind_eq_ok, refuse_eq_ok, if_pos none, pure_eq_ok] at result
    obtain ⟨-, -, -, -, result⟩ := result
    exact result.symm
  · exact .inr (buildToFile_filled distinct none result)

theorem emptyIndex_exact (fingerprints : Bool) :
    Overlay.ExactBase (emptyIndex fingerprints : PerfectHashIndex h) where
  inverse := fun _ _ => ⟨fun answered => (by cases answered), fun here => (by cases here)⟩
  range := fun id => iff_of_false (by simp [OverlayKeys.baseKey, PerfectHashIndex.key, emptyIndex])
    (Nat.not_lt_zero id)

theorem Filled.exact {keys : List String} {firsts : List UInt64} {extras : List (UInt64 × Nat)}
    {mph : h.Mphf} {idx : PerfectHashIndex h} (filled : Filled keys firsts extras mph idx) :
    Overlay.ExactBase idx where
  inverse := filled.id_iff
  range := by
    intro id
    change (idx.arena[id]?).isSome ↔ id < idx.n
    rw [isSome_getElem?, filled.size, filled.count]

/-- A built index is an exact base. -/
theorem Built.exact {idx : PerfectHashIndex h} (built : Built idx) : Overlay.ExactBase idx := by
  rcases built with ⟨items, fingerprints, result⟩ | ⟨keys, fingerprints, distinct, result⟩
  · rcases buildWith_filled result with ⟨-, rfl⟩ | ⟨mph, filled⟩
    · exact emptyIndex_exact fingerprints
    · exact filled.exact
  · rcases buildToFile_cases distinct result with ⟨-, rfl⟩ | ⟨mph, filled⟩
    · exact emptyIndex_exact fingerprints
    · exact filled.exact

/-- The build in memory and the streamed one give the keys the same ids exactly where the stream
has the least key of each hash first and the others in order. -/
theorem builds_alike_iff {stream items : List String} (distinct : stream.Nodup)
    (members : ∀ key, key ∈ items ↔ key ∈ stream) {fingerprints : Bool}
    {fresh file : PerfectHashIndex h} (made : buildWith h items fingerprints = .ok fresh)
    (written : buildToFile h stream fingerprints = .ok file) :
    (∀ key ∈ stream, file.id key = fresh.id key) ↔ LeastFirst h.hashKey stream := by
  have sorted := sortDedup_ascending (fun _ _ => bytesOf_inj) items
  have same : ∀ key, key ∈ sortDedup bytesOf items ↔ key ∈ stream := fun key =>
    (mem_sortDedup (fun _ _ => bytesOf_inj) items key).trans (members key)
  rcases buildToFile_cases distinct written with ⟨rfl, -⟩ | ⟨mph, filled⟩
  · refine iff_of_true (fun key member => absurd member List.not_mem_nil) ⟨?_, ?_⟩
    · exact fun a aIn => absurd aIn List.not_mem_nil
    · exact fun a aIn => absurd aIn List.not_mem_nil
  · rcases buildWith_filled made with ⟨none, -⟩ | ⟨other, also⟩
    · have noKeys : stream = [] := by
        refine List.eq_nil_iff_forall_not_mem.mpr fun key member => ?_
        have listed := (same key).mpr member
        rw [none] at listed
        exact List.not_mem_nil listed
      subst noKeys
      refine iff_of_true (fun key member => absurd member List.not_mem_nil) ⟨?_, ?_⟩
      · exact fun a aIn => absurd aIn List.not_mem_nil
      · exact fun a aIn => absurd aIn List.not_mem_nil
    · have firsts := also.parted.same_firsts filled.parted fun hash => by
        rw [List.mem_map, List.mem_map]
        exact exists_congr fun key => and_congr_left fun _ => same key
      have built := also.built
      rw [firsts, filled.built, Except.ok.injEq] at built
      subst built
      rw [firsts] at also
      have perm : stream.Perm (sortDedup bytesOf items) :=
        (List.perm_ext_iff_of_nodup distinct sorted.nodup).mpr fun key => (same key).symm
      rw [same_ids_iff filled also perm]
      exact same_tail_iff distinct filled.parted sorted also.parted same

end PerfectHash

namespace Overlay

open PerfectHash

variable {h : Hashing}

/-- `compact`. -/
def compactHashed (ov : Overlay (PerfectHashIndex h)) :
    Option (Except IndexError (Overlay (PerfectHashIndex h))) :=
  ov.keys.map fun keys => (ov.base.rebuildLike keys).map Overlay.new

/-- The live additions, in id order. -/
def additionsLeft (ov : Overlay (PerfectHashIndex h)) : Option (List String) :=
  ((List.range ov.addedStarts.length).filter fun i =>
    !ov.isDead (OverlayBase.baseLen ov.base + i)).mapM ov.addedKey

/-- `compact_to_file`: the sections of the file, as a load reads them. -/
def compactHashedToFile (ov : Overlay (PerfectHashIndex h)) :
    Option (Except IndexError (PerfectHashIndex h)) :=
  ov.additionsLeft.map fun additions => ov.base.rebuildToFile (fun id => !ov.isDead id) additions

/-- `compact_with_remap`: `u64::MAX` for a retired id. -/
def compactHashedWithRemap (hash : List UInt8 → UInt64) (ov : Overlay (PerfectHashIndex h)) :
    Option (Except IndexError (Overlay (PerfectHashIndex h) × List Nat)) :=
  ov.keys.bind fun keys =>
    match ov.base.rebuildLike keys with
    | .error error => some (.error error)
    | .ok base =>
        ((List.range ov.idSpace).mapM fun id => (ov.key id).bind fun found =>
          found.elim (some (2 ^ 64 - 1)) fun key =>
            ((Overlay.new base).id hash key).bind fun new => new).map fun remap =>
              .ok (Overlay.new base, remap)

/-- What the compaction to a file streams to the builder. -/
def streamed (ov : Overlay (PerfectHashIndex h)) : Option (List String) :=
  ov.additionsLeft.map fun additions => ov.base.liveStream (fun id => !ov.isDead id) additions

/-- The file numbers the live keys as the fresh index does, and as the renumbering says. -/
def RenumbersAlike (hash : List UInt8 → UInt64) (ov : Overlay (PerfectHashIndex h))
    (fresh file : PerfectHashIndex h) : Prop :=
  (∀ key, (∃ id, ov.id hash key = some (some id)) → file.id key = fresh.id key) ∧
    ∀ compacted remap, ov.compactHashedWithRemap hash = some (.ok (compacted, remap)) →
      ∀ id key, ov.key id = some (some key) → remap[id]? = file.id key

section Streamed

variable {hash : List UInt8 → UInt64} {base : PerfectHashIndex h}
  {ov : Overlay (PerfectHashIndex h)} {l : Ledger String}

/-- What is streamed is the live keys, in id order. -/
theorem Represents.streamed (shows : Represents hash base ov l) : ov.streamed = ov.keys := by
  have count : ov.addedStarts.length = l.entered.length := by
    rw [shows.arena.starts, List.length_map, List.length_range]
  have live (id : Nat) : (!ov.isDead id) = decide (id ∉ l.retired) := by
    rw [shows.dead, decide_not]
  have additions : ov.additionsLeft = some (((List.range l.entered.length).filter fun i =>
      decide (OverlayBase.baseLen base + i ∉ l.retired)).map fun i => l.entered.getD i "") := by
    rw [additionsLeft, count, shows.baseIs]
    simp only [live]
    refine mapM_some fun i member => ?_
    have inside := List.mem_range.mp (List.mem_filter.mp member).1
    rw [shows.arena.addedKey inside, List.getD_eq_getElem _ _ inside,
      List.getElem?_eq_getElem inside]
  rw [Overlay.streamed, additions, shows.keys, Option.map_some, PerfectHashIndex.liveStream,
    shows.baseIs, Ledger.space, List.range_add, List.filterMap_append, List.filterMap_map]
  refine congrArg some (congrArg₂ _ ?_ ?_)
  · simp only [live]
    rw [List.filterMap_filter]
    refine List.filterMap_congr fun id member => ?_
    have inside : id < OverlayBase.baseLen base := List.mem_range.mp member
    rw [keyOf]
    by_cases retired : id ∈ l.retired
    · simp [retired]
    · rw [if_neg retired, if_pos inside, if_pos (by simpa using retired)]
      rfl
  · rw [← List.filterMap_eq_map, List.filterMap_filter]
    refine List.filterMap_congr fun i member => ?_
    have inside := List.mem_range.mp member
    simp only [Function.comp_apply, keyOf]
    by_cases retired : OverlayBase.baseLen base + i ∈ l.retired
    · simp [retired]
    · rw [if_neg retired, if_pos (by simpa using retired), if_neg (by omega),
        Nat.add_sub_cancel_left, List.getD_eq_getElem _ _ inside, List.getElem?_eq_getElem inside]

end Streamed

theorem mapM_getElem? {α β : Type} {f : α → Option β} : ∀ {items : List α} {values : List β},
    items.mapM f = some values → ∀ i : Nat, values[i]? = (items[i]?).bind f := by
  intro items
  induction items with
  | nil =>
      intro values result i
      rw [List.mapM_nil, Option.pure_def, Option.some.injEq] at result
      rw [← result]
      rfl
  | cons item items ih =>
      intro values result i
      rw [List.mapM_cons] at result
      obtain ⟨value, first, result⟩ := Option.bind_eq_some_iff.mp result
      obtain ⟨rest, later, result⟩ := Option.bind_eq_some_iff.mp result
      rw [Option.pure_def, Option.some.injEq] at result
      rw [← result]
      cases i with
      | zero => exact first.symm
      | succ i => exact ih later i

theorem fresh_id {hash : List UInt8 → UInt64} (fresh : PerfectHashIndex h) (key : String) :
    (Overlay.new fresh).id hash key = some (fresh.id key) := by
  have alive (id : Nat) : (Overlay.new fresh).isDead id = false := by
    simp [isDead, Overlay.new, streamBit]
  rw [Overlay.id, show (Overlay.new fresh).base = fresh from rfl,
    show OverlayBase.baseId fresh key = fresh.id key from rfl]
  cases fresh.id key with
  | none => rfl
  | some id =>
      simp only
      rw [alive]
      rfl

/-- The compaction to a file renumbers as the compaction in memory does exactly where, of the live
keys with one hash, the least is streamed first and the others of all hashes in order. -/
theorem compact_to_file_renumbers_iff (hash : List UInt8 → UInt64) {base : PerfectHashIndex h}
    (built : Built base) {edits : List Edit} {ov : Overlay (PerfectHashIndex h)}
    (reached : (Overlay.new base).run hash edits = some ov)
    {fresh : Overlay (PerfectHashIndex h)} {file : PerfectHashIndex h}
    (compacted : ov.compactHashed = some (.ok fresh))
    (written : ov.compactHashedToFile = some (.ok file)) :
    RenumbersAlike hash ov fresh.base file ↔
      ∀ stream, ov.streamed = some stream → LeastFirst h.hashKey stream := by
  have shows := (represents_new base).run built.exact.bounded reached
  obtain ⟨keys, listed, once, -, members⟩ := shows.listed built.exact
  have stream : ov.streamed = some keys := shows.streamed.trans listed
  rw [compactHashed, listed, Option.map_some, Option.some.injEq] at compacted
  obtain ⟨additions, left, whole⟩ := Option.map_eq_some_iff.mp stream
  rw [compactHashedToFile, left, Option.map_some, Option.some.injEq,
    PerfectHashIndex.rebuildToFile, whole] at written
  cases made : ov.base.rebuildLike keys with
  | error error =>
      rw [made] at compacted
      cases compacted
  | ok index =>
      rw [made] at compacted
      have same : Overlay.new index = fresh := Except.ok.inj compacted
      have alike := builds_alike_iff once (fun _ => Iff.rfl) made written
      rw [stream, ← same]
      simp only [Option.some.injEq, forall_eq']
      rw [← alike]
      refine ⟨fun renumbers key member => renumbers.1 key ((members key).mp member), fun ids => ?_⟩
      refine ⟨fun key live => ids key ((members key).mpr live), ?_⟩
      intro other remap result id key found
      rw [compactHashedWithRemap, listed, Option.bind_some, made] at result
      simp only at result
      obtain ⟨values, mapped, both⟩ := Option.map_eq_some_iff.mp result
      rw [Except.ok.injEq, Prod.mk.injEq] at both
      have live : ∃ id, ov.id hash key = some (some id) := by
        refine ⟨id, ?_⟩
        rw [shows.key, Option.some.injEq] at found
        rw [shows.id, Option.some.injEq]
        exact (built.exact.lookup_iff shows.sound key id).mpr found
      have inside : id < ov.idSpace := by
        by_contra past
        rw [Overlay.key] at found
        rw [Overlay.idSpace, Nat.not_lt] at past
        split at found
        · cases found
        · rw [if_neg (by omega), if_neg (by omega)] at found
          cases found
      rw [ids key ((members key).mpr live), ← both.2, mapM_getElem? mapped,
        List.getElem?_range inside, Option.bind_some, found, Option.bind_some, Option.elim_some,
        fresh_id, Option.bind_some]

/-- Hashes that are all the same, over a perfect hash of one slot. -/
def oneHash : Hashing where
  hashPair _ := (0, 0)
  Mphf := Unit
  buildMphf _ := .ok ()
  slot _ _ := 0

/-- The index of one key under `oneHash`. -/
def oneKey (key : String) : PerfectHashIndex oneHash where
  mph := some ()
  arena := [key]
  fingerprints := none
  n := 1
  side := []

/-- The index of two keys under `oneHash`, the first in the slot. -/
def twoKeys (first second : String) : PerfectHashIndex oneHash where
  mph := some ()
  arena := [first, second]
  fingerprints := none
  n := 2
  side := [(0, 1)]

theorem one_hash_input : mphInput [0] = ([0], []) := by
  rw [mphInput, List.mergeSort_singleton]
  rfl

theorem two_hashes_input : mphInput [0, 0] = ([0], [(0, 1)]) := by
  have same : ([0, 0] : List UInt64).mergeSort (fun a b => a.toNat ≤ b.toNat) = [0, 0] :=
    mergeSort_sorted (by simp [Sorted])
  have pairs : ([(0, 0), (0, 1)] : List (UInt64 × Nat)).mergeSort
      (fun a b => pairKey a ≤ pairKey b) = [(0, 0), (0, 1)] :=
    mergeSort_sorted (by simp [Sorted, pairKey, Prod.Lex.toLex_le_toLex])
  rw [mphInput, same, splitCollisions]
  simp only [List.zipIdx_cons, List.zipIdx_nil]
  rw [pairs]
  simp [chunked]

theorem no_side (m : Nat) : sideTable m [] = [] :=
  List.mergeSort_nil

theorem one_side (m : Nat) : sideTable m [(0, 1)] = [(0, m)] :=
  List.mergeSort_singleton (0, m)

theorem oneKey_built : buildWith oneHash ["b"] false = .ok (oneKey "b") := by
  have sorted : sortDedup bytesOf ["b"] = ["b"] :=
    (eq_sortDedup (fun _ _ => bytesOf_inj) ["b"] (List.pairwise_singleton ..) fun _ => Iff.rfl).symm
  rw [buildWith, sorted]
  simp only [buildOrdered]
  rw [show ["b"].map oneHash.hashKey = [0] from rfl, one_hash_input]
  simp only [no_side]
  rfl

theorem twoKeys_built : buildWith oneHash ["b", "a"] false = .ok (twoKeys "a" "b") := by
  have ascending : Ascending bytesOf ["a", "b"] := by
    rw [Ascending]
    decide
  have sorted : sortDedup bytesOf ["b", "a"] = ["a", "b"] :=
    (eq_sortDedup (fun _ _ => bytesOf_inj) ["b", "a"] ascending (by simp [or_comm])).symm
  rw [buildWith, sorted]
  simp only [buildOrdered]
  rw [show ["a", "b"].map oneHash.hashKey = [0, 0] from rfl, two_hashes_input]
  simp only [one_side]
  rfl

theorem twoKeys_written : buildToFile oneHash ["b", "a"] false = .ok (twoKeys "b" "a") := by
  rw [buildToFile]
  simp only
  rw [show ["b", "a"].map oneHash.hashKey = [0, 0] from rfl, two_hashes_input]
  simp only [one_side]
  rfl

/-- The index of one key with a colliding one added. -/
def colliding : Overlay (PerfectHashIndex oneHash) where
  base := oneKey "b"
  addedData := record "a"
  addedStarts := [0]
  addedLookup := [(0, 0, 0)]
  addedCollisions := []
  dead := []
  live := 2

theorem colliding_reached :
    (Overlay.new (oneKey "b")).run (fun _ => 0) [.add "a"] = some colliding := by
  rfl

theorem colliding_compacted :
    colliding.compactHashed = some (.ok (Overlay.new (twoKeys "a" "b"))) := by
  rw [compactHashed, show colliding.keys = some ["b", "a"] from rfl, Option.map_some]
  exact congrArg some (congrArg (Except.map Overlay.new) twoKeys_built)

theorem colliding_written : colliding.compactHashedToFile = some (.ok (twoKeys "b" "a")) := by
  rw [compactHashedToFile, show colliding.additionsLeft = some ["a"] from rfl, Option.map_some]
  exact congrArg some twoKeys_written

theorem compact_to_file_renumbers_iff_two_keys :
    RenumbersAlike (fun _ => 0) colliding (twoKeys "a" "b") (twoKeys "b" "a") ↔
      ∀ stream, colliding.streamed = some stream → LeastFirst oneHash.hashKey stream :=
  compact_to_file_renumbers_iff (fun _ => 0) (.inl ⟨["b"], false, oneKey_built⟩)
    colliding_reached colliding_compacted colliding_written

/-- A key added beside a greater one with its hash: the file has their ids the other way round. -/
theorem colliding_keys_renumbered :
    ∃ fresh file, Built (oneKey "b") ∧
      (Overlay.new (oneKey "b")).run (fun _ => 0) [.add "a"] = some colliding ∧
      colliding.compactHashed = some (.ok fresh) ∧
      colliding.compactHashedToFile = some (.ok file) ∧
      ¬ RenumbersAlike (fun _ => 0) colliding fresh.base file := by
  refine ⟨_, _, .inl ⟨["b"], false, oneKey_built⟩, colliding_reached, colliding_compacted,
    colliding_written, fun alike => ?_⟩
  have same := alike.1 "a" ⟨1, rfl⟩
  rw [show (twoKeys "b" "a").id "a" = some 1 from rfl,
    show (Overlay.new (twoKeys "a" "b")).base.id "a" = some 0 from rfl] at same
  cases same

end Overlay

end Lexindex
