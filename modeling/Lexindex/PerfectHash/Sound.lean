import Mathlib
import Lexindex.PerfectHash.Index

/-!
# What a build has placed

Either build puts a representative in the slot of its hash and an extra after the slots, in the
order of the extras.  An index so filled answers each key with its row, and no other string.
-/

set_option autoImplicit false

namespace Lexindex.PerfectHash

open Mphf (IndexError)

/-! ## Placing -/

section Placing

variable {slot : UInt64 → Nat} {extra : Nat → Bool}

theorem placeReps_spec (todo : List (UInt64 × Nat)) : ∀ {bySlot placed : List (Option Nat)},
    placeReps slot extra todo bySlot = .ok placed →
      placed.length = bySlot.length ∧
      (∀ s i : Nat, bySlot[s]? = some (some i) → placed[s]? = some (some i)) ∧
      ∀ p ∈ todo, extra p.2 = false →
        slot p.1 < bySlot.length ∧ placed[slot p.1]? = some (some p.2) := by
  induction todo with
  | nil =>
      intro bySlot placed result
      rw [placeReps, Except.ok.injEq] at result
      rw [result]
      exact ⟨rfl, fun _ _ here => here, fun p member => absurd member List.not_mem_nil⟩
  | cons p todo ih =>
      intro bySlot placed result
      rw [placeReps] at result
      split at result
      · next skipped =>
        obtain ⟨length, kept, each⟩ := ih result
        refine ⟨length, kept, List.forall_mem_cons.mpr ⟨fun rep => ?_, each⟩⟩
        rw [rep] at skipped
        cases skipped
      · simp only [bind_eq_ok, refuse_eq_ok] at result
        obtain ⟨-, free, result⟩ := result
        rw [not_or, Nat.not_le, not_not] at free
        obtain ⟨length, kept, each⟩ := ih result
        rw [List.length_set] at length each
        refine ⟨length, fun s i here => kept s i ?_, List.forall_mem_cons.mpr
          ⟨fun _ => ⟨free.1, kept _ _ (List.getElem?_set_self free.1)⟩, each⟩⟩
        rw [List.getElem?_set_ne, here]
        rintro rfl
        rw [List.getD_eq_getElem?_getD, here] at free
        cases free.2

theorem checkSlots_spec (todo : List (UInt64 × Nat)) : ∀ {taken : List Bool},
    checkSlots slot extra todo taken = .ok () →
      (∀ p ∈ todo, extra p.2 = false →
        slot p.1 < taken.length ∧ taken.getD (slot p.1) false = false) ∧
      todo.Pairwise fun p q => extra p.2 = false → extra q.2 = false → slot p.1 ≠ slot q.1 := by
  induction todo with
  | nil => exact fun _ => ⟨fun p member => absurd member List.not_mem_nil, List.Pairwise.nil⟩
  | cons p todo ih =>
      intro taken result
      rw [checkSlots] at result
      split at result
      · next skipped =>
        obtain ⟨each, apart⟩ := ih result
        have never : extra p.2 ≠ false := by
          rw [skipped]
          exact Bool.noConfusion
        exact ⟨List.forall_mem_cons.mpr ⟨fun rep => absurd rep never, each⟩,
          List.pairwise_cons.mpr ⟨fun q _ rep => absurd rep never, apart⟩⟩
      · simp only [bind_eq_ok, refuse_eq_ok] at result
        obtain ⟨-, free, result⟩ := result
        rw [not_or, Nat.not_le, Bool.not_eq_true] at free
        obtain ⟨each, apart⟩ := ih result
        rw [List.length_set] at each
        have other : ∀ q ∈ todo, extra q.2 = false →
            slot p.1 ≠ slot q.1 ∧ taken.getD (slot q.1) false = false := by
          intro q member rep
          have clear := (each q member rep).2
          rw [List.getD_eq_getElem?_getD, List.getElem?_set] at clear
          by_cases same : slot p.1 = slot q.1
          · rw [if_pos same, if_pos free.1] at clear
            cases clear
          · rw [if_neg same, ← List.getD_eq_getElem?_getD] at clear
            exact ⟨same, clear⟩
        refine ⟨List.forall_mem_cons.mpr ⟨fun _ => free, fun q member rep =>
          ⟨(each q member rep).1, (other q member rep).2⟩⟩, List.pairwise_cons.mpr
          ⟨fun q member _ rep => (other q member rep).1, apart⟩⟩

/-- Rows written at distinct places hold what was written. -/
theorem foldl_set_spec {α : Type} (pairs : List (α × Nat)) : ∀ {arena : List α},
    (pairs.map Prod.snd).Nodup → (∀ e ∈ pairs, e.2 < arena.length) →
      (pairs.foldl (fun arena e => arena.set e.2 e.1) arena).length = arena.length ∧
      (∀ i, i ∉ pairs.map Prod.snd →
        (pairs.foldl (fun arena e => arena.set e.2 e.1) arena)[i]? = arena[i]?) ∧
      ∀ e ∈ pairs, (pairs.foldl (fun arena e => arena.set e.2 e.1) arena)[e.2]? = some e.1 := by
  induction pairs with
  | nil => exact fun _ _ => ⟨rfl, fun _ _ => rfl, fun e member => absurd member List.not_mem_nil⟩
  | cons e pairs ih =>
      intro arena once inside
      rw [List.map_cons, List.nodup_cons] at once
      obtain ⟨eInside, inside⟩ := List.forall_mem_cons.mp inside
      obtain ⟨length, others, each⟩ := @ih (arena.set e.2 e.1) once.2
        fun q member => (List.length_set ..).symm ▸ inside q member
      rw [List.foldl_cons]
      refine ⟨length.trans (List.length_set ..), fun i apart => ?_,
        List.forall_mem_cons.mpr ⟨?_, each⟩⟩
      · rw [List.map_cons, List.mem_cons, not_or] at apart
        rw [others i apart.2, List.getElem?_set_ne (Ne.symm apart.1)]
      · rw [others e.2 once.1, List.getElem?_set_self eInside]

end Placing

/-! ## Filled indexes -/

variable {h : Hashing}

/-- An index of distinct keys: a representative in the slot of its hash, an extra after the
slots. -/
structure Filled (keys : List String) (firsts : List UInt64) (extras : List (UInt64 × Nat))
    (mph : h.Mphf) (idx : PerfectHashIndex h) : Prop where
  distinct : keys.Nodup
  parted : Parted (keys.map h.hashKey) firsts extras
  built : h.buildMphf firsts = .ok mph
  perfect : idx.mph = some mph
  count : idx.n = keys.length
  size : idx.arena.length = keys.length
  reps : ∀ i key, keys[i]? = some key → i ∉ extras.map Prod.snd →
    h.slot mph (h.hashKey key) < firsts.length ∧
      idx.arena[h.slot mph (h.hashKey key)]? = some key
  tail : ∀ j p, extras[j]? = some p → idx.arena[firsts.length + j]? = keys[p.2]?
  side : idx.side = sideTable firsts.length extras
  fingerprints : ∀ fps, idx.fingerprints = some fps → fps = idx.arena.map h.fingerprint

theorem buildOrdered_filled {keys : List String} (distinct : keys.Nodup) {fingerprints : Bool}
    {idx : PerfectHashIndex h} (result : buildOrdered h keys fingerprints = .ok idx) :
    ∃ mph, Filled keys (mphInput (keys.map h.hashKey)).1 (mphInput (keys.map h.hashKey)).2
      mph idx := by
  have parted := mphInput_parted (keys.map h.hashKey)
  simp only [buildOrdered, bind_eq_ok, pure_eq_ok] at result
  obtain ⟨mph, built, bySlot, placed, rfl⟩ := result
  generalize (mphInput (keys.map h.hashKey)).1 = firsts at *
  generalize (mphInput (keys.map h.hashKey)).2 = extras at *
  obtain ⟨length, -, each⟩ := placeReps_spec _ placed
  rw [List.length_replicate] at length each
  have count := parted.count
  rw [List.length_map] at count
  refine ⟨mph, distinct, parted, built, rfl, rfl, ?_, fun i key here rep => ?_,
    fun j p here => ?_, rfl, fun fps stored => ?_⟩
  · rw [List.length_map, List.length_append, List.length_map, length, count]
  · have hashed : (keys.map h.hashKey)[i]? = some (h.hashKey key) := by
      rw [List.getElem?_map, here]
      rfl
    obtain ⟨inside, found⟩ := each (h.hashKey key, i) (mem_zipIdx.mpr hashed) (by simpa using rep)
    refine ⟨inside, ?_⟩
    simp only at found ⊢
    rw [List.getElem?_map, List.getElem?_append_left (length.symm ▸ inside), found]
    change some ((keys[i]?).getD "") = some key
    rw [here]
    rfl
  · obtain ⟨key, there, -⟩ := parted.extra_place
      (List.mem_of_getElem? here)
    simp only
    rw [List.getElem?_map, List.getElem?_append_right (by omega), length, Nat.add_sub_cancel_left,
      List.getElem?_map, here, there]
    change some ((keys[p.2]?).getD "") = some key
    rw [there]
    rfl
  · simp only at stored
    split at stored
    · exact (Option.some.inj stored).symm
    · cases stored

/-- A representative's row is its slot. -/
theorem rowOf_rep {slot : UInt64 → Nat} {m : Nat} {extras : List (UInt64 × Nat)}
    {p : UInt64 × Nat} (isRep : p.2 ∉ extras.map Prod.snd) : rowOf slot m extras p = slot p.1 := by
  rw [rowOf, if_neg (by simpa using isRep)]

/-- An extra's row is past the slots. -/
theorem rowOf_extra {slot : UInt64 → Nat} {m : Nat} {extras : List (UInt64 × Nat)}
    {p : UInt64 × Nat} (isExtra : p.2 ∈ extras.map Prod.snd) :
    rowOf slot m extras p = m + (extras.map Prod.snd).idxOf p.2 := by
  rw [rowOf, if_pos (by simpa using isExtra)]

/-- The arena a replay fills holds each key in its row, repeated keys too. -/
theorem fillArena_rows {keys : List String} {firsts : List UInt64} {extras : List (UInt64 × Nat)}
    {slot : UInt64 → Nat} (parted : Parted (keys.map h.hashKey) firsts extras)
    (checked : checkSlots slot (fun i => (extras.map Prod.snd).contains i)
      (keys.map h.hashKey).zipIdx (List.replicate firsts.length false) = .ok ()) :
    (fillArena keys ((keys.map h.hashKey).zipIdx.map (rowOf slot firsts.length extras))).length =
        keys.length ∧
      (∀ p ∈ (keys.map h.hashKey).zipIdx, p.2 ∉ extras.map Prod.snd → slot p.1 < firsts.length) ∧
      ∀ (i : Nat) (key : String), keys[i]? = some key →
        (fillArena keys ((keys.map h.hashKey).zipIdx.map (rowOf slot firsts.length extras)))[
          rowOf slot firsts.length extras (h.hashKey key, i)]? = some key := by
  obtain ⟨each, apart⟩ := checkSlots_spec _ checked
  rw [List.length_replicate] at each
  have count := parted.count
  rw [List.length_map] at count
  have slots (p : UInt64 × Nat) (member : p ∈ (keys.map h.hashKey).zipIdx)
      (isRep : p.2 ∉ extras.map Prod.snd) : slot p.1 < firsts.length :=
    (each p member (by simpa using isRep)).1
  have once : ((keys.map h.hashKey).zipIdx.map (rowOf slot firsts.length extras)).Nodup := by
    refine List.pairwise_map.mpr ?_
    refine (List.pairwise_and_iff.mpr ⟨apart, zipIdx_nodup _⟩).imp_of_mem ?_
    intro p q pIn qIn both same
    obtain ⟨differ, other⟩ := both
    by_cases pExtra : p.2 ∈ extras.map Prod.snd
    · by_cases qExtra : q.2 ∈ extras.map Prod.snd
      · rw [rowOf_extra pExtra, rowOf_extra qExtra, Nat.add_left_cancel_iff,
          List.idxOf_inj pExtra] at same
        have here := mem_zipIdx.mp pIn
        rw [same, mem_zipIdx.mp qIn, Option.some.injEq] at here
        exact other (Prod.ext here.symm same)
      · rw [rowOf_extra pExtra, rowOf_rep qExtra] at same
        have less := slots q qIn qExtra
        omega
    · by_cases qExtra : q.2 ∈ extras.map Prod.snd
      · rw [rowOf_rep pExtra, rowOf_extra qExtra] at same
        have less := slots p pIn pExtra
        omega
      · rw [rowOf_rep pExtra, rowOf_rep qExtra] at same
        exact differ (by simpa using pExtra) (by simpa using qExtra) same
  have inside : ∀ p ∈ (keys.map h.hashKey).zipIdx,
      rowOf slot firsts.length extras p < keys.length := by
    intro p member
    by_cases isExtra : p.2 ∈ extras.map Prod.snd
    · have place := List.idxOf_lt_length_iff.mpr isExtra
      rw [List.length_map] at place
      rw [rowOf_extra isExtra]
      omega
    · rw [rowOf_rep isExtra]
      have less := slots p member isExtra
      omega
  have rows : (keys.zip ((keys.map h.hashKey).zipIdx.map
      (rowOf slot firsts.length extras))).map Prod.snd =
      (keys.map h.hashKey).zipIdx.map (rowOf slot firsts.length extras) :=
    List.map_snd_zip (by simp)
  have blank : (List.replicate keys.length "").length = keys.length := List.length_replicate
  obtain ⟨length, -, written⟩ := @foldl_set_spec _ (keys.zip ((keys.map h.hashKey).zipIdx.map
    (rowOf slot firsts.length extras))) (List.replicate keys.length "")
    (rows.symm ▸ once) (by
      intro e member
      have listed := List.mem_map_of_mem (f := Prod.snd) member
      rw [rows] at listed
      obtain ⟨p, pIn, place⟩ := List.mem_map.mp listed
      rw [blank, ← place]
      exact inside p pIn)
  refine ⟨length.trans blank, slots, fun i key here => ?_⟩
  refine written (key, rowOf slot firsts.length extras (h.hashKey key, i)) ?_
  refine List.mem_of_getElem? (i := i) ?_
  rw [List.getElem?_zip_eq_some]
  refine ⟨here, ?_⟩
  rw [List.getElem?_map, List.getElem?_zipIdx, List.getElem?_map, here]
  simp

theorem buildToFile_filled {keys : List String} (distinct : keys.Nodup) {fingerprints : Bool}
    {idx : PerfectHashIndex h} (some_key : keys ≠ [])
    (result : buildToFile h keys fingerprints = .ok idx) :
    ∃ mph, Filled keys (mphInput (keys.map h.hashKey)).1 (mphInput (keys.map h.hashKey)).2
      mph idx := by
  have parted := mphInput_parted (keys.map h.hashKey)
  simp only [buildToFile, bind_eq_ok, pure_eq_ok, refuse_eq_ok, if_neg some_key] at result
  obtain ⟨-, -, -, -, mph, built, ⟨⟩, checked, -, -, rfl⟩ := result
  generalize (mphInput (keys.map h.hashKey)).1 = firsts at *
  generalize (mphInput (keys.map h.hashKey)).2 = extras at *
  obtain ⟨length, slots, row⟩ := fillArena_rows parted checked
  have extrasOnce : (extras.map Prod.snd).Nodup :=
    List.pairwise_map.mpr (parted.ordered.imp fun less => less.ne)
  refine ⟨mph, distinct, parted, built, rfl, rfl, length, fun i key here isRep => ?_,
    fun j p here => ?_, rfl, fun fps stored => ?_⟩
  · have member : (h.hashKey key, i) ∈ (keys.map h.hashKey).zipIdx := by
      rw [mem_zipIdx, List.getElem?_map, here]
      rfl
    have placed := row i key here
    rw [rowOf_rep (by exact isRep)] at placed
    exact ⟨slots _ member isRep, placed⟩
  · have member := List.mem_of_getElem? here
    obtain ⟨key, there, hashed⟩ := parted.extra_place member
    have placed := row p.2 key there
    rw [hashed, Prod.mk.eta] at placed
    have isExtra : p.2 ∈ extras.map Prod.snd := List.mem_map_of_mem member
    obtain ⟨jIn, jIs⟩ := List.getElem?_eq_some_iff.mp here
    have place : (extras.map Prod.snd).idxOf p.2 = j := by
      have inside : j < (extras.map Prod.snd).length := by simpa using jIn
      have listed : (extras.map Prod.snd)[j] = p.2 := by
        rw [List.getElem_map, jIs]
      rw [← listed, extrasOnce.idxOf_getElem]
    rw [rowOf_extra isExtra, place] at placed
    exact placed.trans there.symm
  · simp only at stored
    split at stored
    · exact (Option.some.inj stored).symm
    · cases stored

/-! ## What a filled index answers -/

/-- Of a list sorted by hash, the run a search for one hash looks at holds every entry with it. -/
theorem mem_run {hash : UInt64} {e : UInt64 × Nat} (same : e.1 = hash) :
    ∀ {side : List (UInt64 × Nat)}, Sorted (fun e => e.1.toNat) side → e ∈ side →
      e ∈ (side.dropWhile fun e => e.1.toNat < hash.toNat).takeWhile fun e => e.1 == hash := by
  have upTo : ∀ {side : List (UInt64 × Nat)}, Sorted (fun e => e.1.toNat) side → e ∈ side →
      (∀ a ∈ side, hash.toNat ≤ a.1.toNat) → e ∈ side.takeWhile fun e => e.1 == hash := by
    intro side
    induction side with
    | nil => exact fun _ member => absurd member List.not_mem_nil
    | cons a side ih =>
        intro sorted member above
        obtain ⟨least, sorted⟩ := List.pairwise_cons.mp sorted
        obtain ⟨aAbove, above⟩ := List.forall_mem_cons.mp above
        have aBelow : a.1.toNat ≤ hash.toNat := by
          rcases List.mem_cons.mp member with rfl | later
          · rw [same]
          · exact same ▸ least e later
        have aSame : a.1 = hash := UInt64.toNat_inj.mp (Nat.le_antisymm aBelow aAbove)
        rw [List.takeWhile_cons_of_pos (by simp [aSame])]
        rcases List.mem_cons.mp member with rfl | later
        · exact List.mem_cons_self
        · exact List.mem_cons_of_mem _ (ih sorted later above)
  intro side
  induction side with
  | nil => exact fun _ member => absurd member List.not_mem_nil
  | cons a side ih =>
      intro sorted member
      obtain ⟨least, rest⟩ := List.pairwise_cons.mp sorted
      by_cases below : a.1.toNat < hash.toNat
      · rw [List.dropWhile_cons_of_pos (by simpa using below)]
        refine ih rest ((List.mem_cons.mp member).resolve_left fun first => ?_)
        rw [← first, same] at below
        exact lt_irrefl _ below
      · rw [List.dropWhile_cons_of_neg (by simpa using below)]
        refine upTo sorted member (List.forall_mem_cons.mpr ⟨Nat.le_of_not_lt below, ?_⟩)
        exact fun x later => (Nat.le_of_not_lt below).trans (least x later)

theorem sideTable_sorted (m : Nat) (extras : List (UInt64 × Nat)) :
    Sorted (fun e => e.1.toNat) (sideTable m extras) := by
  refine (sorted_mergeSort pairKey ((extras.map Prod.fst).zipIdx m)).imp fun {a b} le => ?_
  rcases le.lt_or_eq with less | same
  · rcases pairKey_lt.mp less with less | ⟨same, -⟩
    · exact Nat.le_of_lt less
    · exact Nat.le_of_eq (congrArg UInt64.toNat same)
  · rw [pairKey_inj same]

theorem mem_sideTable {m j : Nat} {extras : List (UInt64 × Nat)} {p : UInt64 × Nat}
    (here : extras[j]? = some p) : (p.1, m + j) ∈ sideTable m extras := by
  refine List.mem_mergeSort.mpr (List.mem_of_getElem? (i := j) ?_)
  rw [List.getElem?_zipIdx, List.getElem?_map, here]
  rfl

section Filled

variable {keys : List String} {firsts : List UInt64} {extras : List (UInt64 × Nat)} {mph : h.Mphf}
  {idx : PerfectHashIndex h} (filled : Filled keys firsts extras mph idx)
include filled

theorem Filled.holds_iff (slot : Nat) (key : String) :
    idx.holds slot key = true ↔ idx.arena[slot]? = some key := by
  rw [PerfectHashIndex.holds]
  split
  · exact beq_iff_eq
  · next fps stored =>
    rw [filled.fingerprints fps stored, Bool.and_eq_true, beq_iff_eq, beq_iff_eq]
    refine ⟨And.right, fun here => ⟨?_, here⟩⟩
    rw [List.getElem?_map, here]
    rfl

/-- A key has a row: the slot of its hash, or one past the slots. -/
theorem Filled.row {i : Nat} {key : String} (here : keys[i]? = some key) :
    (i ∉ extras.map Prod.snd ∧ idx.arena[h.slot mph (h.hashKey key)]? = some key) ∨
      ∃ j p, extras[j]? = some p ∧ p.2 = i ∧ p.1 = h.hashKey key ∧
        idx.arena[firsts.length + j]? = some key := by
  by_cases isExtra : i ∈ extras.map Prod.snd
  · obtain ⟨p, member, rfl⟩ := List.mem_map.mp isExtra
    obtain ⟨j, at_⟩ := List.mem_iff_getElem?.mp member
    obtain ⟨other, there, hashed⟩ := filled.parted.extra_place member
    rw [here, Option.some.injEq] at there
    exact .inr ⟨j, p, at_, rfl, by rw [← hashed, there], (filled.tail j p at_).trans here⟩
  · exact .inl ⟨isExtra, (filled.reps i key here isExtra).2⟩

/-- The rows are the keys. -/
theorem Filled.perm : idx.arena.Perm keys := by
  refine ((filled.distinct.subperm fun key member => ?_).perm_of_length_le
    (Nat.le_of_eq filled.size)).symm
  obtain ⟨i, here⟩ := List.mem_iff_getElem?.mp member
  rcases filled.row here with ⟨-, placed⟩ | ⟨j, p, -, -, -, placed⟩
  · exact List.mem_of_getElem? placed
  · exact List.mem_of_getElem? placed

theorem Filled.found {key : String} (member : key ∈ keys) : ∃ id, idx.id key = some id := by
  obtain ⟨i, here⟩ := List.mem_iff_getElem?.mp member
  rw [PerfectHashIndex.id, filled.perfect]
  simp only
  by_cases hit : idx.holds (h.slot mph (h.hashKey key)) key = true
  · rw [if_pos hit]
    exact ⟨_, rfl⟩
  · rw [if_neg hit]
    rw [filled.holds_iff] at hit
    rcases filled.row here with ⟨-, placed⟩ | ⟨j, p, at_, -, hashed, placed⟩
    · exact absurd placed hit
    · have listed := @mem_sideTable firsts.length _ _ _ at_
      rw [← filled.side] at listed
      have some_side : ¬ idx.side.isEmpty = true := by
        rw [List.isEmpty_iff]
        exact List.ne_nil_of_mem listed
      have sorted := sideTable_sorted firsts.length extras
      rw [← filled.side] at sorted
      rw [if_neg some_side, PerfectHashIndex.sideLookup, ← Option.isSome_iff_exists,
        Option.isSome_map, List.find?_isSome]
      refine ⟨(p.1, firsts.length + j), ?_, by simpa using placed⟩
      exact mem_run (e := (p.1, firsts.length + j)) hashed sorted listed

/-- An index answers a string with the row that holds it, and with no other. -/
theorem Filled.id_iff (key : String) (id : Nat) :
    idx.id key = some id ↔ idx.arena[id]? = some key := by
  have sound : ∀ id, idx.id key = some id → idx.arena[id]? = some key := by
    intro id answered
    rw [PerfectHashIndex.id, filled.perfect] at answered
    simp only at answered
    split at answered
    · next hit =>
      rw [← Option.some.inj answered]
      exact (filled.holds_iff _ _).mp hit
    · split at answered
      · cases answered
      · rw [PerfectHashIndex.sideLookup] at answered
        obtain ⟨e, found, rfl⟩ := Option.map_eq_some_iff.mp answered
        simpa using List.find?_some found
  refine ⟨sound id, fun here => ?_⟩
  obtain ⟨other, answered⟩ := filled.found (filled.perm.subset (List.mem_of_getElem? here))
  have there := sound other answered
  obtain ⟨inside, is⟩ := List.getElem?_eq_some_iff.mp here
  obtain ⟨otherInside, otherIs⟩ := List.getElem?_eq_some_iff.mp there
  have once := filled.perm.nodup_iff.mpr filled.distinct
  rw [answered, (once.getElem_inj_iff).mp (is.trans otherIs.symm)]

/-- The rows past the slots are the extras. -/
theorem Filled.tail_eq :
    idx.arena.drop firsts.length = extras.map fun p => keys.getD p.2 "" := by
  have count := filled.parted.count
  rw [List.length_map] at count
  refine List.ext_getElem? fun j => ?_
  rw [List.getElem?_drop, List.getElem?_map]
  cases here : extras[j]? with
  | some p =>
      obtain ⟨key, there, -⟩ := filled.parted.extra_place
        (List.mem_of_getElem? here)
      rw [filled.tail j p here, Option.map_some, List.getD_eq_getElem?_getD, there]
      rfl
  | none =>
      have past := List.getElem?_eq_none_iff.mp here
      rw [List.getElem?_eq_none (by rw [filled.size]; omega)]
      rfl

end Filled

end Lexindex.PerfectHash
