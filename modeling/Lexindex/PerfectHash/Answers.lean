import Mathlib
import Lexindex.PerfectHash.Publish

/-!
# What an index answers

Every lookup of an index, checked, unchecked or in a batch, gives a key the row that holds it.  A
string that is no key gets no id but from the unchecked lookup, which does not compare it.
-/

set_option autoImplicit false

namespace Lexindex.PerfectHash

variable {h : Hashing}

namespace PerfectHashIndex

/-- The id of a key, without a look at the key its slot holds. -/
def idUnchecked (idx : PerfectHashIndex h) (key : String) : Nat :=
  let listed := if idx.side.isEmpty then none else idx.sideLookup (h.hashKey key) key
  match listed with
  | some id => id
  | none =>
      match idx.mph with
      | none => 0
      | some mph => h.slot mph (h.hashKey key)

/-- The ids of many keys, their slots from one pass of the perfect hash over all their hashes. -/
def idsOf (indexAll : h.Mphf → List UInt64 → List Nat) (idx : PerfectHashIndex h)
    (keys : List String) : List (Option Nat) :=
  match idx.mph with
  | none => List.replicate keys.length none
  | some mph =>
      let hashes := keys.map h.hashKey
      let slots := indexAll mph hashes
      (keys.zip (hashes.zip slots)).map fun e =>
        if idx.holds e.2.2 e.1 then some e.2.2
        else if idx.side.isEmpty then none
        else idx.sideLookup e.2.1 e.1

end PerfectHashIndex

/-- The lookups of an index of these keys. -/
structure Answers (idx : PerfectHashIndex h) (keys : List String) : Prop where
  /-- Each key in a row of its own, and nothing else in a row. -/
  rows : idx.arena.Perm keys
  count : idx.len = keys.length
  id_iff : ∀ key id, idx.id key = some id ↔ idx.key id = some key
  found_iff : ∀ key, (∃ id, id < idx.len ∧ idx.id key = some id) ↔ key ∈ keys
  absent : ∀ key, key ∉ keys → idx.id key = none
  unchecked : ∀ key ∈ keys, idx.id key = some (idx.idUnchecked key)
  /-- A batch is its keys looked up one by one, where the perfect hash's pass is. -/
  batch : ∀ indexAll : h.Mphf → List UInt64 → List Nat,
    (∀ mph hashes, idx.mph = some mph → indexAll mph hashes = hashes.map (h.slot mph)) →
      ∀ queries, idx.idsOf indexAll queries = queries.map idx.id

/-! ## Lookups one by one and in a batch -/

/-- A batch asks of each key what a lookup asks. -/
theorem idsOf_eq (idx : PerfectHashIndex h) {indexAll : h.Mphf → List UInt64 → List Nat}
    (single : ∀ mph hashes, idx.mph = some mph → indexAll mph hashes = hashes.map (h.slot mph))
    (queries : List String) : idx.idsOf indexAll queries = queries.map idx.id := by
  rw [PerfectHashIndex.idsOf]
  cases perfect : idx.mph with
  | none =>
      have never : ∀ key, idx.id key = none := by
        intro key
        rw [PerfectHashIndex.id, perfect]
      rw [List.map_congr_left fun key _ => never key, List.map_const']
  | some mph =>
      simp only
      rw [single mph _ perfect, List.map_map, List.zip_map', ← List.map_prod_left_eq_zip,
        List.map_map]
      refine List.map_congr_left fun key _ => ?_
      rw [PerfectHashIndex.id, perfect]
      rfl

section Filled

variable {keys : List String} {firsts : List UInt64} {extras : List (UInt64 × Nat)} {mph : h.Mphf}
  {idx : PerfectHashIndex h} (filled : Filled keys firsts extras mph idx)
include filled

/-- A key the side table lists is there, and one it does not list is in the slot of its hash. -/
theorem Filled.unchecked {key : String} (member : key ∈ keys) :
    idx.id key = some (idx.idUnchecked key) := by
  rw [PerfectHashIndex.idUnchecked, filled.id_iff]
  cases listed : (if idx.side.isEmpty then none else idx.sideLookup (h.hashKey key) key) with
  | some id =>
      split at listed
      · cases listed
      · rw [PerfectHashIndex.sideLookup] at listed
        obtain ⟨e, found, rfl⟩ := Option.map_eq_some_iff.mp listed
        simpa using List.find?_some found
  | none =>
      obtain ⟨i, here⟩ := List.mem_iff_getElem?.mp member
      rw [filled.perfect]
      rcases filled.row here with ⟨-, placed⟩ | ⟨j, p, there, -, hashed, placed⟩
      · exact placed
      -- the side table lists an extra, so the lookup that found none would have found it
      exfalso
      have entry := @mem_sideTable firsts.length _ _ _ there
      rw [← filled.side] at entry
      have sorted := sideTable_sorted firsts.length extras
      rw [← filled.side] at sorted
      have some_side : ¬ idx.side.isEmpty = true := by
        rw [List.isEmpty_iff]
        exact List.ne_nil_of_mem entry
      rw [if_neg some_side, PerfectHashIndex.sideLookup, Option.map_eq_none_iff,
        List.find?_eq_none] at listed
      exact listed (p.1, firsts.length + j)
        (mem_run (e := (p.1, firsts.length + j)) hashed sorted entry) (by simpa using placed)

theorem Filled.answers : Answers idx keys := by
  have listed : ∀ key, key ∈ keys ↔ ∃ id : Nat, idx.arena[id]? = some key := fun key =>
    filled.perm.mem_iff.symm.trans List.mem_iff_getElem?
  have size : idx.len = idx.arena.length := filled.count.trans filled.size.symm
  refine ⟨filled.perm, filled.count, filled.id_iff, fun key => ?_, fun key isNot => ?_,
    fun key member => filled.unchecked member, fun indexAll single => idsOf_eq idx single⟩
  · rw [listed]
    refine exists_congr fun id => ?_
    rw [filled.id_iff, size]
    exact and_iff_right_of_imp fun here => (List.getElem?_eq_some_iff.mp here).1
  · rw [Option.eq_none_iff_forall_ne_some]
    intro id answered
    exact isNot ((listed key).mpr ⟨id, (filled.id_iff key id).mp answered⟩)

end Filled

/-- No keys, no answers. -/
theorem answers_empty (fingerprints : Bool) :
    Answers (emptyIndex fingerprints : PerfectHashIndex h) [] where
  rows := List.Perm.refl _
  count := rfl
  id_iff key id := by simp [PerfectHashIndex.id, PerfectHashIndex.key, emptyIndex]
  found_iff key := by simp [PerfectHashIndex.id, emptyIndex]
  absent key _ := rfl
  unchecked key member := absurd member List.not_mem_nil
  batch indexAll single := idsOf_eq _ single

/-! ## The builds -/

variable {items : List String} {fingerprints : Bool} {idx : PerfectHashIndex h}

/-- The keys of an index are the strings it was built from, each once, whatever their hashes and
however many share one; the streamed build's are, where the source yields none twice. -/
theorem builds_exact
    (built : buildWith h items fingerprints = .ok idx ∨
      items.Nodup ∧ buildToFile h items fingerprints = .ok idx) :
    ∃ keys, (∀ key, key ∈ keys ↔ key ∈ items) ∧ keys.Nodup ∧ Answers idx keys := by
  rcases built with built | ⟨once, built⟩
  · have injective : Function.Injective bytesOf := fun a b => bytesOf_inj
    have distinct : (sortDedup bytesOf items).Nodup := (sortDedup_ascending injective items).nodup
    refine ⟨sortDedup bytesOf items, mem_sortDedup injective items, distinct, ?_⟩
    simp only [buildWith, bind_eq_ok, refuse_eq_ok] at built
    obtain ⟨-, -, -, -, built⟩ := built
    split at built
    · next none =>
      rw [none]
      obtain rfl := (pure_eq_ok.mp built).symm
      exact answers_empty fingerprints
    · obtain ⟨mph, filled⟩ := buildOrdered_filled distinct built
      exact filled.answers
  · refine ⟨items, fun key => Iff.rfl, once, ?_⟩
    by_cases none : items = []
    · subst none
      simp only [buildToFile, bind_eq_ok, refuse_eq_ok, if_pos, pure_eq_ok] at built
      obtain ⟨-, -, -, -, rfl⟩ := built
      exact answers_empty fingerprints
    · obtain ⟨mph, filled⟩ := buildToFile_filled once none built
      exact filled.answers

/-- Two keys of one hash. -/
theorem builds_exact_of_two :
    ∃ idx, buildToFile byLength ["b", "a"] true = .ok idx ∧
      ∃ keys, (∀ key, key ∈ keys ↔ key ∈ ["b", "a"]) ∧ keys.Nodup ∧ Answers idx keys := by
  have hashes : ["b", "a"].map byLength.hashKey = [1, 1] := rfl
  have distinct : sortDedup UInt64.toNat [1, 1] = [1] :=
    (eq_sortDedup toNat_injective [1, 1] (List.pairwise_singleton ..) (by simp)).symm
  have placeable : Placeable byLength ["b", "a"] := by
    rw [Placeable, hashes, distinct]
    exact ⟨by decide +kernel, by decide +kernel, [1], rfl, by simp [byLength], by simp⟩
  have never : ∀ key, ¬ RepeatsFirst byLength ["b", "a"] key := by
    rintro key ⟨twice, first⟩
    have member := List.mem_of_find?_eq_some first
    fin_cases member
    · exact absurd twice (by decide)
    · exact absurd twice (by decide)
  obtain ⟨idx, built⟩ := (buildToFile_ok_iff (by decide) true).mpr ⟨placeable, never⟩
  exact ⟨idx, built, builds_exact (.inr ⟨by decide, built⟩)⟩

end Lexindex.PerfectHash
