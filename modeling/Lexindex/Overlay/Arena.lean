import Mathlib
import Lexindex.Overlay.Blob

/-!
# The addition arena

An arena of records holds its keys: the record that starts where the `i`-th one
does is the `i`-th key, and the lookup of a key finds it by its hash, whether it is
the first with that hash or collided with one before it.
-/

set_option autoImplicit false

namespace Lexindex

namespace Overlay

/-- A key's record in the arena. -/
def record (key : String) : List UInt8 :=
  leBytes 4 (bytesOf key).length ++ bytesOf key

/-- Where the record of the `i`-th of some keys starts. -/
def recordStart (keys : List String) (i : Nat) : Nat :=
  ((keys.take i).flatMap record).length

variable {I : Type} {hash : List UInt8 → UInt64}

/-- An arena that holds `keys`, and a lookup of them. -/
structure Arena (hash : List UInt8 → UInt64) (ov : Overlay I) (keys : List String) : Prop where
  data : ov.addedData = keys.flatMap record
  starts : ov.addedStarts = (List.range keys.length).map (recordStart keys)
  small : ∀ key ∈ keys, (bytesOf key).length < 2 ^ 32
  nodup : keys.Nodup
  /-- The lookup names a key with the hash. -/
  first : ∀ h i start, ov.addedLookup.lookup h = some (i, start) →
    ∃ key, keys[i]? = some key ∧ hash (bytesOf key) = h ∧ start = recordStart keys i
  collided : ∀ h i start, (h, i, start) ∈ ov.addedCollisions →
    ∃ key, keys[i]? = some key ∧ start = recordStart keys i
  /-- Every key is in the lookup or among the collisions of one that is. -/
  indexed : ∀ i key, keys[i]? = some key →
    ov.addedLookup.lookup (hash (bytesOf key)) = some (i, recordStart keys i) ∨
      (ov.addedLookup.lookup (hash (bytesOf key)) ≠ none ∧
        (hash (bytesOf key), i, recordStart keys i) ∈ ov.addedCollisions)

theorem arena_new [OverlayBase I] (base : I) : Arena hash (Overlay.new base) [] :=
  ⟨rfl, rfl, by simp, List.nodup_nil, by simp [Overlay.new], by simp [Overlay.new], by simp⟩

theorem recordStart_append {keys later : List String} {i : Nat} (le : i ≤ keys.length) :
    recordStart (keys ++ later) i = recordStart keys i := by
  rw [recordStart, recordStart, List.take_append_of_le_length le]

variable {ov : Overlay I} {keys : List String} (arena : Arena hash ov keys)
include arena

/-- The record that starts where the `i`-th one does is the `i`-th key. -/
theorem Arena.recordAt {i : Nat} {key : String} (listed : keys[i]? = some key) :
    ov.recordAt (recordStart keys i) = some (bytesOf key) := by
  obtain ⟨inside, rfl⟩ := List.getElem?_eq_some_iff.mp listed
  have keySmall := arena.small keys[i] (List.getElem_mem inside)
  have split : ov.addedData = (keys.take i).flatMap record ++
      (record keys[i] ++ (keys.drop (i + 1)).flatMap record) := by
    rw [arena.data]
    conv_lhs => rw [← List.take_append_drop i keys, List.drop_eq_getElem_cons inside]
    rw [List.flatMap_append, List.flatMap_cons]
  have rest : ov.addedData.drop (recordStart keys i) =
      leBytes 4 (bytesOf keys[i]).length ++
        (bytesOf keys[i] ++ (keys.drop (i + 1)).flatMap record) := by
    rw [split, recordStart, List.drop_left, record, List.append_assoc]
  have header : leNat ((ov.addedData.drop (recordStart keys i)).take 4) =
      (bytesOf keys[i]).length := by
    rw [rest, List.take_append_of_le_length (by simp), List.take_of_length_le (by simp),
      leNat_leBytes _ _ (by omega)]
  have length : recordStart keys i + 4 + (bytesOf keys[i]).length ≤ ov.addedData.length := by
    rw [split, recordStart]
    simp only [List.length_append, record, leBytes_length]
    omega
  rw [Overlay.recordAt]
  simp only
  rw [header, if_neg (by omega), if_neg (by omega), rest, List.drop_append_of_le_length (by simp),
    List.drop_of_length_le (by simp), List.nil_append, List.take_left]

theorem Arena.addedKey {i : Nat} (inside : i < keys.length) : ov.addedKey i = keys[i]? := by
  have listed : keys[i]? = some keys[i] := List.getElem?_eq_getElem inside
  have start : ov.addedStarts[i]? = some (recordStart keys i) := by
    rw [arena.starts, List.getElem?_map, List.getElem?_range inside]
    rfl
  rw [Overlay.addedKey, start]
  simp only [Option.bind_eq_bind, Option.bind_some]
  rw [arena.recordAt listed, Option.bind_some, fromUtf8_bytesOf, listed]

/-- The first of some collisions equal to a key, among entries of the arena. -/
theorem Arena.findCollision {h : UInt64} {key : String} :
    ∀ {entries : List (UInt64 × Nat × Nat)},
      (∀ entry ∈ entries, ∃ other, keys[entry.2.1]? = some other ∧
        entry.2.2 = recordStart keys entry.2.1) →
      (∃ i, ov.findCollision h (bytesOf key) entries = some (some i) ∧ keys[i]? = some key) ∨
        (ov.findCollision h (bytesOf key) entries = some none ∧
          ∀ i, keys[i]? = some key → (h, i, recordStart keys i) ∉ entries) := by
  intro entries
  induction entries with
  | nil =>
      intro _
      exact Or.inr ⟨rfl, by simp⟩
  | cons entry rest ih =>
      intro sound
      obtain ⟨hh, i, at_⟩ := entry
      obtain ⟨other, listed, atIs⟩ := sound (hh, i, at_) List.mem_cons_self
      have later := ih fun entry member => sound entry (List.mem_cons_of_mem _ member)
      rw [Overlay.findCollision]
      by_cases sameHash : hh = h
      · rw [if_pos sameHash]
        simp only at listed atIs
        rw [atIs, arena.recordAt listed]
        simp only [Option.bind_eq_bind, Option.bind_some]
        by_cases same : bytesOf other = bytesOf key
        · rw [if_pos same]
          left
          rw [bytesOf_inj same] at listed
          exact ⟨i, rfl, listed⟩
        · rw [if_neg same]
          refine later.imp_right fun none => ⟨none.1, fun j jListed member => ?_⟩
          rcases List.mem_cons.mp member with here | more
          · have jIs : j = i := congrArg (fun entry => entry.2.1) here
            rw [jIs, listed, Option.some.injEq] at jListed
            exact same (by rw [jListed])
          · exact none.2 j jListed more
      · rw [if_neg sameHash]
        refine later.imp_right fun none => ⟨none.1, fun j jListed member => ?_⟩
        rcases List.mem_cons.mp member with here | more
        · exact sameHash (congrArg Prod.fst here).symm
        · exact none.2 j jListed more

/-- The lookup of a key finds it exactly where it is. -/
theorem Arena.addedIndex (key : String) :
    ov.addedIndex hash key = some (if key ∈ keys then some (keys.idxOf key) else none) := by
  have found : ∀ i, keys[i]? = some key →
      (some i : Option Nat) = if key ∈ keys then some (keys.idxOf key) else none := by
    intro i listed
    obtain ⟨inside, rfl⟩ := List.getElem?_eq_some_iff.mp listed
    rw [if_pos (List.getElem_mem inside), arena.nodup.idxOf_getElem i inside]
  have absent : (∀ i : Nat, keys[i]? ≠ some key) →
      (none : Option Nat) = if key ∈ keys then some (keys.idxOf key) else none := by
    intro nowhere
    rw [if_neg]
    intro member
    obtain ⟨i, inside, listed⟩ := List.mem_iff_getElem.mp member
    exact nowhere i (List.getElem?_eq_some_iff.mpr ⟨inside, listed⟩)
  rw [Overlay.addedIndex]
  cases looked : ov.addedLookup.lookup (hash (bytesOf key)) with
  | none =>
      refine congrArg some (absent fun i listed => ?_)
      rcases arena.indexed i key listed with here | ⟨present, _⟩
      · rw [looked] at here
        cases here
      · exact present looked
  | some entry =>
      obtain ⟨first, start⟩ := entry
      obtain ⟨other, listed, _, startIs⟩ := arena.first _ _ _ looked
      simp only
      rw [startIs, arena.recordAt listed]
      simp only [Option.bind_eq_bind, Option.bind_some]
      by_cases same : bytesOf other = bytesOf key
      · rw [if_pos same]
        rw [bytesOf_inj same] at listed
        exact congrArg some (found first listed)
      · rw [if_neg same]
        have sound : ∀ entry ∈ ov.addedCollisions, ∃ other, keys[entry.2.1]? = some other ∧
            entry.2.2 = recordStart keys entry.2.1 :=
          fun entry member => arena.collided entry.1 entry.2.1 entry.2.2 member
        rcases @Arena.findCollision _ _ _ _ arena (hash (bytesOf key)) key _ sound with
          ⟨i, result, iListed⟩ | ⟨result, nowhere⟩
        · rw [result]
          exact congrArg some (found i iListed)
        · rw [result]
          refine congrArg some (absent fun i iListed => ?_)
          rcases arena.indexed i key iListed with here | ⟨_, member⟩
          · rw [looked, Option.some.injEq, Prod.mk.injEq] at here
            rw [here.1, iListed, Option.some.injEq] at listed
            exact same (by rw [listed])
          · exact nowhere i iListed member

/-- What appending a key needs: the three narrowings hold. -/
def Roomy (ov : Overlay I) (key : String) : Prop :=
  ov.addedStarts.length < 2 ^ 32 ∧ ov.addedData.length < 2 ^ 32 ∧ (bytesOf key).length < 2 ^ 32

/-- A fresh key that fits is appended to the arena; one that does not is the source's panic. -/
theorem Arena.pushAdded {key : String} (fresh : key ∉ keys) :
    (¬ Roomy ov key ∧ ov.pushAdded hash key = none) ∨
      ∃ pushed, ov.pushAdded hash key = some (keys.length, pushed) ∧ Roomy ov key ∧
        Arena hash pushed (keys ++ [key]) ∧ pushed.base = ov.base ∧ pushed.dead = ov.dead := by
  have count : ov.addedStarts.length = keys.length := by
    rw [arena.starts, List.length_map, List.length_range]
  by_cases roomy : Roomy ov key
  · right
    have full : ¬ (2 ^ 32 ≤ ov.addedStarts.length ∨ 2 ^ 32 ≤ ov.addedData.length ∨
        2 ^ 32 ≤ (bytesOf key).length) := by
      obtain ⟨startsLt, dataLt, keyLt⟩ := roomy
      omega
    have start : ov.addedData.length = recordStart (keys ++ [key]) keys.length := by
      rw [recordStart, List.take_left, arena.data]
    have earlier : ∀ i other, keys[i]? = some other →
        (keys ++ [key])[i]? = some other ∧ recordStart (keys ++ [key]) i = recordStart keys i := by
      intro i other listed
      obtain ⟨inside, _⟩ := List.getElem?_eq_some_iff.mp listed
      exact ⟨by rw [List.getElem?_append_left inside, listed], recordStart_append (by omega)⟩
    have last : (keys ++ [key])[keys.length]? = some key := by simp
    have data : ov.addedData ++ (leBytes 4 (bytesOf key).length ++ bytesOf key) =
        (keys ++ [key]).flatMap record := by
      rw [arena.data, List.flatMap_append, List.flatMap_singleton, record]
    have starts : ov.addedStarts ++ [ov.addedData.length] =
        (List.range (keys ++ [key]).length).map (recordStart (keys ++ [key])) := by
      rw [arena.starts, start, List.length_append, List.length_singleton, List.range_succ,
        List.map_append, List.map_singleton]
      congr 1
      apply List.map_congr_left
      intro i member
      rw [List.mem_range] at member
      exact (recordStart_append (by omega)).symm
    have small : ∀ other ∈ keys ++ [key], (bytesOf other).length < 2 ^ 32 := by
      intro other member
      rcases List.mem_append.mp member with old | new
      · exact arena.small other old
      · rw [List.mem_singleton.mp new]
        exact roomy.2.2
    have nodup : (keys ++ [key]).Nodup := by
      rw [List.nodup_append]
      refine ⟨arena.nodup, List.nodup_singleton key, ?_⟩
      rintro a aMember b bMember rfl
      rw [List.mem_singleton] at bMember
      exact fresh (bMember ▸ aMember)
    have split : ∀ i other, (keys ++ [key])[i]? = some other →
        keys[i]? = some other ∨ i = keys.length ∧ other = key := by
      intro i other listed
      rw [List.getElem?_append] at listed
      split at listed
      · exact Or.inl listed
      · next past =>
        obtain ⟨inside, exact⟩ := List.getElem?_eq_some_iff.mp listed
        rw [List.length_singleton] at inside
        refine Or.inr ⟨by omega, ?_⟩
        simpa [show i - keys.length = 0 by omega] using exact.symm
    rw [Overlay.pushAdded]
    simp only
    rw [if_neg full, count]
    cases looked : ov.addedLookup.lookup (hash (bytesOf key)) with
    | none =>
        refine ⟨_, rfl, roomy, ⟨data, starts, small, nodup, ?_, ?_, ?_⟩, rfl, rfl⟩
        · intro h i at_ entry
          rw [List.lookup_cons] at entry
          by_cases here : h = hash (bytesOf key)
          · rw [here, beq_self_eq_true] at entry
            simp only [Option.some.injEq, Prod.mk.injEq] at entry
            obtain ⟨rfl, rfl⟩ := entry
            exact ⟨key, last, here.symm, start⟩
          · rw [beq_eq_false_iff_ne.mpr here] at entry
            obtain ⟨other, listed, hashIs, atIs⟩ := arena.first h i at_ entry
            obtain ⟨listedNow, startNow⟩ := earlier i other listed
            exact ⟨other, listedNow, hashIs, by rw [startNow, atIs]⟩
        · intro h i at_ entry
          obtain ⟨other, listed, atIs⟩ := arena.collided h i at_ entry
          obtain ⟨listedNow, startNow⟩ := earlier i other listed
          exact ⟨other, listedNow, by rw [startNow, atIs]⟩
        · intro i other listed
          rcases split i other listed with old | ⟨rfl, rfl⟩
          · rw [(earlier i other old).2, List.lookup_cons]
            have apart : hash (bytesOf other) ≠ hash (bytesOf key) := by
              intro same
              rcases arena.indexed i other old with here | ⟨present, _⟩
              · rw [same, looked] at here
                cases here
              · rw [same] at present
                exact present looked
            rw [beq_eq_false_iff_ne.mpr apart]
            exact arena.indexed i other old
          · rw [List.lookup_cons, beq_self_eq_true]
            exact Or.inl (by rw [start])
    | some entry =>
        refine ⟨_, rfl, roomy, ⟨data, starts, small, nodup, ?_, ?_, ?_⟩, rfl, rfl⟩
        · intro h i at_ found
          obtain ⟨other, listed, hashIs, atIs⟩ := arena.first h i at_ found
          obtain ⟨listedNow, startNow⟩ := earlier i other listed
          exact ⟨other, listedNow, hashIs, by rw [startNow, atIs]⟩
        · intro h i at_ member
          rcases List.mem_append.mp member with old | new
          · obtain ⟨other, listed, atIs⟩ := arena.collided h i at_ old
            obtain ⟨listedNow, startNow⟩ := earlier i other listed
            exact ⟨other, listedNow, by rw [startNow, atIs]⟩
          · rw [List.mem_singleton, Prod.mk.injEq, Prod.mk.injEq] at new
            obtain ⟨-, rfl, rfl⟩ := new
            exact ⟨key, last, start⟩
        · intro i other listed
          rcases split i other listed with old | ⟨rfl, rfl⟩
          · rw [(earlier i other old).2]
            rcases arena.indexed i other old with here | ⟨present, member⟩
            · exact Or.inl here
            · exact Or.inr ⟨present, List.mem_append_left _ member⟩
          · refine Or.inr ⟨?_, ?_⟩
            · change ov.addedLookup.lookup (hash (bytesOf other)) ≠ none
              rw [looked]
              exact Option.some_ne_none entry
            · rw [← start]
              exact List.mem_append_right _ List.mem_cons_self
  · left
    refine ⟨roomy, ?_⟩
    rw [Overlay.pushAdded]
    simp only
    rw [if_pos]
    unfold Roomy at roomy
    omega

end Overlay

end Lexindex
