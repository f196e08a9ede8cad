import Mathlib
import Lexindex.DoubleArray.Walk

/-!
# What the walks answer

An index that follows the trie of its keys, a row for every prefix a key goes on from,
answers every query from the keys alone.
-/

set_option autoImplicit false

namespace Lexindex.DoubleArray

open DoubleArrayIndex (endsKey continues baseOf idOf)

/-- Some key starts with `p`. -/
def Extends (K : List (List Char)) (p : List Char) : Prop :=
  ∃ k ∈ K, p <+: k

/-- Some key goes on from `p`; a walk starts at the root in any case. -/
def Inner (K : List (List Char)) (p : List Char) : Prop :=
  p = [] ∨ ∃ k ∈ K, p <+: k ∧ p ≠ k

/-- The slot `v` is that of the prefix `p`. -/
structure SlotFor (K : List (List Char)) (row : List Char → Nat) (p : List Char) (v : Nat) :
    Prop where
  ends : endsKey v = true ↔ p ∈ K
  id : endsKey v = true → idOf v = K.idxOf p
  inner : continues v = true ↔ Inner K p
  base : continues v = true → baseOf v = row p

/-- An index whose rows are the trie of the keys `K`, each key's id its place among them. -/
structure Follows (idx : DoubleArrayIndex) (K : List (List Char)) (row : List Char → Nat) : Prop
    where
  root : row [] = 0
  labels : ∀ cp, idx.label cp < 2 ^ 16
  taken : ∀ u c, Inner K u → Extends K (u ++ [c]) → idx.label c.toNat ≠ 0 ∧
    ∃ v, idx.step (row u) (idx.label c.toNat) = some (some v) ∧ SlotFor K row (u ++ [c]) v
  missed : ∀ u c, Inner K u → ¬ Extends K (u ++ [c]) →
    idx.label c.toNat = 0 ∨ idx.step (row u) (idx.label c.toNat) = some none
  empty : idx.empty = if [] ∈ K then some (K.idxOf []) else none

/-- A key's place. -/
def placeIn (K : List (List Char)) (w : List Char) : Option Nat :=
  if w ∈ K then some (K.idxOf w) else none

/-- The keys that are `u` and some of the characters after it, shortest first. -/
def matchesAfter (K : List (List Char)) (u chars : List Char) : List (List Char) :=
  (chars.inits.tail.map (u ++ ·)).filter (· ∈ K)

section Keys

variable {K : List (List Char)} {u rest : List Char} {c : Char}

theorem inits_eq (chars : List Char) : chars.inits = [] :: chars.inits.tail := by
  cases chars <;> rfl

theorem matchesAfter_nil (K : List (List Char)) (u : List Char) : matchesAfter K u [] = [] :=
  rfl

theorem matchesAfter_cons (K : List (List Char)) (u rest : List Char) (c : Char) :
    matchesAfter K u (c :: rest) =
      (if u ++ [c] ∈ K then [u ++ [c]] else []) ++ matchesAfter K (u ++ [c]) rest := by
  have tails : (c :: rest).inits.tail = [c] :: rest.inits.tail.map (c :: ·) := by
    change rest.inits.map (c :: ·) = _
    rw [inits_eq rest]
    rfl
  have longer : (rest.inits.tail.map (c :: ·)).map (u ++ ·) = rest.inits.tail.map (u ++ [c] ++ ·) := by
    rw [List.map_map]
    refine List.map_congr_left fun t _ => ?_
    simp
  rw [matchesAfter, matchesAfter, tails, List.map_cons, longer]
  by_cases isKey : u ++ [c] ∈ K
  · rw [List.filter_cons_of_pos (by simpa using isKey), if_pos isKey]
    rfl
  · rw [List.filter_cons_of_neg (by simpa using isKey), if_neg isKey]
    rfl

theorem mem_matchesAfter {chars k : List Char} :
    k ∈ matchesAfter K u chars ↔ k ∈ K ∧ ∃ t, t ≠ [] ∧ t <+: chars ∧ k = u ++ t := by
  rw [matchesAfter, List.mem_filter, List.mem_map]
  have tails (t : List Char) : t ∈ chars.inits.tail ↔ t ≠ [] ∧ t <+: chars := by
    have whole := List.mem_inits t chars
    rw [inits_eq, List.mem_cons] at whole
    constructor
    · intro member
      refine ⟨?_, whole.mp (.inr member)⟩
      intro bare
      cases chars with
      | nil => exact List.not_mem_nil member
      | cons c chars =>
          obtain ⟨s, -, same⟩ := List.mem_map.mp member
          rw [bare] at same
          cases same
    · rintro ⟨some_char, before⟩
      exact (whole.mpr before).resolve_left some_char
  simp only [tails, decide_eq_true_eq]
  constructor
  · rintro ⟨⟨t, ⟨some_char, before⟩, rfl⟩, isKey⟩
    exact ⟨isKey, t, some_char, before, rfl⟩
  · rintro ⟨isKey, t, some_char, before, rfl⟩
    exact ⟨⟨t, ⟨some_char, before⟩, rfl⟩, isKey⟩

/-- No key starts with what was read, so none matches from here. -/
theorem matchesAfter_missed (absent : ¬ Extends K (u ++ [c])) :
    matchesAfter K u (c :: rest) = [] := by
  refine List.eq_nil_iff_forall_not_mem.mpr fun k member => ?_
  obtain ⟨isKey, t, some_char, ⟨after, before⟩, rfl⟩ := mem_matchesAfter.mp member
  cases t with
  | nil => exact some_char rfl
  | cons d t =>
      rw [List.cons_append, List.cons.injEq] at before
      obtain ⟨rfl, -⟩ := before
      exact absent ⟨_, isKey, t, by simp⟩

/-- No key goes on from what was read, so none longer matches. -/
theorem matchesAfter_leaf {p chars : List Char} (leaf : ¬ Inner K p) : matchesAfter K p chars = [] := by
  refine List.eq_nil_iff_forall_not_mem.mpr fun k member => ?_
  obtain ⟨isKey, t, some_char, -, rfl⟩ := mem_matchesAfter.mp member
  refine leaf (.inr ⟨_, isKey, List.prefix_append p t, fun same => some_char ?_⟩)
  exact List.self_eq_append_right.mp same

end Keys

namespace Follows

variable {idx : DoubleArrayIndex} {K : List (List Char)} {row : List Char → Nat}

theorem idWalk (follows : Follows idx K row) (chars u : List Char) (some_left : chars ≠ [])
    (inner : Inner K u) : idx.idWalk chars (row u) = some (placeIn K (u ++ chars)) := by
  induction chars generalizing u with
  | nil => exact absurd rfl some_left
  | cons c rest ih =>
      have joined : u ++ c :: rest = u ++ [c] ++ rest := by simp
      rw [DoubleArrayIndex.idWalk]
      by_cases goes : Extends K (u ++ [c])
      · obtain ⟨labelled, v, read, slot⟩ := follows.taken u c inner goes
        rw [if_neg labelled, read, Option.bind_some]
        simp only
        by_cases last : rest = []
        · rw [if_pos last, last, placeIn]
          by_cases isKey : u ++ [c] ∈ K
          · rw [if_pos (slot.ends.mpr isKey), slot.id (slot.ends.mpr isKey), if_pos isKey]
          · rw [if_neg fun ends => isKey (slot.ends.mp ends), if_neg isKey]
        · rw [if_neg last]
          by_cases goesOn : continues v = true
          · rw [if_pos goesOn, slot.base goesOn, ih _ last (slot.inner.mp goesOn), joined]
          · have absent : u ++ c :: rest ∉ K := fun isKey =>
              goesOn (slot.inner.mpr (.inr ⟨_, isKey, ⟨rest, joined.symm⟩, fun same =>
                last (List.self_eq_append_right.mp (same.trans joined))⟩))
            rw [if_neg goesOn, placeIn, if_neg absent]
      · have absent : u ++ c :: rest ∉ K := fun isKey =>
          goes ⟨_, isKey, rest, joined.symm⟩
        rw [placeIn, if_neg absent]
        rcases follows.missed u c inner goes with unlabelled | missed
        · rw [if_pos unlabelled]
        · split
          · rfl
          · rw [missed, Option.bind_some]

theorem prefixWalk (follows : Follows idx K row) (chars u : List Char) (inner : Inner K u) :
    idx.prefixWalk chars (u.flatMap String.utf8EncodeChar).length (row u) =
      some ((matchesAfter K u chars).map fun k =>
        ((k.flatMap String.utf8EncodeChar).length, K.idxOf k)) := by
  induction chars generalizing u with
  | nil => rfl
  | cons c rest ih =>
      rw [DoubleArrayIndex.prefixWalk]
      by_cases goes : Extends K (u ++ [c])
      · obtain ⟨labelled, v, read, slot⟩ := follows.taken u c inner goes
        have after : (u.flatMap String.utf8EncodeChar).length + (String.utf8EncodeChar c).length =
            ((u ++ [c]).flatMap String.utf8EncodeChar).length := by
          rw [List.flatMap_append, List.flatMap_singleton, List.length_append]
        rw [if_neg labelled, read, Option.bind_some, matchesAfter_cons, List.map_append]
        simp only [after]
        have found : (if endsKey v = true then
              [(((u ++ [c]).flatMap String.utf8EncodeChar).length, idOf v)] else []) =
            (if u ++ [c] ∈ K then [u ++ [c]] else []).map fun k =>
              ((k.flatMap String.utf8EncodeChar).length, K.idxOf k) := by
          by_cases isKey : u ++ [c] ∈ K
          · rw [if_pos (slot.ends.mpr isKey), slot.id (slot.ends.mpr isKey), if_pos isKey]
            rfl
          · rw [if_neg fun ends => isKey (slot.ends.mp ends), if_neg isKey]
            rfl
        rw [found]
        by_cases goesOn : continues v = true
        · rw [if_pos goesOn, slot.base goesOn, ih _ (slot.inner.mp goesOn), Option.map_some]
        · rw [if_neg goesOn, matchesAfter_leaf fun inner => goesOn (slot.inner.mpr inner),
            List.map_nil, List.append_nil]
      · rw [matchesAfter_missed goes]
        rcases follows.missed u c inner goes with unlabelled | missed
        · rw [if_pos unlabelled]
          rfl
        · split
          · rfl
          · rw [missed, Option.bind_some]
            rfl

theorem matchesFrom (follows : Follows idx K row) (chars u : List Char) (p : Nat)
    (inner : Inner K u) :
    idx.matchesFrom ((chars.map fun c => idx.label c.toNat % 2 ^ 16) ++ [0]) (p + u.length)
        (row u) =
      some ((matchesAfter K u chars).map fun k => (p + k.length, K.idxOf k)) := by
  induction chars generalizing u with
  | nil => rfl
  | cons c rest ih =>
      rw [List.map_cons, List.cons_append, DoubleArrayIndex.matchesFrom,
        Nat.mod_eq_of_lt (follows.labels _)]
      by_cases goes : Extends K (u ++ [c])
      · obtain ⟨labelled, v, read, slot⟩ := follows.taken u c inner goes
        have after : p + u.length + 1 = p + (u ++ [c]).length := by
          rw [List.length_append, List.length_singleton, Nat.add_assoc]
        rw [if_neg labelled, read, Option.bind_some, matchesAfter_cons, List.map_append]
        simp only [after]
        have found : (if endsKey v = true then [(p + (u ++ [c]).length, idOf v)] else []) =
            (if u ++ [c] ∈ K then [u ++ [c]] else []).map fun k => (p + k.length, K.idxOf k) := by
          by_cases isKey : u ++ [c] ∈ K
          · rw [if_pos (slot.ends.mpr isKey), slot.id (slot.ends.mpr isKey), if_pos isKey]
            rfl
          · rw [if_neg fun ends => isKey (slot.ends.mp ends), if_neg isKey]
            rfl
        rw [found]
        by_cases goesOn : continues v = true
        · rw [if_pos goesOn, slot.base goesOn, ih _ (slot.inner.mp goesOn), Option.map_some]
        · rw [if_neg goesOn, matchesAfter_leaf fun inner => goesOn (slot.inner.mpr inner),
            List.map_nil, List.append_nil]
      · rw [matchesAfter_missed goes]
        rcases follows.missed u c inner goes with unlabelled | missed
        · rw [if_pos unlabelled]
          rfl
        · split
          · rfl
          · rw [missed, Option.bind_some]
            rfl

end Follows

end Lexindex.DoubleArray
