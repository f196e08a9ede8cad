import Mathlib
import Lexindex.DoubleArray.Labels
import Lexindex.DoubleArray.Matching
import Lexindex.DoubleArray.Safe
import Lexindex.DoubleArray.Slots

/-!
# A placed trie is followed

Where the trie of the keys is placed, the slots of its rows send every walk along it: a label that
is a child's leads to the child's slot, and any other finds a slot that is another row's, or empty.
-/

set_option autoImplicit false

namespace Lexindex.DoubleArray

open DoubleArrayIndex (endsKey continues baseOf idOf)

/-- The trie of the keys, placed. -/
structure Laid (order : List Nat) (K : List (List Char)) (low : Nat) (t : Trie)
    (paths : List (List Nat)) (base : List Nat) : Prop where
  ranks : Ranks order K
  sorted : K.Pairwise (· < ·)
  few : K.length ≤ MAX_KEYS
  narrow : order.length ≤ MAX_ALPHABET
  some_char : ∀ i, low ≤ i → i < K.length → K.getD i [] ≠ []
  bare : ∀ i, i < low → K.getD i [] = []
  trie : TrieOf low (labelled order K) t paths
  placement : Placement t order.length base

/-- The labels of a run of characters. -/
def spellIn (order : List Nat) (u : List Char) : List Nat :=
  u.map fun c => labelIn order c.toNat

theorem spellIn_concat (order : List Nat) (u : List Char) (c : Char) :
    spellIn order (u ++ [c]) = spellIn order u ++ [labelIn order c.toNat] := by
  rw [spellIn, List.map_append]
  rfl

/-- Where the row of a prefix lies. -/
def rowFor (order : List Nat) (paths : List (List Nat)) (base : List Nat) (u : List Char) : Nat :=
  base.getD (paths.idxOf (spellIn order u)) 0

/-- The slots of the array. -/
def slotCount (order base : List Nat) : Nat :=
  if order.length = 0 then 0 else base.foldl max 0 + order.length + 1

/-- The fields a child's slot is written with. -/
structure SlotShape (order : List Nat) (K : List (List Char)) (t : Trie) (base : List Nat)
    (p : List Char) (c : Char) (kid key row : Nat) : Prop where
  label : labelIn order c.toNat < 2 ^ 16
  keyFits : key < 2 ^ 23
  rowFits : row < 2 ^ 23
  keyIs : p ++ [c] ∈ K → key = K.idxOf (p ++ [c])
  rowIs : t.kids kid ≠ [] → row = base.getD kid 0
  slot : slotOf t base kid =
    (labelIn order c.toNat ||| if decide (p ++ [c] ∈ K) then WORD ||| key <<< ID_SHIFT else 0) |||
      if decide (t.kids kid = []) then LEAF else row <<< BASE_SHIFT

namespace Laid

variable {order : List Nat} {K : List (List Char)} {low : Nat} {t : Trie} {paths : List (List Nat)}
  {base : List Nat} (laid : Laid order K low t paths base)
include laid

/-! ## Nodes -/

/-- A key with some prefix that is not empty stands among those of the trie. -/
theorem placeOf {k : List Char} (isKey : k ∈ K) (some_char : k ≠ []) :
    ∃ i, low ≤ i ∧ i < K.length ∧ K.getD i [] = k := by
  obtain ⟨i, inside, rfl⟩ := List.getElem_of_mem isKey
  have here : K.getD i [] = K[i] := List.getD_eq_getElem _ _ inside
  refine ⟨i, ?_, inside, here⟩
  by_contra below
  exact some_char (here ▸ laid.bare i (by omega))

theorem nodup : K.Nodup :=
  laid.sorted.imp fun less => less.ne

theorem known {p k : List Char} (isKey : k ∈ K) (front : p <+: k) : ∀ c ∈ p, c.toNat ∈ order :=
  fun _ member => laid.ranks.mem isKey (front.subset member)

omit laid in
theorem labelsOf (i : Nat) : (labelled order K).getD i [] = spellIn order (K.getD i []) :=
  labelled_getD

theorem nodeCount : t.label.length = paths.length :=
  laid.trie.labels

theorem isNode {v : Nat} {p : List Nat} (path : paths[v]? = some p) : v < t.label.length := by
  rw [laid.nodeCount]
  exact (List.getElem?_eq_some_iff.mp path).1

theorem idxOf_path {v : Nat} {p : List Nat} (path : paths[v]? = some p) : paths.idxOf p = v := by
  obtain ⟨inside, rfl⟩ := List.getElem?_eq_some_iff.mp path
  exact laid.trie.distinct.idxOf_getElem v inside

theorem rowFor_eq {v : Nat} {u : List Char} (path : paths[v]? = some (spellIn order u)) :
    rowFor order paths base u = base.getD v 0 := by
  rw [rowFor, laid.idxOf_path path]

/-- The child that a key goes on to. -/
theorem kid {v : Nat} {u k : List Char} {c : Char} (path : paths[v]? = some (spellIn order u))
    (isKey : k ∈ K) (front : u ++ [c] <+: k) :
    ∃ kid ∈ t.kids v, t.labelOf kid = labelIn order c.toNat ∧
      paths[kid]? = some (spellIn order (u ++ [c])) := by
  have some_char : k ≠ [] := fun bare =>
    List.append_ne_nil_of_right_ne_nil u (List.cons_ne_nil c []) (List.prefix_nil.mp (bare ▸ front))
  obtain ⟨i, above, inside, rfl⟩ := laid.placeOf isKey some_char
  have node := laid.trie.node v _ path
  have count : i < (labelled order K).length := by rwa [labelled, List.length_map]
  have begins : spellIn order u ++ [labelIn order c.toNat] <+: (labelled order K).getD i [] := by
    rw [labelsOf, ← spellIn_concat]
    exact front.map _
  obtain ⟨kid, isKid, label⟩ := List.mem_map.mp (node.complete _ i above count begins)
  refine ⟨kid, isKid, label, ?_⟩
  rw [node.kids kid isKid, label, spellIn_concat]

/-- Every prefix of a key is a node. -/
theorem node {u k : List Char} (isKey : k ∈ K) (front : u <+: k) :
    ∃ v : Nat, paths[v]? = some (spellIn order u) := by
  induction u using List.reverseRecOn with
  | nil => exact ⟨0, laid.trie.root⟩
  | append_singleton u c ih =>
      obtain ⟨v, path⟩ := ih ((List.prefix_append u [c]).trans front)
      obtain ⟨kid, -, -, path'⟩ := laid.kid path isKey front
      exact ⟨kid, path'⟩

theorem innerNode {u : List Char} (inner : Inner K u) : ∃ v : Nat, paths[v]? = some (spellIn order u) := by
  rcases inner with rfl | ⟨k, isKey, front, -⟩
  · exact ⟨0, laid.trie.root⟩
  · exact laid.node isKey front

/-- A node's path is the labels of some key's prefix. -/
theorem path_prefix {v : Nat} {p : List Nat} (path : paths[v]? = some p) (some_label : p ≠ []) :
    ∃ k ∈ K, p <+: spellIn order k := by
  have named := laid.trie.named p (List.mem_of_getElem? path)
  rcases mem_prefixes.mp named with bare | ⟨i, inside, front⟩
  · exact absurd bare some_label
  · rw [labelled, List.length_map] at inside
    rw [labelsOf] at front
    exact ⟨_, getD_mem inside, front⟩

/-- A child's label is that of the character its path ends with. -/
theorem kidChar {w kid : Nat} (isNode : w < t.label.length) (isKid : kid ∈ t.kids w) :
    ∃ p c k, k ∈ K ∧ p ++ [c] <+: k ∧ t.labelOf kid = labelIn order c.toNat ∧
      paths[kid]? = some (spellIn order (p ++ [c])) := by
  have path : paths[w]? = some (paths.getD w []) := by
    rw [laid.nodeCount] at isNode
    rw [List.getElem?_eq_getElem isNode, List.getD_eq_getElem _ _ isNode]
  have path' := (laid.trie.node w _ path).kids kid isKid
  obtain ⟨k, isKey, begins⟩ := laid.path_prefix path' (by simp)
  -- The labels of the child are those of some characters.
  obtain ⟨q, front, spelled⟩ := List.prefix_map_iff.mp begins
  rcases List.eq_nil_or_concat q with rfl | ⟨p, c, rfl⟩
  · simp at spelled
  rw [List.concat_eq_append] at spelled front
  obtain ⟨-, labelIs⟩ := List.append_inj' (spelled.trans (spellIn_concat order p c)) rfl
  rw [List.cons.injEq] at labelIs
  exact ⟨p, c, k, isKey, front, labelIs.1, path'.trans (congrArg some spelled)⟩

/-- The key a node's word is. -/
theorem word {v : Nat} {p k : List Char} (path : paths[v]? = some (spellIn order p)) (some_char : p ≠ [])
    (isKey : k ∈ K) (front : p <+: k) : t.wordOf v = if p ∈ K then K.idxOf p else NO_WORD := by
  obtain ⟨here, absent⟩ := (laid.trie.node v _ path).word
  have known := laid.known isKey front
  by_cases whole : p ∈ K
  · rw [if_pos whole]
    obtain ⟨i, above, inside, exact⟩ := laid.placeOf whole some_char
    have place : K.idxOf p = i := by
      rw [← exact, List.getD_eq_getElem _ _ inside]
      exact laid.nodup.idxOf_getElem i inside
    rw [place]
    refine here i above (by rwa [labelled, List.length_map]) ?_
    rw [labelsOf, exact]
  · rw [if_neg whole]
    refine absent fun i _ inside same => whole ?_
    rw [labelled, List.length_map] at inside
    rw [labelsOf] at same
    rw [eq_of_labels known same.symm]
    exact getD_mem inside

/-- A node has children where a key goes on from it. -/
theorem kids_iff {v : Nat} {p k : List Char} (path : paths[v]? = some (spellIn order p))
    (isKey : k ∈ K) (front : p <+: k) :
    t.kids v ≠ [] ↔ ∃ k ∈ K, p <+: k ∧ p ≠ k := by
  have known := laid.known isKey front
  constructor
  · intro some_kid
    obtain ⟨kid, isKid⟩ := List.exists_mem_of_ne_nil _ some_kid
    have path' := (laid.trie.node v _ path).kids kid isKid
    obtain ⟨other, isKey', begins⟩ := laid.path_prefix path' (by simp)
    have size := begins.length_le
    rw [List.length_append, List.length_singleton, spellIn, spellIn, List.length_map,
      List.length_map] at size
    refine ⟨other, isKey', prefix_of_labels known ((List.prefix_append _ _).trans begins), ?_⟩
    rintro rfl
    omega
  · rintro ⟨other, isKey', ⟨rest, rfl⟩, longer⟩
    cases rest with
    | nil => exact absurd (List.append_nil p).symm longer
    | cons c rest =>
        obtain ⟨kid, isKid, -⟩ := laid.kid (c := c) path isKey' ⟨rest, by simp⟩
        exact List.ne_nil_of_mem isKid

/-! ## Slots -/

omit laid in
theorem base_le (v : Nat) : base.getD v 0 ≤ base.foldl max 0 := by
  rw [List.getD_eq_getElem?_getD]
  cases read : base[v]? with
  | none => exact Nat.zero_le _
  | some b => exact le_foldl_max (.inr (List.mem_of_getElem? read))

omit laid in
/-- A label's slot in a row is inside the array. -/
theorem slot_inside {cp : Nat} (known : cp ∈ order) (v : Nat) :
    base.getD v 0 + labelIn order cp < slotCount order base := by
  have some_order : order.length ≠ 0 := fun none_ =>
    List.ne_nil_of_mem known (List.eq_nil_of_length_eq_zero none_)
  have most : base.getD v 0 ≤ base.foldl max 0 := base_le v
  have label := labelIn_le order cp
  rw [slotCount, if_neg some_order]
  omega

theorem slotShape {kid : Nat} {p k : List Char} {c : Char}
    (path : paths[kid]? = some (spellIn order (p ++ [c]))) (isKey : k ∈ K) (front : p ++ [c] <+: k)
    (label : t.labelOf kid = labelIn order c.toNat) :
    ∃ key row, SlotShape order K t base p c kid key row := by
  have some_char : p ++ [c] ≠ [] := List.append_ne_nil_of_right_ne_nil p (List.cons_ne_nil c [])
  have word := laid.word path some_char isKey front
  have few := laid.few
  have narrow := laid.narrow
  have small : labelIn order c.toNat < 2 ^ 16 := by
    have label := labelIn_le order c.toNat
    rw [MAX_ALPHABET, LABEL_MASK] at narrow
    omega
  have place : p ++ [c] ∈ K → K.idxOf (p ++ [c]) < 2 ^ 23 := fun whole => by
    have inside := List.idxOf_lt_length_iff.mpr whole
    rw [show MAX_KEYS = 2 ^ 23 by decide] at few
    omega
  have isWord : t.wordOf kid ≠ NO_WORD ↔ p ++ [c] ∈ K := by
    rw [word]
    by_cases whole : p ++ [c] ∈ K
    · have inside := place whole
      rw [if_pos whole, NO_WORD]
      exact ⟨fun _ => whole, fun _ => by omega⟩
    · rw [if_neg whole]
      exact ⟨fun other => absurd rfl other, fun other => absurd other whole⟩
  have rowFits : t.kids kid ≠ [] → base.getD kid 0 < 2 ^ 23 := fun some_kid => by
    have fits := laid.placement.fits kid (laid.isNode path) (.inr some_kid)
    rw [show MAX_SLOTS = 2 ^ 23 by decide] at fits
    omega
  refine ⟨if p ++ [c] ∈ K then K.idxOf (p ++ [c]) else 0, if t.kids kid = [] then 0 else base.getD kid 0,
    small, ?_, ?_, fun whole => if_pos whole, fun some_kid => if_neg some_kid, ?_⟩
  · split <;> simp_all
  · split <;> simp_all
  · rw [slotOf, label]
    by_cases whole : p ++ [c] ∈ K
    · have named : t.wordOf kid = K.idxOf (p ++ [c]) := word.trans (if_pos whole)
      have isId := isWord.mpr whole
      rw [named] at isId ⊢
      by_cases leaf : t.kids kid = [] <;> simp [whole, leaf, isId]
    · have named : t.wordOf kid = NO_WORD := word.trans (if_neg whole)
      by_cases leaf : t.kids kid = [] <;> simp [whole, leaf, named]

/-- The slot of a child says what the child is. -/
theorem slotFor {kid : Nat} {p k : List Char} {c : Char}
    (path : paths[kid]? = some (spellIn order (p ++ [c]))) (isKey : k ∈ K) (front : p ++ [c] <+: k)
    (label : t.labelOf kid = labelIn order c.toNat) :
    slotOf t base kid &&& LABEL_MASK = labelIn order c.toNat ∧
      SlotFor K (rowFor order paths base) (p ++ [c]) (slotOf t base kid) ∧
      slotOf t base kid < 2 ^ 64 := by
  have some_char : p ++ [c] ≠ [] := List.append_ne_nil_of_right_ne_nil p (List.cons_ne_nil c [])
  have inner := laid.kids_iff path isKey front
  obtain ⟨key, row, shape⟩ := laid.slotShape path isKey front label
  obtain ⟨labels, ends, goesOn, idIs, rowIs, word64⟩ :=
    slot_fields shape.label shape.keyFits shape.rowFits shape.slot
  refine ⟨labels, ⟨?_, fun atEnd => ?_, ?_, fun further => ?_⟩, word64⟩
  · rw [ends, decide_eq_true_iff]
  · have whole : p ++ [c] ∈ K := of_decide_eq_true (ends ▸ atEnd)
    rw [idIs (decide_eq_true whole), shape.keyIs whole]
  · rw [goesOn, Bool.not_eq_true', decide_eq_false_iff_not]
    refine inner.trans ⟨.inr, fun either => ?_⟩
    exact either.resolve_left some_char
  · rw [goesOn, Bool.not_eq_true', decide_eq_false_iff_not] at further
    rw [rowIs (decide_eq_false further), shape.rowIs further, laid.rowFor_eq path]

section Array

variable {idx : DoubleArrayIndex} (slots : idx.slots = slotsOf t base (slotCount order base))
  (labels : ∀ cp, idx.label cp = labelIn order cp)
include slots labels

theorem taken {u k : List Char} {c : Char} (inner : Inner K u) (isKey : k ∈ K) (front : u ++ [c] <+: k) :
    ∃ v, idx.step (rowFor order paths base u) (idx.label c.toNat) = some (some v) ∧
      SlotFor K (rowFor order paths base) (u ++ [c]) v := by
  obtain ⟨v, path⟩ := laid.innerNode inner
  obtain ⟨kid, isKid, label, path'⟩ := laid.kid path isKey front
  have known : c.toNat ∈ order := laid.known isKey front c (by simp)
  obtain ⟨own, slot, -⟩ := laid.slotFor path' isKey front label
  refine ⟨slotOf t base kid, ?_, slot⟩
  have held := (slotsOf_spec laid.trie laid.placement (slot_inside known v)).1 v kid
    (laid.isNode path) isKid (by rw [label])
  rw [DoubleArrayIndex.step, slots, laid.rowFor_eq path, labels, held, Option.map_some, own, if_pos rfl]

/-- A slot that answers a label is a child's of the row asked. -/
theorem missed {u : List Char} {c : Char} (inner : Inner K u) (absent : ¬ Extends K (u ++ [c]))
    (known : c.toNat ∈ order) :
    idx.step (rowFor order paths base u) (idx.label c.toNat) = some none := by
  obtain ⟨v, path⟩ := laid.innerNode inner
  have inside : base.getD v 0 + labelIn order c.toNat < slotCount order base := slot_inside known v
  have some_label : labelIn order c.toNat ≠ 0 := labelIn_ne_zero.mpr known
  obtain ⟨written, empty⟩ := slotsOf_spec laid.trie laid.placement inside
  rw [DoubleArrayIndex.step, slots, laid.rowFor_eq path, labels]
  by_cases some_child : ∃ w kid, w < t.label.length ∧ kid ∈ t.kids w ∧
      base.getD v 0 + labelIn order c.toNat = base.getD w 0 + t.labelOf kid
  · obtain ⟨w, kid, isNode, isKid, at_⟩ := some_child
    obtain ⟨p', c', k, isKey, front, labelIs, path'⟩ := laid.kidChar isNode isKid
    obtain ⟨own, -⟩ := laid.slotFor path' isKey front labelIs
    rw [written w kid isNode isKid at_, Option.map_some, own, if_neg]
    intro same
    -- The child's label is the one asked for, so its row lies where the one asked does.
    have rows : w = v := by
      by_contra other
      have vRow : v = 0 ∨ t.kids v ≠ [] := by
        rcases inner with rfl | ⟨other, isKey', front', longer⟩
        · exact .inl ((laid.idxOf_path path).symm.trans (laid.idxOf_path laid.trie.root))
        · exact .inr ((laid.kids_iff path isKey' front').mpr ⟨other, isKey', front', longer⟩)
      have apart := (laid.placement.apart w v isNode (laid.isNode path) (.inr (List.ne_nil_of_mem isKid))
        vRow other).bases
      exact apart (by omega)
    subst rows
    have samePath : spellIn order u = spellIn order p' := by
      have longer := (laid.trie.node w _ path).kids kid isKid
      rw [path', Option.some.injEq, spellIn_concat] at longer
      exact (List.append_inj' longer rfl).1.symm
    have keyKnown := laid.known isKey front
    have sameChars : p' = u := eq_of_labels (fun c member => keyKnown c (by simp [member])) samePath.symm
    have sameChar : c' = c := label_inj (keyKnown c' (by simp)) same
    exact absent ⟨k, isKey, sameChars ▸ sameChar ▸ front⟩
  · rw [empty fun w kid isNode isKid at_ => some_child ⟨w, kid, isNode, isKid, at_⟩, Option.map_some,
      if_neg]
    rw [Nat.zero_and]
    exact fun same => some_label same.symm

/-- The array follows the trie of the keys. -/
theorem follows (empty : idx.empty = if [] ∈ K then some (K.idxOf []) else none) :
    Follows idx K (rowFor order paths base) := by
  have narrow := laid.narrow
  refine ⟨?_, fun cp => ?_, fun u c inner goes => ?_, fun u c inner absent => ?_, empty⟩
  · exact (laid.rowFor_eq (u := []) laid.trie.root).trans laid.placement.root
  · have label := labelIn_le order cp
    rw [MAX_ALPHABET, LABEL_MASK] at narrow
    rw [labels]
    omega
  · obtain ⟨k, isKey, front⟩ := goes
    refine ⟨?_, laid.taken slots labels inner isKey front⟩
    rw [labels]
    exact labelIn_ne_zero.mpr (laid.known isKey front c (by simp))
  · by_cases known : c.toNat ∈ order
    · exact .inr (laid.missed slots labels inner absent known)
    · refine .inl ?_
      rw [labels, labelIn, if_neg known]

end Array

end Laid

end Lexindex.DoubleArray
