import Mathlib
import Lexindex.DoubleArray.ReadBack
import Lexindex.DoubleArray.Placed
import Lexindex.DoubleArray.TrieBuilt

/-!
# The slots of a placed trie

Every child's slot is written once, and says its label, its key, whether it has children
and where they lie; every other slot is empty.
-/

set_option autoImplicit false

namespace Lexindex.DoubleArray

open DoubleArrayIndex (endsKey continues baseOf idOf)

section Writes

/-- The writes of a list, in order. -/
def writes (slots : List Nat) (entries : List (Nat × Nat)) : List Nat :=
  entries.foldl (fun slots e => slots.set e.1 e.2) slots

theorem writes_length (slots : List Nat) (entries : List (Nat × Nat)) :
    (writes slots entries).length = slots.length := by
  induction entries generalizing slots with
  | nil => rfl
  | cons e entries ih => exact (ih _).trans List.length_set

/-- A slot the writes agree on holds what they say. -/
theorem writes_getElem? {slots : List Nat} {entries : List (Nat × Nat)} {i : Nat}
    (inside : i < slots.length)
    (agree : ∀ x y, (i, x) ∈ entries → (i, y) ∈ entries → x = y) :
    (∀ x, (i, x) ∈ entries → (writes slots entries)[i]? = some x) ∧
      ((∀ x, (i, x) ∉ entries) → (writes slots entries)[i]? = slots[i]?) := by
  induction entries generalizing slots with
  | nil => exact ⟨fun x member => absurd member List.not_mem_nil, fun _ => rfl⟩
  | cons e entries ih =>
      obtain ⟨later, untouched⟩ := @ih (slots.set e.1 e.2) (by rw [List.length_set]; exact inside)
        fun x y xIn yIn => agree x y (List.mem_cons_of_mem _ xIn) (List.mem_cons_of_mem _ yIn)
      refine ⟨fun x member => ?_, fun absent => ?_⟩
      · by_cases again : ∃ y, (i, y) ∈ entries
        · obtain ⟨y, yIn⟩ := again
          rw [agree x y member (List.mem_cons_of_mem _ yIn)]
          exact later y yIn
        · have first : e = (i, x) :=
            ((List.mem_cons.mp member).resolve_right fun yIn => again ⟨x, yIn⟩).symm
          refine (untouched fun y yIn => again ⟨y, yIn⟩).trans ?_
          rw [first, List.getElem?_set_self inside]
      · have other : e.1 ≠ i := fun same => absent e.2 (by
          rw [← same]
          exact List.mem_cons_self)
        refine (untouched fun x member => absent x (List.mem_cons_of_mem _ member)).trans ?_
        rw [List.getElem?_set_ne other]

end Writes

section Fields

theorem shiftRight_small {x k : Nat} (small : x < 2 ^ k) : x >>> k = 0 := by
  rw [Nat.shiftRight_eq_div_pow, Nat.div_eq_of_lt small]

theorem shiftLeft_and_small {x k mask : Nat} (small : mask < 2 ^ k) : x <<< k &&& mask = 0 := by
  refine Nat.eq_of_testBit_eq fun i => ?_
  rw [Nat.testBit_and, Nat.testBit_shiftLeft, Nat.zero_testBit]
  by_cases low : i < k
  · have notAbove : ¬ k ≤ i := by omega
    simp [notAbove]
  · have clear := Nat.testBit_lt_two_pow (Nat.lt_of_lt_of_le small
      (Nat.pow_le_pow_right (by decide) (Nat.le_of_not_lt low)))
    simp [clear]

theorem small_and_shiftLeft {x k : Nat} (small : x < 2 ^ k) (m : Nat) : x &&& m <<< k = 0 := by
  rw [Nat.and_comm]
  exact shiftLeft_and_small small

/-- The fields of a slot: the label, the key's id if one ends there, the base of the children if
any. -/
theorem slot_fields {label id base : Nat} {word leaf : Bool} (labelFits : label < 2 ^ 16)
    (idFits : id < 2 ^ 23) (baseFits : base < 2 ^ 23) {v : Nat}
    (slot : v = (label ||| if word then WORD ||| id <<< ID_SHIFT else 0) |||
      if leaf then LEAF else base <<< BASE_SHIFT) :
    v &&& LABEL_MASK = label ∧ endsKey v = word ∧ continues v = !leaf ∧
      (word = true → idOf v = id) ∧ (leaf = false → baseOf v = base) ∧ v < 2 ^ 64 := by
  have labelLow : label < 2 ^ 18 := by omega
  have labelId : label < 2 ^ 41 := by omega
  have labelMask : label &&& LABEL_MASK = label := by
    rw [LABEL_MASK, show (0xFFFF : Nat) = 2 ^ 16 - 1 from rfl, Nat.and_two_pow_sub_one_eq_mod,
      Nat.mod_eq_of_lt labelFits]
  have baseMask : base &&& BASE_MASK = base := by
    rw [show BASE_MASK = 2 ^ 23 - 1 from rfl, Nat.and_two_pow_sub_one_eq_mod,
      Nat.mod_eq_of_lt baseFits]
  have idMask : id <<< 23 &&& BASE_MASK = 0 := shiftLeft_and_small (by decide)
  have wordMask : WORD &&& LABEL_MASK = 0 := by decide
  have leafMask : LEAF &&& LABEL_MASK = 0 := by decide
  have wordWord : WORD &&& WORD = WORD := by decide
  have leafWord : LEAF &&& WORD = 0 := by decide
  have wordLeaf : WORD &&& LEAF = 0 := by decide
  have leafLeaf : LEAF &&& LEAF = LEAF := by decide
  have wordBase : WORD >>> 18 = 0 := by decide
  have wordId : WORD >>> 41 = 0 := by decide
  have leafBase : LEAF >>> 18 = 0 := by decide
  have leafId : LEAF >>> 41 = 0 := by decide
  have labelWord : label &&& WORD = 0 := small_and_shiftLeft labelFits 1
  have labelLeaf : label &&& LEAF = 0 :=
    small_and_shiftLeft (Nat.lt_trans labelFits (by decide)) 1
  have idLabel : id <<< 41 &&& LABEL_MASK = 0 := shiftLeft_and_small (by decide)
  have idWord : id <<< 41 &&& WORD = 0 := shiftLeft_and_small (by decide)
  have idLeaf : id <<< 41 &&& LEAF = 0 := shiftLeft_and_small (by decide)
  have baseLabel : base <<< 18 &&& LABEL_MASK = 0 := shiftLeft_and_small (by decide)
  have baseWord : base <<< 18 &&& WORD = 0 := shiftLeft_and_small (by decide)
  have baseLeaf : base <<< 18 &&& LEAF = 0 := shiftLeft_and_small (by decide)
  have baseId : (base <<< 18) >>> 41 = 0 :=
    shiftRight_small (by rw [Nat.shiftLeft_eq]; omega)
  have baseBase : (base <<< 18) >>> 18 = base := Nat.shiftLeft_shiftRight ..
  have idId : (id <<< 41) >>> 41 = id := Nat.shiftLeft_shiftRight ..
  have idBase : (id <<< 41) >>> 18 = id <<< 23 := by
    rw [show (41 : Nat) = 23 + 18 from rfl, Nat.shiftLeft_add, Nat.shiftLeft_shiftRight]
  have size : v < 2 ^ 64 := by
    rw [slot]
    have idSize : id <<< 41 < 2 ^ 64 := by
      rw [Nat.shiftLeft_eq]
      omega
    have baseSize : base <<< 18 < 2 ^ 64 := by
      rw [Nat.shiftLeft_eq]
      omega
    refine Nat.or_lt_two_pow (Nat.or_lt_two_pow (by omega) ?_) ?_
    · cases word
      · exact Nat.two_pow_pos 64
      · exact Nat.or_lt_two_pow (by decide) idSize
    · cases leaf
      · exact baseSize
      · exact show LEAF < 2 ^ 64 by decide
  refine ⟨?_, ?_, ?_, ?_, ?_, size⟩
  · rw [slot, Nat.and_or_distrib_right, Nat.and_or_distrib_right, labelMask]
    cases word <;> cases leaf <;>
      simp [Nat.and_or_distrib_right, ID_SHIFT, BASE_SHIFT, BASE_BITS, wordMask, leafMask, idLabel,
        baseLabel]
  · rw [endsKey, slot, Nat.and_or_distrib_right, Nat.and_or_distrib_right, labelWord]
    cases word <;> cases leaf <;>
      simp [Nat.and_or_distrib_right, ID_SHIFT, BASE_SHIFT, BASE_BITS, wordWord, leafWord, idWord,
        baseWord] <;> decide
  · rw [continues, slot, Nat.and_or_distrib_right, Nat.and_or_distrib_right, labelLeaf]
    cases word <;> cases leaf <;>
      simp [Nat.and_or_distrib_right, ID_SHIFT, BASE_SHIFT, BASE_BITS, wordLeaf, leafLeaf, idLeaf,
        baseLeaf] <;> decide
  · intro ends
    rw [idOf, slot, ends, if_pos rfl, Nat.shiftRight_or_distrib, Nat.shiftRight_or_distrib,
      Nat.shiftRight_or_distrib, show ID_SHIFT = 41 from rfl, shiftRight_small labelId, wordId, idId]
    cases leaf <;> simp [BASE_SHIFT, leafId, baseId]
  · intro inner
    rw [baseOf, slot, inner, Nat.shiftRight_or_distrib, Nat.shiftRight_or_distrib,
      show BASE_SHIFT = 18 from rfl, shiftRight_small labelLow, Nat.zero_or]
    cases word <;> simp [Nat.shiftRight_or_distrib, Nat.and_or_distrib_right, ID_SHIFT, BASE_SHIFT,
      BASE_BITS, wordBase, idBase, idMask, baseBase, baseMask]

end Fields

section Layout

variable {low maxLabel : Nat} {L : List (List Nat)} {t : Trie} {paths : List (List Nat)}
  {base : List Nat}

/-- A child is one node's, in one place of its row. -/
theorem TrieOf.kid_inj (trie : TrieOf low L t paths) {v k k' : Nat} (isNode : v < paths.length)
    (kIn : k ∈ t.kids v) (k'In : k' ∈ t.kids v) (same : t.labelOf k = t.labelOf k') : k = k' := by
  have ascending := (trie.node v _ (List.getElem?_eq_getElem isNode)).ascending
  exact List.inj_on_of_nodup_map (ascending.imp Nat.ne_of_lt) kIn k'In same

/-- Everything `slotsOf` writes. -/
def entriesOf (t : Trie) (base : List Nat) : List (Nat × Nat) :=
  (List.range t.label.length).flatMap fun v =>
    (t.kids v).map fun k => (base.getD v 0 + t.labelOf k, slotOf t base k)

theorem slotsOf_eq (t : Trie) (base : List Nat) (nSlots : Nat) :
    slotsOf t base nSlots = writes (List.replicate nSlots 0) (entriesOf t base) := by
  rw [slotsOf, writes, entriesOf, List.foldl_flatMap]
  congr 1
  funext slots v
  rw [writeRow, List.foldl_map]

theorem mem_entriesOf {e : Nat × Nat} : e ∈ entriesOf t base ↔
    ∃ v, v < t.label.length ∧ ∃ k ∈ t.kids v, e = (base.getD v 0 + t.labelOf k, slotOf t base k) := by
  simp only [entriesOf, List.mem_flatMap, List.mem_range, List.mem_map, eq_comm]

theorem entriesOf_agree (trie : TrieOf low L t paths) (placement : Placement t maxLabel base)
    (i x y : Nat) (xIn : (i, x) ∈ entriesOf t base) (yIn : (i, y) ∈ entriesOf t base) : x = y := by
  obtain ⟨v, vNode, k, kIn, first⟩ := mem_entriesOf.mp xIn
  obtain ⟨w, wNode, k', k'In, second⟩ := mem_entriesOf.mp yIn
  rw [Prod.mk.injEq] at first second
  obtain ⟨firstAt, rfl⟩ := first
  obtain ⟨secondAt, rfl⟩ := second
  have vRow : v = 0 ∨ t.kids v ≠ [] := .inr (List.ne_nil_of_mem kIn)
  have wRow : w = 0 ∨ t.kids w ≠ [] := .inr (List.ne_nil_of_mem k'In)
  by_cases same : v = w
  · subst same
    have nodes := trie.labels
    rw [trie.kid_inj (by omega) kIn k'In (by omega)]
  · have apart := (placement.apart v w vNode wNode vRow wRow same).slots
      _ (List.mem_map_of_mem kIn) _ (List.mem_map_of_mem k'In)
    exact absurd (firstAt.symm.trans secondAt) apart

/-- A child's slot, and nothing else, is written. -/
theorem slotsOf_spec (trie : TrieOf low L t paths) (placement : Placement t maxLabel base)
    {nSlots i : Nat} (inside : i < nSlots) :
    (∀ v k, v < t.label.length → k ∈ t.kids v → i = base.getD v 0 + t.labelOf k →
      (slotsOf t base nSlots)[i]? = some (slotOf t base k)) ∧
    ((∀ v k, v < t.label.length → k ∈ t.kids v → i ≠ base.getD v 0 + t.labelOf k) →
      (slotsOf t base nSlots)[i]? = some 0) := by
  obtain ⟨written, untouched⟩ :=
    @writes_getElem? (List.replicate nSlots 0) (entriesOf t base) i
      (by rw [List.length_replicate]; exact inside) (entriesOf_agree trie placement i)
  rw [slotsOf_eq]
  refine ⟨fun v k isNode kIn at_ => written _ (mem_entriesOf.mpr ⟨v, isNode, k, kIn, ?_⟩),
    fun absent => ?_⟩
  · rw [at_]
  · rw [untouched, List.getElem?_replicate, if_pos inside]
    intro x member
    obtain ⟨v, isNode, k, kIn, same⟩ := mem_entriesOf.mp member
    rw [Prod.mk.injEq] at same
    exact absent v k isNode kIn same.1

end Layout

end Lexindex.DoubleArray
