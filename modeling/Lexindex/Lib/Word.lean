import Mathlib

/-!
# Set bits of words and of word streams

`ones` lists the set bits of a 64-bit word in ascending order, which is the
order a loop that clears the lowest set bit visits them in.  `streamOnes` does
the same over a list of words read as one bit stream.
-/

set_option autoImplicit false

namespace Lexindex

abbrev Word := BitVec 64

def Word.ones (x : Word) : List Nat :=
  (List.range 64).filter fun i => x.getLsbD i

def Word.countOnes (x : Word) : Nat :=
  x.ones.length

/-- Set bits of the words of a stream, the first of them word `first`. -/
def streamOnesFrom : Nat → List Word → List Nat
  | _, [] => []
  | first, word :: rest => word.ones.map (first * 64 + ·) ++ streamOnesFrom (first + 1) rest

def streamOnes (words : List Word) : List Nat :=
  streamOnesFrom 0 words

/-- Bit `p` of a stream, `false` past its end. -/
def streamBit (words : List Word) (p : Nat) : Bool :=
  (words.getD (p / 64) 0#64).getLsbD (p % 64)

@[simp] theorem Word.mem_ones {x : Word} {i : Nat} : i ∈ x.ones ↔ x.getLsbD i = true := by
  simp only [Word.ones, List.mem_filter, List.mem_range, and_iff_right_iff_imp]
  intro set
  exact BitVec.lt_of_getLsbD set

theorem Word.ones_lt {x : Word} {i : Nat} (member : i ∈ x.ones) : i < 64 :=
  BitVec.lt_of_getLsbD (Word.mem_ones.mp member)

theorem Word.ones_sorted (x : Word) : x.ones.Pairwise (· < ·) :=
  List.Pairwise.filter _ List.pairwise_lt_range

theorem streamOnesFrom_bounds (first : Nat) (words : List Word) :
    ∀ p ∈ streamOnesFrom first words, first * 64 ≤ p ∧ p < (first + words.length) * 64 := by
  induction words generalizing first with
  | nil => simp [streamOnesFrom]
  | cons word rest ih =>
      intro p member
      rw [streamOnesFrom, List.mem_append, List.mem_map] at member
      rcases member with ⟨i, set, rfl⟩ | member
      · have small := Word.ones_lt set
        simp only [List.length_cons]
        omega
      · have bounds := ih (first + 1) p member
        simp only [List.length_cons]
        omega

theorem streamOnes_lt {words : List Word} {p : Nat} (member : p ∈ streamOnes words) :
    p < words.length * 64 := by
  have bounds := streamOnesFrom_bounds 0 words p member
  omega

theorem streamOnesFrom_sorted (first : Nat) (words : List Word) :
    (streamOnesFrom first words).Pairwise (· < ·) := by
  induction words generalizing first with
  | nil => exact List.Pairwise.nil
  | cons word rest ih =>
      rw [streamOnesFrom, List.pairwise_append]
      refine ⟨?_, ih (first + 1), ?_⟩
      · rw [List.pairwise_map]
        exact word.ones_sorted.imp (by intro a b lt; omega)
      · intro a memberA b memberB
        obtain ⟨i, set, rfl⟩ := List.mem_map.mp memberA
        have small := Word.ones_lt set
        have bounds := streamOnesFrom_bounds (first + 1) rest b memberB
        omega

theorem streamOnes_sorted (words : List Word) : (streamOnes words).Pairwise (· < ·) :=
  streamOnesFrom_sorted 0 words

theorem mem_streamOnesFrom {first : Nat} {words : List Word} {p : Nat} :
    first * 64 + p ∈ streamOnesFrom first words ↔ streamBit words p = true := by
  induction words generalizing first p with
  | nil => simp [streamOnesFrom, streamBit]
  | cons word rest ih =>
      rw [streamOnesFrom, List.mem_append, List.mem_map]
      by_cases inHead : p < 64
      · have notLater : first * 64 + p ∉ streamOnesFrom (first + 1) rest := by
          intro member
          have bounds := streamOnesFrom_bounds (first + 1) rest _ member
          omega
        have wordIndex : p / 64 = 0 := by omega
        have bitIndex : p % 64 = p := by omega
        simp only [notLater, or_false, streamBit, wordIndex, bitIndex, List.getD_cons_zero]
        constructor
        · rintro ⟨i, set, same⟩
          have exact : i = p := by omega
          rw [← exact]
          exact Word.mem_ones.mp set
        · intro set
          exact ⟨p, Word.mem_ones.mpr set, rfl⟩
      · have notHere : ¬ ∃ i ∈ word.ones, first * 64 + i = first * 64 + p := by
          rintro ⟨i, set, same⟩
          have small := Word.ones_lt set
          omega
        have shifted : first * 64 + p = (first + 1) * 64 + (p - 64) := by omega
        have wordIndex : p / 64 = (p - 64) / 64 + 1 := by omega
        have bitIndex : p % 64 = (p - 64) % 64 := by omega
        simp only [notHere, false_or]
        rw [shifted, ih]
        simp only [streamBit, wordIndex, bitIndex, List.getD_cons_succ]

theorem mem_streamOnes {words : List Word} {p : Nat} :
    p ∈ streamOnes words ↔ streamBit words p = true := by
  have shifted := @mem_streamOnesFrom 0 words p
  simpa [streamOnes] using shifted

theorem getD_modify {words : List Word} {w i : Nat} {change : Word → Word} (inside : w < words.length) :
    (words.modify w change).getD i 0#64 =
      if i = w then change (words.getD i 0#64) else words.getD i 0#64 := by
  rw [List.getD_eq_getElem?_getD, List.getElem?_modify, List.getD_eq_getElem?_getD]
  by_cases here : i = w
  · subst here
    rw [if_pos rfl, List.getElem?_eq_getElem inside]
    simp
  · have apart : ¬ w = i := fun same => here same.symm
    simp [here, apart]

theorem one_shift_getLsbD {o i : Nat} (oLt : o < 64) :
    (1#64 <<< o).getLsbD i = decide (i = o) := by
  rw [BitVec.getLsbD_shiftLeft]
  by_cases here : i = o
  · subst here
    simp [oLt]
  · by_cases below : i < o
    · simp [below, here]
    · have above : ¬ i - o = 0 := by omega
      have zero : (1#64).getLsbD (i - o) = false := by
        rw [BitVec.getLsbD_one]
        simp [above]
      simp [zero, here]

/-! ## Single bits -/

/-- Bit `i` of a stream of words set. -/
def setBit (words : List Word) (i : Nat) : List Word :=
  words.modify (i / 64) (· ||| (1#64 <<< (i % 64)))

/-- Bit `i` of a stream of words cleared. -/
def clearBit (words : List Word) (i : Nat) : List Word :=
  words.modify (i / 64) (· &&& ~~~(1#64 <<< (i % 64)))

@[simp] theorem setBit_length (words : List Word) (i : Nat) :
    (setBit words i).length = words.length :=
  List.length_modify ..

@[simp] theorem clearBit_length (words : List Word) (i : Nat) :
    (clearBit words i).length = words.length :=
  List.length_modify ..

theorem streamBit_setBit {words : List Word} {i : Nat} (inside : i / 64 < words.length) (j : Nat) :
    streamBit (setBit words i) j = (decide (j = i) || streamBit words j) := by
  rw [streamBit, setBit, getD_modify inside]
  by_cases sameWord : j / 64 = i / 64
  · rw [if_pos sameWord, BitVec.getLsbD_or, one_shift_getLsbD (Nat.mod_lt _ (by decide)), Bool.or_comm]
    congr 1
    rw [decide_eq_decide]
    omega
  · have apart : ¬ j = i := fun same => sameWord (by rw [same])
    rw [if_neg sameWord]
    simp [apart, streamBit]

theorem streamBit_clearBit (words : List Word) (i j : Nat) :
    streamBit (clearBit words i) j = (!decide (j = i) && streamBit words j) := by
  by_cases inside : i / 64 < words.length
  · rw [streamBit, clearBit, getD_modify inside]
    by_cases sameWord : j / 64 = i / 64
    · have bitLt : j % 64 < 64 := Nat.mod_lt _ (by decide)
      have sameBit : decide (j % 64 = i % 64) = decide (j = i) := by
        rw [decide_eq_decide]
        omega
      rw [if_pos sameWord, BitVec.getLsbD_and, BitVec.getLsbD_not,
        one_shift_getLsbD (Nat.mod_lt _ (by decide)), sameBit, Bool.and_comm]
      simp [bitLt, streamBit]
    · have apart : ¬ j = i := fun same => sameWord (by rw [same])
      rw [if_neg sameWord]
      simp [apart, streamBit]
  · have untouched : clearBit words i = words := by
      rw [clearBit, List.modify_eq_self (by omega)]
    by_cases here : j = i
    · subst here
      have past : words.getD (j / 64) 0#64 = 0#64 := by
        rw [List.getD_eq_getElem?_getD, List.getElem?_eq_none (by omega)]
        rfl
      rw [untouched, streamBit, past]
      simp
    · rw [untouched]
      simp [here]

/-- `x & (x - 1)` clears the lowest set bit and no other. -/
theorem clearLowest_getLsbD {x : Word} (nonzero : x ≠ 0#64) (i : Nat) :
    (x &&& (x - 1#64)).getLsbD i = (!decide (i = x.ctz.toNat) && x.getLsbD i) := by
  have set := BitVec.getLsbD_true_ctz_of_ne_zero nonzero
  have below : ∀ j, j < x.ctz.toNat → x.getLsbD j = false :=
    fun j lt => BitVec.getLsbD_false_of_lt_ctz lt
  generalize x.ctz.toNat = k at *
  have low : x.toNat % 2 ^ k = 0 := by
    apply Nat.eq_of_testBit_eq
    intro j
    rw [Nat.testBit_mod_two_pow, Nat.zero_testBit]
    by_cases lt : j < k
    · have unset : x.toNat.testBit j = false := below j lt
      simp [unset]
    · simp [lt]
  have odd : x.toNat / 2 ^ k % 2 = 1 := by
    have bit : x.toNat.testBit k = true := set
    rw [Nat.testBit_eq_decide_div_mod_eq] at bit
    exact of_decide_eq_true bit
  obtain ⟨m, half⟩ : ∃ m, x.toNat / 2 ^ k = 2 * m + 1 := ⟨x.toNat / 2 ^ k / 2, by omega⟩
  have powPositive : 0 < 2 ^ k := Nat.two_pow_pos k
  have whole : x.toNat = 2 ^ k * (2 * m + 1) + 0 := by
    rw [← half, Nat.add_zero]
    exact (Nat.mul_div_cancel' (Nat.dvd_of_mod_eq_zero low)).symm
  have positive : 1 ≤ x.toNat := by
    rw [whole, Nat.add_zero]
    exact Nat.mul_pos powPositive (by omega)
  have less : (x - 1#64).toNat = 2 ^ k * (2 * m) + (2 ^ k - 1) := by
    have small := x.isLt
    rw [BitVec.toNat_sub]
    simp only [BitVec.toNat_ofNat]
    rw [whole, Nat.mul_add] at *
    omega
  rw [← BitVec.testBit_toNat, ← BitVec.testBit_toNat, BitVec.toNat_and, Nat.testBit_and, less, whole,
    Nat.testBit_two_pow_mul_add _ powPositive,
    Nat.testBit_two_pow_mul_add _ (Nat.sub_lt powPositive Nat.one_pos)]
  by_cases under : i < k
  · simp [under]
  · rw [if_neg under, if_neg under]
    by_cases here : i = k
    · subst here
      simp
    · obtain ⟨d, rfl⟩ : ∃ d, i = k + (d + 1) := ⟨i - k - 1, by omega⟩
      have index : k + (d + 1) - k = d + 1 := by omega
      rw [index, Nat.testBit_succ, Nat.testBit_succ]
      have halves : (2 * m + 1) / 2 = 2 * m / 2 := by omega
      simp [halves]

end Lexindex
