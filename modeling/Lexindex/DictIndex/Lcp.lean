import Mathlib
import Lexindex.Lib.Bits
import Lexindex.Lib.Patricia
import Lexindex.Fsst.TrainSound

/-!
# What two keys share

`lcp` compares two keys a word at a time.  The tail under eight bytes is a few loads that
overlap, placed at their own offsets in one word, so that the first byte that differs is one
count of trailing zeros.  It answers how many leading bytes the keys share.
-/

set_option autoImplicit false

namespace Lexindex.DictIndex

open Faulting (bytesBetween)
open Fsst (wordAt wordAt_eq)

def trailingZeros (x : Nat) : Nat :=
  (BitVec.ofNat 64 x).ctz.toNat

/-- The four bytes at `s[i..]`, which the caller has in bounds. -/
def quadAt (s : List UInt8) (i : Nat) : Nat :=
  leNat (bytesBetween s i (i + 4))

/-- Whole words from `i` on, until one differs: where it is, and how. -/
def lcpWords (a b : List UInt8) (n : Nat) : Nat → Nat → Nat × Nat
  | 0, i => (i, 0)
  | fuel + 1, i =>
      if i + 8 ≤ n then
        let x := wordAt a i ^^^ wordAt b i
        if x ≠ 0 then (i, x) else lcpWords a b n fuel (i + 8)
      else (i, 0)

/-- The bytes of the tail in one word, and where its first byte stands. -/
def lcpTail (a b : List UInt8) (n : Nat) : Nat × Nat :=
  if 8 ≤ n then (n - 8, wordAt a (n - 8) ^^^ wordAt b (n - 8))
  else if 4 ≤ n then
    let head := quadAt a 0 ^^^ quadAt b 0
    let tail := quadAt a (n - 4) ^^^ quadAt b (n - 4)
    (0, head ||| tail <<< (8 * (n - 4)))
  else
    let byte := fun k => ((a.getD k 0).toNat ^^^ (b.getD k 0).toNat) <<< (8 * k)
    (0, byte 0 ||| byte (n / 2) ||| byte (n - 1))

def lcp (a b : List UInt8) : Nat :=
  let n := min a.length b.length
  let (i, x) := lcpWords a b n (n / 8 + 1) 0
  if x ≠ 0 then i + trailingZeros x / 8
  else if i = n then n
  else
    let (at_, x) := lcpTail a b n
    if x = 0 then n else at_ + trailingZeros x / 8

/-! ## Bytes of a word -/

/-- The bits in which two keys differ at a byte. -/
def differ (a b : List UInt8) (k : Nat) : Nat :=
  (a.getD k 0).toNat ^^^ (b.getD k 0).toNat

theorem differ_eq_zero {a b : List UInt8} {k : Nat} : differ a b k = 0 ↔ a.getD k 0 = b.getD k 0 := by
  rw [differ, Nat.xor_eq_zero_iff, UInt8.toNat_inj]

theorem differ_lt (a b : List UInt8) (k : Nat) : differ a b k < 2 ^ 8 :=
  Nat.xor_lt_two_pow (UInt8.toNat_lt _) (UInt8.toNat_lt _)

/-- A word that shows, from a place on, the bits in which two keys of `n` bytes differ. -/
structure Shows (a b : List UInt8) (n at_ x : Nat) : Prop where
  small : x < 2 ^ 64
  bits : ∀ k j, j < 8 → k < 8 →
    x.testBit (8 * k + j) = (decide (at_ + k < n) && (differ a b (at_ + k)).testBit j)

variable {a b : List UInt8} {n at_ x : Nat}

theorem shows_word (inside : at_ + 8 ≤ n) : Shows a b n at_ (wordAt a at_ ^^^ wordAt b at_) := by
  have byte : ∀ (s : List UInt8) k j, j < 8 → k < 8 →
      (wordAt s at_).testBit (8 * k + j) = (s.getD (at_ + k) 0).toNat.testBit j := by
    intro s k j small near
    rw [wordAt_eq, leNat_testBit _ _ _ small, List.getD_eq_getElem?_getD, List.getElem?_take_of_lt near,
      List.getElem?_drop, ← List.getD_eq_getElem?_getD]
  have word : ∀ s : List UInt8, wordAt s at_ < 2 ^ 64 := fun s => by
    rw [wordAt_eq]
    exact leNat_take_lt 8 _
  refine ⟨Nat.xor_lt_two_pow (word a) (word b), fun k j small near => ?_⟩
  have within : at_ + k < n := by omega
  rw [Nat.testBit_xor, byte a k j small near, byte b k j small near, differ, Nat.testBit_xor,
    decide_eq_true within, Bool.true_and]

theorem quadAt_lt (s : List UInt8) (i : Nat) : quadAt s i < 2 ^ 32 := by
  rw [quadAt, bytesBetween, Nat.add_sub_cancel_left]
  exact leNat_take_lt 4 _

theorem quadAt_testBit (s : List UInt8) (i k j : Nat) (small : j < 8) :
    (quadAt s i).testBit (8 * k + j) =
      (decide (k < 4) && (s.getD (i + k) 0).toNat.testBit j) := by
  rw [quadAt, leNat_testBit _ _ _ small, bytesBetween, Nat.add_sub_cancel_left]
  by_cases near : k < 4
  · rw [List.getD_eq_getElem?_getD, List.getElem?_take_of_lt near, List.getElem?_drop,
      ← List.getD_eq_getElem?_getD, decide_eq_true near, Bool.true_and]
  · rw [List.getD_eq_default, decide_eq_false near, Bool.false_and]
    · exact Nat.zero_testBit j
    · rw [List.length_take]
      omega

/-- The tail's word, whichever loads it is put together from. -/
theorem shows_tail (some_ : 0 < n) : Shows a b n (lcpTail a b n).1 (lcpTail a b n).2 := by
  by_cases wide : 8 ≤ n
  · rw [lcpTail, if_pos wide]
    exact shows_word (by omega)
  rw [lcpTail, if_neg wide]
  by_cases quads : 4 ≤ n
  · rw [if_pos quads]
    have quad : ∀ i, quadAt a i ^^^ quadAt b i < 2 ^ 32 := fun i =>
      Nat.xor_lt_two_pow (quadAt_lt a i) (quadAt_lt b i)
    refine ⟨Nat.or_lt_two_pow ((quad 0).trans (by decide)) ?_, fun k j small near => ?_⟩
    · rw [Nat.shiftLeft_eq]
      calc _ < 2 ^ 32 * 2 ^ (8 * (n - 4)) := Nat.mul_lt_mul_of_pos_right (quad _) (by positivity)
        _ ≤ 2 ^ 32 * 2 ^ 32 := Nat.mul_le_mul_left _ (Nat.pow_le_pow_right (by decide) (by omega))
        _ = 2 ^ 64 := by decide
    · have head : (quadAt a 0 ^^^ quadAt b 0).testBit (8 * k + j) =
          (decide (k < 4) && (differ a b k).testBit j) := by
        rw [Nat.testBit_xor, quadAt_testBit _ _ _ _ small, quadAt_testBit _ _ _ _ small, differ,
          Nat.testBit_xor, Nat.zero_add]
        cases decide (k < 4) <;> simp
      have tail : ((quadAt a (n - 4) ^^^ quadAt b (n - 4)) <<< (8 * (n - 4))).testBit (8 * k + j) =
          (decide (n - 4 ≤ k ∧ k < n) && (differ a b k).testBit j) := by
        rw [Nat.testBit_shiftLeft]
        by_cases reached : n - 4 ≤ k
        · rw [show 8 * k + j - 8 * (n - 4) = 8 * (k - (n - 4)) + j by omega, Nat.testBit_xor,
            quadAt_testBit _ _ _ _ small, quadAt_testBit _ _ _ _ small, Nat.add_sub_cancel' reached,
            differ, Nat.testBit_xor, decide_eq_true (show 8 * k + j ≥ 8 * (n - 4) by omega),
            decide_eq_decide.mpr (show k - (n - 4) < 4 ↔ n - 4 ≤ k ∧ k < n by omega)]
          cases decide (n - 4 ≤ k ∧ k < n) <;> simp
        · rw [decide_eq_false (show ¬ 8 * k + j ≥ 8 * (n - 4) by omega),
            decide_eq_false (show ¬ (n - 4 ≤ k ∧ k < n) by omega), Bool.false_and, Bool.false_and]
      rw [Nat.testBit_or, head, tail, Nat.zero_add]
      by_cases within : k < n
      · by_cases low : k < 4
        · rw [decide_eq_true low, decide_eq_true within, Bool.true_and]
          cases (differ a b k).testBit j <;> simp
        · rw [decide_eq_false low, decide_eq_true within,
            decide_eq_true (show n - 4 ≤ k ∧ k < n by omega), Bool.false_and, Bool.false_or]
      · rw [decide_eq_false (show ¬ k < 4 by omega), decide_eq_false within,
          decide_eq_false (show ¬ (n - 4 ≤ k ∧ k < n) by omega), Bool.false_and, Bool.false_or]
  · rw [if_neg quads]
    have byte : ∀ p k j, j < 8 →
        (differ a b p <<< (8 * p)).testBit (8 * k + j) =
          (decide (k = p) && (differ a b k).testBit j) := by
      intro p k j small
      rw [Nat.testBit_shiftLeft]
      rcases Nat.lt_trichotomy k p with before | rfl | after
      · rw [decide_eq_false (show ¬ 8 * k + j ≥ 8 * p by omega),
          decide_eq_false (show ¬ k = p by omega), Bool.false_and, Bool.false_and]
      · rw [Nat.add_sub_cancel_left, decide_eq_true (show 8 * k + j ≥ 8 * k by omega),
          decide_eq_true rfl]
      · have high : differ a b p < 2 ^ (8 * k + j - 8 * p) :=
          (differ_lt a b p).trans_le (Nat.pow_le_pow_right (by decide) (by omega))
        rw [Nat.testBit_lt_two_pow high, decide_eq_false (show ¬ k = p by omega), Bool.and_false,
          Bool.false_and]
    have fits : ∀ p, p < n → differ a b p <<< (8 * p) < 2 ^ 64 := by
      intro p inside
      rw [Nat.shiftLeft_eq]
      calc _ < 2 ^ 8 * 2 ^ (8 * p) := Nat.mul_lt_mul_of_pos_right (differ_lt a b p) (by positivity)
        _ ≤ 2 ^ 8 * 2 ^ 24 := Nat.mul_le_mul_left _ (Nat.pow_le_pow_right (by decide) (by omega))
        _ ≤ 2 ^ 64 := by decide
    refine ⟨Nat.or_lt_two_pow (Nat.or_lt_two_pow (fits 0 some_) (fits _ (by omega)))
      (fits _ (by omega)), fun k j small near => ?_⟩
    change ((differ a b 0 <<< (8 * 0) ||| differ a b (n / 2) <<< (8 * (n / 2))) |||
      differ a b (n - 1) <<< (8 * (n - 1))).testBit (8 * k + j) = _
    rw [Nat.testBit_or, Nat.testBit_or, byte 0 k j small, byte (n / 2) k j small,
      byte (n - 1) k j small, Nat.zero_add]
    by_cases within : k < n
    · rw [decide_eq_true within, ← Bool.and_or_distrib_right, ← Bool.and_or_distrib_right]
      have covered : (decide (k = 0) || decide (k = n / 2) || decide (k = n - 1)) = true := by
        simp only [Bool.or_eq_true, decide_eq_true_eq]
        omega
      rw [covered]
    · rw [decide_eq_false within, decide_eq_false (show ¬ k = 0 by omega),
        decide_eq_false (show ¬ k = n / 2 by omega), decide_eq_false (show ¬ k = n - 1 by omega)]
      rfl

/-! ## The first byte that differs -/

/-- Where the word is zero, the bytes it covers are the same. -/
theorem Shows.same (shows_ : Shows a b n at_ 0) {k : Nat} (near : k < 8) (inside : at_ + k < n) :
    a.getD (at_ + k) 0 = b.getD (at_ + k) 0 := by
  apply differ_eq_zero.mp
  apply Nat.eq_of_testBit_eq
  intro j
  by_cases small : j < 8
  · have bit := shows_.bits k j small near
    rw [Nat.zero_testBit, decide_eq_true inside, Bool.true_and] at bit
    rw [← bit, Nat.zero_testBit]
  · have high : differ a b (at_ + k) < 2 ^ j :=
      (differ_lt a b _).trans_le (Nat.pow_le_pow_right (by decide) (by omega))
    rw [Nat.testBit_lt_two_pow high, Nat.zero_testBit]

/-- Where it is not, its first set bit stands in the first byte that differs. -/
theorem Shows.first (shows_ : Shows a b n at_ x) (differs : x ≠ 0) :
    at_ + trailingZeros x / 8 < n ∧
    a.getD (at_ + trailingZeros x / 8) 0 ≠ b.getD (at_ + trailingZeros x / 8) 0 ∧
    ∀ k, k < trailingZeros x / 8 → a.getD (at_ + k) 0 = b.getD (at_ + k) 0 := by
  have nonzero : BitVec.ofNat 64 x ≠ 0#64 := by
    intro zero
    have value := congrArg BitVec.toNat zero
    rw [BitVec.toNat_ofNat, Nat.mod_eq_of_lt shows_.small] at value
    exact differs value
  have set := BitVec.getLsbD_true_ctz_of_ne_zero nonzero
  have below : ∀ i, i < trailingZeros x → (BitVec.ofNat 64 x).getLsbD i = false :=
    fun i less => BitVec.getLsbD_false_of_lt_ctz less
  change (BitVec.ofNat 64 x).getLsbD (trailingZeros x) = true at set
  have small : trailingZeros x < 64 := BitVec.lt_of_getLsbD set
  generalize trailingZeros x = c at set below small ⊢
  rw [BitVec.getLsbD_ofNat, decide_eq_true small, Bool.true_and] at set
  rw [← Nat.div_add_mod c 8, shows_.bits (c / 8) (c % 8) (by omega) (by omega), Bool.and_eq_true,
    decide_eq_true_eq] at set
  obtain ⟨inside, bit⟩ := set
  refine ⟨inside, ?_, fun k before => ?_⟩
  · intro same
    rw [differ_eq_zero.mpr same, Nat.zero_testBit] at bit
    cases bit
  · apply differ_eq_zero.mp
    apply Nat.eq_of_testBit_eq
    intro j
    rw [Nat.zero_testBit]
    by_cases low : j < 8
    · have clear := below (8 * k + j) (by omega)
      rw [BitVec.getLsbD_ofNat, decide_eq_true (show 8 * k + j < 64 by omega), Bool.true_and,
        shows_.bits k j low (by omega), decide_eq_true (show at_ + k < n by omega),
        Bool.true_and] at clear
      exact clear
    · have high : differ a b (at_ + k) < 2 ^ j :=
        (differ_lt a b _).trans_le (Nat.pow_le_pow_right (by decide) (by omega))
      exact Nat.testBit_lt_two_pow high

/-- The keys agree before a place, and there one ends or they differ. -/
theorem common_eq {i : Nat} (same : ∀ k, k < i → a.getD k 0 = b.getD k 0)
    (inside : i ≤ min a.length b.length)
    (stop : i = min a.length b.length ∨ a.getD i 0 ≠ b.getD i 0) : common a b = i := by
  have taken : a.take i = b.take i := by
    apply List.ext_getElem
    · rw [List.length_take, List.length_take]
      omega
    · intro k left right
      have here := same k (by rw [List.length_take] at left; omega)
      rw [List.length_take] at left right
      rw [List.getD_eq_getElem _ _ (by omega), List.getD_eq_getElem _ _ (by omega)] at here
      rwa [List.getElem_take, List.getElem_take]
  have least : i ≤ common a b := by
    have front : a.take i <+: b := by
      rw [taken]
      exact List.take_prefix i b
    have long := length_le_common (List.take_prefix i a) front
    rwa [List.length_take_of_le (by omega)] at long
  have left := common_le_left a b
  have right := common_le_right a b
  rcases stop with whole | apart
  · omega
  · refine Nat.le_antisymm (Nat.le_of_not_lt fun more => apart ?_) least
    have shared := congrArg (fun s => s.getD i 0) (take_common a b)
    simp only [List.getD_eq_getElem?_getD, List.getElem?_take_of_lt more] at shared
    rw [List.getD_eq_getElem?_getD, List.getD_eq_getElem?_getD, shared]

/-- The words before the one that differs are the same. -/
theorem lcpWords_spec (a b : List UInt8) (n : Nat) : ∀ (fuel i : Nat), n < i + 8 * fuel →
    (∀ k, k < i → a.getD k 0 = b.getD k 0) → i ≤ n →
    (∀ k, k < (lcpWords a b n fuel i).1 → a.getD k 0 = b.getD k 0) ∧
    (lcpWords a b n fuel i).1 ≤ n ∧
    ((lcpWords a b n fuel i).2 = 0 ∧ n < (lcpWords a b n fuel i).1 + 8 ∨
      (lcpWords a b n fuel i).2 ≠ 0 ∧
        Shows a b n (lcpWords a b n fuel i).1 (lcpWords a b n fuel i).2) := by
  intro fuel
  induction fuel with
  | zero =>
      intro i enough
      omega
  | succ fuel ih =>
      intro i enough same inside
      rw [lcpWords]
      by_cases room : i + 8 ≤ n
      · rw [if_pos room]
        have shows_ := shows_word (a := a) (b := b) room
        generalize wordAt a i ^^^ wordAt b i = x at shows_ ⊢
        by_cases differs : x = 0
        · subst differs
          rw [if_neg (fun zero => zero rfl)]
          refine ih (i + 8) (by omega) (fun k less => ?_) room
          by_cases early : k < i
          · exact same k early
          · have covered := shows_.same (k := k - i) (by omega) (by omega)
            rwa [Nat.add_sub_cancel' (by omega)] at covered
        · rw [if_pos differs]
          exact ⟨same, inside, .inr ⟨differs, shows_⟩⟩
      · rw [if_neg room]
        exact ⟨same, inside, .inl ⟨rfl, Nat.lt_of_not_le room⟩⟩

/-- The tail's word covers what the whole words leave. -/
theorem lcpTail_reach {i : Nat} (near : n < i + 8) :
    (lcpTail a b n).1 ≤ i ∧ n ≤ (lcpTail a b n).1 + 8 := by
  rw [lcpTail]
  split
  · exact ⟨by change n - 8 ≤ i; omega, by change n ≤ n - 8 + 8; omega⟩
  · split
    · exact ⟨Nat.zero_le i, by change n ≤ 0 + 8; omega⟩
    · exact ⟨Nat.zero_le i, by change n ≤ 0 + 8; omega⟩

/-- The answer is how many leading bytes the keys share. -/
theorem lcp_eq (a b : List UInt8) : lcp a b = common a b := by
  obtain ⟨same, inside, word⟩ := lcpWords_spec a b (min a.length b.length)
    (min a.length b.length / 8 + 1) 0 (by omega) (fun k less => absurd less (Nat.not_lt_zero k))
    (Nat.zero_le _)
  rw [lcp]
  generalize lcpWords a b (min a.length b.length) (min a.length b.length / 8 + 1) 0 = found at *
  obtain ⟨i, x⟩ := found
  simp only at same inside word ⊢
  -- Whatever word shows the first difference, the keys agree up to it.
  have answer : ∀ {at_ x : Nat}, Shows a b (min a.length b.length) at_ x → x ≠ 0 →
      (∀ k, k < at_ → a.getD k 0 = b.getD k 0) → at_ + trailingZeros x / 8 = common a b := by
    intro at_ x shows_ differs before
    obtain ⟨within, apart, agree⟩ := shows_.first differs
    refine (common_eq (fun k less => ?_) within.le (.inr apart)).symm
    by_cases early : k < at_
    · exact before k early
    · have covered := agree (k - at_) (by omega)
      rwa [Nat.add_sub_cancel' (by omega)] at covered
  rcases word with ⟨rfl, near⟩ | ⟨differs, shows_⟩
  · rw [if_neg (fun other => other rfl)]
    by_cases whole : i = min a.length b.length
    · rw [if_pos whole]
      exact (common_eq (whole ▸ same) (Nat.le_refl _) (.inl rfl)).symm
    · rw [if_neg whole]
      have shows_ := shows_tail (a := a) (b := b) (show 0 < min a.length b.length by omega)
      obtain ⟨start, covers⟩ := lcpTail_reach (a := a) (b := b) near
      generalize lcpTail a b (min a.length b.length) = tail at shows_ start covers ⊢
      obtain ⟨at_, y⟩ := tail
      simp only at shows_ start covers ⊢
      have before : ∀ k, k < at_ → a.getD k 0 = b.getD k 0 := fun k less => same k (by omega)
      by_cases zero : y = 0
      · subst zero
        rw [if_pos rfl]
        refine (common_eq (fun k less => ?_) (Nat.le_refl _) (.inl rfl)).symm
        by_cases early : k < at_
        · exact before k early
        · have covered := shows_.same (k := k - at_) (by omega) (by omega)
          rwa [Nat.add_sub_cancel' (by omega)] at covered
      · rw [if_neg zero]
        exact answer shows_ zero before
  · rw [if_pos differs]
    exact answer shows_ differs same

end Lexindex.DictIndex
