import Mathlib
import Lexindex.Lib.Bits

/-!
# Fields of one width

A number whose bits are cut into fields of one width, some of them entered and the others clear.
Entering a field says what every bit is afterwards, so the number does not depend on the order
the fields were entered in, and a field is read by a shift and a remainder.
-/

set_option autoImplicit false

namespace Lexindex

open Faulting (bytesBetween)

/-- The fields entered hold their values, and every other bit is clear. -/
def Fields (width : Nat) (value : Nat → Nat) (entered : List Nat) (number : Nat) : Prop :=
  ∀ p, number.testBit p = (decide (p / width ∈ entered) && (value (p / width)).testBit (p % width))

variable {width number number' s : Nat} {value : Nat → Nat} {entered entered' : List Nat}

theorem fields_zero : Fields width value [] 0 := by
  intro p
  rw [Nat.zero_testBit, decide_eq_false List.not_mem_nil, Bool.false_and]

/-- The bits of a value moved to its field. -/
theorem field_testBit {v : Nat} (fits : v < 2 ^ width) (s p : Nat) :
    (v <<< (s * width)).testBit p = (decide (p / width = s) && v.testBit (p % width)) := by
  rcases Nat.eq_zero_or_pos width with rfl | positive
  · have zero : v = 0 := by omega
    rw [zero, Nat.zero_shiftLeft, Nat.zero_testBit, Nat.zero_testBit, Bool.and_false]
  rw [Nat.testBit_shiftLeft]
  have parts := Nat.div_add_mod p width
  have low := Nat.mod_lt p positive
  by_cases here : p / width = s
  · rw [here, Nat.mul_comm] at parts
    rw [decide_eq_true (show s * width ≤ p by omega), decide_eq_true here,
      show p - s * width = p % width by omega]
  · rw [decide_eq_false here, Bool.false_and]
    by_cases past : s * width ≤ p
    · have beyond : width ≤ p - s * width := by
        have more : s + 1 ≤ p / width := by
          have least : s ≤ p / width := (Nat.le_div_iff_mul_le positive).mpr past
          omega
        have reach := (Nat.le_div_iff_mul_le positive).mp more
        rw [Nat.succ_mul] at reach
        omega
      rw [Nat.testBit_lt_two_pow (fits.trans_le (Nat.pow_le_pow_right (by decide) beyond)),
        Bool.and_false]
    · rw [decide_eq_false past, Bool.false_and]

/-- A field entered by an or. -/
theorem Fields.enter (fields : Fields width value entered number) (fits : value s < 2 ^ width)
    (bits : ∀ p, number'.testBit p = (number.testBit p || (value s <<< (s * width)).testBit p)) :
    Fields width value (s :: entered) number' := by
  intro p
  rw [bits p, fields p, field_testBit fits]
  by_cases here : p / width = s
  · rw [decide_eq_true here, decide_eq_true (List.mem_cons.mpr (.inl here)), here]
    cases decide (s ∈ entered) <;> simp
  · rw [decide_eq_false here, Bool.false_and, Bool.or_false]
    congr 1
    rw [decide_eq_decide, List.mem_cons]
    exact ⟨.inr, fun either => either.resolve_left here⟩

/-- A field read. -/
theorem Fields.read (fields : Fields width value entered number) (member : s ∈ entered)
    (fits : value s < 2 ^ width) : number >>> (s * width) % 2 ^ width = value s := by
  refine Nat.eq_of_testBit_eq fun j => ?_
  rw [Nat.testBit_mod_two_pow, Nat.testBit_shiftRight, fields]
  by_cases low : j < width
  · rw [decide_eq_true low, Bool.true_and, Nat.mul_comm, Nat.mul_add_div (by omega),
      Nat.div_eq_of_lt low, Nat.add_zero, Nat.mul_add_mod, Nat.mod_eq_of_lt low,
      decide_eq_true member, Bool.true_and]
  · rw [decide_eq_false low, Bool.false_and,
      Nat.testBit_lt_two_pow (fits.trans_le (Nat.pow_le_pow_right (by decide) (by omega)))]

/-- The number depends on which fields were entered only. -/
theorem Fields.unique (fields : Fields width value entered number)
    (fields' : Fields width value entered' number') (same : ∀ s, s ∈ entered ↔ s ∈ entered') :
    number = number' := by
  refine Nat.eq_of_testBit_eq fun p => ?_
  rw [fields p, fields' p, decide_eq_decide.mpr (same _)]

/-- A field written over what was there. -/
theorem Fields.replace (fields : Fields width value entered number) (positive : 0 < width)
    (bits : ∀ p, number'.testBit p =
      if s * width ≤ p ∧ p < (s + 1) * width then (value s).testBit (p - s * width) else number.testBit p) :
    Fields width value (s :: entered) number' := by
  intro p
  have parts := Nat.div_add_mod p width
  have low := Nat.mod_lt p positive
  have next : (s + 1) * width = s * width + width := Nat.succ_mul s width
  rw [bits p]
  by_cases here : p / width = s
  · rw [here, Nat.mul_comm] at parts
    rw [if_pos (by omega), here, decide_eq_true List.mem_cons_self, Bool.true_and,
      show p - s * width = p % width by omega]
  · have outside : ¬ (s * width ≤ p ∧ p < (s + 1) * width) := by
      rintro ⟨least, most⟩
      exact here (Nat.div_eq_of_lt_le least most)
    rw [if_neg outside, fields p]
    congr 1
    rw [decide_eq_decide, List.mem_cons]
    exact ⟨.inr, fun either => either.resolve_left here⟩

/-- The bits of a number in the bytes at a byte, past their first `off`. -/
theorem word_field (number at_ : Nat) {off width size : Nat} (room : off + width ≤ size) :
    (number >>> (8 * at_) % 2 ^ size) >>> off % 2 ^ width = number >>> (8 * at_ + off) % 2 ^ width := by
  refine Nat.eq_of_testBit_eq fun j => ?_
  rw [Nat.testBit_mod_two_pow, Nat.testBit_mod_two_pow, Nat.testBit_shiftRight, Nat.testBit_mod_two_pow,
    Nat.testBit_shiftRight, Nat.testBit_shiftRight]
  by_cases low : j < width
  · rw [decide_eq_true (show off + j < size by omega), Bool.true_and, Nat.add_assoc]
  · rw [decide_eq_false low, Bool.false_and, Bool.false_and]

end Lexindex
