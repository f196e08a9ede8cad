import Mathlib
import Lexindex.Lib.Buffer

/-!
# The bits of a buffer

A buffer is one little-endian number.  A read of some of its bytes is a shift and a remainder of
that number, and what a write leaves is told bit by bit.
-/

set_option autoImplicit false

namespace Lexindex

open Faulting (bytesBetween)

theorem leNat_inj {bytes others : List UInt8} (length : bytes.length = others.length)
    (same : leNat bytes = leNat others) : bytes = others := by
  rw [← leBytes_leNat bytes, ← leBytes_leNat others, length, same]

theorem leNat_testBit (bytes : List UInt8) (k j : Nat) (small : j < 8) :
    (leNat bytes).testBit (8 * k + j) = (bytes.getD k 0).toNat.testBit j := by
  induction bytes generalizing k with
  | nil =>
      rw [leNat, Nat.zero_testBit, List.getD_nil]
      exact (Nat.zero_testBit j).symm
  | cons byte bytes ih =>
      have low : byte.toNat < 2 ^ 8 := byte.toNat_lt
      have split : leNat (byte :: bytes) = 2 ^ 8 * leNat bytes + byte.toNat := by
        rw [leNat]
        omega
      rw [split, Nat.testBit_two_pow_mul_add _ low]
      cases k with
      | zero =>
          rw [Nat.mul_zero, Nat.zero_add, if_pos small, List.getD_cons_zero]
      | succ k =>
          rw [if_neg (by omega), List.getD_cons_succ, ← ih k]
          congr 1
          omega

theorem leNat_split (bytes : List UInt8) (n : Nat) :
    leNat bytes = leNat (bytes.take n) + 2 ^ (8 * n) * leNat (bytes.drop n) := by
  induction bytes generalizing n with
  | nil =>
      rw [List.take_nil, List.drop_nil]
      simp [leNat]
  | cons byte bytes ih =>
      cases n with
      | zero => simp [leNat]
      | succ n =>
          rw [List.take_succ_cons, List.drop_succ_cons, leNat, leNat, ih n, Nat.mul_succ, pow_add]
          ring

theorem leNat_take (bytes : List UInt8) (n : Nat) :
    leNat (bytes.take n) = leNat bytes % 2 ^ (8 * n) := by
  rw [← leNat_mod, show (256 : Nat) = 2 ^ 8 by decide, ← pow_mul]

theorem leNat_drop (bytes : List UInt8) (n : Nat) :
    leNat (bytes.drop n) = leNat bytes >>> (8 * n) := by
  have low : leNat (bytes.take n) < 2 ^ (8 * n) := by
    rw [leNat_take]
    exact Nat.mod_lt _ (by positivity)
  rw [Nat.shiftRight_eq_div_pow, leNat_split bytes n, Nat.add_mul_div_left _ _ (by positivity),
    Nat.div_eq_of_lt low, Nat.zero_add]

/-- A read of `size` bytes. -/
theorem leNat_between (bytes : List UInt8) (lo size : Nat) :
    leNat (bytesBetween bytes lo (lo + size)) = leNat bytes >>> (8 * lo) % 2 ^ (8 * size) := by
  rw [bytesBetween, Nat.add_sub_cancel_left, leNat_take, leNat_drop]

theorem leNat_replicate (n : Nat) : leNat (List.replicate n 0) = 0 := by
  induction n with
  | zero => rfl
  | succ n ih =>
      rw [List.replicate_succ, leNat, ih]
      rfl

theorem leNat_lt_bits (bytes : List UInt8) : leNat bytes < 2 ^ (8 * bytes.length) := by
  have small := leNat_lt bytes
  rwa [show (256 : Nat) = 2 ^ 8 by decide, ← pow_mul] at small

theorem leNat_joined (front back : List UInt8) :
    leNat (front ++ back) = leNat front + 2 ^ (8 * front.length) * leNat back := by
  have cut := leNat_split (front ++ back) front.length
  rwa [List.take_left, List.drop_left] at cut

/-- A bit of a buffer past its bytes is clear. -/
theorem leNat_testBit_past {bytes : List UInt8} {p : Nat} (past : 8 * bytes.length ≤ p) :
    (leNat bytes).testBit p = false :=
  Nat.testBit_lt_two_pow ((leNat_lt_bits bytes).trans_le (Nat.pow_le_pow_right (by decide) past))

theorem leNat_joined_testBit (front back : List UInt8) (p : Nat) :
    (leNat (front ++ back)).testBit p =
      if p < 8 * front.length then (leNat front).testBit p
      else (leNat back).testBit (p - 8 * front.length) := by
  rw [leNat_joined, Nat.add_comm, Nat.testBit_two_pow_mul_add _ (leNat_lt_bits front)]

/-- The bits after a part is written over what was there. -/
theorem leNat_overwrite_testBit {bytes part : List UInt8} {start : Nat}
    (fits : start + part.length ≤ bytes.length) (p : Nat) :
    (leNat (overwrite bytes start part)).testBit p =
      if 8 * start ≤ p ∧ p < 8 * (start + part.length) then (leNat part).testBit (p - 8 * start)
      else (leNat bytes).testBit p := by
  have front : (bytes.take start).length = start := List.length_take_of_le (by omega)
  have taken : ∀ n, (leNat (bytes.take n)).testBit p = (decide (p < 8 * n) && (leNat bytes).testBit p) := by
    intro n
    rw [leNat_take, Nat.testBit_mod_two_pow]
  rw [overwrite, leNat_joined_testBit, leNat_joined_testBit, List.length_append, front]
  by_cases before : p < 8 * start
  · rw [if_pos (by omega), if_pos before, if_neg (by omega), taken, decide_eq_true before,
      Bool.true_and]
  · by_cases within : p < 8 * (start + part.length)
    · rw [if_pos within, if_neg before, if_pos ⟨by omega, within⟩]
    · rw [if_neg within, if_neg (by omega), leNat_drop, Nat.testBit_shiftRight]
      congr 1
      omega

/-! ## Or'ed bytes -/

/-- The bits after a byte is or'ed in, which past the buffer it is not. -/
theorem leNat_modify_testBit (bytes : List UInt8) (k : Nat) (b : UInt8) (p : Nat) :
    (leNat (bytes.modify k (· ||| b))).testBit p =
      ((leNat bytes).testBit p ||
        (decide (p < 8 * bytes.length) && (decide (p / 8 = k) && b.toNat.testBit (p % 8)))) := by
  have low := Nat.mod_lt p (show 0 < 8 by decide)
  have split := Nat.div_add_mod p 8
  conv_lhs => rw [← split]
  conv_rhs => rw [← split, Nat.mul_add_div (by decide), Nat.div_eq_of_lt low, Nat.add_zero,
    Nat.mul_add_mod, Nat.mod_mod]
  rw [leNat_testBit _ _ _ low, leNat_testBit _ _ _ low, List.getD_eq_getElem?_getD,
    List.getD_eq_getElem?_getD, List.getElem?_modify]
  generalize p / 8 = i at *
  by_cases here : k = i
  · subst here
    by_cases inside : k < bytes.length
    · rw [List.getElem?_eq_getElem inside, decide_eq_true (show 8 * k + p % 8 < 8 * bytes.length by omega),
        decide_eq_true rfl]
      simp [UInt8.toNat_or, Nat.testBit_or]
    · rw [List.getElem?_eq_none (by omega),
        decide_eq_false (show ¬ 8 * k + p % 8 < 8 * bytes.length by omega)]
      simp
  · rw [decide_eq_false (Ne.symm here)]
    simp [here]

/-- The bits of some bytes moved to a byte's place. -/
theorem moved_testBit (part : List UInt8) (i p : Nat) :
    (leNat part <<< (8 * i)).testBit p =
      (decide (i ≤ p / 8) && (part.getD (p / 8 - i) 0).toNat.testBit (p % 8)) := by
  have low := Nat.mod_lt p (show 0 < 8 by decide)
  have split := Nat.div_add_mod p 8
  rw [Nat.testBit_shiftLeft]
  by_cases past : i ≤ p / 8
  · rw [decide_eq_true (show p ≥ 8 * i by omega), decide_eq_true past,
      ← leNat_testBit part (p / 8 - i) (p % 8) low]
    congr 2
    omega
  · rw [decide_eq_false (show ¬ p ≥ 8 * i by omega), decide_eq_false past, Bool.false_and, Bool.false_and]

/-- The bits after some bytes are or'ed in from a byte on. -/
theorem leNat_orBytes_testBit (part : List UInt8) (first : Nat) : ∀ (j : Nat) (bytes : List UInt8) (p : Nat),
    (leNat ((part.zipIdx j).foldl (fun bytes (b, j) => bytes.modify (first + j) (· ||| b)) bytes)).testBit p =
      ((leNat bytes).testBit p ||
        (decide (p < 8 * bytes.length) && (leNat part <<< (8 * (first + j))).testBit p)) := by
  induction part with
  | nil =>
      intro j bytes p
      rw [List.zipIdx_nil, List.foldl_nil, leNat, Nat.zero_shiftLeft, Nat.zero_testBit, Bool.and_false,
        Bool.or_false]
  | cons b part ih =>
      intro j bytes p
      have later := ih (j + 1) (bytes.modify (first + j) (· ||| b)) p
      rw [leNat_modify_testBit, List.length_modify, moved_testBit] at later
      rw [List.zipIdx_cons, List.foldl_cons, later, moved_testBit]
      by_cases here : p / 8 = first + j
      · rw [here, decide_eq_true rfl, decide_eq_false (show ¬ first + (j + 1) ≤ first + j by omega),
          decide_eq_true (Nat.le_refl _), Nat.sub_self, List.getD_cons_zero]
        simp
      · rw [decide_eq_false here]
        by_cases past : first + j ≤ p / 8
        · rw [decide_eq_true past, decide_eq_true (show first + (j + 1) ≤ p / 8 by omega),
            show p / 8 - (first + j) = p / 8 - (first + (j + 1)) + 1 by omega, List.getD_cons_succ]
          simp
        · rw [decide_eq_false past, decide_eq_false (show ¬ first + (j + 1) ≤ p / 8 by omega)]
          simp

theorem orBytes_length (part : List UInt8) (first : Nat) : ∀ (j : Nat) (bytes : List UInt8),
    ((part.zipIdx j).foldl (fun bytes (b, j) => bytes.modify (first + j) (· ||| b)) bytes).length =
      bytes.length := by
  induction part with
  | nil =>
      intro j bytes
      rfl
  | cons b part ih =>
      intro j bytes
      rw [List.zipIdx_cons, List.foldl_cons, ih, List.length_modify]

end Lexindex
