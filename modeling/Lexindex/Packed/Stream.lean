import Mathlib
import Lexindex.Fsst.TrainSound
import Lexindex.Packed.Alphabet

/-!
# Codes in a stream

The codes written are the digits of the number the stream's bytes are, each of as many bits as a code
takes, so that a code is read at any bit from the word that stands there.
-/

set_option autoImplicit false

namespace Lexindex.Packed

/-- The codes as digits of one number, the first the lowest. -/
def digitsValue (width : Nat) : List Nat → Nat
  | [] => 0
  | code :: rest => code + 2 ^ width * digitsValue width rest

theorem digitsValue_append (width : Nat) (front back : List Nat) :
    digitsValue width (front ++ back) =
      digitsValue width front + 2 ^ (width * front.length) * digitsValue width back := by
  induction front with
  | nil => simp [digitsValue]
  | cons code front ih =>
      rw [List.cons_append, digitsValue, digitsValue, ih, List.length_cons, Nat.mul_succ, pow_add]
      ring

theorem digitsValue_lt {width : Nat} (codes : List Nat) (small : ∀ c ∈ codes, c < 2 ^ width) :
    digitsValue width codes < 2 ^ (width * codes.length) := by
  induction codes with
  | nil => simp [digitsValue]
  | cons code codes ih =>
      obtain ⟨here, later⟩ := List.forall_mem_cons.mp small
      have below := ih later
      have room : 2 ^ width * (digitsValue width codes + 1) ≤
          2 ^ width * 2 ^ (width * codes.length) := Nat.mul_le_mul_left _ below
      rw [mul_add, mul_one] at room
      rw [digitsValue, List.length_cons, Nat.mul_succ, pow_add]
      rw [mul_comm (2 ^ (width * codes.length))]
      omega

/-- A digit is read back from its place. -/
theorem digitsValue_digit {width : Nat} (codes : List Nat) (small : ∀ c ∈ codes, c < 2 ^ width)
    {i code : Nat} (here : codes[i]? = some code) :
    digitsValue width codes / 2 ^ (width * i) % 2 ^ width = code := by
  induction codes generalizing i with
  | nil => cases here
  | cons first codes ih =>
      obtain ⟨fits, later⟩ := List.forall_mem_cons.mp small
      cases i with
      | zero =>
          rw [List.getElem?_cons_zero, Option.some.injEq] at here
          rw [digitsValue, Nat.mul_zero, pow_zero, Nat.div_one, Nat.add_mul_mod_self_left,
            Nat.mod_eq_of_lt fits, here]
      | succ i =>
          rw [List.getElem?_cons_succ] at here
          rw [digitsValue, Nat.mul_succ, Nat.add_comm (width * i), pow_add, ← Nat.div_div_eq_div_mul,
            Nat.add_mul_div_left _ _ (Nat.two_pow_pos width), Nat.div_eq_of_lt fits, Nat.zero_add]
          exact ih later here

/-! ## Writing -/

/-- The number written so far, and that what is left of it is less than a byte. -/
structure Bits.Holds (w : Bits) (value : Nat) : Prop where
  value_eq : leNat w.out + 256 ^ w.out.length * w.bits = value
  small : w.bits < 2 ^ w.used
  short : w.used < 8

theorem toUInt8_toNat (v : Nat) : v.toUInt8.toNat = v % 256 :=
  UInt8.toNat_ofNat' ..

theorem leNat_snoc (front : List UInt8) (b : UInt8) :
    leNat (front ++ [b]) = leNat front + 256 ^ front.length * b.toNat := by
  rw [Fsst.leNat_append]
  simp [leNat]

/-- Spilling moves whole bytes out and changes no bit. -/
theorem Bits.spill_spec (left : Nat) : ∀ {w : Bits} {value : Nat},
    leNat w.out + 256 ^ w.out.length * w.bits = value → w.bits < 2 ^ w.used → w.used < 8 * left + 8 →
      (spill left w).Holds value ∧ (spill left w).position = w.position ∧
        (spill left w).len = w.len := by
  induction left with
  | zero =>
      intro w value held small short
      rw [spill]
      exact ⟨⟨held, small, by omega⟩, rfl, rfl⟩
  | succ left ih =>
      intro w value held small short
      rw [spill]
      split
      · next whole =>
        have parts := Nat.div_add_mod w.bits 256
        have shifted : w.bits >>> 8 = w.bits / 256 := Nat.shiftRight_eq_div_pow w.bits 8
        have power : 2 ^ w.used = 2 ^ (w.used - 8) * 256 := by
          rw [show (256 : Nat) = 2 ^ 8 from rfl, ← pow_add, Nat.sub_add_cancel whole]
        have next := @ih { w with
          out := w.out ++ [w.bits.toUInt8], bits := w.bits >>> 8, used := w.used - 8 } value
          (by
            simp only
            rw [leNat_snoc, toUInt8_toNat, List.length_append, List.length_singleton, shifted,
              ← held, pow_succ]
            calc leNat w.out + 256 ^ w.out.length * (w.bits % 256) +
                  256 ^ w.out.length * 256 * (w.bits / 256)
                = leNat w.out + 256 ^ w.out.length * (256 * (w.bits / 256) + w.bits % 256) := by
                  ring
              _ = leNat w.out + 256 ^ w.out.length * w.bits := by rw [parts])
          (by
            simp only
            rw [shifted]
            rw [power] at small
            exact Nat.div_lt_of_lt_mul (by rwa [mul_comm]))
          (by simp only; omega)
        refine ⟨next.1, next.2.1.trans ?_, next.2.2⟩
        simp only [position, List.length_append, List.length_singleton]
        omega
      · exact ⟨⟨held, small, by omega⟩, rfl, rfl⟩

theorem Bits.push_spec {w : Bits} {value width code : Nat} (held : w.Holds value)
    (narrow : width ≤ 57) (fits : code < 2 ^ width) :
    (w.push width code).Holds (value + 2 ^ w.position * code) ∧
      (w.push width code).position = w.position + width ∧
      (w.push width code).len = w.len + 1 := by
  have short := held.short
  have room : code <<< w.used < 2 ^ (w.used + width) := by
    rw [Nat.shiftLeft_eq, pow_add, mul_comm]
    exact Nat.mul_lt_mul_of_pos_left fits (Nat.two_pow_pos _)
  have word : 2 ^ (w.used + width) ≤ 2 ^ 64 := Nat.pow_le_pow_right (by omega) (by omega)
  have or_ : w.bits ||| code <<< w.used = w.bits + 2 ^ w.used * code := by
    rw [Nat.or_comm, ← Nat.shiftLeft_add_eq_or_of_lt held.small, Nat.shiftLeft_eq]
    ring
  rw [push]
  rw [Nat.mod_eq_of_lt (Nat.lt_of_lt_of_le room word), or_]
  have spilled := @spill_spec ((w.used + width) / 8)
    { w with bits := w.bits + 2 ^ w.used * code, used := w.used + width, len := w.len + 1 }
    (value + 2 ^ w.position * code)
    (by
      simp only
      rw [← held.value_eq, position, pow_add, pow_mul', show (2 : Nat) ^ 8 = 256 from rfl]
      ring)
    (by
      simp only
      have step : 2 ^ w.used * (code + 1) ≤ 2 ^ w.used * 2 ^ width := Nat.mul_le_mul_left _ fits
      rw [mul_add, mul_one] at step
      rw [pow_add]
      have below := held.small
      omega)
    (by simp only; omega)
  refine ⟨spilled.1, spilled.2.1.trans ?_, spilled.2.2⟩
  simp only [position]
  omega

/-- Codes in a row. -/
theorem Bits.pushes_spec {width : Nat} (narrow : width ≤ 57) (codes : List Nat) :
    ∀ {w : Bits} {value : Nat}, w.Holds value → (∀ c ∈ codes, c < 2 ^ width) →
      (codes.foldl (fun w code => w.push width code) w).Holds
          (value + 2 ^ w.position * digitsValue width codes) ∧
        (codes.foldl (fun w code => w.push width code) w).position =
          w.position + width * codes.length ∧
        (codes.foldl (fun w code => w.push width code) w).len = w.len + codes.length := by
  induction codes with
  | nil =>
      intro w value held _
      rw [List.foldl_nil, digitsValue, Nat.mul_zero, Nat.add_zero]
      exact ⟨held, rfl, rfl⟩
  | cons code codes ih =>
      intro w value held small
      obtain ⟨here, later⟩ := List.forall_mem_cons.mp small
      obtain ⟨pushed, position, len⟩ := push_spec held narrow here
      obtain ⟨holds, positions, lens⟩ := ih pushed later
      rw [List.foldl_cons]
      refine ⟨?_, ?_, ?_⟩
      · rw [position, pow_add] at holds
        rw [digitsValue]
        convert holds using 1
        ring
      · rw [positions, position, List.length_cons]
        ring
      · rw [lens, len, List.length_cons]
        omega

/-- What is drained is the number written, over as many bytes as its bits take. -/
theorem Bits.drain_spec {w : Bits} {value : Nat} (held : w.Holds value) :
    leNat w.drain = value ∧ w.position ≤ w.drain.length * 8 := by
  have short := held.short
  rw [drain]
  split
  · next some_ =>
    have byte : w.bits < 256 := by
      have power : 2 ^ w.used ≤ 2 ^ 8 := Nat.pow_le_pow_right (by omega) (by omega)
      exact Nat.lt_of_lt_of_le held.small power
    rw [leNat_snoc, toUInt8_toNat, Nat.mod_eq_of_lt byte, List.length_append,
      List.length_singleton, position]
    exact ⟨held.value_eq, by omega⟩
  · next none_ =>
    have zero : w.used = 0 := by omega
    have small := held.small
    rw [zero, pow_zero] at small
    have empty : w.bits = 0 := by omega
    have value_eq := held.value_eq
    rw [empty, Nat.mul_zero, Nat.add_zero] at value_eq
    rw [position, zero]
    exact ⟨value_eq, by omega⟩

/-! ## Reading -/

/-- The word at a byte is the number's from there. -/
theorem wordFrom_eq (bytes : List UInt8) (byte : Nat) :
    wordFrom bytes byte = leNat bytes / 256 ^ byte % 256 ^ 8 := by
  have dropped : leNat (bytes.drop byte) = leNat bytes / 256 ^ byte := by
    by_cases inside : byte ≤ bytes.length
    · have split := List.take_append_drop byte bytes
      have length : (bytes.take byte).length = byte := by
        rw [List.length_take]
        omega
      have small := leNat_lt (bytes.take byte)
      rw [length] at small
      conv_rhs => rw [← split, Fsst.leNat_append, length]
      rw [Nat.add_mul_div_left _ _ (by positivity), Nat.div_eq_of_lt small, Nat.zero_add]
    · have small := leNat_lt bytes
      have power : 256 ^ bytes.length ≤ 256 ^ byte := Nat.pow_le_pow_right (by omega) (by omega)
      rw [List.drop_eq_nil_of_le (by omega), Nat.div_eq_of_lt (by omega)]
      rfl
  rw [wordFrom, ← dropped]
  split
  · rw [leNat_mod]
  · next short =>
    rw [Fsst.leNat_append, Fsst.leNat_zeros, Nat.mul_zero, Nat.add_zero, Nat.mod_eq_of_lt]
    refine Nat.lt_of_lt_of_le (leNat_lt _) ?_
    exact Nat.pow_le_pow_right (by omega) (by omega)

/-- Some bits of a number are those of the word at their byte. -/
theorem word_bits (value : Nat) {bit width : Nat} (fits : bit % 8 + width ≤ 64) :
    value / 256 ^ (bit / 8) % 256 ^ 8 / 2 ^ (bit % 8) % 2 ^ width =
      value / 2 ^ bit % 2 ^ width := by
  have place : 2 ^ bit = 256 ^ (bit / 8) * 2 ^ (bit % 8) := by
    rw [show (256 : Nat) = 2 ^ 8 from rfl, ← pow_mul, ← pow_add, Nat.div_add_mod]
  rw [place, ← Nat.div_div_eq_div_mul, show (256 : Nat) ^ 8 = 2 ^ 64 from rfl]
  generalize value / 256 ^ (bit / 8) = v
  have whole : 2 ^ 64 = 2 ^ (bit % 8) * 2 ^ (64 - bit % 8) := by
    rw [← pow_add]
    congr 1
    omega
  have divides : 2 ^ width ∣ 2 ^ (64 - bit % 8) := pow_dvd_pow 2 (by omega)
  rw [whole, Nat.mod_mul_right_div_self, Nat.mod_mod_of_dvd _ divides]

/-- A code inside the stream. -/
theorem Codes.code_eq {codes : Codes} {i : Nat} (narrow : codes.width ≤ 8) (here : i < codes.len)
    (inside : codes.start + i * codes.width + codes.width ≤ codes.bytes.length * 8) :
    codes.code i =
      some (leNat codes.bytes / 2 ^ (codes.start + i * codes.width) % 2 ^ codes.width) := by
  rw [code, if_neg (by omega)]
  simp only
  rw [if_neg (by omega), if_neg (by omega), top, Nat.and_two_pow_sub_one_eq_mod,
    Nat.shiftRight_eq_div_pow, wordFrom_eq, word_bits _ (by omega)]

end Lexindex.Packed
