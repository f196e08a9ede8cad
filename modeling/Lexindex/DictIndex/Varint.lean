import Mathlib
import Lexindex.Lib.Bytes

/-!
# Variable-length numbers

Seven bits a byte, low ones first, the top bit set on every byte but the last.  A
number that would not fit 64 bits, or is cut short, is refused; what was written is
read back from wherever it stands.
-/

set_option autoImplicit false

namespace Lexindex

def putVarint (v : Nat) : List UInt8 :=
  if v < 0x80 then [UInt8.ofNat v]
  else (UInt8.ofNat v ||| 0x80) :: putVarint (v / 128)

/-- The loop of `getVarint`, with `v` read so far and the next part at `shift`. -/
def getVarintFrom : List UInt8 → Nat → Nat → Option (Nat × List UInt8)
  | [], _, _ => none
  | b :: rest, v, shift =>
      let part := b.toNat % 128
      if 64 ≤ shift ∨ (part <<< shift % 2 ^ 64) >>> shift ≠ part then none
      else
        let v := v ||| part <<< shift
        if b < 0x80 then some (v, rest) else getVarintFrom rest v (shift + 7)

def getVarint (data : List UInt8) : Option (Nat × List UInt8) :=
  getVarintFrom data 0 0

/-- The number at `at` in `data`, and where it ends. -/
def varintAt (data : List UInt8) (at_ : Nat) : Option (Nat × Nat) :=
  match data[at_]? with
  | none => none
  | some b =>
      if b < 0x80 then some (b.toNat, at_ + 1)
      else (getVarint (data.drop at_)).map fun read => (read.1, data.length - read.2.length)

theorem putVarint_small {v : Nat} (small : v < 0x80) : putVarint v = [UInt8.ofNat v] := by
  rw [putVarint, if_pos small]

theorem putVarint_large {v : Nat} (large : 0x80 ≤ v) :
    putVarint v = (UInt8.ofNat v ||| 0x80) :: putVarint (v / 128) := by
  rw [putVarint, if_neg (Nat.not_lt.mpr large)]

theorem putVarint_ne_nil (v : Nat) : putVarint v ≠ [] := by
  rw [putVarint]
  split <;> simp

theorem more_toNat (v : Nat) : (UInt8.ofNat v ||| 0x80).toNat = v % 128 + 128 := by
  rw [UInt8.toNat_or, UInt8.toNat_ofNat']
  have small : v % 2 ^ 8 < 256 := Nat.mod_lt _ (by decide)
  have halves : v % 128 = v % 2 ^ 8 % 128 := by omega
  rw [halves]
  generalize v % 2 ^ 8 = byte at small
  revert byte
  decide +kernel

/-- A part in range is read back from where it was shifted to. -/
theorem shifted_part {part shift : Nat} (fits : part * 2 ^ shift < 2 ^ 64) :
    (part <<< shift % 2 ^ 64) >>> shift = part := by
  rw [Nat.shiftLeft_eq, Nat.mod_eq_of_lt fits, Nat.shiftRight_eq_div_pow,
    Nat.mul_div_cancel _ (Nat.two_pow_pos shift)]

theorem or_shifted {v part shift : Nat} (low : v < 2 ^ shift) :
    v ||| part <<< shift = v + part * 2 ^ shift := by
  rw [Nat.or_comm, ← Nat.shiftLeft_add_eq_or_of_lt low, Nat.shiftLeft_eq, Nat.add_comm]

theorem getVarintFrom_putVarint (x : Nat) (rest : List UInt8) {v shift : Nat}
    (low : v < 2 ^ shift) (room : shift < 64) (fits : x * 2 ^ shift < 2 ^ 64) :
    getVarintFrom (putVarint x ++ rest) v shift = some (v + x * 2 ^ shift, rest) := by
  induction x using Nat.strong_induction_on generalizing v shift with
  | _ x ih =>
      by_cases small : x < 0x80
      · rw [putVarint_small small, List.singleton_append, getVarintFrom]
        have byteExact : (UInt8.ofNat x).toNat % 128 = x := by
          rw [UInt8.toNat_ofNat']
          omega
        have last : UInt8.ofNat x < 0x80 := by
          rw [UInt8.lt_iff_toNat_lt, UInt8.toNat_ofNat']
          change x % 2 ^ 8 < 128
          omega
        have fine : ¬ (64 ≤ shift ∨ (x <<< shift % 2 ^ 64) >>> shift ≠ x) := by
          rw [shifted_part fits]
          omega
        simp only [byteExact]
        rw [if_neg fine, if_pos last, or_shifted low]
      · have large : 0x80 ≤ x := Nat.not_lt.mp small
        rw [putVarint_large large, List.cons_append, getVarintFrom]
        have byteExact : (UInt8.ofNat x ||| 0x80).toNat % 128 = x % 128 := by
          rw [more_toNat]
          omega
        have further : ¬ (UInt8.ofNat x ||| 0x80) < 0x80 := by
          rw [UInt8.lt_iff_toNat_lt, more_toNat]
          change ¬ x % 128 + 128 < 128
          omega
        have split : x * 2 ^ shift = x % 128 * 2 ^ shift + x / 128 * 2 ^ (shift + 7) := by
          rw [pow_add]
          conv_lhs => rw [← Nat.mod_add_div x 128]
          ring
        have partFits : x % 128 * 2 ^ shift < 2 ^ 64 := by omega
        have restFits : x / 128 * 2 ^ (shift + 7) < 2 ^ 64 := by omega
        have fine : ¬ (64 ≤ shift ∨ ((x % 128) <<< shift % 2 ^ 64) >>> shift ≠ x % 128) := by
          rw [shifted_part partFits]
          omega
        have nextRoom : shift + 7 < 64 := by
          have one : 1 ≤ x / 128 := by omega
          have power : 2 ^ (shift + 7) < 2 ^ 64 :=
            Nat.lt_of_le_of_lt (Nat.le_mul_of_pos_left _ one) restFits
          exact (Nat.pow_lt_pow_iff_right (by decide)).mp power
        have nextLow : v + x % 128 * 2 ^ shift < 2 ^ (shift + 7) := by
          have partSmall : x % 128 ≤ 127 := by omega
          have scaled := Nat.mul_le_mul_right (2 ^ shift) partSmall
          rw [pow_add]
          omega
        simp only [byteExact]
        rw [if_neg fine, if_neg further, or_shifted low,
          ih (x / 128) (by omega) nextLow nextRoom restFits, Nat.add_assoc, ← split]

theorem getVarint_putVarint {x : Nat} (fits : x < 2 ^ 64) (rest : List UInt8) :
    getVarint (putVarint x ++ rest) = some (x, rest) := by
  have read := @getVarintFrom_putVarint x rest 0 0 (by decide) (by decide) (by simpa using fits)
  rw [getVarint, read, Nat.zero_add, Nat.pow_zero, Nat.mul_one]

theorem varintAt_putVarint {x : Nat} (fits : x < 2 ^ 64) (front rest : List UInt8) :
    varintAt (front ++ (putVarint x ++ rest)) front.length =
      some (x, front.length + (putVarint x).length) := by
  by_cases small : x < 0x80
  · rw [putVarint_small small, varintAt]
    have byteExact : (UInt8.ofNat x).toNat = x := by
      rw [UInt8.toNat_ofNat']
      omega
    have last : UInt8.ofNat x < 0x80 := by
      rw [UInt8.lt_iff_toNat_lt, byteExact]
      exact small
    simp [last, byteExact]
  · have large : 0x80 ≤ x := Nat.not_lt.mp small
    have further : ¬ (UInt8.ofNat x ||| 0x80) < 0x80 := by
      rw [UInt8.lt_iff_toNat_lt, more_toNat]
      change ¬ x % 128 + 128 < 128
      omega
    have here : (front ++ (putVarint x ++ rest))[front.length]? =
        some (UInt8.ofNat x ||| 0x80) := by
      rw [putVarint_large large]
      simp
    have dropped : (front ++ (putVarint x ++ rest)).drop front.length = putVarint x ++ rest :=
      List.drop_left
    simp only [varintAt, here, if_neg further, dropped, getVarint_putVarint fits, Option.map_some]
    simp only [List.length_append]
    congr 2
    omega

end Lexindex
