import Mathlib

/-!
# Little-endian words in byte strings

A byte string is a list of bytes.  `leNat` reads a little-endian number of any
width, `leBytes` writes one, and `leWords` cuts a section into words of equal
width, as a loader does that knows how many there are.
-/

set_option autoImplicit false

namespace Lexindex

def leNat : List UInt8 → Nat
  | [] => 0
  | byte :: rest => byte.toNat + 256 * leNat rest

def leBytes : Nat → Nat → List UInt8
  | 0, _ => []
  | width + 1, value => UInt8.ofNat (value % 256) :: leBytes width (value / 256)

/-- `count` words of `width` bytes each, from the front of `bytes`. -/
def leWords (width : Nat) : Nat → List UInt8 → List Nat
  | 0, _ => []
  | count + 1, bytes => leNat (bytes.take width) :: leWords width count (bytes.drop width)

theorem leNat_lt (bytes : List UInt8) : leNat bytes < 256 ^ bytes.length := by
  induction bytes with
  | nil => simp [leNat]
  | cons byte rest ih =>
      have byteLt : byte.toNat < 256 := byte.toNat_lt
      rw [leNat, List.length_cons, pow_succ]
      omega

theorem leNat_take_lt (width : Nat) (bytes : List UInt8) :
    leNat (bytes.take width) < 256 ^ width := by
  refine Nat.lt_of_lt_of_le (leNat_lt _) ?_
  exact Nat.pow_le_pow_right (by decide) (List.length_take_le width bytes)

@[simp] theorem leBytes_length (width value : Nat) : (leBytes width value).length = width := by
  induction width generalizing value with
  | zero => rfl
  | succ width ih => simp [leBytes, ih]

theorem leNat_leBytes (width value : Nat) (fits : value < 256 ^ width) :
    leNat (leBytes width value) = value := by
  induction width generalizing value with
  | zero =>
      have zero : value = 0 := by simpa using fits
      simp [leBytes, leNat, zero]
  | succ width ih =>
      have restFits : value / 256 < 256 ^ width := by
        rw [pow_succ] at fits
        omega
      rw [leBytes, leNat, ih _ restFits]
      have byteExact : (UInt8.ofNat (value % 256)).toNat = value % 256 := by
        simp
      rw [byteExact]
      omega

@[simp] theorem leWords_length (width count : Nat) (bytes : List UInt8) :
    (leWords width count bytes).length = count := by
  induction count generalizing bytes with
  | zero => rfl
  | succ count ih => simp [leWords, ih]

theorem leWords_lt (width count : Nat) (bytes : List UInt8) :
    ∀ word ∈ leWords width count bytes, word < 256 ^ width := by
  induction count generalizing bytes with
  | zero => simp [leWords]
  | succ count ih =>
      intro word member
      rw [leWords, List.mem_cons] at member
      rcases member with rfl | member
      · exact leNat_take_lt width bytes
      · exact ih _ word member

theorem leWords_flatMap {width : Nat} (words : List Nat) (rest : List UInt8)
    (fits : ∀ w ∈ words, w < 256 ^ width) :
    leWords width words.length (words.flatMap (leBytes width) ++ rest) = words := by
  induction words with
  | nil => rfl
  | cons w words ih =>
      obtain ⟨wFits, fits⟩ := List.forall_mem_cons.mp fits
      have size : width = (leBytes width w).length := (leBytes_length ..).symm
      rw [List.length_cons, leWords, List.flatMap_cons, List.append_assoc]
      have front : (leBytes width w ++ (words.flatMap (leBytes width) ++ rest)).take width =
          leBytes width w := by
        conv_lhs => rw [size]
        simp
      have after : (leBytes width w ++ (words.flatMap (leBytes width) ++ rest)).drop width =
          words.flatMap (leBytes width) ++ rest := by
        conv_lhs => rw [size]
        simp
      rw [front, after, leNat_leBytes width w wFits, ih fits]

theorem flatMap_leBytes_length (width : Nat) (words : List Nat) :
    (words.flatMap (leBytes width)).length = width * words.length := by
  induction words with
  | nil => rfl
  | cons w words ih =>
      rw [List.flatMap_cons, List.length_append, leBytes_length, ih, List.length_cons]
      ring

theorem leBytes_leNat (bytes : List UInt8) : leBytes bytes.length (leNat bytes) = bytes := by
  induction bytes with
  | nil => rfl
  | cons byte rest ih =>
      have byteLt : byte.toNat < 256 := byte.toNat_lt
      have low : (byte.toNat + 256 * leNat rest) % 256 = byte.toNat := by omega
      have high : (byte.toNat + 256 * leNat rest) / 256 = leNat rest := by omega
      rw [List.length_cons, leNat, leBytes, low, high, ih, UInt8.ofNat_toNat]

/-- A field is read past what stands before it. -/
theorem leNat_past {front tail : List UInt8} (size k width : Nat) (sized : front.length = size) :
    leNat (((front ++ tail).drop (size + k)).take width) = leNat ((tail.drop k).take width) := by
  rw [← List.drop_drop, ← sized, List.drop_left]

theorem leNat_here {width value : Nat} {tail : List UInt8} (fits : value < 256 ^ width) :
    leNat ((leBytes width value ++ tail).take width) = value := by
  rw [List.take_left' (leBytes_length ..), leNat_leBytes width value fits]

theorem leNat_mod (bytes : List UInt8) (n : Nat) :
    leNat bytes % 256 ^ n = leNat (bytes.take n) := by
  induction bytes generalizing n with
  | nil => simp [leNat]
  | cons byte rest ih =>
      cases n with
      | zero => simp [leNat, Nat.mod_one]
      | succ n =>
          have small : byte.toNat < 256 := byte.toNat_lt
          have split := Nat.div_add_mod (leNat rest) (256 ^ n)
          have below := Nat.mod_lt (leNat rest) (show 0 < 256 ^ n by positivity)
          rw [List.take_succ_cons, leNat, leNat, ← ih n, pow_succ']
          have parts : byte.toNat + 256 * leNat rest =
              byte.toNat + 256 * (leNat rest % 256 ^ n) +
                256 * 256 ^ n * (leNat rest / 256 ^ n) := by
            rw [mul_assoc, add_assoc, ← mul_add]
            omega
          rw [parts, Nat.add_mul_mod_self_left]
          apply Nat.mod_eq_of_lt
          omega

end Lexindex
