import Mathlib

/-!
# Bytes side by side

A number as its bytes, the lowest first.  Where no byte carries into the next, sums, differences and
masks of such numbers are those of their bytes, so a few steps on a word count the set bits of
all its bytes at once.
-/

set_option autoImplicit false

namespace Lexindex

/-- The number some bytes make. -/
def lanes : List Nat → Nat
  | [] => 0
  | b :: bs => b + 2 ^ 8 * lanes bs

/-- The low `n` bytes of a number. -/
def lanesOf : Nat → Nat → List Nat
  | 0, _ => []
  | n + 1, x => x % 2 ^ 8 :: lanesOf n (x / 2 ^ 8)

@[simp] theorem lanesOf_length (n x : Nat) : (lanesOf n x).length = n := by
  induction n generalizing x with
  | zero => rfl
  | succ n ih => rw [lanesOf, List.length_cons, ih]

theorem lanesOf_lt (n x : Nat) : ∀ b ∈ lanesOf n x, b < 2 ^ 8 := by
  induction n generalizing x with
  | zero =>
      intro b member
      cases member
  | succ n ih =>
      intro b member
      rcases List.mem_cons.mp member with rfl | later
      · exact Nat.mod_lt x (by decide)
      · exact ih _ b later

theorem lanes_lanesOf (n x : Nat) (fits : x < 2 ^ (8 * n)) : lanes (lanesOf n x) = x := by
  induction n generalizing x with
  | zero =>
      have zero : x = 0 := by simpa using fits
      rw [zero]
      rfl
  | succ n ih =>
      have split := Nat.div_add_mod x (2 ^ 8)
      have small : x / 2 ^ 8 < 2 ^ (8 * n) := by
        apply Nat.div_lt_of_lt_mul
        rwa [← pow_add, Nat.add_comm, ← Nat.mul_succ]
      rw [lanesOf, lanes, ih _ small]
      omega

/-! ## Bytewise steps -/

variable {bs : List Nat} {f g : Nat → Nat}

theorem lanes_add (bs : List Nat) (f g : Nat → Nat) :
    lanes (bs.map f) + lanes (bs.map g) = lanes (bs.map fun b => f b + g b) := by
  induction bs with
  | nil => rfl
  | cons b bs ih =>
      rw [List.map_cons, List.map_cons, List.map_cons, lanes, lanes, lanes, ← ih]
      omega

theorem lanes_le (below : ∀ b ∈ bs, g b ≤ f b) : lanes (bs.map g) ≤ lanes (bs.map f) := by
  induction bs with
  | nil => exact Nat.le_refl 0
  | cons b bs ih =>
      have here := below b List.mem_cons_self
      have later := ih fun c member => below c (List.mem_cons_of_mem _ member)
      rw [List.map_cons, List.map_cons, lanes, lanes]
      omega

theorem lanes_sub (below : ∀ b ∈ bs, g b ≤ f b) :
    lanes (bs.map f) - lanes (bs.map g) = lanes (bs.map fun b => f b - g b) := by
  have whole := lanes_add bs (fun b => f b - g b) g
  have same : (bs.map fun b => f b - g b + g b) = bs.map f :=
    List.map_congr_left fun b member => Nat.sub_add_cancel (below b member)
  rw [same] at whole
  omega

/-- A mask with one byte repeated, past a shift that it clears what comes over from the next byte of. -/
theorem lanes_shift_and {s m : Nat} (room : m < 2 ^ (8 - s)) (short : s ≤ 8) (small : ∀ b ∈ bs, f b < 2 ^ 8) :
    lanes (bs.map f) >>> s &&& lanes (bs.map fun _ => m) = lanes (bs.map fun b => f b >>> s &&& m) := by
  induction bs with
  | nil =>
      rw [List.map_nil, List.map_nil, lanes, Nat.and_zero]
      rfl
  | cons b bs ih =>
      have here := small b List.mem_cons_self
      have later := ih fun c member => small c (List.mem_cons_of_mem _ member)
      have byte : m < 2 ^ 8 := room.trans_le (Nat.pow_le_pow_right (by decide) (by omega))
      have head : f b >>> s &&& m < 2 ^ 8 := Nat.and_le_right.trans_lt byte
      rw [List.map_cons, List.map_cons, List.map_cons, lanes, lanes, lanes, ← later]
      refine Nat.eq_of_testBit_eq fun p => ?_
      rw [Nat.add_comm, Nat.add_comm m, Nat.add_comm (f b >>> s &&& m), Nat.testBit_and, Nat.testBit_shiftRight,
        Nat.testBit_two_pow_mul_add _ here, Nat.testBit_two_pow_mul_add _ byte,
        Nat.testBit_two_pow_mul_add _ head, Nat.testBit_and, Nat.testBit_and, Nat.testBit_shiftRight,
        Nat.testBit_shiftRight]
      by_cases low : p < 8
      · rw [if_pos low, if_pos low]
        by_cases within : s + p < 8
        · rw [if_pos within]
        · have clear : m.testBit p = false :=
            Nat.testBit_lt_two_pow (room.trans_le (Nat.pow_le_pow_right (by decide) (by omega)))
          rw [clear, Bool.and_false, Bool.and_false]
      · rw [if_neg (by omega), if_neg low, if_neg low]
        congr 2
        omega

theorem lanes_and {m : Nat} (byte : m < 2 ^ 8) (small : ∀ b ∈ bs, f b < 2 ^ 8) :
    lanes (bs.map f) &&& lanes (bs.map fun _ => m) = lanes (bs.map fun b => f b &&& m) := by
  have masked := lanes_shift_and (s := 0) byte (by decide) small
  simpa only [Nat.shiftRight_zero] using masked

/-! ## Set bits of every byte -/

/-- The set bits of a byte, from the lowest. -/
def onesInByte (b : Nat) : List Nat :=
  (List.range 8).filter fun bit => b.testBit bit

/-- Pairs of bits summed, then nibbles. -/
def pairSums (b : Nat) : Nat :=
  b - (b >>> 1 &&& 0x55)

def nibbleSums (b : Nat) : Nat :=
  (pairSums b &&& 0x33) + (pairSums b >>> 2 &&& 0x33)

theorem byteSums : ∀ b < 2 ^ 8, b >>> 1 &&& 0x55 ≤ b ∧ pairSums b < 2 ^ 8 ∧ nibbleSums b % 16 ≤ 4 ∧
    nibbleSums b / 16 ≤ 4 ∧ nibbleSums b % 16 + nibbleSums b / 16 = (onesInByte b).length := by
  decide +kernel

/-- The nibbles of every byte summed into its low one. -/
theorem lanes_nibbles (few : ∀ b ∈ bs, f b % 16 ≤ 4 ∧ f b / 16 ≤ 4) :
    (lanes (bs.map f) + lanes (bs.map f) >>> 4 &&& lanes (bs.map fun _ => 0x0F)) =
        lanes (bs.map fun b => f b % 16 + f b / 16) ∧
      lanes (bs.map f) % 16 ≤ 4 := by
  induction bs with
  | nil =>
      rw [List.map_nil, List.map_nil, lanes, Nat.and_zero]
      exact ⟨rfl, Nat.zero_le 4⟩
  | cons b bs ih =>
      have here := few b List.mem_cons_self
      obtain ⟨later, first⟩ := ih fun c member => few c (List.mem_cons_of_mem _ member)
      rw [List.map_cons, List.map_cons, List.map_cons, lanes, lanes, lanes, ← later]
      generalize lanes (bs.map f) = n at *
      generalize lanes (bs.map fun _ => 0x0F) = m at *
      have parts : f b + 2 ^ 8 * n + (f b + 2 ^ 8 * n) >>> 4 =
          2 ^ 8 * (n + n >>> 4) + (f b + f b / 16 + 16 * (n % 16)) := by
        rw [Nat.shiftRight_eq_div_pow, Nat.shiftRight_eq_div_pow]
        omega
      refine ⟨?_, by omega⟩
      have low : f b + f b / 16 + 16 * (n % 16) < 2 ^ 8 := by omega
      have nibble : f b % 16 + f b / 16 < 2 ^ 8 := by omega
      rw [parts]
      refine Nat.eq_of_testBit_eq fun p => ?_
      rw [Nat.add_comm 15, Nat.add_comm (f b % 16 + f b / 16), Nat.testBit_and,
        Nat.testBit_two_pow_mul_add _ low, Nat.testBit_two_pow_mul_add _ (by decide : 15 < 2 ^ 8),
        Nat.testBit_two_pow_mul_add _ nibble]
      by_cases short : p < 8
      · rw [if_pos short, if_pos short, if_pos short, ← Nat.testBit_and,
          show (15 : Nat) = 2 ^ 4 - 1 by decide, Nat.and_two_pow_sub_one_eq_mod]
        congr 1
        omega
      · rw [if_neg short, if_neg short, if_neg short, ← Nat.testBit_and]

theorem lanes_pairs (small : ∀ b ∈ bs, b < 2 ^ 8) :
    lanes bs - (lanes bs >>> 1 &&& lanes (bs.map fun _ => 0x55)) = lanes (bs.map pairSums) := by
  have own : lanes bs = lanes (bs.map fun b => b) := by rw [List.map_id']
  rw [own, lanes_shift_and (by decide) (by decide) small,
    lanes_sub fun b member => (byteSums b (small b member)).1]
  rfl

theorem lanes_nibbleSums (small : ∀ b ∈ bs, b < 2 ^ 8) :
    (lanes (bs.map pairSums) &&& lanes (bs.map fun _ => 0x33)) +
      (lanes (bs.map pairSums) >>> 2 &&& lanes (bs.map fun _ => 0x33)) = lanes (bs.map nibbleSums) := by
  have bytes := fun b member => (byteSums b (small b member)).2.1
  rw [lanes_and (by decide) bytes, lanes_shift_and (by decide) (by decide) bytes, lanes_add]
  rfl

/-- The set bits of every byte counted in it. -/
theorem lanes_counted (small : ∀ b ∈ bs, b < 2 ^ 8) :
    (lanes (bs.map nibbleSums) + lanes (bs.map nibbleSums) >>> 4 &&& lanes (bs.map fun _ => 0x0F)) =
      lanes (bs.map fun b => (onesInByte b).length) := by
  have sums := fun b member => (byteSums b (small b member)).2.2
  rw [(lanes_nibbles fun b member => ⟨(sums b member).1, (sums b member).2.1⟩).1]
  congr 1
  exact List.map_congr_left fun b member => (sums b member).2.2

theorem lanes_lt (small : ∀ b ∈ bs, b < 2 ^ 8) : lanes bs < 2 ^ (8 * bs.length) := by
  induction bs with
  | nil => exact Nat.one_pos
  | cons b bs ih =>
      have here := small b List.mem_cons_self
      have later := ih fun c member => small c (List.mem_cons_of_mem _ member)
      have step : 2 ^ (8 * (bs.length + 1)) = 2 ^ 8 * 2 ^ (8 * bs.length) := by
        rw [← pow_add, Nat.mul_succ, Nat.add_comm]
      rw [lanes, List.length_cons, step]
      omega

theorem lanes_map_lt {f : Nat → Nat} (small : ∀ b ∈ bs, f b < 2 ^ 8) : lanes (bs.map f) < 2 ^ (8 * bs.length) := by
  have bound := @lanes_lt (bs.map f) fun c member => by
    obtain ⟨b, inside, rfl⟩ := List.mem_map.mp member
    exact small b inside
  rwa [List.length_map] at bound

theorem onesInByte_length (b : Nat) : (onesInByte b).length ≤ 8 := by
  have bound := List.length_filter_le (fun bit => b.testBit bit) (List.range 8)
  rwa [List.length_range] at bound

/-! ## Sums of bytes -/

/-- Each byte summed with those below it, above `acc`. -/
def running : Nat → List Nat → List Nat
  | _, [] => []
  | acc, c :: cs => (acc + c) :: running (acc + c) cs

@[simp] theorem running_length (cs : List Nat) : ∀ acc, (running acc cs).length = cs.length := by
  induction cs with
  | nil => exact fun _ => rfl
  | cons c cs ih =>
      intro acc
      rw [running, List.length_cons, List.length_cons, ih]

theorem running_bounds (cs : List Nat) : ∀ acc, ∀ s ∈ running acc cs, acc ≤ s ∧ s ≤ acc + cs.sum := by
  induction cs with
  | nil =>
      intro acc s member
      cases member
  | cons c cs ih =>
      intro acc s member
      rw [List.sum_cons]
      rcases List.mem_cons.mp member with rfl | later
      · omega
      · have bounds := ih (acc + c) s later
        omega

theorem getD_running (cs : List Nat) : ∀ acc k, k ≤ cs.length →
    (acc :: running acc cs).getD k 0 = acc + (cs.take k).sum := by
  induction cs with
  | nil =>
      intro acc k most
      rw [Nat.le_zero.mp most]
      rfl
  | cons c cs ih =>
      intro acc k most
      cases k with
      | zero => rfl
      | succ k =>
          rw [List.getD_cons_succ, running, ih (acc + c) k (Nat.le_of_succ_le_succ most), List.take_succ_cons,
            List.sum_cons, Nat.add_assoc]

/-- As many sums as bytes do not pass what the next byte's sum does. -/
theorem running_count (cs : List Nat) : ∀ {acc k t : Nat}, k < cs.length → t < cs.getD k 0 →
    ((running acc cs).map fun s => if s ≤ acc + (cs.take k).sum + t then 1 else 0).sum = k := by
  induction cs with
  | nil =>
      intro acc k t within
      cases within
  | cons c cs ih =>
      intro acc k t within less
      cases k with
      | zero =>
          rw [List.getD_cons_zero] at less
          have none_ : ((running acc (c :: cs)).map fun s => if s ≤ acc + ((c :: cs).take 0).sum + t then 1 else 0) =
              (running acc (c :: cs)).map fun _ => 0 := by
            refine List.map_congr_left fun s member => if_neg ?_
            rw [running] at member
            rw [List.take_zero, List.sum_nil]
            rcases List.mem_cons.mp member with rfl | later
            · omega
            · have least := (running_bounds cs (acc + c) s later).1
              omega
          rw [none_, List.map_const', List.sum_replicate]
          exact Nat.mul_zero _
      | succ k =>
          rw [List.getD_cons_succ] at less
          have rest := @ih (acc + c) k t (Nat.lt_of_succ_lt_succ within) less
          have same : acc + ((c :: cs).take (k + 1)).sum + t = acc + c + (cs.take k).sum + t := by
            rw [List.take_succ_cons, List.sum_cons]
            omega
          rw [running, List.map_cons, List.sum_cons, same, rest, if_pos (by omega), Nat.add_comm]

/-- Ones in every byte, less the lowest of them. -/
theorem lanes_ones (n : Nat) :
    1 + 2 ^ 8 * lanes (List.replicate n 1) = lanes (List.replicate n 1) + 2 ^ (8 * n) := by
  induction n with
  | zero => rfl
  | succ n ih =>
      have step : 2 ^ (8 * (n + 1)) = 2 ^ 8 * 2 ^ (8 * n) := by
        rw [← pow_add, Nat.mul_succ, Nat.add_comm]
      rw [List.replicate_succ, lanes, step]
      omega

/-- One product sums the bytes up, where no sum leaves its byte. -/
theorem lanes_running (cs : List Nat) : ∀ acc, acc + cs.sum < 2 ^ 8 →
    ((acc + lanes cs) * lanes (List.replicate cs.length 1)) % 2 ^ (8 * cs.length) = lanes (running acc cs) := by
  induction cs with
  | nil =>
      intro acc _
      rw [List.length_nil, List.replicate_zero, lanes, Nat.mul_zero, Nat.zero_mod]
      rfl
  | cons c cs ih =>
      intro acc small
      rw [List.sum_cons] at small
      have ones := lanes_ones cs.length
      have step : 2 ^ (8 * (cs.length + 1)) = 2 ^ 8 * 2 ^ (8 * cs.length) := by
        rw [← pow_add, Nat.mul_succ, Nat.add_comm]
      rw [running, lanes, lanes, ← ih (acc + c) (by omega), List.length_cons, List.replicate_succ, lanes, step]
      generalize lanes (List.replicate cs.length 1) = u at *
      generalize lanes cs = l at *
      generalize 2 ^ (8 * cs.length) = p at *
      have cut : (acc + (c + 2 ^ 8 * l)) * (1 + 2 ^ 8 * u) =
          acc + c + 2 ^ 8 * ((acc + c + l) * u + p * l) := by
        calc (acc + (c + 2 ^ 8 * l)) * (1 + 2 ^ 8 * u)
            = (acc + c) * (1 + 2 ^ 8 * u) + 2 ^ 8 * (l * (1 + 2 ^ 8 * u)) := by ring
          _ = (acc + c) * (1 + 2 ^ 8 * u) + 2 ^ 8 * (l * (u + p)) := by rw [ones]
          _ = acc + c + 2 ^ 8 * ((acc + c + l) * u + p * l) := by ring
      have low : (acc + c + 2 ^ 8 * ((acc + c + l) * u + p * l)) % 2 ^ 8 = acc + c := by
        rw [Nat.add_mul_mod_self_left, Nat.mod_eq_of_lt (by omega)]
      have high : (acc + c + 2 ^ 8 * ((acc + c + l) * u + p * l)) / 2 ^ 8 = (acc + c + l) * u + p * l := by
        rw [Nat.add_mul_div_left _ _ (by decide), Nat.div_eq_of_lt (by omega), Nat.zero_add]
      rw [cut, Nat.mod_mul, low, high, Nat.add_mul_mod_self_left]

theorem lanes_mul (c : Nat) (bs : List Nat) (f : Nat → Nat) :
    c * lanes (bs.map f) = lanes (bs.map fun b => c * f b) := by
  induction bs with
  | nil => rfl
  | cons b bs ih =>
      rw [List.map_cons, List.map_cons, lanes, lanes, ← ih]
      ring

/-- A byte of the number. -/
theorem lanes_byte (small : ∀ b ∈ bs, b < 2 ^ 8) (k : Nat) : lanes bs / 2 ^ (8 * k) % 2 ^ 8 = bs.getD k 0 := by
  induction bs generalizing k with
  | nil =>
      rw [lanes, Nat.zero_div]
      rfl
  | cons b bs ih =>
      have here := small b List.mem_cons_self
      rw [lanes]
      cases k with
      | zero =>
          rw [Nat.mul_zero, pow_zero, Nat.div_one, Nat.add_mul_mod_self_left, Nat.mod_eq_of_lt here]
          rfl
      | succ k =>
          rw [Nat.mul_succ, Nat.add_comm (8 * k), pow_add, ← Nat.div_div_eq_div_mul,
            Nat.add_mul_div_left _ _ (by decide), Nat.div_eq_of_lt here, Nat.zero_add,
            ih (fun c member => small c (List.mem_cons_of_mem _ member)), List.getD_cons_succ]

/-! ## Where the set bits stand -/

/-- The set bits of the bytes, from bit `base` on. -/
def bitsFrom : Nat → List Nat → List Nat
  | _, [] => []
  | base, b :: bs => (onesInByte b).map (base + ·) ++ bitsFrom (base + 8) bs

theorem filter_lanesOf (n : Nat) : ∀ x base : Nat,
    ((List.range' base (8 * n)).filter fun i => x.testBit (i - base)) = bitsFrom base (lanesOf n x) := by
  induction n with
  | zero =>
      intro x base
      rfl
  | succ n ih =>
      intro x base
      rw [Nat.mul_succ, Nat.add_comm, ← List.range'_append_1, List.filter_append, lanesOf, bitsFrom, ← ih]
      congr 1
      · rw [List.range'_eq_map_range, List.filter_map, onesInByte]
        congr 1
        refine List.filter_congr fun bit member => ?_
        rw [List.mem_range] at member
        rw [Function.comp_apply, Nat.add_sub_cancel_left, Nat.testBit_mod_two_pow, decide_eq_true member,
          Bool.true_and]
      · refine List.filter_congr fun i member => ?_
        have past := (List.mem_range'_1.mp member).1
        rw [show i - base = i - (base + 8) + 8 by omega, ← Nat.shiftRight_eq_div_pow, Nat.testBit_shiftRight,
          Nat.add_comm]

/-- The `r`-th set bit is in the byte the counts before it leave it to. -/
theorem bitsFrom_get (bs : List Nat) : ∀ base r : Nat, r < (bitsFrom base bs).length →
    ∃ k t, k < bs.length ∧ t < (onesInByte (bs.getD k 0)).length ∧
      r = ((bs.take k).map fun b => (onesInByte b).length).sum + t ∧
      (bitsFrom base bs)[r]? = some (base + 8 * k + (onesInByte (bs.getD k 0)).getD t 0) := by
  induction bs with
  | nil =>
      intro base r inside
      cases inside
  | cons b bs ih =>
      intro base r inside
      rw [bitsFrom, List.length_append, List.length_map] at inside
      by_cases here : r < (onesInByte b).length
      · refine ⟨0, r, Nat.succ_pos _, here, (Nat.zero_add r).symm, ?_⟩
        rw [bitsFrom, List.getElem?_append_left (by rwa [List.length_map]), List.getElem?_map,
          List.getElem?_eq_getElem here, List.getD_cons_zero, List.getD_eq_getElem _ _ here]
        rfl
      · obtain ⟨k, t, within, less, split, got⟩ := ih (base + 8) (r - (onesInByte b).length) (by omega)
        refine ⟨k + 1, t, Nat.succ_lt_succ within, less, ?_, ?_⟩
        · rw [List.take_succ_cons, List.map_cons, List.sum_cons]
          omega
        · rw [bitsFrom, List.getElem?_append_right (by rw [List.length_map]; omega), List.length_map, got,
            List.getD_cons_succ]
          congr 1
          omega

end Lexindex
