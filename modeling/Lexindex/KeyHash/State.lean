import Mathlib
import Lexindex.Lib.Faults
import Lexindex.Lib.Word

/-!
# The state of a key

Both key hashes read a key the same way, into a state of two words.  Up to sixteen bytes it is two
words from four loads that overlap, to thirty-two the first and the last sixteen bytes, and above
that blocks of thirty-two bytes and then the last thirty-two.  The loads skip their bounds checks.
-/

set_option autoImplicit false

namespace Lexindex.KeyHash

open Faulting (getUnchecked word index)

variable {ε : Type}

/-- The masks of the factors, the merge's two, and the state a key starts from. -/
def SLOT (i : Fin 8) : Word :=
  match i with
  | 0 => 0x243f6a8885a308d3
  | 1 => 0x082efa98ec4e6c89
  | 2 => 0x452821e638d01377
  | 3 => 0xc0ac29b7c97c50dd
  | 4 => 0x3f84d5b5b5470917
  | 5 => 0x9216d5d98979fb1b
  | 6 => 0xba7c9045f12c7f99
  | 7 => 0x24a19947b3916cf7

def START : Word × Word :=
  (SLOT 7, SLOT 6)

/-- The product of two words over both halves, the low one first. -/
def wide (a b : Word) : Word × Word :=
  let p := a.setWidth 128 * b.setWidth 128
  (p.setWidth 64, (p >>> 64).setWidth 64)

/-- Four bytes at `i`, unchecked. -/
def r4 (b : List UInt8) (i : Nat) : Faulting ε Word := do
  let bytes ← getUnchecked b i (i + 4)
  return BitVec.ofNat 64 (← word 4 bytes)

/-- Eight bytes at `i`, unchecked. -/
def r8 (b : List UInt8) (i : Nat) : Faulting ε Word := do
  let bytes ← getUnchecked b i (i + 8)
  return BitVec.ofNat 64 (← word 8 bytes)

/-- A byte as a word. -/
def octet (byte : UInt8) : Word :=
  BitVec.ofNat 64 byte.toNat

/-- The two words of up to sixteen bytes. -/
def twoWords (b : List UInt8) : Faulting ε (Word × Word) :=
  let n := b.length
  if 4 ≤ n then do
    let d := (n >>> 3) <<< 2
    let head ← r4 b 0
    let headNext ← r4 b d
    let last ← r4 b (n - 4)
    let lastNext ← r4 b (n - 4 - d)
    return (head ||| headNext <<< 32, last ||| lastNext <<< 32)
  else if n = 0 then .ok (0, 0)
  else do
    let head ← index b 0
    let middle ← index b (n / 2)
    let last ← index b (n - 1)
    return (octet head ||| octet middle <<< 16 ||| octet last <<< 32, 0)

/-- Four words, in the order a round takes them. -/
structure Four where
  w0 : Word
  w1 : Word
  w2 : Word
  w3 : Word
deriving DecidableEq, Repr

/-- The first and the last sixteen of 17 to 32 bytes. -/
def fourWords (b : List UInt8) : Faulting ε Four := do
  let n := b.length
  let w0 ← r8 b 0
  let w1 ← r8 b 8
  let w2 ← r8 b (n - 16)
  let w3 ← r8 b (n - 8)
  return ⟨w0, w1, w2, w3⟩

/-- A product and what it adds back. -/
def protected_ (x y : Word) : Word × Word :=
  let (lo, hi) := wide x y
  (lo + x, hi + y)

/-- The state of up to sixteen bytes. -/
def round2 (w : Word × Word) : Word × Word :=
  let (pl, ph) := wide (w.1 ^^^ SLOT 0) (w.2 ^^^ SLOT 1)
  let (rl, rh) := wide (w.1 ^^^ START.2) (w.2 ^^^ START.1)
  (pl ^^^ rh, ph ^^^ rl)

/-- Four words and a state into the next state. -/
def round (w : Four) (s : Word × Word) : Word × Word :=
  let (pl, ph) := protected_ (w.w0 ^^^ s.1) (w.w1 ^^^ SLOT 2)
  let (ql, qh) := protected_ (w.w2 ^^^ s.2) (w.w3 ^^^ SLOT 3)
  (pl + qh, ph ^^^ ql)

/-- The factors of a round's two products. -/
structure Factors where
  px : Word
  py : Word
  qx : Word
  qy : Word

def factors (w : Four) (s : Word × Word) : Factors :=
  ⟨w.w0 ^^^ s.1, w.w1 ^^^ SLOT 2, w.w2 ^^^ s.2, w.w3 ^^^ SLOT 3⟩

/-- The words of a leading block of thirty-two bytes. -/
def blockWords (rest : List UInt8) : Faulting ε Four := do
  let w0 ← r8 rest 0
  let w1 ← r8 rest 8
  let w2 ← r8 rest 16
  let w3 ← r8 rest 24
  return ⟨w0, w1, w2, w3⟩

/-- A round over each leading block, while more than a block is left. -/
def blocks (rest : List UInt8) (s : Word × Word) : Faulting ε (Word × Word) :=
  if 32 < rest.length then do
    let w ← blockWords rest
    blocks (rest.drop 32) (round w s)
  else .ok s
termination_by rest.length
decreasing_by
  rw [List.length_drop]
  omega

/-- The state of any key. -/
def state (b : List UInt8) : Faulting ε (Word × Word) :=
  let n := b.length
  if n ≤ 16 then do
    return round2 (← twoWords b)
  else if n ≤ 32 then do
    return round (← fourWords b) START
  else do
    let s ← blocks b START
    return round (← fourWords (b.drop (n - 32))) s

/-! ## The words it takes in -/

/-- The words read from a key, class by class of its length. -/
inductive Words
  | two (w : Word × Word)
  | fours (w : List Four)
deriving DecidableEq, Repr

/-- The words of the leading blocks. -/
def blocksRead (rest : List UInt8) : Faulting ε (List Four) :=
  if 32 < rest.length then do
    let w ← blockWords rest
    let later ← blocksRead (rest.drop 32)
    return w :: later
  else .ok []
termination_by rest.length
decreasing_by
  rw [List.length_drop]
  omega

/-- The sequence of words that `state` reads. -/
def wordsRead (b : List UInt8) : Faulting ε Words :=
  let n := b.length
  if n ≤ 16 then do
    return .two (← twoWords b)
  else if n ≤ 32 then do
    return .fours [← fourWords b]
  else do
    let leading ← blocksRead b
    return .fours (leading ++ [← fourWords (b.drop (n - 32))])

/-- What `state` makes of the words. -/
def Words.mixed : Words → Word × Word
  | .two w => round2 w
  | .fours w => w.foldl (fun s four => round four s) START

end Lexindex.KeyHash

/-!
## What a protected product keeps

A round adds a product's factors back to it, so that a factor is not lost where the other is zero.
The second factor is never lost.  The first is lost where the second, plus one, is a power of two:
then the low half is a multiple of that power, and the carry of the addition is not in the high half.
-/

namespace Lexindex.KeyHash

variable {x x' y y' f : Word}

theorem wide_toNat (a b : Word) :
    (wide a b).1.toNat = a.toNat * b.toNat % 2 ^ 64 ∧ (wide a b).2.toNat = a.toNat * b.toNat / 2 ^ 64 := by
  have aLt := a.isLt
  have bLt := b.isLt
  have product : a.toNat * b.toNat < 2 ^ 64 * 2 ^ 64 := Nat.mul_lt_mul'' aLt bLt
  have whole : (a.setWidth 128 * b.setWidth 128).toNat = a.toNat * b.toNat := by
    rw [BitVec.toNat_mul, BitVec.toNat_setWidth, BitVec.toNat_setWidth,
      Nat.mod_eq_of_lt (aLt.trans (by decide)), Nat.mod_eq_of_lt (bLt.trans (by decide)),
      Nat.mod_eq_of_lt (product.trans_le (by decide))]
  constructor
  · rw [wide, BitVec.toNat_setWidth, whole]
  · rw [wide, BitVec.toNat_setWidth, BitVec.toNat_ushiftRight, whole, Nat.shiftRight_eq_div_pow,
      Nat.mod_eq_of_lt (by omega)]

theorem protected_low (x y : Word) :
    (protected_ x y).1.toNat = (x.toNat * y.toNat + x.toNat) % 2 ^ 64 := by
  change ((wide x y).1 + x).toNat = _
  rw [BitVec.toNat_add, (wide_toNat x y).1, Nat.mod_add_mod]

theorem protected_high (x y : Word) :
    (protected_ x y).2.toNat = (x.toNat * y.toNat / 2 ^ 64 + y.toNat) % 2 ^ 64 := by
  change ((wide x y).2 + y).toNat = _
  rw [BitVec.toNat_add, (wide_toNat x y).2]

/-! ### The first factor -/

/-- First factors that meet differ by what the second, plus one, makes a whole turn of the word. -/
theorem apart_of_meet (meet : protected_ x y = protected_ x' y) (less : x.toNat < x'.toNat) :
    (x'.toNat - x.toNat) * (y.toNat + 1) = 2 ^ 64 := by
  have low := congrArg (fun p : Word × Word => p.1.toNat) meet
  have high := congrArg (fun p : Word × Word => p.2.toNat) meet
  simp only [protected_low, protected_high] at low high
  have bound : ∀ z : Word, z.toNat * y.toNat / 2 ^ 64 < 2 ^ 64 := fun z => by
    rw [← (wide_toNat z y).2]
    exact (wide z y).2.isLt
  have here := bound x
  have there := bound x'
  have yLt := y.isLt
  have xLt := x'.isLt
  obtain ⟨d, positive, step⟩ : ∃ d, 0 < d ∧ x'.toNat = x.toNat + d :=
    ⟨x'.toNat - x.toNat, by omega, by omega⟩
  have product : x'.toNat * y.toNat = x.toNat * y.toNat + d * y.toNat := by
    rw [step, Nat.add_mul]
  -- The high halves are one, so the products are less than a word apart, and so are the low sums.
  have quotient : x'.toNat * y.toNat / 2 ^ 64 = x.toNat * y.toNat / 2 ^ 64 := by omega
  rw [step, Nat.add_sub_cancel_left, Nat.mul_succ]
  generalize d * y.toNat = t at *
  omega

theorem power_of_meet (meet : protected_ x y = protected_ x' y) (apart : x ≠ x') :
    ∃ k, 1 ≤ k ∧ y.toNat + 1 = 2 ^ k := by
  have divides : y.toNat + 1 ∣ 2 ^ 64 := by
    rcases Nat.lt_trichotomy x.toNat x'.toNat with less | same | less
    · exact Dvd.intro_left _ (apart_of_meet meet less)
    · exact absurd (BitVec.eq_of_toNat_eq same) apart
    · exact Dvd.intro_left _ (apart_of_meet meet.symm less)
  obtain ⟨k, -, power⟩ := (Nat.dvd_prime_pow Nat.prime_two).mp divides
  refine ⟨k, Nat.pos_of_ne_zero fun zero => ?_, power⟩
  -- At a zero factor the low sum is the first factor itself.
  subst zero
  have none_ : y.toNat = 0 := by omega
  have low := congrArg (fun p : Word × Word => p.1.toNat) meet
  simp only [protected_low, none_, Nat.mul_zero, Nat.zero_add] at low
  rw [Nat.mod_eq_of_lt x.isLt, Nat.mod_eq_of_lt x'.isLt] at low
  exact apart (BitVec.eq_of_toNat_eq low)

/-- Where the second factor, plus one, is a power of two, zero meets another first factor. -/
theorem meet_of_power {k : Nat} (some_ : 1 ≤ k) (power : y.toNat + 1 = 2 ^ k) :
    protected_ 0 y = protected_ (BitVec.ofNat 64 (2 ^ (64 - k))) y := by
  have most : k ≤ 64 := by
    refine (Nat.pow_le_pow_iff_right (show 1 < 2 by decide)).mp ?_
    have yLt := y.isLt
    omega
  have turn : 2 ^ (64 - k) * (y.toNat + 1) = 2 ^ 64 := by
    rw [power, ← pow_add, Nat.sub_add_cancel most]
  have step : (BitVec.ofNat 64 (2 ^ (64 - k))).toNat = 2 ^ (64 - k) := by
    rw [BitVec.toNat_ofNat, Nat.mod_eq_of_lt (Nat.pow_lt_pow_right (by decide) (by omega))]
  have positive : 0 < 2 ^ (64 - k) := by positivity
  rw [Nat.mul_succ] at turn
  refine Prod.ext (BitVec.eq_of_toNat_eq ?_) (BitVec.eq_of_toNat_eq ?_)
  · rw [protected_low, protected_low, step, turn]
    simp
  · rw [protected_high, protected_high, step, Nat.div_eq_of_lt (by omega : 2 ^ (64 - k) * y.toNat < 2 ^ 64)]
    simp

/-- At a factor of one, the first is known up to its top bit. -/
theorem setWidth_of_meet (meet : protected_ x 1 = protected_ x' 1) : x.setWidth 63 = x'.setWidth 63 := by
  have low := congrArg (fun p : Word × Word => p.1.toNat) meet
  simp only [protected_low, show (1 : Word).toNat = 1 by decide, Nat.mul_one] at low
  refine BitVec.eq_of_toNat_eq ?_
  rw [BitVec.toNat_setWidth, BitVec.toNat_setWidth]
  omega

/-! ### The second factor -/

/-- The second factor is known, whatever the first. -/
theorem protected_right_inj : Function.Injective fun y => protected_ x y := by
  have differ : ∀ {y y' : Word}, protected_ x y = protected_ x y' → ¬ y.toNat < y'.toNat := by
    intro y y' meet less
    have low := congrArg (fun p : Word × Word => p.1.toNat) meet
    have high := congrArg (fun p : Word × Word => p.2.toNat) meet
    simp only [protected_low, protected_high] at low high
    have yLt := y'.isLt
    have xLt := x.isLt
    obtain ⟨e, positive, step⟩ : ∃ e, 0 < e ∧ y'.toNat = y.toNat + e :=
      ⟨y'.toNat - y.toNat, by omega, by omega⟩
    have product : x.toNat * y'.toNat = x.toNat * y.toNat + x.toNat * e := by
      rw [step, Nat.mul_add]
    -- The low halves are one, so the products are whole words apart, `m` of them.
    obtain ⟨m, words⟩ : ∃ m, x.toNat * e = 2 ^ 64 * m := by
      refine ⟨x.toNat * e / 2 ^ 64, ?_⟩
      generalize x.toNat * e = t at *
      omega
    have few : m < e := by
      by_contra many
      have more : 2 ^ 64 * e ≤ x.toNat * e := by
        rw [words]
        exact Nat.mul_le_mul_left _ (by omega)
      have fewer : x.toNat * e < 2 ^ 64 * e := Nat.mul_lt_mul_of_pos_right xLt positive
      omega
    -- The high sums are one, so the words and the step make one whole turn.
    have turn : m + e = 2 ^ 64 := by
      rw [product, words, Nat.add_mul_div_left _ _ (by decide), step] at high
      generalize x.toNat * y.toNat / 2 ^ 64 = q at *
      omega
    have whole : (x.toNat + 2 ^ 64) * e = 2 ^ 128 := by
      rw [Nat.add_mul, words, ← Nat.mul_add, turn, ← pow_add]
    obtain ⟨k, most, power⟩ := (Nat.dvd_prime_pow Nat.prime_two).mp (Dvd.intro _ whole)
    -- Only `2 ^ 64` is a power of two from there to twice that: the first factor is zero.
    have exact_ : k = 64 := by
      have least : 64 ≤ k := (Nat.pow_le_pow_iff_right (show 1 < 2 by decide)).mp (by omega)
      have below : k < 65 := (Nat.pow_lt_pow_iff_right (show 1 < 2 by decide)).mp (by omega)
      omega
    rw [exact_] at power
    rw [power] at whole
    omega
  intro y y' meet
  refine BitVec.eq_of_toNat_eq (Nat.le_antisymm ?_ ?_)
  · exact Nat.le_of_not_lt (@differ y' y meet.symm)
  · exact Nat.le_of_not_lt (differ meet)

/-! ### A round -/

/-- A round of its factors. -/
def Factors.rounded (fs : Factors) : Word × Word :=
  ((protected_ fs.px fs.py).1 + (protected_ fs.qx fs.qy).2,
    (protected_ fs.px fs.py).2 ^^^ (protected_ fs.qx fs.qy).1)

theorem round_eq (w : Four) (s : Word × Word) : round w s = (factors w s).rounded :=
  rfl

/-- First factors that differ in what is to survive at `f`: at one, all but the top bit. -/
def Told (f x x' : Word) : Prop :=
  if f = 1 then x.setWidth 63 ≠ x'.setWidth 63 else x ≠ x'

/-- The factors of two rounds that differ in one factor of one product, whose other factor is `f`. -/
inductive OneApart (f : Word) : Factors → Factors → Prop
  | px {x x' qx qy : Word} (told : Told f x x') : OneApart f ⟨x, f, qx, qy⟩ ⟨x', f, qx, qy⟩
  | py {y y' qx qy : Word} (apart : y ≠ y') : OneApart f ⟨f, y, qx, qy⟩ ⟨f, y', qx, qy⟩
  | qx {px py x x' : Word} (told : Told f x x') : OneApart f ⟨px, py, x, f⟩ ⟨px, py, x', f⟩
  | qy {px py y y' : Word} (apart : y ≠ y') : OneApart f ⟨px, py, f, y⟩ ⟨px, py, f, y'⟩

/-- Rounds that share one product meet only where the other products do. -/
theorem rounded_first {px py px' py' qx qy : Word}
    (meet : Factors.rounded ⟨px, py, qx, qy⟩ = Factors.rounded ⟨px', py', qx, qy⟩) :
    protected_ px py = protected_ px' py' := by
  obtain ⟨low, high⟩ := Prod.mk.inj meet
  exact Prod.ext (BitVec.add_left_inj _ |>.mp low) (BitVec.xor_left_inj _ |>.mp high)

theorem rounded_second {px py qx qy qx' qy' : Word}
    (meet : Factors.rounded ⟨px, py, qx, qy⟩ = Factors.rounded ⟨px, py, qx', qy'⟩) :
    protected_ qx qy = protected_ qx' qy' := by
  obtain ⟨low, high⟩ := Prod.mk.inj meet
  exact Prod.ext (BitVec.xor_right_inj _ |>.mp high) (BitVec.add_right_inj _ |>.mp low)

/-! ### What is kept -/

/-- Neither factor is lost where the other is `f`, alone or in a round. -/
structure Keeps (f : Word) : Prop where
  first : f ≠ 1 → Function.Injective fun x => protected_ x f
  firstAtOne : f = 1 → ∀ x x', protected_ x f = protected_ x' f → x.setWidth 63 = x'.setWidth 63
  second : Function.Injective fun y => protected_ f y
  rounds : ∀ w s w' s', OneApart f (factors w s) (factors w' s') → round w s ≠ round w' s'

theorem told_of_meet (keeps : ∀ k, 2 ≤ k → f.toNat + 1 ≠ 2 ^ k)
    (meet : protected_ x f = protected_ x' f) : ¬ Told f x x' := by
  rw [Told]
  split
  case isTrue one =>
    subst one
    exact fun told => told (setWidth_of_meet meet)
  case isFalse other =>
    intro apart
    obtain ⟨k, some_, power⟩ := power_of_meet meet apart
    by_cases once : k = 1
    · subst once
      refine other (BitVec.eq_of_toNat_eq ?_)
      change f.toNat = 1
      omega
    · exact keeps k (by omega) power

theorem not_meet (keeps : ∀ k, 2 ≤ k → f.toNat + 1 ≠ 2 ^ k) {fs fs' : Factors}
    (apart : OneApart f fs fs') : fs.rounded ≠ fs'.rounded := by
  intro meet
  cases apart with
  | px told => exact told_of_meet keeps (rounded_first meet) told
  | py apart => exact apart (protected_right_inj (rounded_first meet))
  | qx told => exact told_of_meet keeps (rounded_second meet) told
  | qy apart => exact apart (protected_right_inj (rounded_second meet))

/-- **A protected product keeps both factors** where the fixed one, plus one, is no power of two
from four on, and loses the first where it is.  The second is never lost. -/
theorem protected_keeps_iff (f : Word) :
    (Keeps f ↔ ∀ k, 2 ≤ k → f.toNat + 1 ≠ 2 ^ k) ∧ Function.Injective fun y => protected_ f y := by
  refine ⟨⟨fun keeps k more power => ?_, fun keeps => ?_⟩, protected_right_inj⟩
  · have meet := meet_of_power (by omega) power
    have other : f ≠ 1 := by
      rintro rfl
      have four : 2 ^ 2 ≤ 2 ^ k := Nat.pow_le_pow_right (by decide) more
      have two : (1 : Word).toNat + 1 = 2 := by decide
      omega
    have zero := congrArg BitVec.toNat (keeps.first other meet)
    have small : 2 ^ (64 - k) < 2 ^ 64 := Nat.pow_lt_pow_right (by decide) (by omega)
    have positive : 0 < 2 ^ (64 - k) := by positivity
    rw [BitVec.toNat_ofNat, Nat.mod_eq_of_lt small] at zero
    change 0 = 2 ^ (64 - k) at zero
    omega
  · refine ⟨fun other x x' meet => ?_, ?_, protected_right_inj, fun w s w' s' apart => ?_⟩
    · have same := told_of_meet keeps meet
      rw [Told, if_neg other] at same
      exact not_not.mp same
    · rintro rfl x x' meet
      exact setWidth_of_meet meet
    · rw [round_eq, round_eq]
      exact not_meet keeps apart

/-- At three, zero and `2 ^ 62` meet. -/
theorem protected_loses_first :
    protected_ 0 3 = protected_ 0x4000000000000000 3 ∧ ¬ Keeps 3 := by
  have meet : protected_ 0 3 = protected_ 0x4000000000000000 3 := by decide
  refine ⟨meet, fun keeps => ?_⟩
  exact absurd (keeps.first (by decide) meet) (by decide)

end Lexindex.KeyHash
