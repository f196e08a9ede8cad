import Mathlib
import Lexindex.Lib.Word
import Lexindex.DoubleArray.Index

/-!
# The slots and the bases in use

Bits, sized for the largest array a slot can address, and the words of candidate bases a
search tests: a set bit of one is a free slot whose base no row has.
-/

set_option autoImplicit false

namespace Lexindex.DoubleArray

/-- Words of candidate bases a search tests together. -/
def CHUNK : Nat := 32

/-- Bits `64 q + s .. 64 q + s + 64` of a bitmap, `s < 64`. -/
def window (words : List Word) (q s : Nat) : Word :=
  if s = 0 then words.getD q 0#64
  else words.getD q 0#64 >>> s ||| words.getD (q + 1) 0#64 <<< (64 - s)

structure Occupancy where
  used : List Word
  /-- Set while a word of `used` has a free slot. -/
  free : List Word
  /-- Bases taken, one bit each, `pad` words up. -/
  taken : List Word
  pad : Nat

namespace Occupancy

def new (maxLabel : Nat) : Occupancy :=
  let words := (MAX_SLOTS + maxLabel) / 64 + CHUNK + 4
  let pad := maxLabel / 64 + 1
  { used := List.replicate words 0#64
    free := List.replicate (words / 64 + 2) (BitVec.allOnes 64)
    taken := List.replicate (words + pad) 0#64
    pad }

def take (o : Occupancy) (s : Nat) : Occupancy :=
  let used := setBit o.used s
  { o with
    used
    free := if used.getD (s / 64) 0#64 = BitVec.allOnes 64 then clearBit o.free (s / 64)
      else o.free }

def takeBase (o : Occupancy) (b : Nat) : Occupancy :=
  { o with taken := setBit o.taken (b + 64 * o.pad) }

/-- The first nonzero word of `words`, the first of them word `j`, as the bit set in it. -/
def firstFree : Nat → List Word → Option Nat
  | _, [] => none
  | j, m :: words => if m = 0#64 then firstFree (j + 1) words else some (j * 64 + m.ctz.toNat)

/-- The first word at or after `w` with a free slot; `none` past the bitmap. -/
def openFrom (o : Occupancy) (w : Nat) : Option Nat :=
  match o.free.drop (w / 64) with
  | [] => none
  | m :: words => firstFree (w / 64) ((m &&& BitVec.allOnes 64 <<< (w % 64)) :: words)

/-- Bit `j` set while word `w + j` has a free slot, for the `CHUNK` words from `w`. -/
def openWords (o : Occupancy) (w : Nat) : Word :=
  window o.free (w / 64) (w % 64) &&& BitVec.allOnes 64 >>> (64 - CHUNK)

/-- The bit offset in `taken` of the base whose child `c0` is word `w`'s first slot. -/
def baseAt (o : Occupancy) (w c0 : Nat) : Nat × Nat :=
  let x := 64 * (w + o.pad) - c0
  (x / 64, x % 64)

/-- Word `w`'s slots a child with label `c0` could take: free, and its base not taken. -/
def candidates (o : Occupancy) (w c0 : Nat) : Word :=
  let at_ := o.baseAt w c0
  ~~~(o.used.getD w 0#64) &&& ~~~(window o.taken at_.1 at_.2)

/-- The same for the `CHUNK` words from `w0`. -/
def candidatesChunk (o : Occupancy) (w0 c0 : Nat) : List Word :=
  let at_ := o.baseAt w0 c0
  (List.range CHUNK).map fun j =>
    ~~~(o.used.getD (w0 + j) 0#64) &&& ~~~(window o.taken (at_.1 + j) at_.2)

end Occupancy

/-- The slot of the lowest set bit of `fit`, whose word 0 is word `w0` of the array. -/
def lowest : List Word → Nat → Option Nat
  | [], _ => none
  | f :: fit, w0 => if f = 0#64 then lowest fit (w0 + 1) else some (64 * w0 + f.ctz.toNat)

/-! ## What the words say -/

theorem window_getLsbD {words : List Word} {q s t : Nat} (shift : s < 64) (small : t < 64) :
    (window words q s).getLsbD t = streamBit words (64 * q + s + t) := by
  rw [window, streamBit]
  by_cases zero : s = 0
  · have word : (64 * q + s + t) / 64 = q := by omega
    have bit : (64 * q + s + t) % 64 = t := by omega
    rw [if_pos zero, word, bit]
  · rw [if_neg zero]
    simp only [BitVec.getLsbD_or, BitVec.getLsbD_ushiftRight, BitVec.getLsbD_shiftLeft]
    by_cases inFirst : s + t < 64
    · have word : (64 * q + s + t) / 64 = q := by omega
      have bit : (64 * q + s + t) % 64 = s + t := by omega
      have below : t < 64 - s := by omega
      rw [word, bit]
      simp [below]
    · have word : (64 * q + s + t) / 64 = q + 1 := by omega
      have bit : (64 * q + s + t) % 64 = t - (64 - s) := by omega
      have past : (words.getD q 0#64).getLsbD (s + t) = false :=
        BitVec.getLsbD_of_ge _ _ (by omega)
      have above : ¬ t < 64 - s := by omega
      rw [word, bit, past]
      simp [small, above]

theorem ctz_lt {x : Word} (nonzero : x ≠ 0#64) : x.ctz.toNat < 64 :=
  BitVec.lt_of_getLsbD (BitVec.getLsbD_true_ctz_of_ne_zero nonzero)

namespace Occupancy

/-- A slot is in use. -/
def isUsed (o : Occupancy) (s : Nat) : Bool :=
  streamBit o.used s

/-- A base is a row's. -/
def isTaken (o : Occupancy) (b : Nat) : Bool :=
  streamBit o.taken (b + 64 * o.pad)

/-- The bitmaps are as long as they were made. -/
structure Sized (o : Occupancy) (maxLabel : Nat) : Prop where
  used : o.used.length = (MAX_SLOTS + maxLabel) / 64 + CHUNK + 4
  taken : o.taken.length = (MAX_SLOTS + maxLabel) / 64 + CHUNK + 4 + o.pad
  pad : o.pad = maxLabel / 64 + 1

theorem sized_new (maxLabel : Nat) : (new maxLabel).Sized maxLabel :=
  ⟨List.length_replicate, List.length_replicate, rfl⟩

variable {o : Occupancy} {maxLabel : Nat}

theorem Sized.take (sized : o.Sized maxLabel) (s : Nat) : (o.take s).Sized maxLabel :=
  ⟨(setBit_length ..).trans sized.used, sized.taken, sized.pad⟩

theorem Sized.takeBase (sized : o.Sized maxLabel) (b : Nat) : (o.takeBase b).Sized maxLabel :=
  ⟨sized.used, (setBit_length ..).trans sized.taken, sized.pad⟩

theorem Sized.isUsed_take (sized : o.Sized maxLabel) {s : Nat} (small : s < MAX_SLOTS) (i : Nat) :
    (o.take s).isUsed i = (decide (i = s) || o.isUsed i) := by
  refine streamBit_setBit ?_ i
  rw [sized.used]
  omega

theorem Sized.isTaken_takeBase (sized : o.Sized maxLabel) {b : Nat} (small : b < MAX_SLOTS)
    (i : Nat) : (o.takeBase b).isTaken i = (decide (i = b) || o.isTaken i) := by
  have pad := sized.pad
  change streamBit (setBit o.taken (b + 64 * o.pad)) (i + 64 * o.pad) = _
  rw [streamBit_setBit, isTaken]
  · congr 1
    rw [decide_eq_decide]
    omega
  · rw [sized.taken]
    omega

@[simp] theorem isTaken_take (s i : Nat) : (o.take s).isTaken i = o.isTaken i := rfl

@[simp] theorem isUsed_takeBase (b i : Nat) : (o.takeBase b).isUsed i = o.isUsed i := rfl

theorem used_getLsbD (w t : Nat) (small : t < 64) :
    (o.used.getD w 0#64).getLsbD t = o.isUsed (64 * w + t) := by
  have word : (64 * w + t) / 64 = w := by omega
  have bit : (64 * w + t) % 64 = t := by omega
  rw [isUsed, streamBit, word, bit]

/-- A candidate is a free slot, and the base it gives is no row's. -/
theorem candidate_getLsbD {c w j t : Nat} (room : c ≤ 64 * o.pad) (small : t < 64)
    (above : c ≤ 64 * (w + j) + t) :
    (~~~(o.used.getD (w + j) 0#64) &&&
        ~~~(window o.taken ((o.baseAt w c).1 + j) (o.baseAt w c).2)).getLsbD t =
      (!o.isUsed (64 * (w + j) + t) && !o.isTaken (64 * (w + j) + t - c)) := by
  have shift : (o.baseAt w c).2 < 64 := Nat.mod_lt _ (by decide)
  have bit : 64 * ((o.baseAt w c).1 + j) + (o.baseAt w c).2 + t =
      64 * (w + j) + t - c + 64 * o.pad := by
    simp only [baseAt]
    omega
  simp only [BitVec.getLsbD_and, BitVec.getLsbD_not, small, decide_true, Bool.true_and,
    used_getLsbD _ _ small, window_getLsbD shift small, bit]
  rfl

end Occupancy

theorem firstFree_ge {words : List Word} {j found : Nat}
    (search : Occupancy.firstFree j words = some found) : j * 64 ≤ found := by
  induction words generalizing j with
  | nil => cases search
  | cons m words ih =>
      rw [Occupancy.firstFree] at search
      split at search
      · have later := ih search
        omega
      · rw [Option.some.injEq] at search
        omega

/-- A search for an open word goes up. -/
theorem openFrom_ge {o : Occupancy} {w found : Nat} (search : o.openFrom w = some found) :
    w ≤ found := by
  unfold Occupancy.openFrom at search
  split at search
  · cases search
  · rename_i m words _
    rw [Occupancy.firstFree] at search
    split at search
    · have later := firstFree_ge search
      omega
    · rename_i nonzero
      rw [Option.some.injEq] at search
      -- The bits below the word asked for are masked off.
      have set := BitVec.getLsbD_true_ctz_of_ne_zero nonzero
      generalize (m &&& BitVec.allOnes 64 <<< (w % 64)).ctz.toNat = bit at set search
      rw [BitVec.getLsbD_and, BitVec.getLsbD_shiftLeft] at set
      simp only [Bool.and_eq_true, Bool.not_eq_true', decide_eq_false_iff_not] at set
      omega

/-- What `lowest` answers is a set bit. -/
theorem lowest_some {fit : List Word} {w0 s : Nat} (found : lowest fit w0 = some s) :
    ∃ j t, t < 64 ∧ s = 64 * (w0 + j) + t ∧ (fit.getD j 0#64).getLsbD t = true := by
  induction fit generalizing w0 with
  | nil => cases found
  | cons f fit ih =>
      rw [lowest] at found
      split at found
      · obtain ⟨j, t, small, exact, set⟩ := ih found
        exact ⟨j + 1, t, small, by omega, by rwa [List.getD_cons_succ]⟩
      · rename_i nonzero
        rw [Option.some.injEq] at found
        refine ⟨0, f.ctz.toNat, ctz_lt nonzero, by omega, ?_⟩
        rw [List.getD_cons_zero]
        exact BitVec.getLsbD_true_ctz_of_ne_zero nonzero

end Lexindex.DoubleArray
