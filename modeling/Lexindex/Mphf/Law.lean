import Mathlib
import Lexindex.Lib.Checked

/-!
# The placement law of a bumping level

A key hash picks a bucket by multiply-shift, the bucket's seed picks one of four
offset fields and a shift, and the key lands that many strides past its offset,
wrapped inside its slice and then inside the level's range.  The table answers
the same law in three spellings: `valueIn` reads the geometry it is handed,
`shippedValue` has the shipped geometry folded in, and `laterValue` moves the
tabulated step from the shipped stride to the level's.

A word is a natural number below `2 ^ 64`; every operation the source lets wrap
carries its `% 2 ^ 64`.
-/

set_option autoImplicit false

namespace Lexindex.Mphf

/-- Mode bits of an `MPH3` seed (`MODE_BITS`). -/
def shippedModeBits : Nat := 2

/-- Slice length of a level long enough to afford it (`SLICE`). -/
def fullSlice : Nat := 1024

/-- Values between two shifts of a key on an `MPH2` level (`STRIDE`). -/
def mph2Stride : Nat := 2

/-! ## Hash arithmetic -/

/-- Multiply-shift range reduction of a word into `[0, k)`. -/
def scale (x k : Nat) : Nat :=
  x * k / 2 ^ 64

def bucketOf (h buckets : Nat) : Nat :=
  scale h buckets

/-- The splitmix step that derives independent streams from one hash. -/
def mix (x : Nat) : Nat :=
  let z := (x + 0x9E3779B97F4A7C15) % 2 ^ 64
  let z := ((z ^^^ (z >>> 30)) * 0xBF58476D1CE4E5B9) % 2 ^ 64
  let z := ((z ^^^ (z >>> 27)) * 0x94D049BB133111EB) % 2 ^ 64
  z ^^^ (z >>> 31)

/-- The hash a bumping level after the first reads. -/
def levelHash (h level : Nat) : Nat :=
  mix (h ^^^ (level * 0x9E3779B97F4A7C15 % 2 ^ 64))

theorem scale_lt {x k : Nat} (word : x < 2 ^ 64) (positive : 0 < k) : scale x k < k := by
  unfold scale
  rw [Nat.div_lt_iff_lt_mul (by decide), Nat.mul_comm k]
  exact Nat.mul_lt_mul_of_pos_right word positive

theorem bucketOf_lt {h buckets : Nat} (word : h < 2 ^ 64) (positive : 0 < buckets) :
    bucketOf h buckets < buckets :=
  scale_lt word positive

theorem scale_mono (k : Nat) {x y : Nat} (le : x ≤ y) : scale x k ≤ scale y k :=
  Nat.div_le_div_right (Nat.mul_le_mul_right k le)

theorem mix_lt (x : Nat) : mix x < 2 ^ 64 := by
  unfold mix
  apply Nat.xor_lt_two_pow
  · exact Nat.mod_lt _ (by decide)
  · exact Nat.lt_of_le_of_lt (Nat.shiftRight_le _ _) (Nat.mod_lt _ (by decide))

theorem levelHash_lt (h level : Nat) : levelHash h level < 2 ^ 64 :=
  mix_lt _

/-! ## Levels -/

/-- The seed geometry of a table's levels, which the header's mode-bits byte names. -/
inductive Geometry
  | mph2
  | mph3
  deriving DecidableEq, Repr

def Geometry.modeBits : Geometry → Nat
  | .mph2 => 0
  | .mph3 => shippedModeBits

/-- What a level's law reads of its geometry. -/
structure Form where
  modeBits : Nat
  shift : Nat
  mask : Nat
  deriving DecidableEq, Repr

/-- One bumping level: a seed per bucket over the keys it was handed. -/
structure Level where
  n : Nat
  buckets : Nat
  slice : Nat
  shift : Nat
  modeBits : Nat
  shipped : Bool
  /-- One per bucket; 0 is bumped. -/
  seeds : List UInt8
  deriving DecidableEq, Repr

/-- The stride of a level with `slice` under `modeBits`. -/
def strideFor (slice modeBits : Nat) : Nat :=
  if modeBits = 0 then max 1 (min (slice >>> 8) mph2Stride) else slice >>> (8 - modeBits)

/-- Trailing zeros of a nonzero word; `stride_for` returns powers of two only. -/
def trailingZeros (x : Nat) : Nat :=
  Nat.log2 (x &&& (2 ^ 64 - x))

/-- The geometry of every level of full slices that this version builds (`Level::SHIPPED`). -/
def Level.shippedForm : Form :=
  { modeBits := shippedModeBits
    shift := trailingZeros (fullSlice >>> (8 - shippedModeBits))
    mask := fullSlice - 1 }

/-- A level of this geometry, before its seeds are found (`Level::of`). -/
def Level.ofShape (n buckets slice modeBits : Nat) : Level :=
  let shift := trailingZeros (strideFor slice modeBits)
  { n, buckets, slice, shift, modeBits
    shipped := modeBits = shippedModeBits ∧ slice = fullSlice ∧
      shift = Level.shippedForm.shift
    seeds := [] }

/-- One bucket whose seed bumps every key: what a table without a level of the
shipped geometry holds where a lookup reads one. -/
def Level.bumpingAll : Level :=
  { Level.ofShape 0 1 fullSlice shippedModeBits with seeds := [0] }

def Level.form (l : Level) : Form :=
  { modeBits := l.modeBits, shift := l.shift, mask := l.slice - 1 }

/-- The seed of bucket `b`: the read is unchecked in the source, and `none` here
where it would leave the table. -/
def Level.seedAt (l : Level) (b : Nat) : Option Nat :=
  l.seeds[b]?.map UInt8.toNat

def Level.seedOf (l : Level) (h : Nat) : Option Nat :=
  l.seedAt (bucketOf h l.buckets)

/-! ## The three spellings of a key's value -/

/-- `SEED_READS.field`: what brings a seed's offset field to the bottom of the hash. -/
def seedReadsField (seed : Nat) : Nat :=
  8 * (seed >>> (8 - shippedModeBits))

/-- `SEED_READS.step`: a seed's shift on the shipped geometry, moved up to its
offset field and stored over four. -/
def seedReadsStep (seed : Nat) : Nat :=
  (seed &&& (2 ^ (8 - shippedModeBits) - 1)) <<<
    (Level.shippedForm.shift + seedReadsField seed - 2)

/-- `v - n` for a key whose slice runs past the range's end. -/
def wrapped (v n : Nat) : Nat :=
  if n ≤ v then v - n else v

def Level.valueIn (l : Level) (form : Form) (h seed : Nat) : Nat :=
  let shiftBits := 8 - form.modeBits
  let t := seed &&& (2 ^ shiftBits - 1)
  let field :=
    if form.modeBits = shippedModeBits then seedReadsField seed else 8 * (seed >>> shiftBits)
  let offset := h >>> field
  wrapped (scale h l.n + ((offset + (t <<< form.shift) % 2 ^ 64) % 2 ^ 64 &&& form.mask)) l.n

def Level.value (l : Level) (h seed : Nat) : Nat :=
  l.valueIn l.form h seed

def Level.shippedValue (l : Level) (h seed : Nat) : Nat :=
  let offset := ((h + (seedReadsStep seed <<< 2) % 2 ^ 64) % 2 ^ 64) >>> seedReadsField seed
  wrapped (scale h l.n + (offset &&& (fullSlice - 1))) l.n

def Level.laterValue (l : Level) (h seed : Nat) : Nat :=
  if l.modeBits ≠ shippedModeBits then
    l.value h seed
  else
    let step := ((seedReadsStep seed <<< l.shift) % 2 ^ 64) >>> (Level.shippedForm.shift - 2)
    let offset := ((h + step) % 2 ^ 64) >>> seedReadsField seed
    wrapped (scale h l.n + (offset &&& (l.slice - 1))) l.n

/-- A level whose slice fits its range: every value it hands out is inside the range. -/
structure Level.Fits (l : Level) : Prop where
  positive : 0 < l.n
  sliceLe : l.slice ≤ l.n
  slicePositive : 0 < l.slice

theorem wrapped_lt {start offset slice n : Nat} (startLt : start < n) (offsetLt : offset < slice)
    (sliceLe : slice ≤ n) : wrapped (start + offset) n < n := by
  unfold wrapped
  split <;> omega

theorem and_pred_lt {offset slice : Nat} (positive : 0 < slice) :
    offset &&& (slice - 1) < slice :=
  Nat.lt_of_le_of_lt Nat.and_le_right (by omega)

theorem Level.valueIn_lt {l : Level} (fits : l.Fits) (form : Form) (mask : form.mask = l.slice - 1)
    {h : Nat} (word : h < 2 ^ 64) (seed : Nat) : l.valueIn form h seed < l.n := by
  unfold Level.valueIn
  rw [mask]
  exact wrapped_lt (scale_lt word fits.positive) (and_pred_lt fits.slicePositive) fits.sliceLe

theorem Level.value_lt {l : Level} (fits : l.Fits) {h : Nat} (word : h < 2 ^ 64) (seed : Nat) :
    l.value h seed < l.n :=
  Level.valueIn_lt fits l.form rfl word seed

theorem Level.shippedValue_lt {l : Level} (fits : l.Fits) (slice : l.slice = fullSlice)
    {h : Nat} (word : h < 2 ^ 64) (seed : Nat) : l.shippedValue h seed < l.n := by
  unfold Level.shippedValue
  rw [← slice]
  exact wrapped_lt (scale_lt word fits.positive) (and_pred_lt fits.slicePositive) fits.sliceLe

theorem Level.laterValue_lt {l : Level} (fits : l.Fits) {h : Nat} (word : h < 2 ^ 64)
    (seed : Nat) : l.laterValue h seed < l.n := by
  unfold Level.laterValue
  split
  · exact Level.value_lt fits word seed
  · exact wrapped_lt (scale_lt word fits.positive) (and_pred_lt fits.slicePositive) fits.sliceLe

end Lexindex.Mphf
