import Mathlib
import Lexindex.Lib.Checked
import Lexindex.Lib.Bytes
import Lexindex.Blob
import Lexindex.Mphf.Batch

/-!
# Reading a table

The loader of the three on-disk versions.  Section lengths are derived from the
scalars of the header, with every addition and product checked in a 64-bit word,
and compared with the blob's length before anything past the header is read.
-/

set_option autoImplicit false

namespace Lexindex

namespace Mphf

/-- Bumping levels at most (`MAX_LEVELS`). -/
def maxLevels : Nat := 16

def magic : List UInt8 := [0x4D, 0x50, 0x48, 0x33]
def magicV2 : List UInt8 := [0x4D, 0x50, 0x48, 0x32]
def magicV1 : List UInt8 := [0x4D, 0x50, 0x48, 0x31]

def format : Nat := 3
def formatV2 : Nat := 2
def formatV1 : Nat := 1

/-- Magic, version, mode bits, reserved byte and seven scalars (`FIXED`). -/
def fixed : Nat := 4 + 2 + 2 + 7 * 8

/-- Keys, buckets and slice length of one level (`LEVEL_ROW`). -/
def levelRow : Nat := 3 * 8

def headerLen (levels : Nat) : Nat :=
  fixed + levels * levelRow + 4

/-- The `i`-th scalar of a header. -/
def scalarAt (bytes : List UInt8) (i : Nat) : Nat :=
  leNat ((bytes.drop (8 + i * 8)).take 8)

/-- Whether the four bytes at `checked` are the check over the bytes before them. -/
def checkAgrees (bytes : List UInt8) (checked : Nat) : Prop :=
  leNat ((bytes.drop checked).take 4) = Blob.hashBytes (bytes.take checked) % 2 ^ 32

instance (bytes : List UInt8) (checked : Nat) : Decidable (checkAgrees bytes checked) := by
  unfold checkAgrees
  infer_instance

def isPowerOfTwo (x : Nat) : Prop :=
  x ≠ 0 ∧ x &&& (x - 1) = 0

instance (x : Nat) : Decidable (isPowerOfTwo x) := by
  unfold isPowerOfTwo
  infer_instance

def emptyShapeError : IndexError :=
  .format "mphf: empty table with a non-empty shape"

def lengthError : IndexError :=
  .format "mphf: blob length disagrees with the header"

namespace V2

/-- The header of an `MPH2` or `MPH3` blob. -/
structure Header where
  /-- Whether the magic is `MPH2`'s. -/
  old : Bool
  n : Nat
  levelCount : Nat
  geometry : Geometry
  tail : Tail
  /-- The remap's low bits, or an `MPH2` blob's hole count. -/
  scalar6 : Nat
  deriving DecidableEq, Repr

def readGeometry (old : Bool) (modeBits : Nat) : Except IndexError Geometry :=
  if modeBits = 0 then .ok .mph2
  else if old = false ∧ modeBits = shippedModeBits then .ok .mph3
  else .error (.format "mphf: unsupported seed geometry")

def readHeader (bytes : List UInt8) : Except IndexError Header := do
  refuse (bytes.length < 4 ∨ (bytes.take 4 ≠ magic ∧ bytes.take 4 ≠ magicV2))
    (.format "mphf: bad magic or truncated header")
  let old := decide (bytes.take 4 = magicV2)
  refuse (bytes.length < fixed + 4) (.format "mphf: truncated header")
  let levelCount := scalarAt bytes 1
  refuse (maxLevels < levelCount) (.format "mphf: too many levels")
  let hl := headerLen levelCount
  refuse (bytes.length < hl) (.format "mphf: truncated header")
  refuse (¬ checkAgrees bytes (hl - 4)) (.format "mphf: header checksum mismatch")
  refuse (leNat ((bytes.drop 4).take 2) ≠ if old then formatV2 else format)
    (.format "mphf: unsupported format version")
  let geometry ← readGeometry old (leNat ((bytes.drop 6).take 1))
  refuse (leNat ((bytes.drop 7).take 1) ≠ 0) (.format "mphf: reserved header field is not zero")
  pure
    { old, n := scalarAt bytes 0, levelCount, geometry
      tail :=
        { keys := scalarAt bytes 2, buckets := scalarAt bytes 3, range := scalarAt bytes 4
          seed := scalarAt bytes 5, seeds := [] }
      scalar6 := scalarAt bytes 6 }

/-- What makes a level's row inconsistent: `value` wraps once, so a slice must fit
inside the range, and must not carry the sum past the word before it wraps. -/
def badShape (n buckets slice : Nat) : Prop :=
  n = 0 ∨ buckets = 0 ∨ ¬ isPowerOfTwo slice ∨ n < slice ∨ 2 ^ 64 - 1 - n < slice

instance (n buckets slice : Nat) : Decidable (badShape n buckets slice) := by
  unfold badShape
  infer_instance

/-- The remap entries once row `i`, of a level of `n` keys, is counted. -/
def countEntries (i entries n : Nat) : Except IndexError Nat :=
  if 0 < i then okOr (checkedAdd entries n) sizeError else .ok entries

/-- The level of row `i`, and the remap entries counted so far. -/
def readLevel (bytes : List UInt8) (header : Header) (i entries : Nat) :
    Except IndexError (Level × Nat) := do
  let n := scalarAt bytes (7 + i * 3)
  let buckets := scalarAt bytes (8 + i * 3)
  let slice := scalarAt bytes (9 + i * 3)
  refuse (badShape n buckets slice) (.format "mphf: a level's shape is inconsistent")
  let modeBits := header.geometry.modeBits
  refuse (0 < modeBits ∧ slice >>> (8 - modeBits) = 0)
    (.format "mphf: a level's slice is too narrow for its mode bits")
  refuse (i = 0 ∧ n ≠ header.n) (.format "mphf: the first level does not cover the table")
  let entries ← countEntries i entries n
  pure (Level.ofShape n buckets slice modeBits, entries)

/-- `count` rows from row `i` on. -/
def readLevels (bytes : List UInt8) (header : Header) :
    Nat → Nat → Nat → Except IndexError (List Level × Nat)
  | 0, _, entries => .ok ([], entries)
  | count + 1, i, entries => do
      let (level, entries) ← readLevel bytes header i entries
      let (levels, entries) ← readLevels bytes header count (i + 1) entries
      pure (level :: levels, entries)

/-- The header, the levels' seeds and the tail's seeds: where the remap starts. -/
def seedsEnd (levels : List Level) (tail : Tail) (hl : Nat) : Option Nat := do
  let want ← levels.foldlM (fun want l => checkedAdd want l.buckets) hl
  let tailBytes ← checkedMul tail.buckets 2
  checkedAdd want tailBytes

/-- Words of an `MPH2` blob's remap sections. -/
structure OldSizes where
  setWords : Nat
  rankSamples : Nat
  lowWords : Nat
  highWords : Nat
  samples : Nat

def oldHighWords (holes n lowBits : Nat) : Option Nat :=
  if holes = 0 then some 0
  else do
    let words ← checkedAdd holes (n >>> lowBits)
    let words ← checkedAdd words 1
    pure (divCeil words 64)

def oldSizes (entries holes n lowBits : Nat) : Option OldSizes := do
  let lowParts ← checkedMul holes lowBits
  let highWords ← oldHighWords holes n lowBits
  pure
    { setWords := divCeil entries 64
      rankSamples := divCeil entries 512
      lowWords := divCeil lowParts 64
      highWords
      samples := divCeil holes 128 }

/-- The whole length of an `MPH2` blob whose remap starts at `want`. -/
def oldLength (want : Nat) (sizes : OldSizes) : Option Nat := do
  let set ← checkedMul sizes.setWords 8
  let want ← checkedAdd want set
  let ranks ← checkedMul sizes.rankSamples 4
  let want ← checkedAdd want ranks
  let low ← checkedMul sizes.lowWords 8
  let want ← checkedAdd want low
  let high ← checkedMul sizes.highWords 8
  let want ← checkedAdd want high
  let samples ← checkedMul sizes.samples 4
  checkedAdd want samples

/-- The whole length of an `MPH3` blob whose remap starts at `want`. -/
def newLength (want entries n lowBits : Nat) : Option Nat := do
  let lowWords ← Remap.lowWords entries lowBits
  let highWords ← Remap.highWords entries n lowBits
  let low ← checkedMul lowWords 8
  let want ← checkedAdd want low
  let high ← checkedMul highWords 8
  let want ← checkedAdd want high
  let samples ← Remap.sampleBytes entries
  checkedAdd want samples

/-- Each level with its seeds, a byte a bucket from the front of `bytes`. -/
def takeSeeds : List Level → List UInt8 → List Level
  | [], _ => []
  | l :: rest, bytes =>
      { l with seeds := bytes.take l.buckets } :: takeSeeds rest (bytes.drop l.buckets)

def takeWords (count : Nat) (bytes : List UInt8) : List Word :=
  (leWords 8 count bytes).map (BitVec.ofNat 64)

/-- An `MPH2` blob's remap, from its sections at the front of `bytes`. -/
def readOldRemap (bytes : List UInt8) (header : Header) (entries : Nat) (want : Nat)
    (length : Nat) : Except IndexError Remap := do
  let holes := header.scalar6
  let lowBits := Remap.naturalLowBits holes header.n
  let sizes ← okOr (oldSizes entries holes header.n lowBits) sizeError
  let whole ← okOr (oldLength want sizes) sizeError
  refuse (length ≠ whole) lengthError
  let set := takeWords sizes.setWords bytes
  let bytes := bytes.drop (sizes.setWords * 8 + sizes.rankSamples * 4)
  let low := takeWords sizes.lowWords bytes
  let bytes := bytes.drop (sizes.lowWords * 8)
  let high := takeWords sizes.highWords bytes
  Remap.fromV2 set low high holes lowBits entries header.n

/-- An `MPH3` blob's remap, from its sections at the front of `bytes`. -/
def readNewRemap (bytes : List UInt8) (header : Header) (entries : Nat) (want : Nat)
    (length : Nat) : Except IndexError Remap := do
  let lowBits := header.scalar6
  refuse (64 ≤ lowBits) (.format "mphf: remap low bits out of range")
  let whole ← okOr (newLength want entries header.n lowBits) sizeError
  refuse (length ≠ whole) lengthError
  let lowWords ← okOr (Remap.lowWords entries lowBits) sizeError
  let low := takeWords lowWords bytes
  let bytes := bytes.drop (lowWords * 8)
  let highWords ← okOr (Remap.highWords entries header.n lowBits) sizeError
  let high := takeWords highWords bytes
  let bytes := bytes.drop (highWords * 8)
  let held ← okOr (Remap.heldWords entries highWords) sizeError
  let supers := leWords 4 (Remap.superCount entries) bytes
  let bytes := bytes.drop (Remap.superCount entries * 4)
  let subs := leWords 2 (Remap.subCount entries) bytes
  pure
    { len := entries, lowBits, low
      high := high ++ List.replicate (held - highWords) 0#64
      supers, subs }

def readRemap (bytes : List UInt8) (header : Header) (entries : Nat) (want : Nat)
    (length : Nat) : Except IndexError Remap :=
  if header.old then readOldRemap bytes header entries want length
  else readNewRemap bytes header entries want length

/-- The scalars an empty table must hold zero. -/
def emptyShape (header : Header) : Prop :=
  header.levelCount = 0 ∧
    (header.tail.keys ||| header.tail.buckets ||| header.tail.range ||| header.tail.seed |||
      header.scalar6) = 0

instance (header : Header) : Decidable (emptyShape header) := by
  unfold emptyShape
  infer_instance

/-- A table of no keys. -/
def readEmpty (bytes : List UInt8) (header : Header) : Except IndexError V2 := do
  refuse (bytes.length ≠ headerLen header.levelCount ∨ ¬ emptyShape header) emptyShapeError
  pure (ofLevels 0 header.geometry [] header.tail Remap.empty)

/-- A table of some keys, past its header. -/
def readTables (bytes : List UInt8) (header : Header) : Except IndexError V2 := do
  let hl := headerLen header.levelCount
  let (levels, entries) ← readLevels bytes header header.levelCount 0 0
  let tail := header.tail
  refuse (¬ (tail.buckets = 0 ↔ tail.range = 0) ∨ ¬ (tail.buckets = 0 ↔ tail.keys = 0))
    (.format "mphf: the tail's shape is inconsistent")
  let entries ← okOr (checkedAdd entries tail.range) sizeError
  let want ← okOr (seedsEnd levels tail hl) sizeError
  refuse (header.old ∧ ((levels = [] ∧ header.scalar6 ≠ 0) ∨ header.n < header.scalar6))
    (.format "mphf: hole count out of range")
  let levels := takeSeeds levels (bytes.drop hl)
  let tail := { tail with seeds := leWords 2 tail.buckets (bytes.drop (want - tail.buckets * 2)) }
  let remap ← readRemap (bytes.drop want) header entries want bytes.length
  refuse (remap.validate header.n = false) Remap.badRemapError
  pure (ofLevels header.n header.geometry levels tail remap)

def fromBytes (bytes : List UInt8) : Except IndexError V2 := do
  let header ← readHeader bytes
  if header.n = 0 then readEmpty bytes header else readTables bytes header

end V2

namespace V1

/-- Magic, version, reserved field, eight scalars and the check (`HEADER_V1`). -/
def headerLen : Nat := 4 + 2 + 2 + 8 * 8 + 4

/-- Header bytes the trailing check covers (`CHECKED_V1`). -/
def checkedLen : Nat := headerLen - 4

def windowError : IndexError :=
  .format "mphf: stride too small for a key's window"

def bucketCountError : IndexError :=
  .format "mphf: bucket count out of range"

/-- The scalars of a header, its tables still empty. -/
def readHeader (bytes : List UInt8) : Except IndexError V1 := do
  refuse (bytes.length < headerLen ∨ bytes.take 4 ≠ magicV1)
    (.format "mphf: bad magic or truncated header")
  refuse (¬ checkAgrees bytes checkedLen) (.format "mphf: header checksum mismatch")
  refuse (leNat ((bytes.drop 4).take 2) ≠ formatV1) (.format "mphf: unsupported format version")
  refuse (leNat ((bytes.drop 6).take 2) ≠ 0) (.format "mphf: reserved header field is not zero")
  pure
    { n := scalarAt bytes 0, slots := scalarAt bytes 1, parts := scalarAt bytes 2
      bucketsPerPart := scalarAt bytes 3, slotsPerPart := scalarAt bytes 4
      stride := scalarAt bytes 5, denseBuckets := scalarAt bytes 6
      partSeed := [], pilots := [], remapBase := [], remapOff := []
      seed := scalarAt bytes 7 }

def readEmpty (bytes : List UInt8) (t : V1) : Except IndexError V1 := do
  refuse
    (bytes.length ≠ headerLen ∨
      (t.slots ||| t.parts ||| t.bucketsPerPart ||| t.slotsPerPart ||| t.stride |||
        t.denseBuckets) ≠ 0)
    emptyShapeError
  pure { t with slots := 0, parts := 0, bucketsPerPart := 0, slotsPerPart := 0, stride := 0
                denseBuckets := 0 }

/-- The length a header's scalars ask for. -/
def wholeLength (parts bucketCount blocks entries : Nat) : Option Nat := do
  let seeds ← checkedMul parts 8
  let want ← checkedAdd headerLen seeds
  let want ← checkedAdd want bucketCount
  let bases ← checkedMul blocks 4
  let want ← checkedAdd want bases
  let offs ← checkedMul entries 2
  checkedAdd want offs

def readTables (bytes : List UInt8) (t : V1) : Except IndexError V1 := do
  refuse (t.parts = 0 ∨ t.bucketsPerPart = 0 ∨ t.slotsPerPart = 0)
    (.format "mphf: a table dimension is zero")
  refuse (t.bucketsPerPart ≤ t.denseBuckets)
    (.format "mphf: skew boundary outside the bucket range")
  let window ← okOr (checkedAdd t.slotsPerPart 63) (.format "mphf: slots per part out of range")
  refuse (t.stride % 64 ≠ 0 ∨ t.stride < window) windowError
  refuse (checkedMul t.stride t.parts ≠ some t.slots ∨ t.slots < t.n)
    (.format "mphf: slot count disagrees with the parts")
  let entries := t.slots - t.n
  let bucketCount ← okOr (checkedMul t.parts t.bucketsPerPart) bucketCountError
  let blocks := divCeil entries remapBlock
  let want ← okOr (wholeLength t.parts bucketCount blocks entries) sizeError
  refuse (bytes.length ≠ want) lengthError
  let bytes := bytes.drop headerLen
  let partSeed := leWords 8 t.parts bytes
  let bytes := bytes.drop (t.parts * 8)
  let pilots := bytes.take bucketCount
  let bytes := bytes.drop bucketCount
  let remapBase := leWords 4 blocks bytes
  let bytes := bytes.drop (blocks * 4)
  let remapOff := leWords 2 entries bytes
  refuse (∃ i < entries, t.n ≤ remapBase.getD (i / remapBlock) 0 + remapOff.getD i 0)
    Remap.badRemapError
  pure { t with partSeed, pilots, remapBase, remapOff }

def fromBytes (bytes : List UInt8) : Except IndexError V1 := do
  let t ← readHeader bytes
  if t.n = 0 then readEmpty bytes t else readTables bytes t

end V1

/-- A blob of this version, of 1.1 to 3.0, or of 1.0. -/
def fromBytes (bytes : List UInt8) : Except IndexError Mphf :=
  if bytes.take 4 = magic ∨ bytes.take 4 = magicV2 then do
    let table ← V2.fromBytes bytes
    pure { table }
  else if bytes.take 4 = magicV1 then do
    let table ← V1.fromBytes bytes
    pure { table := V2.ofV1 table }
  else .error (.format "mphf: bad magic or truncated header")

end Mphf

end Lexindex
