import Mathlib
import Lexindex.Mphf.Law
import Lexindex.Mphf.Remap

/-!
# The table and its single lookup

A lookup reads the first level's seed; a key that level bumped goes on to the
levels below it, then to the tail, and what places it there is mapped to a hole
of the first level.  Every read, the unchecked ones included, is an option here:
a lookup is `none` exactly when some read would leave its table.
-/

set_option autoImplicit false

namespace Lexindex

namespace Mphf

/-! ## The 1.0 table -/

/-- Remap entries per block base in the 1.0 format (`REMAP_BLOCK`). -/
def remapBlock : Nat := 256

/-- The four multipliers behind a key's four window bases (`MUL`). -/
def mul : List Nat :=
  [0x6A09E667F3BCC909, 0xBB67AE8584CAA73B, 0x3C6EF372FE94F82B, 0xA54FF53A5F1D36F1]

def spread (h seed : Nat) : Nat :=
  ((h ^^^ seed) * 0x6A09E667F3BCC909) % 2 ^ 64

def rotateLeft (x by_ : Nat) : Nat :=
  ((BitVec.ofNat 64 x).rotateLeft by_).toNat

/-- The 1.0 table: a pilot per bucket, parts placed independently, slots at or
above `n` remapped down. -/
structure V1 where
  n : Nat
  slots : Nat
  parts : Nat
  bucketsPerPart : Nat
  slotsPerPart : Nat
  stride : Nat
  denseBuckets : Nat
  partSeed : List Nat
  pilots : List UInt8
  remapBase : List Nat
  remapOff : List Nat
  seed : Nat
  deriving DecidableEq, Repr

namespace V1

/-- Which bucket of its own part a hash belongs to: 60 % of the space into the
first `dense` buckets. -/
def bucketInPart (hb buckets dense : Nat) : Nat :=
  let hl := rotateLeft hb 17
  if dense = 0 then scale hl buckets
  else
    let (lo, span) := if hl < (2 ^ 64 - 1) / 5 * 3 then (0, dense) else (dense, buckets - dense)
    lo + scale (rotateLeft hl 23) span

def base (h partSeed j slots : Nat) : Nat :=
  scale (((h ^^^ partSeed) * mul.getD j 0) % 2 ^ 64) slots

/-- The part of `h` and the flat index of its bucket's pilot. -/
def locate (t : V1) (h : Nat) : Nat × Nat :=
  let hb := spread h t.seed
  let part := scale hb t.parts
  (part, part * t.bucketsPerPart + bucketInPart hb t.bucketsPerPart t.denseBuckets)

/-- What slot `s` answers: itself inside the image, its remap entry past it. -/
def answerOf (t : V1) (s : Nat) : Option Nat :=
  if s < t.n then some s
  else do
    let i := s - t.n
    let remapBase ← t.remapBase[i / remapBlock]?
    let remapOff ← t.remapOff[i]?
    pure (remapBase + remapOff)

def index (t : V1) (h : Nat) : Option Nat := do
  let pilot ← t.pilots[(t.locate h).2]?
  let partSeed ← t.partSeed[(t.locate h).1]?
  t.answerOf ((t.locate h).1 * t.stride + base h partSeed (pilot.toNat >>> 6) t.slotsPerPart +
    (pilot.toNat &&& 63))

end V1

/-! ## The current table -/

/-- The last level: no bumping, two-byte seeds, a table with slack. -/
structure Tail where
  keys : Nat
  buckets : Nat
  range : Nat
  seed : Nat
  seeds : List Nat
  deriving DecidableEq, Repr

namespace Tail

def empty : Tail :=
  { keys := 0, buckets := 0, range := 0, seed := 0, seeds := [] }

/-- Where `h` lands under `seed`: an independent position a seed. -/
def position (h seed range : Nat) : Nat :=
  scale (mix ((h + seed * 0x9E3779B97F4A7C15 % 2 ^ 64) % 2 ^ 64)) range

end Tail

structure V2 where
  /-- How many keys were built in; the image is `[0, n)`. -/
  n : Nat
  geometry : Geometry
  /-- The level every lookup reads: the first when it has the shipped geometry. -/
  placing : Level
  /-- A first level of any other geometry. -/
  otherFirst : Option Level
  /-- The levels the bumped keys go to, in order. -/
  rest : List Level
  tail : Tail
  remap : Remap
  /-- A 1.0 table answers from here. -/
  v1 : Option V1
  deriving DecidableEq, Repr

namespace V2

/-- A table of `levels`, the first of them over every key. -/
def ofLevels (n : Nat) (geometry : Geometry) (levels : List Level) (tail : Tail)
    (remap : Remap) : V2 :=
  match levels with
  | [] =>
      { n, geometry, placing := Level.bumpingAll, otherFirst := none, rest := [], tail, remap
        v1 := none }
  | first :: rest =>
      if first.shipped then
        { n, geometry, placing := first, otherFirst := none, rest, tail, remap, v1 := none }
      else
        { n, geometry, placing := Level.bumpingAll, otherFirst := some first, rest, tail, remap
          v1 := none }

/-- A 1.0 table: no level of this format, so every lookup bumps and goes to `v1`. -/
def ofV1 (t : V1) : V2 :=
  { ofLevels 0 .mph3 [] Tail.empty Remap.empty with v1 := some t }

/-- The bumping level over every key; `none` for a table of a tail alone. -/
def first (t : V2) : Option Level :=
  if t.placing.n = 0 then t.otherFirst else some t.placing

def levels (t : V2) : List Level :=
  t.first.toList ++ t.rest

/-- The value a bumped key takes on the levels from `rest` on, the first of them
level `level` and `shift` values in; in the tail when no level places it; `none`
inside for an empty tail. -/
def bumpedValueFrom (tail : Tail) (h : Nat) : List Level → Nat → Nat → Option (Option Nat)
  | [], _, shift =>
      if tail.buckets = 0 then some none
      else do
        let ht := mix (h ^^^ tail.seed)
        let seed ← tail.seeds[scale ht tail.buckets]?
        pure (some (shift + Tail.position ht seed tail.range))
  | l :: rest, level, shift => do
      let hi := levelHash h level
      let seed ← l.seedOf hi
      if seed ≠ 0 then pure (some (shift + l.laterValue hi seed))
      else bumpedValueFrom tail h rest (level + 1) (shift + l.n)

def bumpedValue (t : V2) (h : Nat) : Option (Option Nat) :=
  bumpedValueFrom t.tail h t.rest 1 0

/-- The hole of the value a bumped key takes, 0 where there is none. -/
def bumpedHole (t : V2) (h : Nat) : Option Nat := do
  match ← t.bumpedValue h with
  | some value => t.remap.get value
  | none => pure 0

def indexBumped (t : V2) (h : Nat) : Option Nat :=
  match t.otherFirst with
  | some l => do
      let seed ← l.seedOf h
      if seed ≠ 0 then pure (l.laterValue h seed) else t.bumpedHole h
  | none =>
      match t.v1 with
      | some v1 => v1.index h
      | none => t.bumpedHole h

def index (t : V2) (h : Nat) : Option Nat := do
  let seed ← t.placing.seedOf h
  if seed ≠ 0 then pure (t.placing.shippedValue h seed) else t.indexBumped h

end V2

end Mphf

/-! ## The minimal perfect hash -/

structure Mphf where
  table : Mphf.V2
  deriving DecidableEq, Repr

namespace Mphf

/-- How many keys are in the image. -/
def n (m : Mphf) : Nat :=
  match m.table.v1 with
  | none => m.table.n
  | some t => t.n

def index (m : Mphf) (h : Nat) : Option Nat :=
  m.table.index h

end Mphf

end Lexindex

/-!
## The batch lookup

From a first level of a quarter of a million seeds on, a batch pulls a key's seed
in a fixed lead before its turn and keeps the buckets of the keys ahead in a ring.
A block of keys goes through the first level; the keys it bumped are then answered
in three stages that run side by side, each a few keys behind the one before it.
What a prefetch pulls in is not modelled, since it answers nothing.
-/

namespace Lexindex

namespace Mphf

/-- First-level seeds from which a batch prefetches them (`PREFETCH_SEEDS`). -/
def prefetchSeeds : Nat := 2 ^ 18

/-- Keys between a seed's prefetch and its read (`SEED_AHEAD`). -/
def seedAhead : Nat := 64

/-- First-level seeds from which a seed is pulled in more than once (`RETRY_SEEDS`). -/
def retrySeeds : Nat := 2 ^ 24

/-- The farthest lead on such a level (`RETRY_AHEAD[0]`). -/
def retryAhead : Nat := 56

/-- Keys taken through the first level before those it bumped are answered (`BATCH_BLOCK`). -/
def batchBlock : Nat := 1024

/-- Bumped keys between one stage and the next (`STAGE_GAP`). -/
def stageGap : Nat := 8

namespace V2

/-- What a block's pass over the first level leaves: the ring, the block's answers,
and the offsets of the keys the level bumped. -/
structure Pass where
  ring : List Nat
  answers : List Nat
  bumped : List Nat

/-- The ring once the key a lead on, if there is one, has its seed pulled in. -/
def pullIn (l : Level) (slot : Nat) (ring : List Nat) : Option Nat → List Nat
  | some coming => ring.set slot (bucketOf coming l.buckets)
  | none => ring

/-- The keys of a block from offset `k` on, `next` the keys a lead on from them. -/
def answerBlockFrom (l : Level) (form : Form) (lead base : Nat) :
    Nat → List Nat → List Nat → List Nat → Option Pass
  | _, ring, [], _ => some { ring, answers := [], bumped := [] }
  | k, ring, h :: keys, next => do
      let i := base + k
      let bucket := ring.getD (i % seedAhead) 0
      let ring := pullIn l ((i + lead) % seedAhead) ring next.head?
      let seed ← l.seedAt bucket
      let pass ← answerBlockFrom l form lead base (k + 1) ring keys next.tail
      pure
        { pass with
          answers := l.valueIn form h seed :: pass.answers
          bumped := if seed = 0 then k :: pass.bumped else pass.bumped }

/-- A bumped key: its offset in the block, and how far its answer has got. -/
structure Pending where
  offset : Nat
  landed : Nat

/-- The answer of a key no level placed and no tail holds, before it is written. -/
def nowhere : Nat := 2 ^ 64 - 1

/-- The second stage at step `i`: the remap entry of the key a gap behind. -/
def landStage (t : V2) (block : List Nat) (bumped : List Pending) (i : Nat) :
    Option (List Pending) :=
  if i < stageGap then some bumped
  else
    match bumped[i - stageGap]? with
    | none => some bumped
    | some pending => do
        let landed ← t.bumpedValue (block.getD pending.offset 0)
        pure (bumped.set (i - stageGap) { pending with landed := landed.getD nowhere })

/-- The third stage at step `i`: the answer of the key two gaps behind. -/
def answerStage (t : V2) (bumped : List Pending) (out : List Nat) (i : Nat) :
    Option (List Nat) :=
  if i < 2 * stageGap then some out
  else
    match bumped[i - 2 * stageGap]? with
    | none => some out
    | some pending =>
        if pending.landed = nowhere then some (out.set pending.offset 0)
        else do
          let hole ← t.remap.get pending.landed
          pure (out.set pending.offset hole)

/-- `steps` steps of the pipeline from step `i` on. -/
def resolveFrom (t : V2) (block : List Nat) :
    Nat → Nat → List Pending → List Nat → Option (List Nat)
  | 0, _, _, out => some out
  | steps + 1, i, bumped, out => do
      let bumped ← t.landStage block bumped i
      let out ← t.answerStage bumped out i
      resolveFrom t block steps (i + 1) bumped out

/-- The keys of `block` the first level bumped, answered into `out`. -/
def resolveBumped (t : V2) (block bumped out : List Nat) : Option (List Nat) :=
  t.resolveFrom block (bumped.length + 2 * stageGap) 0
    (bumped.map fun offset => { offset, landed := 0 }) out

/-- The blocks of a batch from key `base` on, `hashes` the keys from there. -/
def batchFrom (t : V2) (l : Level) (form : Form) (lead : Nat) :
    Nat → Nat → List Nat → List Nat → Option (List Nat)
  | 0, _, _, _ => some []
  | blocks + 1, base, ring, hashes => do
      let block := hashes.take batchBlock
      let next := (hashes.drop lead).take block.length
      let pass ← answerBlockFrom l form lead base 0 ring block next
      let answers ← t.resolveBumped block pass.bumped pass.answers
      let later ← batchFrom t l form lead blocks (base + batchBlock) pass.ring
        (hashes.drop batchBlock)
      pure (answers ++ later)

/-- The ring before the first block: the buckets of the first `lead` keys. -/
def firstRing (l : Level) (lead : Nat) (hashes : List Nat) : List Nat :=
  let buckets := (hashes.take lead).map (bucketOf · l.buckets)
  buckets ++ List.replicate (seedAhead - buckets.length) 0

def batch (t : V2) (shipped retry : Bool) (l : Level) (hashes : List Nat) : Option (List Nat) :=
  let form := if shipped then Level.shippedForm else l.form
  let lead := if retry then retryAhead else seedAhead
  t.batchFrom l form lead (divCeil hashes.length batchBlock) 0 (firstRing l lead hashes) hashes

/-- One key of a batch below the prefetching size, on a shipped first level `l`. -/
def shippedIndex (t : V2) (l : Level) (h : Nat) : Option Nat := do
  let seed ← l.seedOf h
  if seed = 0 then t.indexBumped h else pure (l.shippedValue h seed)

def indexAllFrom (t : V2) (hashes : List Nat) (prefetchSeeds retrySeeds : Nat) :
    Option (List Nat) :=
  match t.first with
  | none => hashes.mapM t.index
  | some l =>
      if l.seeds.length < prefetchSeeds then
        if l.shipped then hashes.mapM (t.shippedIndex l) else hashes.mapM t.index
      else t.batch l.shipped (decide (retrySeeds ≤ l.seeds.length)) l hashes

def indexAll (t : V2) (hashes : List Nat) : Option (List Nat) :=
  t.indexAllFrom hashes prefetchSeeds retrySeeds

end V2

def indexAll (m : Mphf) (hashes : List Nat) : Option (List Nat) :=
  match m.table.v1 with
  | none => m.table.indexAll hashes
  | some t => hashes.mapM t.index

end Mphf

end Lexindex
