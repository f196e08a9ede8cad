import Mathlib
import Lexindex.Mphf.Chunks
import Lexindex.Mphf.Run

/-!
# The pieces of a level

A level is placed in pieces: a run of buckets a chunk, and between two runs a gap, the buckets
whose slices reach past the boundary.  A run is seeded into a map of its own, a share of its first
values held back; a gap against the maps of the runs beside it.  The last gap, whose values wrap,
is seeded against everything.
-/

set_option autoImplicit false

namespace Lexindex.Mphf

/-! ## The shape of a level -/

/-- Keys per bucket (`LAMBDA`), as a ratio. -/
def lambda : Nat × Nat := (9, 2)

def ceilDivRatio (n : Nat) (ratio : Nat × Nat) : Nat :=
  divCeil (n * ratio.2) ratio.1

/-- Slice length for a level of `n` keys. -/
def sliceFor (n : Nat) : Nat :=
  let natural := if 2 ^ 15 ≤ n then fullSlice else if 2 ^ 12 ≤ n then 512 else 256
  min natural fullSlice

namespace Level

/-- The shape of a level over `n` keys, before its seeds are found. -/
def shape (n : Nat) (geometry : Geometry) : Level :=
  Level.ofShape n (max (ceilDivRatio n lambda) 1) (sliceFor n) geometry.modeBits

/-- The smallest value a key of bucket `b` can take. -/
def lo (l : Level) (b : Nat) : Nat :=
  b * l.n / l.buckets

/-- Buckets whose slices reach past a bucket, from before it. -/
def reach (l : Level) : Nat :=
  min (divCeil ((l.slice + 2) * l.buckets) l.n + 1) (l.buckets / 2)

/-- The first value of the word of a plane that holds value `v`. -/
def align (l : Level) (v : Nat) : Nat :=
  v / (64 <<< l.shift) * (64 <<< l.shift)

/-- `word`: the word of a plane an origin is the first value of. -/
def word (l : Level) (origin : Nat) : Int :=
  Map.originWord l.shift origin

end Level

/-! ## Values held back -/

/-- Share of the values at the start of a run held back for the gap before it, over `2 ^ 52`
(`HELD`). -/
def heldShare : Nat := 4350477240039899

/-- Whether the draw of the value `y` on from the first of bucket `b` holds it back. -/
def Level.holdsBack (l : Level) (b y : Nat) : Bool :=
  decide (mix (0x9E3779B97F4A7C15 ^^^ ((b <<< 20) % 2 ^ 64) ^^^ y) >>> 12 <
    heldShare * (l.slice - y) / l.slice)

/-- Mark the values held back for the gap before bucket `b`; they are cleared once the run is
placed. -/
def Level.reserve (l : Level) (b origin : Nat) (map : Map) : Map × List Nat :=
  let marked := ((List.range (min l.slice (l.n - l.lo b))).filter (l.holdsBack b)).map
    fun y => l.lo b + y - origin
  (map.setAll marked, marked)

/-! ## Runs and gaps -/

/-- What a placed chunk keeps for the gaps beside it. -/
structure Piece where
  /-- The values it placed, from value `origin`. -/
  map : Map
  origin : Nat
  /-- Where the keys of each bucket of the gap after it begin in `tailKeys`, and where they end. -/
  tail : List Nat
  tailKeys : List Nat
  deriving DecidableEq

/-- A run or a gap once it is seeded. -/
structure SeededPiece where
  /-- Its first bucket. -/
  first : Nat
  seeds : List UInt8
  bumped : List Nat
  deriving DecidableEq

/-- The keys of the buckets `from_..to_` of `run` that `seeds` bumped. -/
def bumpedKeys (run : Run) (seeds : List UInt8) (from_ to_ : Nat) : List Nat :=
  (List.range' from_ (to_ - from_)).flatMap fun b =>
    if seeds.getD b 0 = 0 then run.keysOf b else []

/-- The first bucket of the gap after chunk `k`. -/
def Level.runEnd (l : Level) (starts : List Nat) (k : Nat) : Nat :=
  endOf starts l.buckets k - l.reach

section Score

variable (log2 : Nat → Nat)

/-- The run of a chunk, in a map of its own. -/
def Level.placeChunk (l : Level) (starts : List Nat) (chunk : Chunk) : Option (SeededPiece × Piece) := do
  let first := firstOf starts chunk.index
  let stop := l.runEnd starts chunk.index
  let last := endOf starts l.buckets chunk.index
  let start := chunk.start.take (last - first + 1)
  let run : Run := { level := l, keys := chunk.keys, start }
  let origin := l.align (l.lo first)
  let blank := Map.new (min (l.lo stop + l.slice) l.n - origin) l.shift
  let reserved := l.reserve first origin blank
  let placed ← run.seedRun log2 (List.replicate (stop - first) 0) reserved.1 origin
  let map := reserved.2.foldl Map.clear placed.2
  let tailFrom := start.getD (stop - first) 0
  pure
    ({ first, seeds := placed.1, bumped := bumpedKeys run placed.1 0 (stop - first) },
      { map, origin
        tail := (start.drop (stop - first)).map (· - tailFrom)
        tailKeys := (chunk.keys.take (start.getD (last - first) 0)).drop tailFrom })

/-- The gap between chunks `g` and `g + 1`, against what theirs placed, and its own map and origin. -/
def Level.placeGap (l : Level) (starts : List Nat) (g : Nat) (left right : Piece) :
    Option (SeededPiece × Map × Nat) := do
  let first := l.runEnd starts g
  let stop := endOf starts l.buckets g
  let origin := l.align (l.lo first)
  let blank := Map.new (l.lo stop + l.slice - origin) l.shift
  let map := (blank.merge left.map (l.word left.origin - l.word origin)).merge right.map
    (l.word right.origin - l.word origin)
  let run : Run := { level := l, keys := left.tailKeys, start := left.tail }
  let placed ← run.seedRun log2 (List.replicate (stop - first) 0) map origin
  pure
    ({ first, seeds := placed.1, bumped := bumpedKeys run placed.1 0 (stop - first) },
      placed.2, origin)

/-- What the pieces leave for the end of the level. -/
structure Pieced where
  seeds : List UInt8
  taken : Map
  /-- The keys the chunks bumped, in chunk order, and the gaps after them. -/
  bumped : List Nat
  tail : List Nat
  tailKeys : List Nat

/-- A level once it is placed. -/
structure BuiltLevel where
  level : Level
  taken : Map
  bumped : List Nat

/-- The gap at the level's end, against everything. -/
def Level.placeEnd (l : Level) (pieced : Pieced) : Option BuiltLevel := do
  let from_ := l.buckets - l.reach
  let run : Run := { level := l, keys := pieced.tailKeys, start := pieced.tail }
  let placed ← run.seedRun log2 (pieced.seeds.drop from_) pieced.taken 0
  pure
    { level := { l with seeds := pieced.seeds.take from_ ++ placed.1 }
      taken := placed.2
      bumped := pieced.bumped ++ bumpedKeys run placed.1 0 l.reach }

end Score

end Lexindex.Mphf
