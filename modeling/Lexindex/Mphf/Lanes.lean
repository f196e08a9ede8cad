import Mathlib
import Lexindex.Mphf.Law
import Lexindex.Mphf.Occupancy

/-!
# Seeding one bucket

The seed that lands every key of a bucket on a distinct free value, marking those
values taken; 0 if there is none.  A key's occupancy under every shift of a mode is
one word, so the shifts that place a bucket are the zero bits of the OR of its
keys' words, and of those the first at or after each wrap is a candidate, scored by
the product of the keys' positions.  `log2` is the table of logarithms a score sums.

Levels are the build's: six shift bits a mode, so the search the source keeps for
wider modes is never reached.
-/

set_option autoImplicit false

namespace Lexindex.Mphf

/-- Largest bucket a seed is searched for (`MAX_BUCKET`). -/
def maxBucket : Nat := 64

/-- What is added to a position before its logarithm is taken (`PROD_C`). -/
def prodC : Nat := 95

/-! ## A key on a map whose bit 0 is value `origin` -/

/-- A key's offset in its slice under `mode`. -/
def Level.offset (l : Level) (h mode : Nat) : Nat :=
  (h >>> (8 * mode)) &&& (l.slice - 1)

/-- The smallest value a key can take on this map. -/
def Level.startOn (l : Level) (origin h : Nat) : Nat :=
  scale h l.n - origin

/-- Values past the range's end wrap to its beginning. -/
def Level.foldOn (l : Level) (origin v : Nat) : Nat :=
  wrapped v (l.n - origin)

/-- The value of a key under shift `t` of a mode. -/
def Level.placeOn (l : Level) (origin mode h t : Nat) : Nat :=
  l.foldOn origin (l.startOn origin h + ((l.offset h mode + (t <<< l.shift)) &&& (l.slice - 1)))

/-- The shift at which a key wraps inside its slice. -/
def Level.cutOf (l : Level) (mode h : Nat) : Nat :=
  (l.slice - l.offset h mode + (2 ^ l.shift - 1)) >>> l.shift

/-- A key whose slice crosses the range's end is read bit by bit. -/
def Level.slowOn (l : Level) (origin h : Nat) : Prop :=
  l.n - origin < l.startOn origin h + l.slice

instance (l : Level) (origin h : Nat) : Decidable (l.slowOn origin h) := by
  unfold Level.slowOn
  infer_instance

/-- Shifts a mode has. -/
def Level.shifts (l : Level) : Nat :=
  2 ^ (8 - l.modeBits)

/-- The shifts of `mode` that put a key on a taken value. -/
def Level.keyWord (l : Level) (origin : Nat) (taken : Map) (mode h : Nat) : Word :=
  let v := l.foldOn origin (l.startOn origin h + l.offset h mode)
  let p := taken.planeOf v
  let b := taken.bitOf v
  let c := l.cutOf mode h
  let period := l.slice >>> l.shift
  if l.slowOn origin h then
    (List.range l.shifts).foldl
      (fun w j => w ||| (if taken.get (l.placeOn origin mode h j) then 1#64 <<< j else 0#64)) 0#64
  else if period = 64 then (taken.window p (b + c - 64)).rotateLeft c
  else if l.shifts ≤ c then taken.window p b
  else (taken.window p b &&& ((1#64 <<< c) - 1#64)) ||| (taken.window p (b + c - period) <<< c)

/-- The OR of the keys' words over `u`, left off once every shift is ruled out. -/
def Level.orKeys (l : Level) (origin : Nat) (taken : Map) (mode : Nat) : Word → List Nat → Word
  | u, [] => u
  | u, h :: rest =>
      let u := u ||| l.keyWord origin taken mode h
      if u = BitVec.allOnes 64 then u else l.orKeys origin taken mode u rest

/-- Shifts no key can take: shift 0 of mode 0, everything past the mode's shifts,
and every key's word. -/
def Level.modeWord (l : Level) (origin : Nat) (taken : Map) (mode : Nat) (ks : List Nat) : Word :=
  let u := if mode = 0 then 1#64 else 0#64
  let u := if l.shifts < 64 then u ||| (BitVec.allOnes 64 <<< l.shifts) else u
  l.orKeys origin taken mode u ks

/-- The shifts at which some key wraps. -/
def Level.wraps (l : Level) (mode : Nat) (ks : List Nat) : Word :=
  ks.foldl
    (fun wraps h =>
      if l.cutOf mode h < l.shifts then wraps ||| (1#64 <<< l.cutOf mode h) else wraps) 0#64

/-- The keys' values under shift `t` of a mode. -/
def Level.placesOn (l : Level) (origin mode t : Nat) (ks : List Nat) : List Nat :=
  ks.map fun h => l.placeOn origin mode h t

section Score

variable (log2 : Nat → Nat)

/-- The score of shift `t`: the logarithm of the product of the keys' positions. -/
def Level.score (l : Level) (mode : Nat) (ks : List Nat) (t : Nat) : Nat :=
  (ks.map fun h => log2 (((l.offset h mode + (t <<< l.shift)) &&& (l.slice - 1)) + prodC)).sum

/-- The best seed so far. -/
structure Best where
  score : Nat
  mode : Nat
  shift : Nat
  deriving DecidableEq, Repr

/-- The candidates of a mode: the first feasible shift at or after each set bit of
`wraps`.  A candidate whose values meet is struck out and the wrap retried. -/
def scanFrom (scoreAt : Nat → Nat) (meet : Nat → Bool) (mode : Nat) :
    Nat → Word → Word → Option Best → Option Best
  | 0, _, _, best => best
  | fuel + 1, u, wraps, best =>
      if wraps = 0#64 then best
      else
        let c := wraps.ctz.toNat
        let rest := wraps &&& (wraps - 1#64)
        let free := ~~~u &&& (BitVec.allOnes 64 <<< c)
        if free = 0#64 then best
        else
          let t := free.ctz.toNat
          if best.any fun b => decide (b.score ≤ scoreAt t) then
            scanFrom scoreAt meet mode fuel u rest best
          else if meet t then
            scanFrom scoreAt meet mode fuel (u ||| (1#64 <<< t)) (rest ||| (1#64 <<< c)) best
          else
            scanFrom scoreAt meet mode fuel u rest
              (some { score := scoreAt t, mode, shift := t })

/-- Rounds a scan takes at most: each clears a wrap or strikes out a shift. -/
def scanFuel : Nat := 129

/-- The best seed once `mode` is searched.  Two keys on one value under shift 0 stay
together under every shift of the mode. -/
def Level.searchMode (l : Level) (origin : Nat) (taken : Map) (ks : List Nat)
    (best : Option Best) (mode : Nat) : Option Best :=
  if ¬ (ks.map fun h => l.foldOn origin (l.startOn origin h + l.offset h mode)).Nodup then best
  else
    scanFrom (l.score log2 mode ks) (fun t => decide (¬ (l.placesOn origin mode t ks).Nodup)) mode
      scanFuel (l.modeWord origin taken mode ks) (l.wraps mode ks ||| 1#64) best

/-- Mark every value of a list taken. -/
def Map.setAll (taken : Map) (values : List Nat) : Map :=
  values.foldl Map.set taken

def Level.seedBucket (l : Level) (ks : List Nat) (taken : Map) (origin : Nat) : Nat × Map :=
  if maxBucket < ks.length then (0, taken)
  else
    match (List.range (2 ^ l.modeBits)).foldl (l.searchMode log2 origin taken ks) none with
    | none => (0, taken)
    | some best =>
        ((best.mode <<< (8 - l.modeBits)) ||| best.shift,
          taken.setAll (l.placesOn origin best.mode best.shift ks))

end Score

end Lexindex.Mphf

/-!
## Seeding one bucket lane by lane

The same search for a bucket of at most sixteen keys whose slices end inside the
range, with every loop as long as the bucket.  The shifts a collision of two keys
rules out are a span of the mode's word, so all of a mode's candidates come out of
one addition, and a seed's score with its seed below it is one key.  The scratch
tables are carried from bucket to bucket and only ever save work.
-/

namespace Lexindex.Mphf

/-- What `seed_bucket_lanes` keeps across buckets. -/
structure LaneScratch where
  /-- A bit of each lane, by the low six bits of its value. -/
  mates : List Nat
  /-- The mode that last saw each residue of a value modulo the slice, from 1 on. -/
  seen : List Nat
  mode : Nat

def LaneScratch.new : LaneScratch :=
  { mates := List.replicate 64 0, seen := List.replicate fullSlice 0, mode := 0 }

/-- Whether a level's runs are searched lane by lane. -/
def Level.laned (l : Level) : Prop :=
  l.modeBits = 2 ∧ l.slice ≤ fullSlice ∧ l.slice >>> l.shift = 64

instance (l : Level) : Decidable l.laned := by
  unfold Level.laned
  infer_instance

/-- Shifts `a..b` of a word, for `1 <= a, b <= 64`. -/
def span (a b : Nat) : Word :=
  (BitVec.allOnes 64 >>> (64 - b)) &&& ~~~(BitVec.allOnes 64 >>> (64 - a))

/-- A lane in one mode: its key's cut and its value under shift 0. -/
structure Lane where
  cut : Nat
  value : Nat

/-- What the first pass over a mode's lanes gathers. -/
structure Gathered where
  wraps : Word
  u : Word
  /-- Whether two lanes were seen on one residue of the slice. -/
  twice : Bool
  seen : List Nat

def Level.laneOf (l : Level) (origin mode h : Nat) : Lane :=
  { cut := l.cutOf mode h, value := l.startOn origin h + l.offset h mode }

def Level.gatherLane (l : Level) (taken : Map) (now : Nat) (state : Gathered) (lane : Lane) :
    Gathered :=
  let residue := lane.value &&& (l.slice - 1) &&& (fullSlice - 1)
  { wraps := state.wraps ||| (1#64 <<< (lane.cut &&& 63))
    twice := state.twice || decide (state.seen.getD residue 0 = now)
    seen := state.seen.set residue now
    u := state.u |||
      (taken.window (taken.planeOf lane.value)
        (taken.bitOf lane.value + lane.cut - 64)).rotateLeft lane.cut }

/-- The shifts at which two lanes meet, the later lane second: none, all, or the
span between their cuts when their shift-0 values are a slice apart. -/
def meetWord (slice : Nat) (i j : Lane) : Word :=
  if i.value = j.value then BitVec.allOnes 64
  else if i.value = j.value + slice then span i.cut j.cut
  else if j.value = i.value + slice then span j.cut i.cut
  else 0#64

/-- What the second pass over a mode's lanes gathers. -/
structure Matched where
  u : Word
  mates : List Nat
  written : Word

/-- The lanes of `lanes` whose bit is set in `before`, against `lane`. -/
def meetWords (slice : Nat) (lanes : List Lane) (before : Nat) (lane : Lane) (u : Word) : Word :=
  ((List.range 16).filter before.testBit).foldl
    (fun u i =>
      match lanes[i]? with
      | some other => u ||| meetWord slice other lane
      | none => u) u

/-- The lane `j`, against the lanes before it that agree with it in the low six bits. -/
def matchLane (slice : Nat) (lanes : List Lane) (state : Matched) (j : Nat) (lane : Lane) :
    Matched :=
  let low := lane.value &&& 63
  let before := if state.written.getLsbD low then state.mates.getD low 0 else 0
  { u := meetWords slice lanes before lane state.u
    mates := state.mates.set low (before ||| (1 <<< j))
    written := state.written ||| (1#64 <<< low) }

def matchLanes (slice : Nat) (lanes : List Lane) : Nat → List Lane → Matched → Matched
  | _, [], state => state
  | j, lane :: rest, state => matchLanes slice lanes (j + 1) rest (matchLane slice lanes state j lane)

/-- The wraps and the ruled-out shifts of a mode, and the scratch after it. -/
def Level.laneMode (l : Level) (origin : Nat) (taken : Map) (ks : List Nat) (mode : Nat)
    (scratch : LaneScratch) : Word × Word × LaneScratch :=
  let now := (scratch.mode + 1) % 2 ^ 32
  let lanes := ks.map (l.laneOf origin mode)
  let start : Gathered :=
    { wraps := 1#64, u := if mode = 0 then 1#64 else 0#64, twice := false, seen := scratch.seen }
  let gathered := lanes.foldl (l.gatherLane taken now) start
  let matched : Matched :=
    if gathered.twice then
      matchLanes l.slice lanes 0 lanes
        { u := gathered.u, mates := scratch.mates, written := 0#64 }
    else { u := gathered.u, mates := scratch.mates, written := 0#64 }
  (gathered.wraps, matched.u, { mates := matched.mates, seen := gathered.seen, mode := now })

/-- The first feasible shift at or after each wrap: where a carry from the wrap's bit
stops among the ruled-out shifts. -/
def candidates (wraps u : Word) : Word :=
  (wraps &&& ~~~u) ||| ((u + (wraps &&& u)) &&& ~~~u)

section Score

variable (log2 : Nat → Nat)

/-- A seed's score, and the seed, as one word. -/
def Level.laneKey (l : Level) (ks : List Nat) (mode t : Nat) : Nat :=
  l.score log2 mode ks t * 2 ^ 8 + mode * 2 ^ 6 + t

/-- The lowest key once `mode`'s candidates are scored; `none` is the all-ones key. -/
def Level.laneBest (l : Level) (ks : List Nat) (mode : Nat) (marks : Word) (best : Option Nat) :
    Option Nat :=
  marks.ones.foldl
    (fun best t =>
      some (match best with
        | none => l.laneKey log2 ks mode t
        | some least => min least (l.laneKey log2 ks mode t))) best

def Level.laneSearch (l : Level) (origin : Nat) (taken : Map) (ks : List Nat)
    (state : Option Nat × LaneScratch) (mode : Nat) : Option Nat × LaneScratch :=
  let (wraps, u, scratch) := l.laneMode origin taken ks mode state.2
  (l.laneBest log2 ks mode (candidates wraps u) state.1, scratch)

/-- The seed in a lowest key, its keys' values marked; 0 where no key was found. -/
def Level.laneOutcome (l : Level) (ks : List Nat) (taken : Map) (origin : Nat) :
    Option Nat → Nat × Map
  | none => (0, taken)
  | some key =>
      (key % 2 ^ 8,
        taken.setAll (ks.map fun h =>
          l.startOn origin h +
            ((l.offset h (key >>> 6 &&& 3) + ((key &&& 63) <<< l.shift)) &&& (l.slice - 1))))

/-- `None` for a bucket whose slices do not all end inside the range, before anything
is marked. -/
def Level.seedBucketLanes (l : Level) (ks : List Nat) (taken : Map) (origin : Nat)
    (scratch : LaneScratch) : Option (Nat × Map) × LaneScratch :=
  if ks.any fun h => decide (l.slowOn origin h) then (none, scratch)
  else
    let found := (List.range 4).foldl (l.laneSearch log2 origin taken ks) (none, scratch)
    (some (l.laneOutcome ks taken origin found.1), found.2)

/-- `seed_bucket_lanes` at the bucket's own number of keys, for one to sixteen. -/
def Level.seedBucketLaned (l : Level) (ks : List Nat) (taken : Map) (origin : Nat)
    (scratch : LaneScratch) : Option (Nat × Map) × LaneScratch :=
  if 1 ≤ ks.length ∧ ks.length ≤ 16 then l.seedBucketLanes log2 ks taken origin scratch
  else (none, scratch)

/-- One bucket of a run: lane by lane where that answers, else by the plain search. -/
def Level.seedOneBucket (l : Level) (ks : List Nat) (taken : Map) (origin : Nat)
    (scratch : LaneScratch) : (Nat × Map) × LaneScratch :=
  if l.laned then
    let (fast, scratch) := l.seedBucketLaned log2 ks taken origin scratch
    (fast.getD (l.seedBucket log2 ks taken origin), scratch)
  else (l.seedBucket log2 ks taken origin, scratch)

end Score

end Lexindex.Mphf
