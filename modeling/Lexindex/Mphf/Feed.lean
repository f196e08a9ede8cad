import Mathlib
import Lexindex.Lib.Checked
import Lexindex.Lib.Grouping
import Lexindex.Lib.Word
import Lexindex.Mphf.Law

/-!
# A level's chunks and their keys

A level is cut into chunks of buckets, claimed in order together with their keys: a
subslice of the grouped keys, what a sequential reader cut at the chunk's last
bucket, or a chunk of a group's copy grouped by bucket on its way out.  Claiming
and reading are one step under one lock, so a claim is one step here.
-/

set_option autoImplicit false

namespace Lexindex.Mphf

/-! ## Where the chunks start -/

/-- Most buckets per chunk (`CHUNK`). -/
def chunkLength : Nat := 2 ^ 16

/-- Fewest buckets per chunk on a level after the first (`MIN_CHUNK`). -/
def minChunk : Nat := 2 ^ 12

/-- Fewest buckets per piece of a first level cut into pieces (`PIECE_FLOOR`). -/
def pieceFloor : Nat := 2 ^ 14

/-- Chunks a level too small for whole chunks is cut into (`PIECES`). -/
def pieces : Nat := 8

/-- Starts every `size` buckets after `at_` while `room` are left; every size is positive. -/
def cutWhile (buckets room size at_ : Nat) : List Nat :=
  if 0 < size ∧ room ≤ buckets - at_ ∧ at_ < buckets then
    (at_ + size) :: cutWhile buckets room size (at_ + size)
  else []
termination_by buckets - at_

/-- Where each chunk of a level of `buckets` starts; the last runs to the end. -/
def chunkStarts (buckets : Nat) (deep : Bool) : List Nat :=
  if deep ∨ buckets < 4 * chunkLength then
    let floor := if deep then minChunk else min pieceFloor (chunkLength / 4)
    let size := min (max (buckets / pieces) floor) chunkLength
    0 :: cutWhile buckets (2 * size) size 0
  else
    let whole := 0 :: cutWhile buckets (3 * chunkLength) chunkLength 0
    let small := 2 * chunkLength / pieces
    whole ++ cutWhile buckets (2 * small) small (whole.getLastD 0)

/-! ## Boundaries of the buckets -/

/-- Bucket boundaries of keys grouped by bucket, whose buckets are `first` on: each
key stores the index past itself, the last one wins, and a bucket with no key takes
its predecessor's end. -/
def bucketEnds (keys : List Nat) (from_ buckets first count : Nat) : List Nat :=
  let ends := keys.zipIdx.foldl
    (fun ends key => ends.set (bucketOf key.1 buckets - first) (from_ + key.2 + 1))
    (List.replicate count 0)
  (ends.foldl (fun (done : List Nat × Nat) e => (done.1 ++ [max done.2 e], max done.2 e))
    ([], from_)).1

/-- A chunk as it is handed out: its keys, grouped by bucket, and their offsets. -/
structure Chunk where
  index : Nat
  keys : List Nat
  start : List Nat

/-- Buckets of chunk `k`. -/
def chunkBuckets (starts : List Nat) (buckets k : Nat) : Nat :=
  starts.getD (k + 1) buckets - starts.getD k 0

/-! ## Keys in any order -/

/-- The chunk of each bucket of a first level, as a table of every `2 ^ shift`-th bucket. -/
structure ChunkOf where
  shift : Nat
  table : List Nat

namespace ChunkOf

/-- The last chunk from `k` on that starts at or before `bucket`. -/
def skipTo (starts : List Nat) (bucket k : Nat) : Nat :=
  if (starts[k + 1]?).any fun s => decide (s ≤ bucket) then skipTo starts bucket (k + 1) else k
termination_by starts.length - k
decreasing_by
  rename_i more
  cases listed : starts[k + 1]? with
  | none => simp [listed] at more
  | some s =>
      have inside := (List.getElem?_eq_some_iff.mp listed).1
      omega

def fill (starts : List Nat) (shift : Nat) : Nat → Nat → Nat → List Nat
  | 0, _, _ => []
  | count + 1, i, k =>
      skipTo starts (i <<< shift) k :: fill starts shift count (i + 1) (skipTo starts (i <<< shift) k)

def new (starts : List Nat) (buckets : Nat) : ChunkOf :=
  let shift := min (((starts.drop 1).map trailingZeros).min?.getD 16) 16
  { shift, table := fill starts shift (divCeil buckets (2 ^ shift)) 0 0 }

def of (c : ChunkOf) (bucket : Nat) : Nat :=
  c.table.getD (bucket >>> c.shift) 0

end ChunkOf

/-- Groups of chunks a first level over keys in any order copies its keys in (`GROUPS`). -/
def mostGroups : Nat := 4

/-- A slice cut into pieces of `size`, the last one shorter. -/
def chunksOf (size : Nat) (xs : List Nat) : List (List Nat) :=
  if 0 < size ∧ xs ≠ [] then xs.take size :: chunksOf size (xs.drop size) else []
termination_by xs.length
decreasing_by
  rename_i more
  have positive := List.length_pos_of_ne_nil more.2
  rw [List.length_drop]
  omega

/-- The group in the copy, the chunk to hand out next, and where the group's chunks
begin in the copy. -/
structure Claim where
  group : Nat
  next : Nat
  bounds : List Nat

structure Grouped where
  hs : List Nat
  buckets : Nat
  chunk : ChunkOf
  /-- Keys a shard: a multiple of the keys a word of `ids` names. -/
  per : Nat
  /-- Each key's group in two bits, 32 keys a word; none when the level is one group. -/
  ids : List Word
  /-- How many keys of each chunk each shard holds. -/
  counts : List (List Nat)
  groupOf : List Nat
  /-- The first chunk of each group, and the end of the last. -/
  firsts : List Nat
  claim : Claim
  /-- The keys of the group being handed out, by chunk. -/
  keys : List Nat

namespace Grouped

/-- A word of group numbers, two bits a key from the low end. -/
def groupWord (groupOf : List Nat) (cs : List Nat) : Word :=
  cs.zipIdx.foldl
    (fun word c => word ||| (BitVec.ofNat 64 (groupOf.getD c.1 0) <<< (2 * c.2))) 0#64

/-- A shard's count of keys by chunk, and each key's group when there are groups. -/
def mark (part : List Nat) (buckets : Nat) (chunk : ChunkOf) (groupOf : List Nat) (chunks : Nat) :
    List Nat × List Word :=
  let cs := (chunksOf 32 part).map fun keys => keys.map fun h => chunk.of (bucketOf h buckets)
  (cs.flatten.foldl (fun count c => count.modify c (· + 1)) (List.replicate chunks 0),
    cs.map (groupWord groupOf))

/-- Every second bit, from the lowest. -/
def even : Word := 0x5555555555555555#64

/-- The keys of a word whose group is `g`: both bits of a key's field equal to the
group's, the fields past the last key masked off. -/
def ours (g : Nat) (word : Word) (keys : List Nat) : List Nat :=
  let x := word ^^^ (BitVec.ofNat 64 g * even)
  let ours := ~~~(x ||| x >>> 1) &&& even &&& (BitVec.allOnes 64 >>> (64 - 2 * keys.length))
  ours.ones.map fun bit => keys.getD (bit / 2) 0

/-- The keys of group `g` that shard `s` holds, in order. -/
def ofShard (grouped : Grouped) (g s : Nat) (part : List Nat) : List Nat :=
  let words := grouped.ids.drop (s * grouped.per / 32)
  if words = [] then part
  else (words.zip (chunksOf 32 part)).flatMap fun word => ours g word.1 word.2

/-- Group `g`'s keys by chunk, each shard's after those of the one before it, and
where each of its chunks' begin and its last one's end. -/
def copyGroup (grouped : Grouped) (g : Nat) : List Nat × List Nat :=
  let c0 := grouped.firsts.getD g 0
  let c1 := grouped.firsts.getD (g + 1) 0
  let shards := (chunksOf grouped.per grouped.hs).zipIdx.map fun part =>
    grouped.ofShard g part.2 part.1
  let copied := (List.range' c0 (c1 - c0)).flatMap fun c =>
    shards.flatMap fun keys =>
      keys.filter fun h => decide (grouped.chunk.of (bucketOf h grouped.buckets) = c)
  let bounds := (List.range' c0 (c1 - c0)).foldl
    (fun bounds c =>
      bounds ++ [bounds.getLastD 0 + (grouped.counts.map fun count => count.getD c 0).sum]) [0]
  (copied, bounds)

def new (hs : List Nat) (buckets : Nat) (starts : List Nat) (threads : Nat) : Grouped :=
  let chunks := starts.length
  let chunk := ChunkOf.new starts buckets
  let groups := min mostGroups chunks
  let groupOf := starts.map fun s => s * groups / buckets % 2 ^ 8
  let firsts := (List.range (groups + 1)).map fun g =>
    (groupOf.takeWhile fun x => decide (x < g)).length
  let per := max (divCeil (divCeil hs.length (max threads 1)) 32 * 32) (2 ^ 16)
  let marked := (chunksOf per hs).map fun part => mark part buckets chunk groupOf chunks
  let empty : Grouped :=
    { hs, buckets, chunk, per
      ids := if 1 < groups then (marked.map Prod.snd).flatten else []
      counts := marked.map Prod.fst
      groupOf, firsts
      claim := { group := 0, next := 0, bounds := [] }
      keys := [] }
  let copied := empty.copyGroup 0
  { empty with claim := { empty.claim with bounds := copied.2 }, keys := copied.1 }

/-- A chunk's keys in any order grouped by bucket, and the chunk's offsets: one
counting sort, each key counted two on from its bucket. -/
def sortChunk (keys : List Nat) (buckets first count : Nat) : List Nat × List Nat :=
  let key := fun h => bucketOf h buckets - first
  let start := runningSums 2 count (tally key 2 (count + 2) keys)
  let sorted := scatter key 1 keys start (List.replicate keys.length 0)
  (sorted.2, sorted.1)

/-- The copy with the group of its next chunk in it. -/
def turned (grouped : Grouped) : Grouped :=
  let g := grouped.groupOf.getD grouped.claim.next 0
  if grouped.claim.group ≠ g then
    let copied := grouped.copyGroup g
    { grouped with
      claim := { grouped.claim with group := g, bounds := copied.2 }, keys := copied.1 }
  else grouped

/-- Chunk `k`'s keys, cut out of the copy of its group. -/
def chunkKeys (grouped : Grouped) (k : Nat) : List Nat :=
  let at_ := k - grouped.firsts.getD (grouped.groupOf.getD k 0) 0
  let low := grouped.claim.bounds.getD at_ 0
  let high := grouped.claim.bounds.getD (at_ + 1) 0
  (grouped.keys.drop low).take (high - low)

/-- The next chunk, its group copied in when it is the group's first. -/
def next (grouped : Grouped) (starts : List Nat) : Option Chunk × Grouped :=
  let k := grouped.claim.next
  if k = starts.length then (none, grouped)
  else
    let grouped := grouped.turned
    let count := chunkBuckets starts grouped.buckets k
    let sorted := sortChunk (grouped.chunkKeys k) grouped.buckets (starts.getD k 0) count
    (some { index := k, keys := sorted.1, start := sorted.2.take (count + 1) },
      { grouped with claim := { grouped.claim with next := k + 1 } })

end Grouped

/-! ## The three sources -/

/-- Where a level's keys come from. -/
inductive Source
  /-- Grouped by bucket in bucket order, all in memory. -/
  | slice (keys : List Nat)
  /-- Sorted, pulled as the level's chunks are claimed. -/
  | stream (hashes : List Nat)
  /-- In any order, all in memory. -/
  | unsorted (hs : List Nat)

structure Cutter where
  hashes : List Nat
  /-- The key that ended the previous chunk: the first of a later one. -/
  pending : Option Nat
  next : Nat
  fed : Nat

inductive Feed
  | slice (keys bounds : List Nat) (next : Nat)
  | stream (cutter : Cutter)
  | grouped (copied : Grouped)

namespace Feed

def new (source : Source) (starts : List Nat) (buckets threads : Nat) : Feed :=
  match source with
  | .slice keys =>
      .slice keys
        ((starts.map fun first =>
          (keys.takeWhile fun h => decide (bucketOf h buckets < first)).length) ++ [keys.length]) 0
  | .stream hashes => .stream { hashes, pending := none, next := 0, fed := 0 }
  | .unsorted hs => .grouped (Grouped.new hs buckets starts threads)

/-- Whether a key ends a chunk whose buckets are below `limit`. -/
def ends (buckets : Nat) (limit : Option Nat) (h : Nat) : Bool :=
  limit.any fun l => decide (l ≤ bucketOf h buckets)

/-- Keys read up to the one that ends the chunk: the keys, that one, and what follows. -/
def cut (buckets : Nat) (limit : Option Nat) : List Nat → List Nat × Option Nat × List Nat
  | [] => ([], none, [])
  | h :: rest =>
      if ends buckets limit h then ([], some h, rest)
      else
        let more := cut buckets limit rest
        (h :: more.1, more.2)

/-- The next chunk and its keys; `none` once every chunk is claimed. -/
def next (starts : List Nat) (buckets : Nat) (feed : Feed) : Option Chunk × Feed :=
  match feed with
  | .slice keys bounds k =>
      if bounds.length ≤ k + 1 then (none, .slice keys bounds (k + 1))
      else
        let chunk := (keys.drop (bounds.getD k 0)).take (bounds.getD (k + 1) 0 - bounds.getD k 0)
        let count := chunkBuckets starts buckets k
        (some { index := k, keys := chunk
                start := 0 :: bucketEnds chunk 0 buckets (starts.getD k 0) count },
          .slice keys bounds (k + 1))
  | .grouped copied =>
      let claimed := copied.next starts
      (claimed.1, .grouped claimed.2)
  | .stream c =>
      let k := c.next
      if starts.length ≤ k then (none, .stream c)
      else
        let read := cut buckets starts[k + 1]? (c.pending.toList ++ c.hashes)
        let count := chunkBuckets starts buckets k
        (some { index := k, keys := read.1
                start := 0 :: bucketEnds read.1 0 buckets (starts.getD k 0) count },
          .stream { hashes := read.2.2, pending := read.2.1, next := k + 1
                    fed := c.fed + read.1.length })

/-- Keys handed out in all. -/
def fed : Feed → Nat
  | .slice keys _ _ => keys.length
  | .grouped copied => copied.hs.length
  | .stream c => c.fed

end Feed

end Lexindex.Mphf
