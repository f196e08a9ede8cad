import Mathlib
import Lexindex.Lib.Bytes
import Lexindex.Lib.Partition
import Lexindex.Lib.Sources

/-!
# The external pair sort

A streaming build keeps a `(hash, second hash)` pair a key.  Pairs gather in a run, a run that is full is
sorted and spilled with where each bin of the hash starts in it, and the runs are merged a range of bins
at a time into files that are read back as one stream.  A file is its bytes; `Reads` says how many bytes
each read of it gets, and which read fails.
-/

set_option autoImplicit false

namespace Lexindex.CompactHash

abbrev Pair := UInt64 × UInt64

/-- A pair as one number, the hash above the second hash: the order of the tuples. -/
def keyOf (pair : Pair) : Nat :=
  pair.1.toNat * 2 ^ 64 + pair.2.toNat

def PAIR_BYTES : Nat := 16

def BIN_BITS : Nat := 10

def BINS : Nat := 2 ^ BIN_BITS

/-! ## One run -/

def sortUnstable (run : List Pair) : List Pair :=
  run.mergeSort fun a b => keyOf a ≤ keyOf b

def dedup (run : List Pair) : List Pair :=
  run.destutter (· ≠ ·)

/-- The part of a hash, near-equal parts of its top half. -/
def partOf (parts : Nat) (h : UInt64) : Nat :=
  (h.toNat >>> 32 * parts) >>> 32

/-- Each part of a run, in place. -/
def sortParts : List Nat → List Pair → List Pair
  | [], rest => rest
  | c :: counts, rest => sortUnstable (rest.take c) ++ sortParts counts (rest.drop c)

/-- `run` sorted: partitioned in place by the top of the hash into one part a thread, and each part
sorted on its own. -/
def sortRun (run : List Pair) (threads : Nat) : List Pair :=
  let parts := min (max threads 1) 256
  if parts = 1 ∨ run.length < parts * 4096 then sortUnstable run
  else
    let part := fun pair : Pair => partOf parts pair.1
    let counts := tally part 0 parts run
    sortParts counts (flagPass part parts counts run)

/-! ## Files -/

inductive ReadError where
  | io
  | torn
deriving DecidableEq, Repr

inductive Failure where
  | read (error : ReadError)
  | check
  | panicked
deriving DecidableEq, Repr

/-- How many bytes more than one each read gets, as far as there are; or that it fails. -/
abbrev Reads := Nat → Option Nat

def Reads.after (reads : Reads) : Reads :=
  fun k => reads (k + 1)

/-- One read of at most `room` bytes where `ahead` are left. -/
def readSome (reads : Reads) (room : Nat) (ahead : List UInt8) : Except ReadError (List UInt8) :=
  match reads 0 with
  | none => .error .io
  | some more => .ok (ahead.take (min room (more + 1)))

def pairBytes (pair : Pair) : List UInt8 :=
  leBytes 8 pair.1.toNat ++ leBytes 8 pair.2.toNat

def pairOf (rec : List UInt8) : Pair :=
  (.ofNat (leNat (rec.take 8)), .ofNat (leNat (rec.drop 8)))

/-- The first records of some bytes. -/
def recordsOf (bytes : List UInt8) : Nat → List Pair
  | 0 => []
  | count + 1 => pairOf (bytes.take PAIR_BYTES) :: recordsOf (bytes.drop PAIR_BYTES) count

def READ_BUF : Nat := 2 ^ 16

/-- One merge thread's share of one run: `left` records from byte `at_` on, `held` read ahead. -/
structure Slice where
  file : List UInt8
  at_ : Nat
  held : List UInt8
  left : Nat
  reads : Reads

namespace Slice

def new (file : List UInt8) (first left : Nat) (reads : Reads) : Slice :=
  { file, at_ := first * PAIR_BYTES, held := [], left, reads }

/-- Reads until a record is held; each read gets a byte at least. -/
def refill : Nat → Slice → Except ReadError Slice
  | 0, s => .ok s
  | fuel + 1, s =>
      if s.held.length < PAIR_BYTES then
        match readSome s.reads (READ_BUF - s.held.length) (s.file.drop s.at_) with
        | .error e => .error e
        | .ok [] => .error .torn
        | .ok got => refill fuel
            { s with held := s.held ++ got, at_ := s.at_ + got.length, reads := s.reads.after }
      else .ok s

def next (s : Slice) : Except ReadError (Option (Pair × Slice)) :=
  if s.left = 0 then .ok none
  else
    match refill PAIR_BYTES s with
    | .error e => .error e
    | .ok s => .ok (some (pairOf (s.held.take PAIR_BYTES),
        { s with held := s.held.drop PAIR_BYTES, left := s.left - 1 }))

end Slice

def WRITE_BUF : Nat := 2 ^ 20

/-- A merge thread's output, and what of it is not yet written. -/
structure Sink where
  file : List UInt8
  buf : List UInt8
deriving DecidableEq, Repr

namespace Sink

def flush (w : Sink) : Sink :=
  { file := w.file ++ w.buf, buf := [] }

def write (w : Sink) (rec : List UInt8) : Sink :=
  let w := if WRITE_BUF < w.buf.length + PAIR_BYTES then w.flush else w
  { w with buf := w.buf ++ rec }

end Sink

/-! ## The runs -/

def binOf (h : UInt64) : Nat :=
  h.toNat >>> (64 - BIN_BITS)

/-- Where each bin of a sorted run starts, and its length. -/
def offsetsOf (run : List Pair) : List Nat :=
  runningSums 1 BINS (tally (fun pair : Pair => binOf pair.1) 1 (BINS + 1) run)

/-- The streaming builder's files: the spilled runs, and where each bin starts in each. -/
structure Scratch where
  threads : Nat
  runs : List (List UInt8)
  bins : List (List Nat)

namespace Scratch

def new (threads : Nat) : Scratch :=
  { threads, runs := [], bins := [] }

/-- `run`, sorted and distinct, as the next run file. -/
def spill (s : Scratch) (run : List Pair) : Scratch :=
  let run := dedup (sortRun run s.threads)
  { s with runs := s.runs ++ [run.flatMap pairBytes], bins := s.bins ++ [offsetsOf run] }

end Scratch

/-! ## The merge -/

/-- What the merge of one range has written: pairs, those that share their hash with the one before,
and the last. -/
structure Tally where
  sink : Sink
  n : Nat
  side : Nat
  last : Option Pair

def Tally.take (t : Tally) (pair : Pair) : Tally :=
  if t.last = some pair then t
  else
    { sink := t.sink.write (pairBytes pair)
      n := t.n + 1
      side := if t.last.any fun l => l.1 = pair.1 then t.side + 1 else t.side
      last := some pair }

/-- The pairs of the heap one after another, each with its slice asked again before it is taken. -/
def mergeLoop : Nat → Merging Slice Pair → Tally → Except ReadError Tally
  | 0, _, t => .ok t
  | fuel + 1, m, t =>
      match Merging.pull keyOf Slice.next m with
      | .error e => .error e
      | .ok none => .ok t
      | .ok (some (pair, m)) => mergeLoop fuel m (t.take pair)

/-- The same range of every run merged: the file, how many pairs it holds, and how many of them share
their hash with the one before. -/
def mergeRange (slices : List Slice) : Except ReadError (List UInt8 × Nat × Nat) := do
  let m ← Merging.start keyOf Slice.next slices { sources := [], heap := [] }
  let t ← mergeLoop ((slices.map Slice.left).sum + 1) m
    { sink := { file := [], buf := [] }, n := 0, side := 0, last := none }
  .ok (t.sink.flush.file, t.n, t.side)

/-- How many pairs of all the runs are in the bins before each. -/
def totalOf (bins : List (List Nat)) : List Nat :=
  (List.range BINS).foldl (fun total b =>
    total ++ [total.getD b 0 + (bins.map fun o => o.getD (b + 1) 0 - o.getD b 0).sum]) [0]

/-- The end of the ranges before range `t`, where it is another. -/
def cutAt (total : List Nat) (ranges : Nat) (cuts : List Nat) (t : Nat) : List Nat :=
  let target := total.getD BINS 0 * t % 2 ^ 64 / ranges
  let b := min (total.takeWhile fun x => x < target).length BINS
  if cuts.getLastD 0 < b then cuts ++ [b] else cuts

/-- The ranges' ends, on bin boundaries, near-equal numbers of pairs apart. -/
def cutsOf (bins : List (List Nat)) (threads : Nat) : List Nat :=
  let ranges := max threads 1
  let cuts := (List.range' 1 (ranges - 1)).foldl (cutAt (totalOf bins) ranges) [0]
  if cuts.getLastD 0 ≠ BINS then cuts ++ [BINS] else cuts

/-- The distinct pairs of a streaming build, ascending: in memory, or the merged files. -/
inductive Pairs where
  | memory (pairs : List Pair)
  | file (files : List (List UInt8)) (n side : Nat)

namespace Scratch

/-- Each run's share of a range. -/
def slicesOf (s : Scratch) (reads : Nat → Reads) (b0 b1 : Nat) : List Slice :=
  ((s.runs.zip s.bins).zipIdx).map fun e =>
    Slice.new e.1.1 (e.1.2.getD b0 0) (e.1.2.getD b1 0 - e.1.2.getD b0 0) (reads e.2)

/-- Every run as ascending, distinct files of pairs, each a range of the hash. -/
def merge (s : Scratch) (reads : Nat → Nat → Reads) : Except ReadError Pairs := do
  let cuts := cutsOf s.bins s.threads
  let merged ← (cuts.zip cuts.tail).zipIdx.mapM fun e =>
    mergeRange (s.slicesOf (reads e.2) e.1.1 e.1.2)
  .ok (.file (merged.map fun m => m.1) (merged.map fun m => m.2.1).sum (merged.map fun m => m.2.2).sum)

end Scratch

/-! ## Reading back -/

def SEGMENT_BUF : Nat := 2 ^ 20

/-- The merged files in order, read as one stream through one buffer. -/
structure Segments where
  rest : List (List UInt8)
  /-- What of the open file is unread. -/
  file : List UInt8
  held : List UInt8
  reads : Reads

namespace Segments

/-- Reads until the buffer is full or the file has ended. -/
def fillBuf : Nat → Segments → Except ReadError Segments
  | 0, s => .ok s
  | fuel + 1, s =>
      if s.held.length < SEGMENT_BUF then
        match readSome s.reads (SEGMENT_BUF - s.held.length) s.file with
        | .error e => .error e
        | .ok [] => .ok { s with reads := s.reads.after }
        | .ok got => fillBuf fuel
            { s with held := s.held ++ got, file := s.file.drop got.length, reads := s.reads.after }
      else .ok s

/-- The next batch of pairs, or none after the last file. A partial record at the end of a file is a
torn file. -/
def fillFrom (rest : List (List UInt8)) (s : Segments) : Except ReadError (Option (List Pair × Segments)) :=
  match fillBuf SEGMENT_BUF s with
  | .error e => .error e
  | .ok s =>
      let whole := s.held.length / PAIR_BYTES
      if 0 < whole then
        .ok (some (recordsOf s.held whole, { s with held := s.held.drop (whole * PAIR_BYTES) }))
      else if s.held ≠ [] then .error .torn
      else
        match rest with
        | [] => .ok none
        | first :: rest => fillFrom rest { s with file := first, rest }

def fill (s : Segments) : Except ReadError (Option (List Pair × Segments)) :=
  fillFrom s.rest s

end Segments

/-- Where the pairs are read from: memory, or the batch that was read last. -/
inductive From where
  | memory (pairs : List Pair)
  | file (segments : Segments) (pending : List Pair) (at_ : Nat)

namespace From

/-- The next pair, ascending; the caller parks an error and ends. -/
def next : From → Except Failure (Option (Pair × From))
  | memory [] => .ok none
  | memory (pair :: pairs) => .ok (some (pair, memory pairs))
  | file segments pending at_ =>
      if at_ = pending.length then
        match segments.fill with
        | .error e => .error (.read e)
        | .ok none => .ok none
        | .ok (some ([], _)) => .error .panicked
        | .ok (some (pair :: batch, segments)) => .ok (some (pair, file segments (pair :: batch) 1))
      else
        match pending[at_]? with
        | none => .error .panicked
        | some pair => .ok (some (pair, file segments pending (at_ + 1)))

/-- At least as many as the pairs still to come. -/
def size : From → Nat
  | memory pairs => pairs.length
  | file s pending at_ => pending.length - at_ + s.held.length + s.file.length + s.rest.flatten.length

end From

/-- One hash a distinct value, for the perfect hash. -/
structure Reps where
  source : From
  last : Option UInt64

namespace Reps

/-- Pairs are passed over until the hash is another. -/
def nextFrom : Nat → Reps → Except Failure (Option (UInt64 × Reps))
  | 0, _ => .ok none
  | fuel + 1, r =>
      match r.source.next with
      | .error e => .error e
      | .ok none => .ok none
      | .ok (some (pair, source)) =>
          if r.last ≠ some pair.1 then .ok (some (pair.1, { source, last := some pair.1 }))
          else nextFrom fuel { r with source }

def next (r : Reps) : Except Failure (Option (UInt64 × Reps)) :=
  nextFrom (r.source.size + 1) r

end Reps

namespace Pairs

/-- How many of some pairs share their hash with the one before. -/
def sameHash (pairs : List Pair) : Nat :=
  (pairs.zip pairs.tail).countP fun w => w.1.1 = w.2.1

/-- Distinct pairs, and how many of them share their hash with an earlier one. -/
def counts : Pairs → Nat × Nat
  | memory pairs => (pairs.length, sameHash pairs)
  | file _ n side => (n, side)

def source (reads : Reads) : Pairs → Except Failure From
  | memory pairs => .ok (.memory pairs)
  | file [] _ _ => .error .panicked
  | file (first :: rest) _ _ => .ok (.file { rest, file := first, held := [], reads } [] 0)

/-- Every distinct pair: `next` of the source. -/
def all (reads : Reads) (pairs : Pairs) : Except Failure From :=
  pairs.source reads

def reps (reads : Reads) (pairs : Pairs) : Except Failure Reps := do
  let source ← pairs.source reads
  .ok { source, last := none }

end Pairs

/-! ## The stream -/

/-- Pairs gather in a run that is spilled where it is full. -/
def gather (cap : Nat) : List Pair → List Pair → Scratch → List Pair × Scratch
  | [], run, s => (run, s)
  | pair :: pairs, run, s =>
      if (run ++ [pair]).length = cap then gather cap pairs [] (s.spill (run ++ [pair]))
      else gather cap pairs (run ++ [pair]) s

/-- Pass one of a streaming build. A corpus that fitted one run never reaches the disk; `check` is asked
once the input has ended. -/
def streamPairs (pairs : List Pair) (threads runBytes : Nat) (check : Bool)
    (reads : Nat → Nat → Reads) : Except Failure Pairs :=
  let cap := max (runBytes / PAIR_BYTES) 1
  let (run, s) := gather cap pairs [] (Scratch.new threads)
  if !check then .error .check
  else if s.runs = [] then .ok (.memory (dedup (sortRun run s.threads)))
  else
    match (if run = [] then s else s.spill run).merge reads with
    | .error e => .error (.read e)
    | .ok pairs => .ok pairs

end Lexindex.CompactHash
