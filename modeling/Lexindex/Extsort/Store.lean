import Mathlib
import Lexindex.Lib.Bytes
import Lexindex.Lib.Checked
import Lexindex.Lib.Utf8
import Lexindex.Mphf.Remap

/-!
# The external sort

Keys gather in a run, a run that is full is sorted and spilled, and a replay merges the
spilled runs, at most `fanIn` at once.  A directory is the bytes of its files by name, and
`faults` says after how many of them the reading of a file fails.  The outer `none` is where
the source panics, or does not return; after a refusal the caller drops what it holds.
-/

set_option autoImplicit false

namespace Lexindex.Extsort

open Mphf (IndexError)

inductive Failure where
  | io
  | index (error : IndexError)
deriving DecidableEq, Repr

/-- One run: an arena of key bytes and a span per key. -/
structure Run where
  bytes : List UInt8
  spans : List (Nat × Nat)
  budget : Nat
deriving DecidableEq, Repr

namespace Run

def withBudget (budget : Nat) : Run :=
  { bytes := [], spans := [], budget }

def isEmpty (run : Run) : Prop :=
  run.spans = []

instance isEmptyDecidable (run : Run) : Decidable run.isEmpty :=
  inferInstanceAs (Decidable (_ = _))

/-- Whether `key` still fits: its bytes in the arena and its span in the table. -/
def fits (run : Run) (key : String) : Prop :=
  run.bytes.length + (bytesOf key).length ≤ run.budget ∧ run.spans.length < run.budget / 8

instance fitsDecidable (run : Run) (key : String) : Decidable (run.fits key) :=
  inferInstanceAs (Decidable (_ ∧ _))

def push (run : Run) (key : String) : Run :=
  { run with
    spans := run.spans ++ [(run.bytes.length % 2 ^ 32, (bytesOf key).length % 2 ^ 32)]
    bytes := run.bytes ++ bytesOf key }

/-- The bytes of a span, whose end is a sum of 32 bits. -/
def keyOf (bytes : List UInt8) (span : Nat × Nat) : Option (List UInt8) :=
  let stop := (span.1 + span.2) % 2 ^ 32
  if span.1 ≤ stop ∧ stop ≤ bytes.length then some ((bytes.take stop).drop span.1) else none

/-- The keys ascending and distinct, and the run with its spans so. -/
def sorted (run : Run) : Option (List String × Run) :=
  (run.spans.mapM (keyOf run.bytes)).bind fun keys =>
    let order := (run.spans.zip keys).mergeSort fun a b => a.2 ≤ b.2
    let kept := order.destutter fun a b => a.2 ≠ b.2
    (kept.mapM fun entry => fromUtf8 entry.2).map fun strings =>
      (strings, { run with spans := kept.map Prod.fst })

def clear (run : Run) : Run :=
  { run with bytes := [], spans := [] }

end Run

/-- The runs directory: the bytes of each file. -/
abbrev Dir := Nat → Option (List UInt8)

/-- How much of a file is read before a read of it fails, where one does. -/
abbrev Faults := Nat → Option Nat

/-- The spilled runs still to be merged, by file name, and the next file name. -/
structure Runs where
  dir : Option Dir
  live : List Nat
  next : Nat

structure RunReader where
  rest : List UInt8
  left : Nat
deriving DecidableEq, Repr

def readExact (size : Nat) (bytes : List UInt8) : Option (List UInt8 × List UInt8) :=
  if size ≤ bytes.length then some (bytes.take size, bytes.drop size) else none

/-- What of a file can be read. -/
def readable (faults : Faults) (id : Nat) (file : List UInt8) : List UInt8 :=
  match faults id with
  | none => file
  | some size => file.take size

namespace RunReader

def openRun (dir : Dir) (faults : Faults) (id : Nat) : Option RunReader :=
  (dir id).bind fun file =>
    (readExact 8 (readable faults id file)).map fun count => { rest := count.2, left := leNat count.1 }

/-- The next key and the reader after it; `none` is a read error. -/
def next (reader : RunReader) : Option (Option (String × RunReader)) :=
  if reader.left = 0 then some none
  else
    (readExact 4 reader.rest).bind fun len =>
      (readExact (leNat len.1) len.2).bind fun key =>
        (fromUtf8 key.1).map fun string =>
          some (string, { rest := key.2, left := reader.left - 1 })

end RunReader

/-- A merge at work: a reader for each run, and the key each has ready, least first. -/
structure Merging where
  readers : List RunReader
  heap : List (String × Nat)

/-- The heap's order: by key, then by run. -/
def before (a b : String × Nat) : Prop :=
  bytesOf a.1 < bytesOf b.1 ∨ bytesOf a.1 = bytesOf b.1 ∧ a.2 ≤ b.2

instance beforeDecidable : DecidableRel before :=
  fun _ _ => inferInstanceAs (Decidable (_ ∨ _))

namespace Merging

def openRuns (dir : Dir) (faults : Faults) : List Nat → Merging → Option Merging
  | [], m => some m
  | id :: ids, m =>
      (RunReader.openRun dir faults id).bind fun reader =>
        reader.next.bind fun
          | none => openRuns dir faults ids { m with readers := m.readers ++ [reader] }
          | some (key, reader) => openRuns dir faults ids
              { readers := m.readers ++ [reader]
                heap := m.heap.orderedInsert before (key, m.readers.length) }

/-- The stream's keys, and whether a read error ended it.  Reading changes nothing, so a stream
that is given up early is one whose rest is not looked at. -/
def stream : Nat → Merging → Option (List String × Bool)
  | 0, _ => none
  | fuel + 1, m =>
      match m.heap with
      | [] => some ([], false)
      | (key, slot) :: heap =>
          match m.readers[slot]? with
          | none => none
          | some reader =>
              match reader.next with
              | none => some ([key], true)
              | some none =>
                  (stream fuel { m with heap }).map fun rest => (key :: rest.1, rest.2)
              | some (some (ready, reader)) =>
                  (stream fuel { readers := m.readers.set slot reader
                                 heap := heap.orderedInsert before (ready, slot) }).map
                    fun rest => (key :: rest.1, rest.2)

/-- Enough steps for a stream: one for every key it has ready or has yet to read. -/
def steps (m : Merging) : Nat :=
  m.heap.length + (m.readers.map RunReader.left).sum + 1

end Merging

/-- The named runs as one ascending stream, with whether a read error ended it. -/
def mergeRuns (dir : Dir) (faults : Faults) (ids : List Nat) :
    Option (Except Failure (List String × Bool)) :=
  match Merging.openRuns dir faults ids { readers := [], heap := [] } with
  | none => some (.error .io)
  | some m => (m.stream m.steps).map .ok

/-- A run file: the count, then each key's length and bytes. -/
def runBytes (keys : List String) : List UInt8 :=
  leBytes 8 keys.length ++ keys.flatMap fun key => leBytes 4 (bytesOf key).length ++ bytesOf key

/-- `items` in groups of `size`, the last one what is left. -/
def chunks {α : Type} (size : Nat) : List α → List (List α)
  | [] => []
  | item :: items => (item :: items.take (size - 1)) :: chunks size (items.drop (size - 1))
termination_by items => items.length
decreasing_by
  rw [List.length_drop, List.length_cons]
  omega

namespace Runs

def beside : Runs :=
  { dir := none, live := [], next := 0 }

/-- Write one run file and return the name it took. -/
def writeRun (runs : Runs) (keys : List String) : Except Failure (Nat × Runs) := do
  let dir := runs.dir.getD fun _ => none
  refuse ((dir runs.next).isSome = true) .io
  refuse (∃ key ∈ keys, 2 ^ 32 ≤ (bytesOf key).length)
    (.index (.build "extsort: a key longer than 4 GiB"))
  pure (runs.next,
    { runs with
      dir := some (Function.update dir runs.next (some (runBytes keys)))
      next := runs.next + 1 })

def spill (runs : Runs) (keys : List String) : Except Failure Runs := do
  let written ← runs.writeRun keys
  pure { written.2 with live := written.2.live ++ [written.1] }

def removeFile (runs : Runs) (id : Nat) : Except Failure Runs :=
  match runs.dir with
  | none => .error .io
  | some dir =>
      if (dir id).isSome then .ok { runs with dir := some (Function.update dir id none) }
      else .error .io

/-- A group of runs merged into one, whose name takes theirs' place; a group of one is carried
forward. -/
def collapseGroup (faults : Faults) (runs : Runs) (group : List Nat) :
    Option (Except Failure Runs) :=
  match group with
  | [only] => some (.ok { runs with live := runs.live ++ [only] })
  | group =>
      match runs.dir with
      | none => none
      | some dir =>
          (mergeRuns dir faults group).map fun merged => do
            let stream ← merged
            let written ← runs.writeRun stream.1
            refuse (stream.2 = true) .io
            let removed ← group.foldlM removeFile written.2
            pure { removed with live := removed.live ++ [written.1] }

def collapseGroups (faults : Faults) : List (List Nat) → Runs → Option (Except Failure Runs)
  | [], runs => some (.ok runs)
  | group :: groups, runs =>
      match runs.collapseGroup faults group with
      | none => none
      | some (.error failure) => some (.error failure)
      | some (.ok runs) => collapseGroups faults groups runs

/-- Groups of `fanIn` runs merged into one, round after round, until at most `fanIn` are left. -/
def collapse (faults : Faults) (fanIn : Nat) : Nat → Runs → Option (Except Failure Runs)
  | rounds, runs =>
      if runs.live.length ≤ fanIn then some (.ok runs)
      else
        match rounds with
        | 0 => none
        | rounds + 1 =>
            match collapseGroups faults (chunks fanIn runs.live) { runs with live := [] } with
            | none => none
            | some (.error failure) => some (.error failure)
            | some (.ok runs) => collapse faults fanIn rounds runs

/-- Every run as one ascending stream, equal keys of different runs adjacent. -/
def merge (runs : Runs) (faults : Faults) (fanIn : Nat) :
    Option (Except Failure ((List String × Bool) × Runs)) :=
  match collapse faults fanIn runs.live.length runs with
  | none => none
  | some (.error failure) => some (.error failure)
  | some (.ok runs) =>
      match runs.dir with
      | none => none
      | some dir => (mergeRuns dir faults runs.live).map (·.map fun stream => (stream, runs))

end Runs

variable {σ : Type}

/-- `f` on each key of a stream but those equal to the one before. -/
def eachDistinct (f : σ → String → Except Failure σ) :
    List String → Option String → σ → Except Failure σ
  | [], _, s => .ok s
  | key :: keys, prev, s =>
      if prev = some key then eachDistinct f keys prev s
      else do
        let s ← f s key
        eachDistinct f keys (some key) s

/-- A sorted, distinct key stream that can be walked more than once. -/
inductive Replay where
  | inMemory (run : Run)
  | spilled (runs : Runs)

/-- One walk, `f` on every key. -/
def Replay.each (replay : Replay) (faults : Faults) (fanIn : Nat)
    (f : σ → String → Except Failure σ) (s : σ) : Option (Except Failure (σ × Replay)) :=
  match replay with
  | .inMemory run => run.sorted.map fun sorted => do
      let s ← sorted.1.foldlM f s
      pure (s, .inMemory sorted.2)
  | .spilled runs => (runs.merge faults fanIn).map fun merged => do
      let merge ← merged
      let s ← eachDistinct f merge.1.1 none s
      refuse (merge.1.2 = true) .io
      pure (s, .spilled merge.2)

/-- A key pushed by a builder: one that does not fit has the run spilled first. -/
def pushKey (tooLong : String) (run : Run) (runs : Runs) (key : String) :
    Option (Except Failure (Run × Runs)) :=
  if run.fits key then some (.ok (run.push key, runs))
  else if run.isEmpty then some (.error (.index (.build tooLong)))
  else run.sorted.map fun sorted => do
    let runs ← runs.spill sorted.1
    pure (sorted.2.clear.push key, runs)

def pushKeys (tooLong : String) : List String → Run → Runs → Option (Except Failure (Run × Runs))
  | [], run, runs => some (.ok (run, runs))
  | key :: keys, run, runs =>
      match pushKey tooLong run runs key with
      | none => none
      | some (.error failure) => some (.error failure)
      | some (.ok (run, runs)) => pushKeys tooLong keys run runs

/-- What a builder replays after the last key: the run that held them all, or the spilled runs. -/
def collect (tooLong : String) (budget : Nat) (keys : List String) :
    Option (Except Failure Replay) :=
  match pushKeys tooLong keys (Run.withBudget budget) Runs.beside with
  | none => none
  | some (.error failure) => some (.error failure)
  | some (.ok (run, runs)) =>
      if runs.live = [] then some (.ok (.inMemory run))
      else if run.isEmpty then some (.ok (.spilled runs))
      else run.sorted.map fun sorted => do
        let runs ← runs.spill sorted.1
        pure (.spilled runs)

end Lexindex.Extsort
