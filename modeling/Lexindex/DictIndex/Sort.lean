import Mathlib
import Lexindex.Lib.Ascending
import Lexindex.Extsort.MergeSound
import Lexindex.Extsort.CollapseSound

/-!
# Sorting the keys of a build

Keys that come ascending and distinct are found so a range of keys a thread, and ascending ones lose
their duplicates in one pass.  Any others are sorted a range a thread, cut at splitters drawn from every
range, and merged part by part.
-/

set_option autoImplicit false

namespace Lexindex.DictIndex

open Extsort (chunks)

/-- A range's worth of keys a thread, `f` of each, in key order. -/
def inRanges {α : Type} (keys : List String) (threads : Nat) (f : List String → α) : List α :=
  if threads ≤ 1 ∨ keys.length ≤ 1 then [f keys]
  else (chunks ((keys.length + threads - 1) / threads) keys).map f

/-- Whether every key of a range is above the one before it. -/
def rangeAscends : Option String → List String → Bool
  | _, [] => true
  | prev, key :: keys =>
      (match prev with
        | none => true
        | some p => decide (bytesOf p < bytesOf key)) && rangeAscends (some key) keys

/-- The key in a place. -/
def keyAt (keys : List String) (i : Nat) : String :=
  keys.getD i ""

def strictlyAscending (keys : List String) (threads : Nat) : Bool :=
  let size := max ((keys.length + max threads 1 - 1) / max threads 1) 1
  (inRanges keys threads (rangeAscends none)).all id &&
    (List.range' size ((keys.length - size + size - 1) / size) size).all fun i =>
      decide (bytesOf (keyAt keys (i - 1)) < bytesOf (keyAt keys i))

/-- `slice::swap`. -/
def swap (keys : List String) (a b : Nat) : List String :=
  (keys.set a (keyAt keys b)).set b (keyAt keys a)

/-- The pass that drops adjacent duplicates, from key `i` on, `kept` of the keys before it kept;
`false` at the first key below its predecessor. -/
def dedupFrom : Nat → Nat → Nat → List String → Bool × List String
  | 0, _, kept, keys => (true, keys.take kept)
  | left + 1, i, kept, keys =>
      if 0 < kept ∧ bytesOf (keyAt keys i) < bytesOf (keyAt keys (kept - 1)) then (false, keys)
      else if 0 < kept ∧ keyAt keys i = keyAt keys (kept - 1) then dedupFrom left (i + 1) kept keys
      else dedupFrom left (i + 1) (kept + 1) (if kept ≠ i then swap keys kept i else keys)

def dedupAscending (keys : List String) : Bool × List String :=
  dedupFrom keys.length 0 0 keys

/-- Whether the keys ascend, and the keys, without their duplicates if they do. -/
def distinctAscending (keys : List String) (threads : Nat) : Bool × List String :=
  if strictlyAscending keys threads then (true, keys) else dedupAscending keys

/-- `sort_unstable`: equal keys are the same bytes. -/
def sortUnstable (keys : List String) : List String :=
  keys.mergeSort fun a b => bytesOf a ≤ bytesOf b

/-! ## The sample sort -/

/-- `merge_into`'s loop over the slots: a heap of the parts' next keys, least first, and how far each part
is read.  It panics on a slot for which no key is left. -/
def mergeFrom (parts : List (List String)) :
    Nat → List Nat → List (String × Nat) → Option (List String)
  | 0, _, _ => some []
  | _ + 1, _, [] => none
  | slots + 1, next, (key, r) :: heads =>
      match (parts.getD r [])[next.getD r 0]? with
      | some k =>
          (mergeFrom parts slots (next.set r (next.getD r 0 + 1))
            (heads.orderedInsert Extsort.before (k, r))).map (key :: ·)
      | none => (mergeFrom parts slots next heads).map (key :: ·)

/-- The first key of each part. -/
def headsOf (parts : List (List String)) : List (String × Nat) :=
  ((parts.zipIdx.filterMap fun part => part.1.head?.map fun key => (key, part.2)).insertionSort
    Extsort.before)

def mergeInto (parts : List (List String)) (slots : Nat) : Option (List String) :=
  mergeFrom parts slots (parts.map fun _ => 1) (headsOf parts)

/-- The keys of `run` from one cut up to the next; a range that runs backwards or past the end panics. -/
def between (run : List String) (lower upper : Nat) : Option (List String) :=
  if lower ≤ upper ∧ upper ≤ run.length then some ((run.take upper).drop lower) else none

/-- Where each splitter falls in a run, between its start and its end. -/
def cutsOf (splitters : List String) (run : List String) : List Nat :=
  0 :: splitters.map (fun s => (run.takeWhile fun k => bytesOf k < bytesOf s).length) ++ [run.length]

/-- The part of every run between splitters `j - 1` and `j`. -/
def partsOf (runs : List (List String)) (cuts : List (List Nat)) (j : Nat) :
    Option (List (List String)) :=
  (runs.zip cuts).mapM fun run => between run.1 (run.2.getD j 0) (run.2.getD (j + 1) 0)

/-- The parts from part `j` on merged into the `room` slots left of the buffer; the slots past them keep
what they held. -/
def mergeParts (runs : List (List String)) (cuts : List (List Nat)) :
    Nat → Nat → Nat → Option (List String)
  | 0, _, room => some (List.replicate room "")
  | left + 1, j, room => do
      let parts ← partsOf runs cuts j
      let len := (parts.map List.length).sum
      if room < len then none
      else
        let part ← mergeInto parts len
        let tail ← mergeParts runs cuts left (j + 1) (room - len)
        pure (part ++ tail)

/-- As many keys of every run as there are threads; a run that is empty panics. -/
def sampleOf (runs : List (List String)) (threads : Nat) : Option (List String) :=
  (runs.mapM fun run => (List.range threads).mapM fun i => run[i * run.length / threads]?).map
    fun samples => sortUnstable samples.flatten

def splittersOf (sample : List String) (threads : Nat) : Option (List String) :=
  (List.range' 1 (threads - 1)).mapM fun j => sample[j * sample.length / threads]?

def sortOn (keys : List String) (threads : Nat) : Option (List String) := do
  let threads := max (min threads keys.length.sqrt) 1
  if threads = 1 then some (sortUnstable keys)
  else
    let size := (keys.length + threads - 1) / threads
    let runs := (chunks size keys).map sortUnstable
    let sample ← sampleOf runs threads
    let splitters ← splittersOf sample threads
    mergeParts runs (runs.map (cutsOf splitters)) threads 0 keys.length

/-- The keys sorted and distinct; sorted keys that are found not to ascend panic. -/
def sortDistinct (keys : List String) (threads : Nat) : Option (List String) :=
  match distinctAscending keys threads with
  | (true, distinct) => some distinct
  | (false, keys) => do
      let sorted ← sortOn keys threads
      match dedupAscending sorted with
      | (true, distinct) => some distinct
      | (false, _) => none

end Lexindex.DictIndex
