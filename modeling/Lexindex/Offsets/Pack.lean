import Mathlib
import Lexindex.Lib.Buffer

/-!
# Packed offsets

An array as one base every `1 << shift` entries and a narrow delta from it for each, or with no
base at all.  An entry is read by one eight-byte load, a shift and a mask, so the section ends in
eight bytes more than the deltas take.
-/

set_option autoImplicit false

namespace Lexindex.Offsets

open Faulting (slice word sub shiftLeft)

variable {ε : Type}

/-- The widest delta a blob may declare. -/
def MAX_WIDTH : Nat := 56

def leadingZeros (x : Nat) : Nat :=
  64 - if x = 0 then 0 else x.log2 + 1

/-- Bytes the bases of `n` entries take. -/
def basesLen (n shift : Nat) : Nat :=
  (n + (2 ^ shift - 1)) / 2 ^ shift * 8

/-- Bytes the deltas of `n` entries take, with the tail that lets the last be read as a word. -/
def deltasLen (n width : Nat) : Nat :=
  if n = 0 then 0 else (n * width + 7) / 8 + 8

/-- `values[i]`. -/
def valueAt (values : List Nat) (i : Nat) : Faulting ε Nat :=
  match values[i]? with
  | some v => .ok v
  | none => .error .panicked

/-- `values.chunks(1 << shift)`. -/
def chunks (values : List Nat) (shift : Nat) : List (List Nat) :=
  (List.range ((values.length + (2 ^ shift - 1)) / 2 ^ shift)).map fun j =>
    (values.drop (j * 2 ^ shift)).take (2 ^ shift)

def spanOf (chunk : List Nat) : Faulting ε Nat := do
  let last ← valueAt chunk (chunk.length - 1)
  let first ← valueAt chunk 0
  sub last first

/-- The narrowest delta width that covers `values`. -/
def widthOf (values : List Nat) (shift : Nat) : Faulting ε Nat := do
  let span ← (chunks values shift).foldlM (fun most chunk => do
    let span ← spanOf chunk
    return max most span) 0
  return 64 - leadingZeros span

/-- A value or'ed into the word at a bit's byte. -/
def orWord (deltas : List UInt8) (bit v : Nat) : Faulting ε (List UInt8) := do
  let at_ := bit / 8
  let old ← slice deltas at_ (at_ + 8)
  let word ← word 8 old
  return overwrite deltas at_ (leBytes 8 (word ||| v <<< (bit % 8) % 2 ^ 64))

/-- `values` as bases and deltas. -/
def pack (values : List Nat) (shift width : Nat) : Faulting ε (List UInt8 × List UInt8) := do
  let bases := (chunks values shift).flatMap fun chunk => leBytes 8 (chunk.headD 0)
  let deltas ← values.zipIdx.foldlM (fun deltas (v, i) => do
    let base ← valueAt values ((i >>> shift) <<< shift)
    let delta ← sub v base
    orWord deltas (i * width) delta) (List.replicate (deltasLen values.length width) 0)
  return (bases, deltas)

/-- The narrowest width that covers `values` with no base. -/
def packedWidthOf (values : List Nat) : Nat :=
  64 - leadingZeros (values.foldl max 0)

/-- `values` at that width, one section and no bases. -/
def packedPack (values : List Nat) (width : Nat) : Faulting ε (List UInt8) :=
  values.zipIdx.foldlM (fun deltas (v, i) => orWord deltas (i * width) v)
    (List.replicate (deltasLen values.length width) 0)

/-- The eight bytes at `at`. -/
def wordFrom (bytes : List UInt8) (at_ : Nat) : Faulting ε Nat := do
  let part ← slice bytes at_ (at_ + 8)
  word 8 part

/-- `(1 << width) - 1`. -/
def maskOf (width : Nat) : Faulting ε Nat := do
  let top ← shiftLeft 1 width
  sub top 1

/-- An array at one width and no base of its own. -/
structure Packed where
  deltas : List UInt8
  width : Nat

def Packed.at_ (p : Packed) (i : Nat) : Faulting ε Nat := do
  let bit := i * p.width
  let word ← wordFrom p.deltas (bit / 8)
  let mask ← maskOf p.width
  return word >>> (bit % 8) &&& mask

/-- Entries `i` and `i + 1`, out of one word unless two of them cannot meet in one. -/
def Packed.pair (p : Packed) (i : Nat) : Faulting ε (Nat × Nat) :=
  if 64 < 2 * p.width + 7 then do
    let first ← p.at_ i
    let second ← p.at_ (i + 1)
    return (first, second)
  else do
    let bit := i * p.width
    let word ← wordFrom p.deltas (bit / 8)
    let word := word >>> (bit % 8)
    let mask ← maskOf p.width
    return (word &&& mask, word >>> p.width &&& mask)

/-- An array over its bases. -/
structure Offsets where
  bases : List UInt8
  deltas : List UInt8
  width : Nat
  shift : Nat

def Offsets.at_ (o : Offsets) (i : Nat) : Faulting ε Nat := do
  let base ← wordFrom o.bases ((i >>> o.shift) * 8)
  let bit := i * o.width
  let word ← wordFrom o.deltas (bit / 8)
  let mask ← maskOf o.width
  return (base + (word >>> (bit % 8) &&& mask)) % 2 ^ 64

/-- Entries `i` and `i + 1`, which share a base unless one ends where `i` does. -/
def Offsets.pair (o : Offsets) (i : Nat) : Faulting ε (Nat × Nat) :=
  if 64 < 2 * o.width + 7 then do
    let first ← o.at_ i
    let second ← o.at_ (i + 1)
    return (first, second)
  else do
    let j := i >>> o.shift
    let k := (i + 1) >>> o.shift
    let first ← wordFrom o.bases (j * 8)
    let second ← if j = k then .ok first else wordFrom o.bases (k * 8)
    let bit := i * o.width
    let word ← wordFrom o.deltas (bit / 8)
    let word := word >>> (bit % 8)
    let mask ← maskOf o.width
    return ((first + (word &&& mask)) % 2 ^ 64, (second + (word >>> o.width &&& mask)) % 2 ^ 64)

end Lexindex.Offsets
