import Mathlib
import Lexindex.Arena.Write
import Lexindex.Blob.Hasher
import Lexindex.Lib.Regions
import Lexindex.PerfectHash.Publish

/-!
# The streamed build

Two passes over a source.  The first takes the hash and the length of each key, which size every
section of the file; the second brings the bytes, each key checked against what the first pass saw
at its position, and written where the lengths put it.
-/

set_option autoImplicit false

namespace Lexindex.PerfectHash

open Faulting
open Mphf (IndexError)
open Arena (prefixForLengths spanAt layOutBlocked NARROW_LIMIT)

variable {h : Hashing}

def HEADER_V5 : Nat := 36

/-- `SPILL_BUF`. -/
def SPILL_BUF : Nat := 64 * 1024

def SLOT_TAG : Nat := 4

/-! ## The blob -/

/-- `header_bytes`, the magic of version 9 in front. -/
def headerBytes (n mphLen sideLen payload : Nat) : List UInt8 :=
  let checked := [0x42, 0x4d, 0x50, 0x39] ++ leBytes 8 n ++ leBytes 8 mphLen ++ leBytes 4 sideLen ++
    leBytes 8 payload
  checked ++ leBytes 4 (Blob.hashBytes checked)

def sideBytes (side : List (UInt64 × Nat)) : List UInt8 :=
  side.flatMap fun e => leBytes 8 e.1.toNat ++ leBytes 4 e.2

/-- The sections behind a header that checks them, hashed a part at a time. -/
def withHeader (n mphLen sideLen : Nat) (parts : List (List UInt8)) : List UInt8 :=
  let payload := parts.foldl Blob.BlockHasher.update Blob.BlockHasher.new
  headerBytes n mphLen sideLen payload.finish ++ parts.flatten

/-- `to_bytes` of an index whose arena is laid out blocked. -/
def blockedBlob (mphBytes : h.Mphf → List UInt8) (idx : PerfectHashIndex h) :
    Option (List UInt8) := do
  let mph := (idx.mph.map mphBytes).getD []
  let arena ← layOutBlocked idx.arena idx.fingerprints NARROW_LIMIT
  pure (withHeader idx.n mph.length idx.side.length [mph, arena, sideBytes idx.side])

/-! ## The second pass -/

def replayMismatch : IndexError :=
  .build "perfect-hash: the source did not replay the same keys in the same order"

/-- The system's refusal where a spill ends too early. -/
def spillCut : IndexError :=
  .format "failed to fill whole buffer"

def foldDigest (digest fingerprint : UInt64) : UInt64 :=
  ((digest <<< 5 ||| digest >>> 59) ^^^ fingerprint) * 0x9e3779b97f4a7c15

structure ArenaLayout where
  front : List UInt8
  tail : List UInt8
  tag : UInt8
  dataStart : Nat
  dataLen : Nat
  window : Nat

/-- Where a slot is in the file. -/
def ArenaLayout.span (layout : ArenaLayout) (slot : Nat) : Faulting IndexError (Nat × Nat) := do
  let (lo, hi) ← spanAt layout.front layout.tail layout.tag slot
  pure (layout.dataStart + lo, layout.dataStart + hi)

/-- The window a slot starts in: the last, for an empty slot at the very end. -/
def ArenaLayout.windowOf (layout : ArenaLayout) (slot windows : Nat) : Faulting IndexError Nat := do
  let (off, _) ← spanAt layout.front layout.tail layout.tag slot
  pure (min (off / layout.window) (windows - 1))

def replaySpan (h : Hashing) (layout : ArenaLayout) (expected : UInt64) (slot : Nat) (key : String)
    (digest : UInt64) : Faulting IndexError ((Nat × Nat) × UInt64) := do
  let (hash, fingerprint) := h.hashPair (bytesOf key)
  refuseIf (hash ≠ expected) replayMismatch
  let span ← layout.span slot
  refuseIf ((bytesOf key).length ≠ span.2 - span.1) replayMismatch
  pure (span, foldDigest digest fingerprint)

/-- A pass over the source against the hash and the slot of each key, and what is done with each. -/
def replay (h : Hashing) (layout : ArenaLayout) {σ : Type}
    (put : Nat → Nat × Nat → String → σ → Faulting IndexError σ) :
    List String → List (UInt64 × Nat) → Nat → UInt64 → σ → Faulting IndexError (σ × Nat × UInt64)
  | [], _, i, digest, state => pure (state, i, digest)
  | _ :: _, [], _, _, _ => Faulting.refuse replayMismatch
  | key :: keys, (hash, slot) :: rows, i, digest, state => do
      let (span, digest) ← replaySpan h layout hash slot key digest
      let state ← put slot span key state
      replay h layout put keys rows (i + 1) digest state

/-- `map[span].copy_from_slice(bytes)`. -/
def copyFromSlice (map : List UInt8) (span : Nat × Nat) (bytes : List UInt8) :
    Faulting IndexError (List UInt8) :=
  if span.1 ≤ span.2 ∧ span.2 ≤ map.length ∧ bytes.length = span.2 - span.1 then
    .ok (overwrite map span.1 bytes)
  else .error .panicked

/-- Each key straight to its slot. -/
def fillArenaDirect (h : Hashing) (layout : ArenaLayout) (keys : List String)
    (rows : List (UInt64 × Nat)) (map : List UInt8) :
    Faulting IndexError (List UInt8 × Nat × UInt64) :=
  replay h layout (fun _ span key map => copyFromSlice map span (bytesOf key)) keys rows 0 0 map

/-- The bytes a window's region takes: each of its slots with its number. -/
def regionLens (layout : ArenaLayout) (n windows : Nat) : Faulting IndexError (List Nat) :=
  (List.range n).foldlM (fun lens slot => do
    let w ← layout.windowOf slot windows
    let span ← layout.span slot
    pure (lens.set w (lens.getD w 0 + (SLOT_TAG + (span.2 - span.1)))))
    (List.replicate windows 0)

/-- `read_exact`, the rest of the reader behind it. -/
def readExact (size : Nat) (reader : List UInt8) : Faulting IndexError (List UInt8 × List UInt8) :=
  if size ≤ reader.length then .ok (reader.take size, reader.drop size) else Faulting.refuse spillCut

/-- A window's records, read back by the lengths of their slots until none are left. -/
def scatter (layout : ArenaLayout) (left : Nat) (reader map : List UInt8) :
    Faulting IndexError (List UInt8) :=
  if left = 0 then pure map
  else do
    let (tag, reader) ← readExact SLOT_TAG reader
    let span ← layout.span (leNat tag)
    if SLOT_TAG + (span.2 - span.1) ≤ left then
      let (bytes, reader) ← readExact (span.2 - span.1) reader
      let map ← copyFromSlice map span bytes
      scatter layout (left - (SLOT_TAG + (span.2 - span.1))) reader map
    else .error .wrapped
termination_by left
decreasing_by
  have tag : 0 < SLOT_TAG + (span.2 - span.1) := Nat.add_pos_left (by decide) _
  exact Nat.sub_lt (Nat.pos_of_ne_zero ‹_›) tag

/-- A key's record behind the others of its window. -/
def spillKey (layout : ArenaLayout) (lens : List Nat) (windows slot : Nat) (_ : Nat × Nat)
    (key : String) (spill : Spill) : Faulting IndexError Spill := do
  let w ← layout.windowOf slot windows
  pure (spill.append SPILL_BUF lens w (leBytes SLOT_TAG slot ++ bytesOf key))

/-- `fill_arena_windowed`: the keys through a spill, grouped by the window they start in. -/
def fillArenaWindowed (h : Hashing) (layout : ArenaLayout) (keys : List String)
    (rows : List (UInt64 × Nat)) (map : List UInt8) :
    Faulting IndexError (List UInt8 × Nat × UInt64) :=
  if layout.window = 0 then .error .panicked
  else do
    let n := rows.length
    let windows := divCeil layout.dataLen layout.window
    let lens ← regionLens layout n windows
    let (spill, i, digest) ←
      replay h layout (spillKey layout lens windows) keys rows 0 0 (Spill.empty windows)
    if i ≠ n then pure (map, i, digest)
    else do
      let spill := spill.finish lens
      let map ← (List.range windows).foldlM (fun map w =>
        scatter layout (lens.getD w 0) (spill.file.drop (regionAt lens w)) map) map
      pure (map, n, digest)

/-- An arena that fits in one window is filled straight through, and no spill is made. -/
def fillMap (h : Hashing) (layout : ArenaLayout) (keys : List String) (rows : List (UInt64 × Nat))
    (map : List UInt8) : Faulting IndexError (List UInt8 × Nat × UInt64) :=
  if layout.dataLen ≤ layout.window then fillArenaDirect h layout keys rows map
  else fillArenaWindowed h layout keys rows map

/-! ## Both passes -/

/-- A value for each slot. -/
def bySlot {α : Type} (blank : α) (values : List α) (slots : List Nat) : List α :=
  (values.zip slots).foldl (fun row e => row.set e.2 e.1) (List.replicate values.length blank)

/-- What the file holds when it is published; `second` is what the source yields when it is asked
again. -/
def streamed (h : Hashing) (mphBytes : h.Mphf → List UInt8) (first second : List String)
    (fingerprints : Bool) (window : Nat) (around : Surroundings) :
    Faulting IndexError (List UInt8) := do
  let lift := fun (result : Except IndexError Unit) => result.mapError Stop.refused
  refuseIf (first.any (fun key => decide (2 ^ 32 ≤ (bytesOf key).length)) = true) tooLong
  lift around.afterFirst
  refuseIf (2 ^ 32 ≤ first.length) tooMany
  if first = [] then
    match blockedBlob mphBytes (emptyIndex fingerprints) with
    | some blob => pure blob
    | none => .error .panicked
  else do
    let n := first.length
    let hashes := first.map h.hashKey
    let digest := (first.map fun key => (h.hashPair (bytesOf key)).2).foldl foldDigest 0
    let (mphHashes, extras) := mphInput hashes
    let mph ← (h.buildMphf mphHashes).mapError Stop.refused
    let isExtra := fun i => (extras.map Prod.snd).contains i
    lift (checkSlots (h.slot mph) isExtra hashes.zipIdx (List.replicate mphHashes.length false))
    let slotOf := hashes.zipIdx.map (rowOf (h.slot mph) mphHashes.length extras)
    let lenBySlot := bySlot 0 (first.map fun key => (bytesOf key).length) slotOf
    let fpBySlot := if fingerprints then some (bySlot 0 (first.map h.fingerprint) slotOf) else none
    match prefixForLengths lenBySlot fpBySlot NARROW_LIMIT with
    | none => .error .panicked
    | some arena => do
        let side := sideTable mphHashes.length extras
        let mphBuf := mphBytes mph
        let layout : ArenaLayout :=
          { front := arena.front, tail := arena.tail, tag := arena.tag
            dataStart := HEADER_V5 + mphBuf.length + arena.front.length
            dataLen := arena.dataLen, window }
        -- The file is zeros where the header and the keys will be.
        let map := List.replicate HEADER_V5 0 ++ mphBuf ++ arena.front ++
          List.replicate arena.dataLen 0 ++ (arena.tail ++ sideBytes side)
        let (map, i, replayed) ← fillMap h layout second (hashes.zip slotOf) map
        refuseIf (i ≠ n ∨ replayed ≠ digest) replayMismatch
        -- An extra shares its hash with a representative, and not its bytes.
        let same ← extras.anyM fun e => do
          let extra ← layout.span (slotOf.getD e.2 0)
          let rep ← layout.span (h.slot mph e.1)
          pure (bytesBetween map extra.1 extra.2 == bytesBetween map rep.1 rep.2)
        refuseIf (same = true) repeated
        lift around.afterSecond
        pure (withHeader n mphBuf.length side.length [map.drop HEADER_V5])

/-- `build_to_file_windowed`: what it returns, and the bytes at the path then. -/
def buildToFileWindowed (h : Hashing) (mphBytes : h.Mphf → List UInt8) (first second : List String)
    (fingerprints : Bool) (window : Nat) (around : Surroundings) (target : Option (List UInt8)) :
    Faulting IndexError Nat × Option (List UInt8) :=
  let (done, target) := writeAtomically
    (streamed h mphBytes first second fingerprints window around)
    (around.disk.mapError Stop.refused) target
  (done.map fun _ => first.length, target)

end Lexindex.PerfectHash
