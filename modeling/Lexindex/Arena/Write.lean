import Mathlib
import Lexindex.Arena.Read
import Lexindex.Lib.Buffer
import Lexindex.Lib.Utf8

/-!
# Writing a blocked arena

The lengths of the strings choose the encoding, and say all that stands before the data and
behind it: a prefix and a tail that a builder can write before it has a single byte of a key.
-/

set_option autoImplicit false

namespace Lexindex.Arena

open Faulting

def NARROW_LIMIT : Nat := 2 ^ 32 - 1

def tagWith (kind : UInt8) (fingerprints : Bool) : UInt8 :=
  if fingerprints then kind ||| FP else kind

/-- How many blocks of `slots` a list has. -/
def blockCount (slots : Nat) (lens : List Nat) : Nat :=
  divCeil lens.length slots

/-- `chunks(slots)`. -/
def chunkAt (slots : Nat) (lens : List Nat) (j : Nat) : List Nat :=
  (lens.drop (j * slots)).take slots

/-- How many blocks hold more than `most` bytes. -/
def overflowing (slots most : Nat) (lens : List Nat) : Nat :=
  (List.range (blockCount slots lens)).countP fun j => decide (most < (chunkAt slots lens j).sum)

/-- What blocks of an encoding cost, and the tag's bit for their overflow table. -/
def blockedCost (slots width most base fp : Nat) (lens : List Nat) : Nat × UInt8 :=
  let over_ := overflowing slots most lens
  (blockCount slots lens * blockBytes slots width base fp + over_ * ((slots + 1) * base) +
      (if 0 < over_ then TRAILER else 0),
    if 0 < over_ then OVERFLOW else 0)

/-- `tag_for`: the narrow blocks where all fit, else the cheapest, ties to the narrower. -/
def tagFor (lens : List Nat) (dataLen : Nat) (fingerprints : Bool) (limit : Nat) : UInt8 :=
  let wide : UInt8 := if limit < dataLen then WIDE_BASE else 0
  let base := if limit < dataLen then WIDE else NARROW
  let fp := if fingerprints then 1 else 0
  let u8 := blockedCost B_U8 1 255 base fp lens
  let kind :=
    if u8.2 = 0 then BLOCK_U8 ||| wide
    else
      let u16 := blockedCost B_U16 2 65535 base fp lens
      let flat := (lens.length + 1) * base + lens.length * fp
      let best := (u8.1, BLOCK_U8 ||| wide ||| OVERFLOW)
      let best := if u16.1 < best.1 then (u16.1, BLOCK_U16 ||| wide ||| u16.2) else best
      let best := if flat < best.1 then (flat, UInt8.ofNat base) else best
      best.2
  tagWith kind fingerprints

def writeHead (blob : List UInt8) (n : Nat) (tag : UInt8) : List UInt8 :=
  overwrite (overwrite blob 0 (leBytes 8 (n + 1))) 8 [tag]

/-- The running sums of a chunk's lengths, a fencepost more than the slots, zeros past its end. -/
def offsetsFrom (off : Nat) : Nat → List Nat → List Nat
  | 0, _ => []
  | count + 1, chunk => off :: offsetsFrom (off + chunk.headD 0) count chunk.tail

/-- What `write_offsets` carries from block to block. -/
structure Written where
  blob : List UInt8
  overflow : List UInt8
  base : Nat

/-- A block's offsets, or the marker and the number of its overflow entry. -/
def blockRow (slots width most base index : Nat) (chunk : List Nat) : List UInt8 :=
  if most < chunk.sum then
    List.replicate width 0xff ++ leBytes base index ++
      List.replicate ((slots + 1) * width - (width + base)) 0
  else (offsetsFrom 0 (slots + 1) chunk).flatMap (leBytes width)

/-- A block's fingerprints, zero past the last. -/
def blockPrints (slots : Nat) (fps : Option (List UInt8)) (j : Nat) : List UInt8 :=
  match fps with
  | none => []
  | some fps => (List.range slots).map fun k => fps.getD (j * slots + k) 0

def writeBlock (slots width most : Nat) (g : Geometry) (lens : List Nat) (fps : Option (List UInt8))
    (w : Written) (j : Nat) : Written :=
  let chunk := chunkAt slots lens j
  let index := w.overflow.length / ((slots + 1) * g.base)
  { blob := overwrite w.blob (HEADER + j * blockBytes slots width g.base g.fp)
      (leBytes g.base w.base ++ blockRow slots width most g.base index chunk ++
        blockPrints slots fps j)
    overflow :=
      if most < chunk.sum then
        w.overflow ++ (offsetsFrom 0 (slots + 1) chunk).flatMap (leBytes g.base)
      else w.overflow
    base := w.base + chunk.sum }

def writeBlocks (slots width most : Nat) (tag : UInt8) (lens : List Nat) (fps : Option (List UInt8))
    (blob : List UInt8) : List UInt8 × List UInt8 :=
  let w := (List.range (blockCount slots lens)).foldl
    (writeBlock slots width most (split tag) lens fps) ⟨blob, [], 0⟩
  (w.blob, if tag &&& OVERFLOW ≠ 0 then w.overflow ++ leBytes 8 w.overflow.length else w.overflow)

/-- `write_offsets`: the table in its place, and the tail. -/
def writeOffsets (blob : List UInt8) (tag : UInt8) (lens : List Nat) (fps : Option (List UInt8)) :
    List UInt8 × List UInt8 :=
  let layout := (split tag).layout
  if layout = BLOCK_U8 then writeBlocks B_U8 1 255 tag lens fps blob
  else if layout = BLOCK_U16 then writeBlocks B_U16 2 65535 tag lens fps blob
  else
    let table := (offsetsFrom 0 (lens.length + 1) lens).flatMap (leBytes layout.toNat)
    let blob := overwrite blob HEADER table
    match fps with
    | none => (blob, [])
    | some fps => (overwrite blob (HEADER + (lens.length + 1) * layout.toNat) fps, [])

structure Prefix where
  front : List UInt8
  dataLen : Nat
  tag : UInt8
  tail : List UInt8

/-- `prefix_for_lengths_limited`; `none` where the table's size leaves the word. -/
def prefixForLengths (lens : List Nat) (fps : Option (List UInt8)) (limit : Nat) : Option Prefix := do
  let dataLen := lens.sum
  let tag := tagFor lens dataLen fps.isSome limit
  let size ← prefixLen tag lens.length
  let blob := writeHead (List.replicate size 0) lens.length tag
  let (front, tail) := writeOffsets blob tag lens fps
  pure { front, dataLen, tag, tail }

/-- `span_at`. -/
def spanAt {ε : Type} (front tail : List UInt8) (tag : UInt8) (i : Nat) :
    Faulting ε (Nat × Nat) := do
  let nOff ← attempt (readU64 front 0)
  let n := nOff.getD 0 - 1
  let overflow := slice tail 0 (tail.length - TRAILER)
  let found ← attempt (entryOf front overflow tag n i none)
  pure ((found.map Prod.fst).getD (0, 0))

/-- `move_data`: the data from one position to another, the buffer grown or cut to match. -/
def moveData (blob : List UInt8) (start dataLen stop : Nat) : List UInt8 :=
  let grown := if start < stop then blob ++ List.replicate (stop + dataLen - blob.length) 0 else blob
  (overwrite grown stop (bytesBetween grown start (start + dataLen))).take (stop + dataLen)

/-- `lay_out_blocked` of the items there are. -/
def layOutBlocked (items : List String) (fps : Option (List UInt8)) (limit : Nat) :
    Option (List UInt8) := do
  let n := items.length
  let lens := items.map fun item => (bytesOf item).length
  let optimisticTag := tagWith (BLOCK_U8 ||| if limit < lens.sum then WIDE_BASE else 0) fps.isSome
  let optimistic ← prefixLen optimisticTag n
  if lens.any (2 ^ 32 ≤ ·) then none
  let blob := List.replicate optimistic 0 ++ items.flatMap bytesOf
  let written := blob.length - optimistic
  let tag := tagFor lens written fps.isSome limit
  let needed ← prefixLen tag n
  let blob := if needed ≠ optimistic then moveData blob optimistic written needed else blob
  let (blob, tail) := writeOffsets (writeHead blob n tag) tag lens fps
  pure (blob ++ tail)

end Lexindex.Arena
