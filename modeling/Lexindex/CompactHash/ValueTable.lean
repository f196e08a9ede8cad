import Mathlib
import Lexindex.Lib.Buffer
import Lexindex.Mphf.Remap

/-!
# The bit-packed value table

A table of values of one width, one after another with no byte between.  Byte-wide values are one
load or store.  The others are read as one word, a word and a ninth byte, or byte by byte near the
table's end, and are or'ed into a zeroed table.
-/

set_option autoImplicit false

namespace Lexindex.CompactHash

open Faulting (mul bytesBetween)
open Mphf (IndexError)

variable {ε : Type}

/-- Bytes a table of `count` values of `bits` bits takes. -/
def fpTableLen (count bits : Nat) : Faulting IndexError Nat := do
  let total ← mul count bits
  return (total + 7) / 8

/-- The low `bits` of a word, of one to sixty-four. -/
def fpMask (bits : Nat) : Nat :=
  (2 ^ 64 - 1) >>> (64 - bits)

/-- `bytes.get(lo..lo + size)`, as a number. -/
def getWord (bytes : List UInt8) (lo size : Nat) : Option Nat :=
  if lo + size ≤ bytes.length then some (leNat (bytesBetween bytes lo (lo + size))) else none

/-- The bytes from `byte` to `last`, one by one. -/
def tailBytes (bytes : List UInt8) (byte last : Nat) : Option Nat :=
  (List.range (last + 1 - byte)).foldlM (fun v j => do
    let b ← bytes[byte + j]?
    some (v ||| b.toNat <<< (8 * j))) 0

/-- The value of `slot` at any width, `none` where the table is too short. -/
def readFpBits (bytes : List UInt8) (slot bits : Nat) : Option Nat := do
  let bitpos ← checkedMul slot bits
  let byte := bitpos / 8
  let off := bitpos % 8
  match getWord bytes byte 8 with
  | some w =>
      if off + bits ≤ 64 then some (w >>> off &&& fpMask bits)
      else do
        let ninth ← bytes[byte + 8]?
        some ((w >>> off ||| ninth.toNat <<< (64 - off) % 2 ^ 64) &&& fpMask bits)
  | none => do
      let v ← tailBytes bytes byte ((bitpos + bits - 1) / 8)
      some (v >>> off &&& fpMask bits)

/-- The value of `slot`, a byte-wide one by one load. -/
def readFp (bytes : List UInt8) (slot bits : Nat) : Option Nat :=
  if bits &&& 7 = 0 then do
    let k := bits / 8
    let at_ ← checkedMul slot k
    match k with
    | 1 => (bytes[at_]?).map UInt8.toNat
    | 2 => getWord bytes at_ 2
    | 4 => getWord bytes at_ 4
    | 8 => getWord bytes at_ 8
    | _ => readFpBits bytes slot bits
  else readFpBits bytes slot bits

/-- `fps[start..][..part.len()].copy_from_slice(part)`. -/
def copyTo (fps : List UInt8) (start : Nat) (part : List UInt8) : Faulting ε (List UInt8) :=
  if start + part.length ≤ fps.length then .ok (overwrite fps start part) else .error .panicked

/-- The bytes of a word or'ed in from `byte` on, those past the table dropped. -/
def orBytes (fps : List UInt8) (byte word : Nat) : List UInt8 :=
  ((leBytes 8 word).zipIdx 0).foldl (fun fps (b, j) => fps.modify (byte + j) (· ||| b)) fps

/-- `fps[i] |= b`. -/
def orAt (fps : List UInt8) (i : Nat) (b : UInt8) : Faulting ε (List UInt8) :=
  if i < fps.length then .ok (fps.modify i (· ||| b)) else .error .panicked

/-- Write a value of `bits` bits for `slot` into a zeroed table. -/
def writeFp (fps : List UInt8) (slot bits fp : Nat) : Faulting ε (List UInt8) :=
  if bits % 8 = 0 then do
    let k := bits / 8
    let start ← mul slot k
    match k with
    | 1 => copyTo fps start (leBytes 1 (fp % 2 ^ 8))
    | 2 => copyTo fps start (leBytes 2 (fp % 2 ^ 16))
    | 4 => copyTo fps start (leBytes 4 (fp % 2 ^ 32))
    | k => copyTo fps start ((leBytes 8 fp).take k)
  else do
    let bitpos ← mul slot bits
    let byte := bitpos / 8
    let off := bitpos % 8
    let fps := orBytes fps byte (fp <<< off % 2 ^ 64)
    if 0 < off ∧ 64 < off + bits then orAt fps (byte + 8) (UInt8.ofNat (fp >>> (64 - off)))
    else .ok fps

/-- Slots and their values, written in turn. -/
def writeAll (fps : List UInt8) (bits : Nat) (writes : List (Nat × Nat)) : Faulting ε (List UInt8) :=
  writes.foldlM (fun fps (slot, fp) => writeFp fps slot bits fp) fps

/-- A range of slots in a zeroed table of its own, and those after it, one range after another. -/
def segments (bits : Nat) (value : Nat → Nat) : Nat → List (List Nat) → Faulting IndexError (List UInt8)
  | _, [] => .ok []
  | base, order :: ranges => do
      let size ← fpTableLen order.length bits
      let segment ← writeAll (List.replicate size 0) bits (order.map fun slot => (slot, value (base + slot)))
      let later ← segments bits value (base + order.length) ranges
      return segment ++ later

end Lexindex.CompactHash

namespace Lexindex.HashedDict

open Faulting (mul bytesBetween)
open CompactHash (readFp fpMask)

variable {ε : Type}

/-- The value table of the dictionary, a rank above `fp_bits` of a second hash at each slot. -/
structure Ranks where
  ranks : List UInt8
  width : Nat

/-- The value at `slot` in the table's last seven bytes, and at widths over 57. -/
def Ranks.valueAtTheEnd (r : Ranks) (slot : Nat) : Nat :=
  (readFp r.ranks slot r.width).getD 0

/-- The value at `slot`, one load where that holds it. -/
def Ranks.value (r : Ranks) (slot : Nat) : Faulting ε Nat := do
  let bit ← mul slot r.width
  let at_ := bit / 8
  if at_ + 8 ≤ r.ranks.length ∧ r.width ≤ 57 then
    return leNat (bytesBetween r.ranks at_ (at_ + 8)) >>> (bit % 8) &&& fpMask r.width
  else return r.valueAtTheEnd slot

end Lexindex.HashedDict
