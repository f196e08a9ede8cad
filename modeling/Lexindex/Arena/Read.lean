import Mathlib
import Lexindex.Lib.Faults
import Lexindex.Mphf.Remap

/-!
# Reading a string arena

Strings back to back, behind a table of where they start: blocks of short offsets from a base,
two flat offsets a slot, or packed entries into one merged text.  A load checks the header and
the two ends; an entry is checked where it is read, except for what the load has proved.
-/

set_option autoImplicit false

namespace Lexindex.Arena

open Mphf (IndexError)
open Faulting

def NARROW : Nat := 4
def WIDE : Nat := 8
def BLOCK_U8 : UInt8 := 0x11
def BLOCK_U16 : UInt8 := 0x12
def B_U8 : Nat := 16
def B_U16 : Nat := 256
def WIDE_BASE : UInt8 := 0x20
def FP : UInt8 := 0x80
def OVERFLOW : UInt8 := 0x40
def TRAILER : Nat := 8
def HEADER : Nat := 9
def MERGED : UInt8 := 0x13
def PARAMS : Nat := 14
def PAD : Nat := 7
def MAX_WIDTH : Nat := 57
def SLOT_LEN : Nat := 8

/-- A byte source; no slice is longer than `isize` counts. -/
structure SharedBytes where
  bytes : List UInt8
  fits : bytes.length < 2 ^ 63

/-! ## Words -/

def readOffset (bytes : List UInt8) (start width : Nat) : Faulting IndexError Nat := do
  let stop ← ofOption (.format "arena: offset overflow") (checkedAdd start width)
  let part ← get (.format "arena: unexpected end of buffer") bytes start stop
  if width = NARROW then word 4 part else word 8 part

def readU64 (bytes : List UInt8) (start : Nat) : Faulting IndexError Nat :=
  readOffset bytes start WIDE

/-- `read_word`, a word being as wide as an address. -/
def readWord (base : Nat) (bytes : List UInt8) : Faulting Unit Nat :=
  if base = WIDE then do
    let part ← slice bytes 0 8
    word 8 part
  else do
    let part ← slice bytes 0 4
    word 4 part

def spanFrom (base lo hi : Nat) : Faulting Unit (Nat × Nat) := do
  refuseIf (hi < lo) ()
  let first ← ofOption () (checkedAdd base lo)
  let last ← ofOption () (checkedAdd base hi)
  pure (first, last)

/-! ## Tags -/

structure Geometry where
  layout : UInt8
  base : Nat
  fp : Nat
deriving DecidableEq

def split (tag : UInt8) : Geometry where
  layout := tag &&& ~~~(FP ||| WIDE_BASE ||| OVERFLOW)
  base := if tag &&& WIDE_BASE ≠ 0 then WIDE else NARROW
  fp := if tag &&& FP ≠ 0 then 1 else 0

def blockBytes (slots width base fp : Nat) : Nat :=
  base + (slots + 1) * width + slots * fp

def prefixLen (tag : UInt8) (n : Nat) : Option Nat := do
  let g := split tag
  let table ←
    if g.layout = BLOCK_U8 then checkedMul (divCeil n B_U8) (blockBytes B_U8 1 g.base g.fp)
    else if g.layout = BLOCK_U16 then checkedMul (divCeil n B_U16) (blockBytes B_U16 2 g.base g.fp)
    else do
      let rows ← checkedMul n (g.layout.toNat + g.fp)
      checkedAdd rows g.layout.toNat
  checkedAdd table HEADER

def overflowEntryBytes (tag : UInt8) : Nat :=
  let g := split tag
  if g.layout = MERGED then SLOT_LEN
  else ((if g.layout = BLOCK_U16 then B_U16 else B_U8) + 1) * g.base

def offsetsStartIn {ε : Type} (layout : UInt8) (base fp i : Nat) : Faulting ε Nat :=
  if layout = BLOCK_U8 then do
    let size ← mul (i / B_U8) (blockBytes B_U8 1 base fp)
    add HEADER size
  else if layout = BLOCK_U16 then do
    let size ← mul (i / B_U16) (blockBytes B_U16 2 base fp)
    add HEADER size
  else do
    let size ← mul i layout.toNat
    add HEADER size

/-! ## Blocked entries -/

/-- A slot's span and fingerprint. -/
abbrev Entry := (Nat × Nat) × UInt8

/-- A slot's span, which its fingerprint decides on before it is read. -/
def stamped (fp : Nat) (fingerprint : Faulting Unit UInt8) (want : Option UInt8)
    (span : Faulting Unit (Nat × Nat)) : Faulting Unit Entry := do
  let stored ← (if fp = 1 then fingerprint else .ok 0)
  refuseIf (fp = 1 ∧ want.any (· ≠ stored)) ()
  let found ← span
  pure (found, stored)

def overflowSpan (base : Nat) (overflow row : List UInt8) (slots k first : Nat) :
    Faulting Unit (Nat × Nat) := do
  let entryBytes := (slots + 1) * base
  let number ← readWord base row
  let start ← ofOption () (checkedMul number entryBytes)
  let stop ← ofOption () (checkedAdd start entryBytes)
  let entry ← get () overflow start stop
  let fromLo ← slice entry (k * base) entry.length
  let lo ← readWord base fromLo
  let fromHi ← slice entry ((k + 1) * base) entry.length
  let hi ← readWord base fromHi
  spanFrom first lo hi

/-- Slot `i`'s entry in its block of `slots` offsets of `width` bytes.  A block whose first offset
is not zero keeps its offsets in the overflow table. -/
def inBlock (slots width fp base : Nat) (block : List UInt8)
    (overflow : Faulting Unit (List UInt8)) (i : Nat) (want : Option UInt8) :
    Faulting Unit Entry :=
  let k := i % slots
  stamped fp (index block (base + (slots + 1) * width + k)) want do
    let first ← readWord base block
    let marker ← slice block base (base + width)
    if marker.all (· = 0) then do
      let loBytes ← slice block (base + k * width) (base + (k + 1) * width)
      let lo ← word width loBytes
      let hiBytes ← slice block (base + (k + 1) * width) (base + (k + 2) * width)
      let hi ← word width hiBytes
      spanFrom first lo hi
    else do
      let table ← overflow
      let row ← slice block (base + width) block.length
      overflowSpan base table row slots k first

def inBlockU8 : (fp base : Nat) → List UInt8 → Faulting Unit (List UInt8) → Nat → Option UInt8 →
    Faulting Unit Entry :=
  inBlock B_U8 1

def inBlockU16 : (fp base : Nat) → List UInt8 → Faulting Unit (List UInt8) → Nat → Option UInt8 →
    Faulting Unit Entry :=
  inBlock B_U16 2

def entryIn (bytes : List UInt8) (overflow : Faulting Unit (List UInt8)) (g : Geometry)
    (n i : Nat) (want : Option UInt8) : Faulting Unit Entry := do
  let start ← offsetsStartIn g.layout g.base g.fp i
  if g.layout = BLOCK_U8 then do
    let stop ← ofOption () (checkedAdd start (blockBytes B_U8 1 g.base g.fp))
    let block ← get () bytes start stop
    inBlockU8 g.fp g.base block overflow i want
  else if g.layout = BLOCK_U16 then do
    let stop ← ofOption () (checkedAdd start (blockBytes B_U16 2 g.base g.fp))
    let block ← get () bytes start stop
    inBlockU16 g.fp g.base block overflow i want
  else do
    let width := g.layout.toNat
    let fingerprint := do
      let offsets ← add n 1
      let size ← mul offsets width
      let row ← add HEADER size
      let place ← add row i
      ofOption () bytes[place]?
    stamped g.fp fingerprint want do
      let lo ← recast () (readOffset bytes start width)
      let next ← add start width
      let hi ← recast () (readOffset bytes next width)
      spanFrom 0 lo hi

/-- `entry_of`, whose cases only fix the geometry's constants. -/
def entryOf (bytes : List UInt8) (overflow : Faulting Unit (List UInt8)) (tag : UInt8) (n i : Nat)
    (want : Option UInt8) : Faulting Unit Entry :=
  entryIn bytes overflow (split tag) n i want

/-! ## Merged entries -/

structure Packed where
  width : Nat
  lenBits : Nat
  minLen : Nat
  mask : Nat
  fieldMask : Nat
  escape : Nat
deriving DecidableEq, Repr, Inhabited

/-- The slot of the `j`-th entry of a merged arena's overflow table. -/
def slotAt (table : List UInt8) (j : Nat) : Faulting Unit Nat := do
  let part ← slice table (j * SLOT_LEN) (j * SLOT_LEN + 4)
  word 4 part

/-- The search of `escaped_len`: a slot by halving, in a table that may not be in order. -/
def searchSlot (table : List UInt8) (slot lo hi : Nat) : Faulting Unit Nat :=
  if lo < hi then do
    let here ← slotAt table (lo + (hi - lo) / 2)
    if here < slot then searchSlot table slot (lo + (hi - lo) / 2 + 1) hi
    else searchSlot table slot lo (lo + (hi - lo) / 2)
  else .ok lo
termination_by hi - lo

def escapedLen (table : List UInt8) (i : Nat) : Faulting Unit Nat := do
  refuseIf (2 ^ 32 ≤ i) ()
  let found ← searchSlot table i 0 (table.length / SLOT_LEN)
  refuseIf (table.length / SLOT_LEN ≤ found) ()
  let here ← slotAt table found
  refuseIf (here ≠ i) ()
  let part ← slice table (found * SLOT_LEN + 4) ((found + 1) * SLOT_LEN)
  word 4 part

/-- `Packed::read`: where the data starts, how long it is said to be, and the entries. -/
def Packed.read (bytes : List UInt8) (tag : UInt8) (n : Nat) :
    Faulting IndexError (Nat × Nat × Packed) := do
  let p ← get (.format "arena: truncated merged header") bytes HEADER (HEADER + PARAMS)
  let minBytes ← slice p 0 4
  let minLen ← word 4 minBytes
  let lenBits ← index p 4
  let startBits ← index p 5
  let lenBytes ← slice p 6 14
  let dataLen ← word 8 lenBytes
  let width := startBits.toNat + lenBits.toNat
  refuseIf (MAX_WIDTH < width) (.format "arena: merged entries too wide")
  refuseIf (width = 0 ∧ 0 < n) (.format "arena: zero-width merged entries")
  let entries ← ofOption (.format "arena: offset table too large") do
    let bits ← checkedMul n width
    let front ← checkedAdd (divCeil bits 8) (HEADER + PARAMS + PAD)
    checkedAdd front (if tag &&& FP ≠ 0 then n else 0)
  let pastMask ← shiftLeft 1 width
  let mask ← sub pastMask 1
  let pastField ← shiftLeft 1 lenBits.toNat
  let fieldMask ← sub pastField 1
  pure (entries, dataLen,
    { width
      lenBits := lenBits.toNat
      minLen
      mask
      fieldMask
      escape := if 0 < lenBits.toNat then fieldMask else 2 ^ 64 - 1 })

/-! ## The arena -/

end Lexindex.Arena

namespace Lexindex

structure StringArena where
  blob : Arena.SharedBytes
  n : Nat
  dataStart : Nat
  dataEnd : Nat
  dataLen : Nat
  overflowEnd : Nat
  plain : UInt8
  tag : UInt8
  packed : Arena.Packed

namespace StringArena

open Arena Faulting
open Mphf (IndexError)

/-- A tag the format defines. -/
def known (tag : UInt8) : Bool :=
  (split tag).layout = BLOCK_U8 ∨ (split tag).layout = BLOCK_U16 ∨ tag &&& ~~~FP = 4 ∨
    tag &&& ~~~FP = 8 ∨ tag &&& ~~~(FP ||| OVERFLOW) = MERGED

/-- Where the data starts and, under the merged layout, its length by the header and the entries. -/
def readTable (bytes : List UInt8) (tag : UInt8) (n : Nat) :
    Faulting IndexError (Nat × Option Nat × Packed) :=
  if (split tag).layout = MERGED then do
    let (start, len, packed) ← Packed.read bytes tag n
    pure (start, some len, packed)
  else do
    let start ← ofOption (.format "arena: offset table too large") (prefixLen tag n)
    pure (start, none, default)

/-- Where the data and the overflow table behind it end. -/
def readEnds (bytes : List UInt8) (tag : UInt8) (dataStart : Nat) :
    Faulting IndexError (Nat × Nat) :=
  if tag &&& OVERFLOW ≠ 0 then do
    refuseIf (¬ (TRAILER ≤ bytes.length ∧ dataStart ≤ bytes.length - TRAILER))
      (.format "arena: truncated overflow table")
    let trailer := bytes.length - TRAILER
    let len ← readU64 bytes trailer
    let room ← sub trailer dataStart
    refuseIf (¬ (len ≤ room ∧ len % overflowEntryBytes tag = 0))
      (.format "arena: overflow table does not fit")
    let stop ← sub trailer len
    pure (stop, trailer)
  else .ok (bytes.length, bytes.length)

/-- Where the first slot starts and the last one ends. -/
def readSpan (bytes : List UInt8) (overflow : Faulting Unit (List UInt8)) (tag : UInt8) (n : Nat) :
    Faulting IndexError (Nat × Nat) :=
  if n = 0 then .ok (0, 0)
  else do
    let first ← recast (.format "arena: unreadable first offset") (entryOf bytes overflow tag n 0 none)
    let last ← recast (.format "arena: unreadable last offset")
      (entryOf bytes overflow tag n (n - 1) none)
    pure (first.1.1, last.1.2)

def fromShared (blob : SharedBytes) : Faulting IndexError StringArena := do
  let bytes := blob.bytes
  let nOff ← readU64 bytes 0
  refuseIf (nOff = 0) (.format "arena: zero offsets (need at least 1)")
  let n ← sub nOff 1
  let tag ← ofOption (.format "arena: unknown offset encoding") (bytes[8]?.filter known)
  let (dataStart, mergedLen, packed) ← readTable bytes tag n
  refuseIf (bytes.length < dataStart) (.format "arena: truncated offset table")
  let (dataEnd, overflowEnd) ← readEnds bytes tag dataStart
  let dataLen ← sub dataEnd dataStart
  let arena : StringArena :=
    { blob, n, dataStart, dataEnd, dataLen, overflowEnd, plain := tag &&& ~~~OVERFLOW, tag, packed }
  match mergedLen with
  | some len => do
      refuseIf (len ≠ dataLen) (.format "arena: merged data is not the length its header names")
      pure arena
  | none => do
      let ends ← readSpan bytes (slice bytes dataEnd overflowEnd) tag n
      refuseIf (ends ≠ (0, dataLen)) (.format "arena: offsets do not span the data")
      pure arena

variable (a : StringArena)

/-- The overflow table, sliced only where it is read. -/
def overflow : Faulting Unit (List UInt8) :=
  slice a.blob.bytes a.dataEnd a.overflowEnd

def hasFingerprints : Prop :=
  a.tag &&& FP ≠ 0

instance : Decidable a.hasFingerprints :=
  inferInstanceAs (Decidable (_ ≠ _))

/-- `table_at`: an unchecked read that must end in the table. -/
def tableAt (start len : Nat) : Faulting Unit (List UInt8) := do
  let stop ← add start len
  if stop ≤ a.dataStart then getUnchecked a.blob.bytes start stop else .error .outside

/-- The span a merged slot's packed entry names. -/
def mergedSpan (fp i : Nat) : Faulting Unit (Nat × Nat) := do
  let bit ← mul i a.packed.width
  let row ← mul fp a.n
  let table ← add (HEADER + PARAMS) row
  let start ← add table (bit / 8)
  let stop ← add start 8
  let part ← getUnchecked a.blob.bytes start stop
  let raw ← word 8 part
  let shifted ← shiftRight raw (bit % 8)
  let entry := shifted &&& a.packed.mask
  let start ← shiftRight entry a.packed.lenBits
  let field := entry &&& a.packed.fieldMask
  let len ←
    (if field = a.packed.escape then do
      let table ← a.overflow
      escapedLen table i
    else add a.packed.minLen field)
  let past ← add start len
  refuseIf (a.dataLen < past) ()
  let lo ← add a.dataStart start
  let hi ← add lo len
  pure (lo, hi)

def mergedEntry (fp i : Nat) (want : Option UInt8) : Faulting Unit Entry :=
  let fingerprint := do
    let place ← add (HEADER + PARAMS) i
    byteUnchecked a.blob.bytes place
  stamped fp fingerprint want (a.mergedSpan fp i)

def blockedEntry (i : Nat) (want : Option UInt8) : Faulting Unit Entry := do
  let ((lo, hi), fp) ← entryOf a.blob.bytes a.overflow a.tag a.n i want
  refuseIf (a.dataLen < hi) ()
  let first ← add a.dataStart lo
  let last ← add a.dataStart hi
  pure ((first, last), fp)

def entry (i : Nat) (want : Option UInt8) : Faulting Unit Entry := do
  refuseIf (a.n ≤ i) ()
  if (split a.tag).layout = MERGED then
    if a.tag &&& FP ≠ 0 then a.mergedEntry 1 i want else a.mergedEntry 0 i want
  else a.blockedEntry i want

def span (i : Nat) : Faulting Unit (Nat × Nat) := do
  let e ← a.entry i none
  pure e.1

def spanMatching (i : Nat) (fp : UInt8) : Faulting Unit (Nat × Nat) := do
  let e ← a.entry i (some fp)
  pure e.1

def bytesAt (span : Nat × Nat) : Faulting Unit (List UInt8) :=
  get () a.blob.bytes span.1 span.2

/-- Whether an entry relative to the data is the key's. -/
def comparedInData (found : Option Entry) (key : List UInt8) : Faulting Unit Bool :=
  match found with
  | none => .ok false
  | some ((lo, hi), _) =>
      if a.dataLen < hi then .ok false
      else do
        let size ← sub hi lo
        if size ≠ key.length then pure false
        else do
          let first ← add a.dataStart lo
          let last ← add a.dataStart hi
          let part ← getUnchecked a.blob.bytes first last
          pure (part == key)

/-- Whether an entry held to the data is the key's. -/
def compared (found : Option Entry) (key : List UInt8) : Faulting Unit Bool :=
  match found with
  | none => .ok false
  | some ((lo, hi), _) => do
      let size ← sub hi lo
      if size ≠ key.length then pure false
      else do
        let part ← getUnchecked a.blob.bytes lo hi
        pure (part == key)

/-- The tag's bit for `fp`. -/
def fpBit (fp : Nat) : UInt8 :=
  if fp = 1 then FP else 0

def holdsIn (fp i : Nat) (key : List UInt8) (want : Option UInt8) : Faulting Unit Bool :=
  if a.n ≤ i then .ok false
  else if a.plain = BLOCK_U16 ||| fpBit fp then do
    let start ← offsetsStartIn BLOCK_U16 NARROW fp i
    let block ← a.tableAt start (blockBytes B_U16 2 NARROW fp)
    let found ← attempt (inBlockU16 fp NARROW block a.overflow i want)
    a.comparedInData found key
  else if a.plain = BLOCK_U8 ||| fpBit fp then do
    let start ← offsetsStartIn BLOCK_U8 NARROW fp i
    let block ← a.tableAt start (blockBytes B_U8 1 NARROW fp)
    let found ← attempt (inBlockU8 fp NARROW block a.overflow i want)
    a.comparedInData found key
  else if a.plain = MERGED ||| fpBit fp then do
    let found ← attempt (a.mergedEntry fp i want)
    a.compared found key
  else do
    let found ← attempt do
      let e ← a.entry i want
      a.bytesAt e.1
    pure (found == some key)

def holds (i : Nat) (key : List UInt8) : Faulting Unit Bool :=
  a.holdsIn 0 i key none

def holdsMatching (i : Nat) (key : List UInt8) (fp : UInt8) : Faulting Unit Bool :=
  a.holdsIn 1 i key (some fp)

end StringArena

end Lexindex
