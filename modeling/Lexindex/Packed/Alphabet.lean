import Mathlib
import Lexindex.Lib.Bytes

/-!
# A packed suffix alphabet

A code is a few bits.  The commonest bytes get one each, the next an escape and their own, and any
other two escapes and its eight bits; an alphabet that fits the width has no escape.  The codes of a
run are one stream, where a suffix begins in the bit after the one before it ended.
-/

set_option autoImplicit false

namespace Lexindex.Packed

/-- The all-ones code. -/
def top (width : Nat) : Nat :=
  2 ^ width - 1

/-- Codes of the eight bits of a byte. -/
def perByte (width : Nat) : Nat :=
  (8 + width - 1) / width

def rawCodes (width : Nat) : Nat :=
  2 + perByte width

/-- `u16::MAX`: a byte that neither table names. -/
def UNNAMED : Nat := 0xFFFF

structure Alphabet where
  width : Nat
  /-- The bytes behind one code. -/
  one : List UInt8
  /-- The bytes behind an escaped one. -/
  two : List UInt8
  /-- For each byte the code it takes, the high bit set where it is escaped. -/
  code : List Nat
deriving DecidableEq, Repr

/-! ## Building -/

/-- Bytes by frequency, and by byte where two are as common. -/
def rankLe (a b : Nat × UInt8) : Bool :=
  decide (b.1 < a.1 ∨ a.1 = b.1 ∧ a.2 ≤ b.2)

def rank (freq : UInt8 → Nat) : List (Nat × UInt8) :=
  ((((List.range 256).map UInt8.ofNat).filter fun b => 0 < freq b).map fun b => (freq b, b)).mergeSort
    rankLe

/-- A sum of frequencies, in a word. -/
def sumOf (ranked : List (Nat × UInt8)) : Nat :=
  (ranked.map Prod.fst).sum % 2 ^ 64

/-- What the ranked bytes cost in bits at a width, in a word. -/
def bitsAt (ranked : List (Nat × UInt8)) (width : Nat) : Nat :=
  if ranked.length ≤ 2 ^ width then sumOf ranked * width % 2 ^ 64
  else
    let k := top width
    let one := sumOf (ranked.take k)
    let two := sumOf ((ranked.drop k).take (min (2 * k) ranked.length - k))
    let rest := sumOf (ranked.drop (2 * k))
    (one + 2 * two + rest * rawCodes width) * width % 2 ^ 64

/-- The two code tables at a width. -/
def split (ranked : List (Nat × UInt8)) (width : Nat) : List UInt8 × List UInt8 :=
  let bytes := ranked.map Prod.snd
  if bytes.length ≤ 2 ^ width then (bytes, [])
  else
    let k := top width
    (bytes.take k, (bytes.drop k).take (min (2 * k) bytes.length - k))

/-- The cheapest width and its bits, the least of those as cheap. -/
def cheapest (ranked : List (Nat × UInt8)) : Nat × Nat :=
  ((List.range 7).map (· + 2)).foldl (fun best w =>
    if bitsAt ranked w < best.2 then (w, bitsAt ranked w) else best) (1, bitsAt ranked 1)

/-- Each byte of a table given its code. -/
def nameAll (mark : Nat → Nat) (bytes : List UInt8) (code : List Nat) : List Nat :=
  bytes.zipIdx.foldl (fun code (b, i) => code.set b.toNat (mark i)) code

/-- `1 << 15 | i`. -/
def escaped (i : Nat) : Nat :=
  1 <<< 15 ||| i

namespace Alphabet

/-- The cheapest alphabet for the frequencies of a shard's suffixes, and the bits its codes take. -/
def of (freq : UInt8 → Nat) : Option (Alphabet × Nat) :=
  let ranked := rank freq
  if ranked = [] then none
  else
    let (width, bits) := cheapest ranked
    let (one, two) := split ranked width
    let code := nameAll escaped two (nameAll id one (List.replicate 256 UNNAMED))
    some ({ width, one, two, code }, bits)

/-! ## Writing -/

/-- The eight bits of a byte, a code's worth at a time. -/
def digits (width : Nat) : Nat → Nat → List Nat
  | 0, _ => []
  | count + 1, left => (left &&& top width) :: digits width count (left >>> width)

/-- The codes a byte takes. -/
def codesOf (a : Alphabet) (b : UInt8) : List Nat :=
  let c := a.code.getD b.toNat UNNAMED
  if c = UNNAMED then top a.width :: top a.width :: digits a.width (perByte a.width) b.toNat
  else if c >>> 15 = 1 then [top a.width, c &&& 0x7FFF]
  else [c]

/-- `codes_for`: codes a suffix takes, without writing it. -/
def codesFor (a : Alphabet) (s : List UInt8) : Nat :=
  (s.map fun b =>
    let c := a.code.getD b.toNat UNNAMED
    if c = UNNAMED then rawCodes a.width else if c >>> 15 = 1 then 2 else 1).sum

end Alphabet

/-- A run's codes as they are written. -/
structure Bits where
  out : List UInt8
  len : Nat
  bits : Nat
  used : Nat
deriving DecidableEq, Repr

namespace Bits

def empty : Bits :=
  { out := [], len := 0, bits := 0, used := 0 }

/-- Whole bytes that the word holds, written out. -/
def spill : Nat → Bits → Bits
  | 0, w => w
  | left + 1, w =>
      if 8 ≤ w.used then
        spill left { w with out := w.out ++ [w.bits.toUInt8], bits := w.bits >>> 8, used := w.used - 8 }
      else w

/-- One code. -/
def push (w : Bits) (width code : Nat) : Bits :=
  let bits := w.bits ||| code <<< w.used % 2 ^ 64
  let used := w.used + width
  spill (used / 8) { w with bits, used, len := w.len + 1 }

/-- Where the next code would start. -/
def position (w : Bits) : Nat :=
  w.out.length * 8 + w.used

/-- `drain_into`: the stream, its last byte padded with zeroes. -/
def drain (w : Bits) : List UInt8 :=
  if 0 < w.used then w.out ++ [w.bits.toUInt8] else w.out

end Bits

/-- `encode_into`. -/
def Alphabet.encodeInto (a : Alphabet) (s : List UInt8) (w : Bits) : Bits :=
  s.foldl (fun w b => (a.codesOf b).foldl (fun w code => w.push a.width code) w) w

/-- The suffixes of a run written in turn, with where each starts and its codes. -/
def Alphabet.encodeRun (a : Alphabet) : List (List UInt8) → Bits → List (Nat × Nat) × Bits
  | [], w => ([], w)
  | s :: rest, w =>
      let written := a.encodeInto s w
      let (spans, last) := encodeRun a rest written
      ((w.position, written.len - w.len) :: spans, last)

/-! ## Reading -/

/-- One suffix's codes inside a run's stream. -/
structure Codes where
  bytes : List UInt8
  start : Nat
  width : Nat
  len : Nat

/-- Up to eight bytes from one on, as a word. -/
def wordFrom (bytes : List UInt8) (byte : Nat) : Nat :=
  let tail := bytes.drop byte
  if 8 ≤ tail.length then leNat (tail.take 8)
  else leNat (tail ++ List.replicate (8 - tail.length) 0)

/-- The `i`th code, or none past the stream. -/
def Codes.code (codes : Codes) (i : Nat) : Option Nat :=
  if codes.len ≤ i then none
  else
    let bit := codes.start + i * codes.width
    if codes.bytes.length < bit / 8 then none
    else if (codes.bytes.drop (bit / 8)).length < 8 ∧
        codes.bytes.length * 8 < bit + codes.width then none
    else some (wordFrom codes.bytes (bit / 8) >>> (bit % 8) &&& top codes.width)

namespace Alphabet

/-- Digits of a raw byte, read back. -/
def rawByte (width : Nat) (code : Nat → Option Nat) : Nat → Nat → Nat → Option Nat
  | _, 0, byte => some byte
  | i, left + 1, byte => do
      let digit ← code i
      rawByte width code (i + 1) left (byte ||| digit <<< ((perByte width - (left + 1)) * width))

/-- The byte that the codes from `place` on open with, and how many it took. -/
def byteAt (a : Alphabet) (code : Nat → Option Nat) (place : Nat) : Option (UInt8 × Nat) := do
  let first ← code place
  if a.two = [] ∨ first ≠ top a.width then
    let b ← a.one[first]?
    pure (b, 1)
  else do
    let second ← code (place + 1)
    if second ≠ top a.width then
      let b ← a.two[second]?
      pure (b, 2)
    else do
      let byte ← rawByte a.width code (place + 2) (perByte a.width) 0
      pure (UInt8.ofNat byte, 2 + perByte a.width)

/-- The loop of an escaping alphabet: at most `want` bytes in all. -/
def decodeFrom (a : Alphabet) (codes : Codes) (want : Nat) : Nat → Nat → List UInt8 →
    Option (List UInt8)
  | 0, _, done => some done
  | fuel + 1, place, done =>
      if place < codes.len ∧ done.length < want then
        match a.byteAt codes.code place with
        | none => none
        | some (b, took) => decodeFrom a codes want fuel (place + took) (done ++ [b])
      else some done

/-- Bytes of one word of codes. -/
def spreadWord (a : Alphabet) : Nat → Nat → Option (List UInt8)
  | 0, _ => some []
  | take + 1, word => do
      let b ← a.one[word &&& top a.width]?
      let rest ← spreadWord a take (word >>> a.width)
      pure (b :: rest)

/-- The loop of an alphabet that fits its width: a word of codes at a time. -/
def spreadFrom (a : Alphabet) (codes : Codes) (want : Nat) : Nat → List UInt8 →
    Option (List UInt8)
  | 0, done => some done
  | fuel + 1, done =>
      if done.length < want then
        let bit := codes.start + done.length * a.width
        if codes.bytes.length < bit / 8 then none
        else
          let tail := codes.bytes.drop (bit / 8)
          let held := if 8 ≤ tail.length then 64 - bit % 8 else tail.length * 8 - bit % 8
          let take := min (held / a.width) (want - done.length)
          if take = 0 then none
          else
            match a.spreadWord take (wordFrom codes.bytes (bit / 8) >>> (bit % 8)) with
            | none => none
            | some part => spreadFrom a codes want fuel (done ++ part)
      else some done

/-- `decode_into`: the bytes appended, at most `cap` of them. -/
def decodeInto (a : Alphabet) (codes : Codes) (cap : Nat) : Option (List UInt8) :=
  let want := min codes.len cap
  if a.two = [] then a.spreadFrom codes want want [] else a.decodeFrom codes want want 0 []

/-! ## The table's bytes -/

def writeTo (a : Alphabet) : List UInt8 :=
  UInt8.ofNat a.width :: UInt8.ofNat (a.one.length - 1) :: UInt8.ofNat a.two.length ::
    (a.one ++ a.two)

/-- Each byte of a table given its code, unless it has one. -/
def nameNew (mark : Nat → Nat) (bytes : List UInt8) (code : List Nat) : Option (List Nat) :=
  bytes.zipIdx.foldlM (fun code (b, i) =>
    if code.getD b.toNat UNNAMED ≠ UNNAMED then none else some (code.set b.toNat (mark i))) code

def read : List UInt8 → Option Alphabet
  | width :: ones :: twos :: rest =>
      let width := width.toNat
      let ones := ones.toNat + 1
      if ¬ (1 ≤ width ∧ width ≤ 8) ∨ rest.length ≠ ones + twos.toNat then none
      else
        let one := rest.take ones
        let two := rest.drop ones
        -- Every code has to name at most one byte, or a read would not be the write's inverse.
        if 2 ^ width < one.length ∨ top width < two.length then none
        else if two ≠ [] ∧ one.length ≠ top width then none
        else do
          let code ← nameNew id one (List.replicate 256 UNNAMED)
          let code ← nameNew escaped two code
          pure { width, one, two, code }
  | _ => none

end Alphabet

end Lexindex.Packed
