import Mathlib
import Lexindex.Lib.Faults

/-!
# The symbol table

At most 255 symbols of one to eight bytes, a code of one byte for each and an escape for a byte that
no symbol covers.  The encoder asks a slot of longer symbols first and then the two-byte prefix; the
decoder stores a whole word a code and keeps the symbol's bytes of it.
-/

set_option autoImplicit false

namespace Lexindex.Fsst

open Faulting

def ESCAPE : Nat := 255
def MAX_SYMBOLS : Nat := 255
def MAX_LEN : Nat := 8
def ROUNDS : Nat := 4
def SLOTS : Nat := 1024

/-- Symbols of three bytes or more a slot holds, longest first. -/
def WAYS : Nat := 2

/-- The symbols in code order, each as the word of its bytes and its length. -/
structure Table where
  words : List Nat
  lens : List Nat
deriving DecidableEq, Repr

/-- At most eight bytes as a word, zero-padded. -/
def wordOf (bytes : List UInt8) : Nat :=
  leNat (bytes ++ List.replicate (8 - bytes.length) 0)

/-- The eight bytes at `i` as a word, zero-padded past the end. -/
def wordAt (s : List UInt8) (i : Nat) : Nat :=
  if i + 8 ≤ s.length then leNat (bytesBetween s i (i + 8))
  else if 8 ≤ s.length ∧ i < s.length then
    -- The last eight bytes hold every byte from `i` on.
    leNat (s.drop (s.length - 8)) >>> (8 * (i + 8 - s.length))
  else (s.drop i).zipIdx.foldl (fun w (b, k) => w ||| b.toNat <<< (8 * k)) 0

/-- `LOW_MASK`: the low `len` bytes of a word. -/
def lowMask (len : Nat) : Nat :=
  256 ^ min len 8 - 1

/-- The encoder's slot for a symbol: a hash of its first three bytes. -/
def slotOf (word : Nat) : Nat :=
  ((word &&& 0xFFFFFF) * 0x9E3779B97F4A7C15 % 2 ^ 64) >>> 54

structure Slot where
  word : Nat
  mask : Nat
  code : Nat
  /-- Zero in an empty slot. -/
  len : Nat
deriving DecidableEq, Repr

def Slot.empty : Slot :=
  { word := 0, mask := 0, code := 0, len := 0 }

structure Encoder where
  /-- The code and the length for each two-byte prefix. -/
  short : List Nat
  /-- The same for the last byte of a string. -/
  single : List Nat
  slots : List (List Slot)

namespace Table

def fromSymbols (syms : List (List UInt8)) : Table :=
  { words := syms.map wordOf, lens := syms.map List.length }

def head (t : Table) (k : Nat) : Table :=
  { words := t.words.take (min k t.words.length), lens := t.lens.take (min k t.words.length) }

end Table

/-! ## Encoding -/

/-- Where no symbol starts. -/
def esc : Nat :=
  ESCAPE ||| 1 <<< 8

/-- A symbol put in a slot's ways, the longest first and the last of them dropped. -/
def insertSlot : List Slot → Slot → List Slot
  | [], _ => []
  | slot :: rest, new =>
      if slot.len < new.len then new :: insertSlot rest slot else slot :: insertSlot rest new

/-- A symbol entered. -/
def Encoder.enter (e : Encoder) (word len code : Nat) : Encoder :=
  let entry := code % 2 ^ 16 ||| len <<< 8
  match len with
  | 1 =>
      let b := word &&& 0xFF
      { e with
        single := e.single.set b entry
        -- Behind every two-byte prefix nothing longer claims.
        short := (List.range 256).foldl (fun short second =>
          if short.getD (b ||| second <<< 8) 0 = esc then short.set (b ||| second <<< 8) entry
          else short) e.short }
  | 2 => { e with short := e.short.set (word &&& 0xFFFF) entry }
  | len =>
      let new : Slot := { word, mask := lowMask len, code := code % 256, len }
      { e with slots := e.slots.modify (slotOf word) (insertSlot · new) }

def Table.encoder (t : Table) : Encoder :=
  (t.words.zip t.lens).zipIdx.foldl (fun e symbol => e.enter symbol.1.1 symbol.1.2 symbol.2)
    { short := List.replicate (2 ^ 16) esc
      single := List.replicate 256 esc
      slots := List.replicate SLOTS (List.replicate WAYS Slot.empty) }

/-- What is emitted at a position: the code and the bytes covered, for the word there and the bytes
that are left. -/
def Encoder.step (e : Encoder) (word rem : Nat) : Nat × Nat :=
  match (e.slots.getD (slotOf word) []).find? fun s =>
      s.len ≠ 0 && decide (s.len ≤ rem) && word &&& s.mask == s.word with
  | some s => (s.code, s.len)
  | none =>
      let sc := if 2 ≤ rem then e.short.getD (word &&& 0xFFFF) 0
        else e.single.getD (word &&& 0xFF) 0
      (sc % 256, sc >>> 8)

/-- The encoder's loop from byte `i` on; none where it would not come to an end. -/
def Encoder.encodeFrom (e : Encoder) (s : List UInt8) : Nat → Nat → Option (List UInt8)
  | fuel, i =>
      if inside : i < s.length then
        match fuel with
        | 0 => none
        | fuel + 1 =>
            let (code, len) := e.step (wordAt s i) (s.length - i)
            let emitted := if code = ESCAPE then [UInt8.ofNat ESCAPE, s[i]] else [UInt8.ofNat code]
            (Encoder.encodeFrom e s fuel (i + len)).map (emitted ++ ·)
      else some []

/-- `encode_into`: what it pushes. -/
def Encoder.encode (e : Encoder) (s : List UInt8) : Option (List UInt8) :=
  e.encodeFrom s s.length 0

/-! ## Decoding -/

/-- Room past a vector's end, whose slots are not written yet. -/
abbrev Room :=
  List (Option UInt8)

/-- `Room::put`, and `Room::byte` for one. -/
def put (room : Room) (start : Nat) (bytes : List UInt8) : Faulting Unit Room :=
  if start + bytes.length ≤ room.length then
    .ok (room.take start ++ bytes.map some ++ room.drop (start + bytes.length))
  else .error .panicked

namespace Table

/-- The decoder's loop from `o` bytes on: what it leaves, or none for a stream that the table did
not write. -/
def decodeFrom (t : Table) (cap : Nat) : List UInt8 → Room → Nat →
    Faulting Unit (Option (Room × Nat))
  | [], room, o => .ok (some (room, o))
  | code :: rest, room, o =>
      if o < cap then
        if code.toNat = ESCAPE then
          match rest with
          | [] => .ok none
          | b :: rest => do
              let room ← put room o [b]
              decodeFrom t cap rest room (o + 1)
        else
          match t.words[code.toNat]?, t.lens[code.toNat]? with
          | some word, some len => do
              let room ← put room o (leBytes 8 word)
              decodeFrom t cap rest room (o + len)
          | _, _ => .ok none
      else .ok (some (room, o))

/-- The room a decode asks for, its sums and products kept in a word. -/
def roomFor (codes cap : Nat) : Nat :=
  min (min (codes * 8) (2 ^ 64 - 1)) (min (cap + 7) (2 ^ 64 - 1))

/-- `decode_into`: `out` with what is decoded, or none where it is left as it was. -/
def decodeInto (t : Table) (packed out : List UInt8) (cap : Nat) :
    Faulting Unit (Option (List UInt8)) := do
  let left ← t.decodeFrom cap packed (List.replicate (roomFor packed.length cap) none) 0
  match left with
  | none => pure none
  | some (room, o) =>
      -- Every slot that is kept has been written.
      match (room.take o).mapM id with
      | some text => pure (some (out ++ text))
      | none => .error .outside

/-! ## The table's bytes -/

def writeTo (t : Table) : List UInt8 :=
  UInt8.ofNat t.lens.length :: t.lens.map UInt8.ofNat ++
    (t.words.zip t.lens).flatMap fun (word, len) => (leBytes 8 word).take len

/-- The symbols' bytes, cut to their lengths; what is left after them. -/
def readSymbols : List UInt8 → List UInt8 → Option (List Nat × List UInt8)
  | [], rest => some ([], rest)
  | len :: lens, rest =>
      if ¬ (1 ≤ len.toNat ∧ len.toNat ≤ MAX_LEN) then none
      else if len.toNat ≤ rest.length then
        (readSymbols lens (rest.drop len.toNat)).map fun (words, rest') =>
          (wordOf (rest.take len.toNat) :: words, rest')
      else none

def fromBytes : List UInt8 → Option Table
  | [] => none
  | count :: rest =>
      if count.toNat ≤ rest.length then
        let lens := rest.take count.toNat
        match readSymbols lens (rest.drop count.toNat) with
        | some (words, []) => some { words, lens := lens.map UInt8.toNat }
        | _ => none
      else none

end Table

end Lexindex.Fsst

/-!
## Training a symbol table

Each round parses the sample with the table so far, counts the pieces and the pairs of pieces, and
keeps the candidates that earn the most and that the encoder can reach.
-/

namespace Lexindex.Fsst

/-- What a candidate earns: the bytes it covers and one more for each use. -/
def earned (uses len : Nat) : Nat :=
  uses * (len + 1)

/-- Uses of each piece, and of each piece after each. -/
structure Counts where
  count1 : List Nat
  count2 : List Nat

/-- `counts[i] += 1` in a 32-bit word. -/
def bump (counts : List Nat) (i : Nat) : List Nat :=
  counts.modify i fun c => (c + 1) % 2 ^ 32

/-- `from_be_bytes(word.to_le_bytes())`, which is its own inverse. -/
def swapBytes (word : Nat) : Nat :=
  leNat (leBytes 8 word).reverse

/-- A candidate's word and length, and its gain. -/
abbrev Gain :=
  List ((Nat × Nat) × Nat)

/-- `*gain.entry(key).or_default() += g`. -/
def Gain.add : Gain → Nat × Nat → Nat → Gain
  | [], key, g => [(key, g)]
  | (other, sum) :: rest, key, g =>
      if other = key then (other, sum + g) :: rest else (other, sum) :: Gain.add rest key g

namespace Table

/-- Pieces: the symbols, then the 256 bytes. -/
def space (t : Table) : Nat :=
  t.words.length + 256

/-- What a piece stands for. -/
def piece (t : Table) (code : Nat) : Nat × Nat :=
  if code < t.words.length then (t.words.getD code 0, t.lens.getD code 0)
  else ((code - t.words.length) % 256, 1)

/-- The pieces of a string counted from byte `i` on. -/
def tallyFrom (t : Table) (e : Encoder) (s : List UInt8) :
    Nat → Nat → Option Nat → Counts → Counts
  | 0, _, _, counts => counts
  | fuel + 1, i, prev, counts =>
      if inside : i < s.length then
        let (code, len) := e.step (wordAt s i) (s.length - i)
        let code := if code = ESCAPE then t.words.length + s[i].toNat else code
        let count1 := bump counts.count1 code
        -- Single bytes stay in the running against the symbols that cover them.
        let count1 := if 1 < len then
            ((s.drop i).take len).foldl (fun counts b => bump counts (t.words.length + b.toNat)) count1
          else count1
        let count2 := match prev with
          | some prev => bump counts.count2 (prev * t.space + code)
          | none => counts.count2
        tallyFrom t e s fuel (i + len) (some code) { count1, count2 }
      else counts

def tally (t : Table) (sample : List (List UInt8)) : Counts :=
  sample.foldl (fun counts s => t.tallyFrom t.encoder s s.length 0 none counts)
    { count1 := List.replicate t.space 0, count2 := List.replicate (t.space * t.space) 0 }

/-- What each piece earns. -/
def gainOne (t : Table) (counts : Counts) : Gain :=
  (List.range t.space).foldl (fun gain code =>
    let c := counts.count1.getD code 0
    if 0 < c then gain.add (t.piece code) (earned c (t.piece code).2) else gain) []

/-- What a pair of pieces earns on top. -/
def gainPair (t : Table) (counts : Counts) (a : Nat) (gain : Gain) (b : Nat) : Gain :=
  let c := counts.count2.getD (a * t.space + b) 0
  let (wa, la) := t.piece a
  let (wb, lb) := t.piece b
  if c = 0 ∨ MAX_LEN < la + lb then gain
  else gain.add (wa ||| (wb <<< (8 * la)) % 2 ^ 64, la + lb) (earned c (la + lb))

/-- The walk over the rows and columns of the pieces that are used. -/
def gains (t : Table) (counts : Counts) : Gain :=
  let live := (List.range t.space).filter fun code => 0 < counts.count1.getD code 0
  live.foldl (fun gain a =>
    if (t.piece a).2 = MAX_LEN then gain else live.foldl (t.gainPair counts a) gain)
    (t.gainOne counts)

/-- Gain down, then bytes up, then length. -/
def rankLe (x y : Nat × Nat × Nat) : Bool :=
  decide (x.1 < y.1 ∨ x.1 = y.1 ∧ (x.2.1 < y.2.1 ∨ x.2.1 = y.2.1 ∧ x.2.2 ≤ y.2.2))

def ranked (gain : Gain) : List (Nat × Nat) :=
  ((gain.map fun ((word, len), g) => (2 ^ 64 - 1 - g, swapBytes word, len)).mergeSort rankLe).map
    fun (_, be, len) => (swapBytes be, len)

/-- The first `max` candidates that the encoder can reach, `taken` being the room its slots have
given. -/
def reachFrom (max : Nat) : List (Nat × Nat) → List Nat → List (List UInt8) → List (List UInt8)
  | [], _, syms => syms
  | (word, len) :: rest, taken, syms =>
      if syms.length = max then syms
      else if 3 ≤ len then
        if taken.getD (slotOf word) 0 = WAYS then reachFrom max rest taken syms
        else reachFrom max rest (taken.modify (slotOf word) (· + 1))
          (syms ++ [(leBytes 8 word).take len])
      else reachFrom max rest taken (syms ++ [(leBytes 8 word).take len])

def reachable (candidates : List (Nat × Nat)) (max : Nat) : Table :=
  fromSymbols (reachFrom (min max MAX_SYMBOLS) candidates (List.replicate SLOTS 0) [])

/-- One round of parse and count. -/
def round (t : Table) (sample : List (List UInt8)) (max : Nat) : Table :=
  reachable (ranked (t.gains (t.tally sample))) max

/-- Rounds until they are spent, or until one returns the table it was given. -/
def rounds (sample : List (List UInt8)) (max : Nat) : Nat → Table → Table
  | 0, t => t
  | left + 1, t =>
      let next := t.round sample max
      if next = t then t else rounds sample max left next

def trainTo (sample : List (List UInt8)) (max : Nat) : Table :=
  rounds sample max ROUNDS { words := [], lens := [] }

def train (sample : List (List UInt8)) : Table :=
  trainTo sample MAX_SYMBOLS

end Table

end Lexindex.Fsst
