import Mathlib
import Lexindex.DictIndex.Varint
import Lexindex.Lib.Bytes
import Lexindex.Lib.Checked
import Lexindex.Lib.Utf8

/-!
# Codewords by code point

A codeword in a number, `len << 16 | first << 8 | second`, and the two-level index
of them: one flat level below `LOW`, above it a page of 256 code points at a time,
each codeword narrowed to sixteen bits.
-/

set_option autoImplicit false

namespace Lexindex.CharCode

/-- Leads a code may use. -/
def LEADS : Nat := 128

/-- Code points one page of the index covers. -/
def PAGE : Nat := 256

/-- Code points the index holds in one flat level. -/
def LOW : Nat := 0x800

/-- Which characters a code spells, and in which bytes. -/
inductive Mode where
  | seven
  | eight
  deriving DecidableEq

namespace Mode

/-- The byte lead 0 is written as. -/
def base : Mode → Nat
  | seven => 0
  | eight => 0x80

/-- Characters one page of two-byte codewords holds. -/
def page : Mode → Nat
  | seven => 128
  | eight => 256

/-- The byte a blob names the mode by. -/
def tag : Mode → UInt8
  | seven => 7
  | eight => 8

end Mode

def word (first : Nat) : Option Nat → Nat
  | none => 1 <<< 16 ||| first <<< 8
  | some s => 2 <<< 16 ||| first <<< 8 ||| s

/-- The bytes a codeword spells. -/
def wordBytes (w : Nat) : List UInt8 :=
  UInt8.ofNat (w >>> 8) :: if w >>> 16 = 2 then [UInt8.ofNat w] else []

/-- Two bytes at `at_` whatever the codeword's length, and where it ends; `none` past
the end of `out`. -/
def put (out : List UInt8) (at_ w : Nat) : Option (List UInt8 × Nat) :=
  if at_ + 2 ≤ out.length then
    some ((out.set at_ (UInt8.ofNat (w >>> 8))).set (at_ + 1) (UInt8.ofNat w), at_ + w >>> 16)
  else none

def narrow (w : Nat) : Nat :=
  let lead := (w >>> 8) % 2 ^ 16 &&& 0x7F
  if w >>> 16 = 2 then 0x8000 ||| lead <<< 8 ||| (w % 2 ^ 16 &&& 0xFF) else lead <<< 8 ||| 1

def widen (n base : Nat) : Nat :=
  (1 + n >>> 15) <<< 16 ||| (base ||| n >>> 8 &&& 0x7F) <<< 8 ||| n &&& 0xFF

structure Index where
  low : List Nat
  /-- One past a page's place in `words`, or zero for a page the alphabet has no character on. -/
  pages : List Nat
  /-- Codewords narrowed, zero for a point the code does not spell. -/
  words : List Nat
  base : Nat

/-- `Vec::resize` to a length that is no shorter. -/
def resize (xs : List Nat) (length : Nat) : List Nat :=
  xs ++ List.replicate (length - xs.length) 0

namespace Index

def empty (base : Nat) : Index :=
  { low := [], pages := [], words := [], base }

/-- Where a code point stands in `words`, given its page's entry. -/
def wordAt (entry cp : Nat) : Nat :=
  (entry - 1) * PAGE + (cp &&& 0xFF)

/-- The loop's body: a character's codeword entered. -/
def enter (index : Index) (c : Char) (w : Nat) : Index :=
  let cp := c.toNat
  if cp < LOW then
    { index with low := (resize index.low (cp + 1)).set cp w }
  else
    let pages := resize index.pages (cp >>> 8 + 1)
    if pages.getD (cp >>> 8) 0 = 0 then
      let words := resize index.words (index.words.length + PAGE)
      let pages := pages.set (cp >>> 8) (words.length / PAGE)
      { index with
        pages
        words := words.set (wordAt (pages.getD (cp >>> 8) 0) cp) (narrow w) }
    else
      { index with
        pages
        words := index.words.set (wordAt (pages.getD (cp >>> 8) 0) cp) (narrow w) }

def build (spelt : List (Char × Nat)) (base : Nat) : Index :=
  spelt.foldl (fun index entry => index.enter entry.1 entry.2) (empty base)

/-- The character's codeword, or zero where the code does not spell it. -/
def get (index : Index) (c : Char) : Nat :=
  let cp := c.toNat
  match index.low[cp]? with
  | some w => w
  | none =>
      match index.pages[cp >>> 8]? with
      | none => 0
      | some p =>
          if p = 0 then 0
          else
            let n := index.words.getD (wordAt p cp) 0
            if n = 0 then 0 else widen n index.base

end Index

end Lexindex.CharCode

/-!
## The character code

An order-keeping code for the characters of a blob's keys, one or two bytes each: its
tables, the coding of a key, the probe a query becomes, and the decoders.  A read or
a store past the end of a buffer or a table is where the source panics; it is `none`
here, outside any `none` the source returns itself.
-/

namespace Lexindex

open CharCode (Mode Index word put LEADS)

/-- What a query became under a code, beside its bytes. -/
inductive Probe where
  | exact
  | absent
  | last
  deriving DecidableEq

/-- An order-keeping code over one blob's characters. -/
structure CharCode where
  mode : Mode
  /-- The rank of each lead's first character, and past the last lead the alphabet's size. -/
  firsts : List Nat
  index : Index
  /-- By byte, the rank of its lead's first character above nine bits of how many it spells. -/
  leads : UInt8 → Nat
  /-- Every character spelled, by rank, packed. -/
  utf8 : List Nat
  /-- What `writeTo` writes, counted once. -/
  len : Nat

namespace CharCode

/-- A character's UTF-8 in the four bytes of a number, zero past the last. -/
def packed (c : Char) : Nat :=
  leNat ((String.utf8EncodeChar c ++ List.replicate 4 0).take 4)

def leadingOnes (byte : Nat) : Nat :=
  ((List.range 8).takeWhile fun i => byte.testBit (7 - i)).length

def packedLen (u : Nat) : Nat :=
  max (leadingOnes (u % 256)) 1

/-- The character `packed` made `u` of. -/
def unpacked (u : Nat) : Option Char :=
  (fromUtf8 ((leBytes 4 u).take (packedLen u))).bind fun s => s.toList.head?

/-- The number read from its first byte. -/
def packedOrder (u : Nat) : Nat :=
  leNat (leBytes 4 u).reverse

/-- A lead's first rank after another, each past the last by its width. -/
def bounds (widths : List Nat) : List Nat :=
  widths.foldl (fun firsts w => firsts ++ [firsts.getLastD 0 + w]) [0]

/-- Each lead with the ranks it starts and ends at. -/
def spans (firsts : List Nat) : List ((Nat × Nat) × Nat) :=
  (firsts.zip firsts.tail).zipIdx

/-- The characters under their leads, each with its codeword. -/
def spelling (mode : Mode) (chars : List Char) (firsts : List Nat) : List (Char × Nat) :=
  (spans firsts).flatMap fun span =>
    let first := span.1.1
    let last := span.1.2
    let lead := mode.base + span.2
    ((chars.take last).drop first).zipIdx.map fun entry =>
      (entry.1, word lead (if last - first = 1 then none else some entry.2))

/-- ASCII spells itself under whole bytes. -/
def asciiSpelling (mode : Mode) : List (Char × Nat) :=
  if mode = .eight then (List.range 0x80).map fun b => (Char.ofNat b, word b none) else []

def varintLen (v : Nat) : Nat :=
  divCeil (Nat.log2 (v ||| 1) + 1) 7

/-- The first code point whole, and each after it past the one before. -/
def deltas : Nat → List Char → List Nat
  | _, [] => []
  | prev, c :: chars => (c.toNat - prev) :: deltas c.toNat chars

/-- The loop over ASCII: a lead and a packed character each. -/
def asciiLeads (leads : UInt8 → Nat) (utf8 : List Nat) : (UInt8 → Nat) × List Nat :=
  (List.range 0x80).foldl
    (fun state b => (Function.update state.1 (UInt8.ofNat b) (state.2.length <<< 9 ||| 1),
      state.2 ++ [packed (Char.ofNat b)]))
    (leads, utf8)

/-- The code over `chars`, ascending, under leads of the widths `firsts` bounds. -/
def new (mode : Mode) (chars : List Char) (firsts : List Nat) : CharCode :=
  let spelt := spelling mode chars firsts ++ asciiSpelling mode
  let leads := (spans firsts).foldl
    (fun leads span => Function.update leads (UInt8.ofNat (mode.base + span.2))
      (span.1.1 <<< 9 ||| (span.1.2 - span.1.1)))
    fun _ => 0
  let utf8 := chars.map packed
  let tables := if mode = .eight then asciiLeads leads utf8 else (leads, utf8)
  { mode
    firsts
    index := Index.build spelt mode.base
    leads := tables.1
    utf8 := tables.2
    len := 1 + varintLen chars.length + firsts.length + ((deltas 0 chars).map varintLen).sum }

/-- Characters in the alphabet. -/
def count (code : CharCode) : Nat :=
  code.firsts.getD (code.firsts.length - 1) 0

/-- The loop of `encodeKey`. -/
def encodeChars (code : CharCode) : List Char → List UInt8 → Bool × List UInt8
  | [], out => (true, out)
  | c :: rest, out =>
      let w := code.index.get c
      if w = 0 then (false, out)
      else encodeChars code rest (out ++ wordBytes w)

/-- Append `key`'s code to `out`. -/
def encodeKey (code : CharCode) (key : String) (out : List UInt8) : Bool × List UInt8 :=
  encodeChars code key.toList out

/-- The last byte not `0xff` incremented, and what follows it dropped: the bytes as they
are left, and how many of them to read. -/
def bump (bytes : List UInt8) : Option (List UInt8 × Nat) :=
  match bytes.reverse.findIdx? fun b => b ≠ 0xFF with
  | none => none
  | some skipped =>
      let last := bytes.length - 1 - skipped
      some (bytes.set last (bytes.getD last 0 + 1), last + 1)

/-- The loop of `probeInto`, with `o` bytes of `out` taken. -/
def probeChars (code : CharCode) : List Char → List UInt8 → Nat →
    Option (Probe × Nat × List UInt8)
  | [], out, o => some (.exact, o, out)
  | c :: rest, out, o =>
      let w := code.index.get c
      if w ≠ 0 then
        (put out o w).bind fun written => probeChars code rest written.1 written.2
      else
        let alphabet := code.utf8.take code.count
        let order := packedOrder (packed c)
        -- `partition_point`: the alphabet ascends, so those before it come first.
        let next := (alphabet.takeWhile fun u => packedOrder u < order).length
        match alphabet[next]? with
        | some u =>
            (unpacked u).bind fun above =>
              (put out o (code.index.get above)).map fun written =>
                (.absent, written.2, written.1)
        | none =>
            match bump (out.take o) with
            | some bumped => some (.absent, bumped.2, bumped.1 ++ out.drop o)
            | none => some (.last, 0, out)

/-- `query` as the keys are spelled, into `out`, which must hold twice the query's bytes. -/
def probeInto (code : CharCode) (query : String) (out : List UInt8) :
    Option (Probe × Nat × List UInt8) :=
  probeChars code query.toList out 0

/-- The packed character whose codeword starts at `at_`, and the codeword's length. -/
def utf8At (code : CharCode) (coded : List UInt8) (at_ : Nat) : Option (Option (Nat × Nat)) :=
  match coded[at_]? with
  | none => some none
  | some byte =>
      let lead := code.leads byte
      let first := lead >>> 9
      let width := lead &&& 0x1FF
      if width = 1 then (code.utf8[first]?).map fun u => some (u, 1)
      else
        match coded[at_ + 1]? with
        | none => some none
        | some s =>
            if s.toNat < width then (code.utf8[first + s.toNat]?).map fun u => some (u, 2)
            else some none

theorem utf8At_advances {code : CharCode} {coded : List UInt8} {at_ u len : Nat}
    (read : code.utf8At coded at_ = some (some (u, len))) : 0 < len := by
  unfold utf8At at read
  split at read
  · simp at read
  · simp only at read
    split at read
    · simp at read
      omega
    · split at read
      · simp at read
      · split at read
        · simp at read
          omega
        · simp at read

/-- `copy_from_slice` into the bytes from `at_`. -/
def store (out : List UInt8) (at_ : Nat) (bytes : List UInt8) : Option (List UInt8) :=
  if at_ + bytes.length ≤ out.length then
    some (out.take at_ ++ (bytes ++ out.drop (at_ + bytes.length)))
  else none

/-- The loop of `decodeInto`. -/
def decodeFrom (code : CharCode) (coded : List UInt8) (at_ w : Nat) (out : List UInt8) :
    Option (Bool × List UInt8) :=
  if at_ < coded.length then
    match _read : code.utf8At coded at_ with
    | none => none
    | some none => some (false, out.take w)
    | some (some (u, len)) =>
        (store out w (leBytes 4 u)).bind fun out =>
          decodeFrom code coded (at_ + len) (w + packedLen u) out
  else some (true, out.take w)
termination_by coded.length - at_
decreasing_by
  have advances := utf8At_advances _read
  omega

/-- Append what `coded` spells to `out`. -/
def decodeInto (code : CharCode) (coded out : List UInt8) : Option (Bool × List UInt8) :=
  decodeFrom code coded 0 out.length (out ++ List.replicate (4 * coded.length) 0)

/-- The buffer of `decodeInPlace`, with the next codeword at `r` and the text up to `w`. -/
structure InPlace where
  buf : List UInt8
  r : Nat
  w : Nat

/-- The loop's body: the codeword at `r` read, and its character stored at `w`. -/
def inPlaceStep (code : CharCode) (s : InPlace) : Option (Option InPlace) :=
  match code.utf8At s.buf s.r with
  | none => none
  | some none => some none
  | some (some (u, len)) =>
      (store s.buf s.w (leBytes 4 u)).map fun buf =>
        some { buf, r := s.r + len, w := s.w + packedLen u }

theorem inPlaceStep_advances {code : CharCode} {s next : InPlace}
    (step : code.inPlaceStep s = some (some next)) : s.r < next.r := by
  unfold inPlaceStep at step
  split at step
  · simp at step
  · simp at step
  · rename_i u len read
    have advances := utf8At_advances read
    obtain ⟨buf, -, exact⟩ := Option.map_eq_some_iff.mp step
    rw [← Option.some.inj exact]
    change s.r < s.r + len
    omega

/-- The loop of `decodeInPlace`, up to `last`. -/
def inPlaceFrom (code : CharCode) (last : Nat) (s : InPlace) : Option (Bool × List UInt8) :=
  if s.r < last then
    match _step : code.inPlaceStep s with
    | none => none
    | some none => some (false, [])
    | some (some next) => inPlaceFrom code last next
  else some (true, s.buf.take s.w)
termination_by last - s.r
decreasing_by
  have advances := inPlaceStep_advances _step
  omega

/-- The code moved to the top of four times its length. -/
def inPlaceStart (coded : List UInt8) : InPlace :=
  let c := coded.length
  let buf := coded ++ List.replicate (4 * c - c) 0
  { buf := buf.take (3 * c) ++ coded, r := 3 * c, w := 0 }

/-- Replace `coded` by what it spells, in the same buffer. -/
def decodeInPlace (code : CharCode) (coded : List UInt8) : Option (Bool × List UInt8) :=
  inPlaceFrom code (4 * coded.length) (inPlaceStart coded)

/-- `decodeInPlace`, handed back as a string no check of UTF-8 is made of. -/
def decodeOwned (code : CharCode) (coded : List UInt8) : Option (Option (List UInt8)) :=
  (decodeInPlace code coded).map fun decoded => if decoded.1 then some decoded.2 else none

end CharCode

end Lexindex
