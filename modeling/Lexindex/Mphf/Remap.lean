import Mathlib
import Lexindex.Lib.Checked
import Lexindex.Lib.Word

/-!
# The remap

Every value of the levels below the first, and of the tail, takes a hole of the
first level.  Over all values the holes are a non-decreasing sequence, held as
Elias–Fano: low bits packed, high parts in unary in one stream, with a sample a
block of values.  `encode` lays the tables out, `get` reads them without a
bounds check, and `validate` is what a loader checks before it trusts them.
-/

set_option autoImplicit false

namespace Lexindex.Mphf

/-- What a load or a build reports. -/
inductive IndexError
  | format (message : String)
  | build (message : String)
  deriving DecidableEq, Repr

/-- `SIZE`. -/
def sizeError : IndexError :=
  .format "mphf: blob sections do not fit in memory"

/-- `SPAN`. -/
def spanError : IndexError :=
  .format "mphf: a remap block outruns its super-sample"

/-- Values a sample of the remap covers (`BLOCK`). -/
def block : Nat := 64

/-- Values a super-sample covers (`SUPER`). -/
def super : Nat := 2048

/-- Words a lookup counts through from its sample (`SELECT_WORDS`). -/
def selectWords : Nat := 4

/-! ## Selecting a bit inside a word -/

/-- `0x0101..01`, one in every byte (`ONES`). -/
def onesWord : Word := 0x0101010101010101#64

/-- `SELECT_IN_BYTE[r << 8 | b]`: the position of the `r`-th set bit of the byte
`b`, 0 where it has fewer. -/
def selectInByte (r b : Nat) : Nat :=
  ((List.range 8).filter fun bit => b.testBit bit).getD r 0

/-- The position of the `r`-th set bit of `x`, from 0; past them, some position. -/
def selectInWord (x : Word) (r : Nat) : Nat :=
  let s := x - ((x >>> 1) &&& 0x5555555555555555#64)
  let s := (s &&& 0x3333333333333333#64) + ((s >>> 2) &&& 0x3333333333333333#64)
  let sums := ((s + (s >>> 4)) &&& 0x0F0F0F0F0F0F0F0F#64) * onesWord
  let atMost :=
    (((BitVec.ofNat 64 r &&& 0x7F#64) * onesWord ||| (onesWord <<< 7)) - sums) &&& (onesWord <<< 7)
  let byte := min ((((atMost >>> 7) * onesWord) >>> 56).toNat * 8) 56
  let before := ((sums <<< 8) >>> byte) &&& 0xFF#64
  let rank := ((BitVec.ofNat 64 r - before) &&& 7#64).toNat
  byte + selectInByte rank ((x >>> byte) &&& 0xFF#64).toNat

/-! ## The tables -/

structure Remap where
  /-- Values of the levels below the first and of the tail, together. -/
  len : Nat
  /-- Low bits a value. -/
  lowBits : Nat
  low : List Word
  /-- The high parts in unary, then `selectWords` zero words. -/
  high : List Word
  /-- The position of each super-block's first one. -/
  supers : List Nat
  /-- The position of each block's first one, above its super-block's. -/
  subs : List Nat
  deriving DecidableEq, Repr

namespace Remap

def empty : Remap :=
  { len := 0, lowBits := 0, low := [], high := [], supers := [], subs := [] }

def lowWords (len lowBits : Nat) : Option Nat :=
  (checkedMul len lowBits).map (divCeil · 64)

def highWords (len u lowBits : Nat) : Option Nat :=
  if len = 0 then some 0
  else (checkedAdd ((u - 1) >>> lowBits) len).map (divCeil · 64)

def heldWords (len stored : Nat) : Option Nat :=
  if len = 0 then some 0 else checkedAdd stored selectWords

def storedHigh (r : Remap) : List Word :=
  r.high.take (r.high.length - selectWords)

def superCount (len : Nat) : Nat :=
  divCeil len super

def subCount (len : Nat) : Nat :=
  divCeil len block

def sampleBytes (len : Nat) : Option Nat := do
  let supers ← checkedMul (superCount len) 4
  let subs ← checkedMul (subCount len) 2
  checkedAdd supers subs

def naturalLowBits (len u : Nat) : Nat :=
  if len = 0 then 0 else Nat.log2 (max (u / len) 1)

/-! ## Laying the tables out -/

/-- The low bits of `v`, or-ed into the packed words at entry `j`. -/
def putLow (low : List Word) (lowBits j v : Nat) : List Word :=
  if lowBits = 0 then low
  else
    let part := BitVec.ofNat 64 (v % 2 ^ lowBits)
    let w := j * lowBits / 64
    let o := j * lowBits % 64
    let low := low.modify w (· ||| (part <<< o))
    if o + lowBits > 64 then low.modify (w + 1) (· ||| (part >>> (64 - o))) else low

/-- The super-samples once entry `j`'s one is at `p`. -/
def sampleSuper (supers : List Nat) (j p : Nat) : Except IndexError (List Nat) :=
  if j % super = 0 then do
    refuse (2 ^ 32 ≤ p) sizeError
    pure (supers.set (j / super) p)
  else .ok supers

/-- The samples once entry `j`'s one is at `p`, above its super-sample. -/
def sampleBlock (supers subs : List Nat) (j p : Nat) : Except IndexError (List Nat) :=
  if j % block = 0 then do
    let above := p - supers.getD (j / super) 0
    refuse (2 ^ 16 ≤ above) spanError
    pure (subs.set (j / block) above)
  else .ok subs

/-- One entry of `encode`'s loop: entry `j` of the sequence is `v`. -/
def encodeEntry (r : Remap) (j v : Nat) : Except IndexError Remap := do
  let p := (v >>> r.lowBits) + j
  let supers ← sampleSuper r.supers j p
  let subs ← sampleBlock supers r.subs j p
  pure { r with
    low := putLow r.low r.lowBits j v
    high := r.high.modify (p / 64) (· ||| (1#64 <<< (p % 64)))
    supers, subs }

def encodeFrom : Remap → Nat → List Nat → Except IndexError Remap
  | r, _, [] => .ok r
  | r, j, v :: rest => do
      let r ← encodeEntry r j v
      encodeFrom r (j + 1) rest

/-- The zeroed tables `encode` fills for `len` values below `u`. -/
def blank (len u : Nat) : Except IndexError Remap := do
  let lowBits := naturalLowBits len u
  let held ← okOr ((highWords len u lowBits).bind (heldWords len)) sizeError
  let lowLen ← okOr (lowWords len lowBits) sizeError
  pure
    { len, lowBits
      low := List.replicate lowLen 0#64
      high := List.replicate held 0#64
      supers := List.replicate (superCount len) 0
      subs := List.replicate (subCount len) 0 }

/-- The sequence `values`, non-decreasing and below `u`, at the natural low bits. -/
def encode (values : List Nat) (u : Nat) : Except IndexError Remap := do
  let r ← blank values.length u
  encodeFrom r 0 values

/-! ## Reading an entry -/

/-- The position of the `r`-th one from word `w` on; past the stream's end, 0. -/
def beyondFrom : List Word → Nat → Nat → Nat
  | [], _, _ => 0
  | x :: rest, w, r =>
      if r < x.countOnes then w * 64 + selectInWord x r
      else beyondFrom rest (w + 1) (r - x.countOnes)

def beyond (r : Remap) (w skip : Nat) : Nat :=
  beyondFrom (r.high.drop w) w skip

/-- The words `[w, w + selectWords)` of the stream, `none` where the unchecked
read would leave it. -/
def window (r : Remap) (w : Nat) : Option (List Word) :=
  if w + selectWords ≤ r.high.length then some ((r.high.drop w).take selectWords) else none

/-- Ones in the first `i` words of a window. -/
def onesBefore (words : List Word) (i : Nat) : Nat :=
  ((words.take i).map Word.countOnes).sum

/-- The position of the `skip`-th one at or past bit `s`. -/
def selectFrom (r : Remap) (s skip : Nat) : Option Nat := do
  let w0 := s / 64
  let words ← r.window w0
  -- the first word's bits below the sample belong to the block before
  let words := words.modify 0 (· &&& (BitVec.allOnes 64 <<< (s % 64)))
  let total := onesBefore words selectWords
  if skip < total then
    let w := ((List.range' 1 (selectWords - 1)).filter fun w => onesBefore words w ≤ skip).length
    let word ← words[w]?
    pure ((w0 + w) * 64 + selectInWord word (skip - onesBefore words w))
  else
    pure (r.beyond (w0 + selectWords) (skip - total))

/-- The low bits of entry `j`. -/
def lowPart (r : Remap) (j : Nat) : Option Nat :=
  if r.lowBits = 0 then some 0
  else do
    let w := j * r.lowBits / 64
    let o := j * r.lowBits % 64
    let word ← r.low[w]?
    let x := word >>> o
    let x ←
      if o + r.lowBits > 64 then do
        let next ← r.low[w + 1]?
        pure (x ||| (next <<< (64 - o)))
      else pure x
    pure (x.toNat % 2 ^ r.lowBits)

/-- The `j`-th value, for `j < len`, and 0 for any other `j`; `none` where one of
the unchecked reads would leave its table. -/
def get (r : Remap) (j : Nat) : Option Nat :=
  if r.len ≤ j then some 0
  else do
    let hi ← r.supers[j / super]?
    let lo ← r.subs[j / block]?
    let p ← r.selectFrom (hi + lo) (j % block)
    let high := (p + 2 ^ 64 - j) % 2 ^ 64
    let low ← r.lowPart j
    pure (((high <<< r.lowBits) % 2 ^ 64) ||| low)

/-! ## What a loader checks -/

/-- The lengths and the padding `validate` asks for before it walks the stream. -/
def lengthsAgree (r : Remap) (u : Nat) : Prop :=
  r.lowBits < 64 ∧
  some r.low.length = lowWords r.len r.lowBits ∧
  some r.high.length = (highWords r.len u r.lowBits).bind (heldWords r.len) ∧
  r.supers.length = superCount r.len ∧
  r.subs.length = subCount r.len ∧
  (r.high.drop r.storedHigh.length).all (· = 0#64) = true

instance (r : Remap) (u : Nat) : Decidable (r.lengthsAgree u) := by
  unfold lengthsAgree
  infer_instance

/-- One position of `validate`'s pass: the `j`-th one is at `p`. -/
def oneAgrees (r : Remap) (j p : Nat) : Prop :=
  j < r.len ∧ j ≤ p ∧
  (j % block = 0 →
    (j % super = 0 → r.supers.getD (j / super) 0 = p) ∧
    r.supers.getD (j / super) 0 + r.subs.getD (j / block) 0 = p)

instance (r : Remap) (j p : Nat) : Decidable (r.oneAgrees j p) := by
  unfold oneAgrees
  infer_instance

/-- The pass over the stream's ones: how many there are, `none` at the first
that disagrees with the tables. -/
def passOver (r : Remap) : Nat → List Nat → Option Nat
  | j, [] => some j
  | j, p :: rest => if r.oneAgrees j p then r.passOver (j + 1) rest else none

/-- The last clause passes over an entry whose reads leave their tables: that none
does is for the clauses before it to ensure. -/
def validate (r : Remap) (u : Nat) : Bool :=
  decide (r.lengthsAgree u) &&
  decide (r.passOver 0 (streamOnes r.storedHigh) = some r.len) &&
  (List.range r.len).all fun j => (r.get j).all fun value => decide (value < u)

/-! ## The layout an `MPH2` blob carries -/

def badRemapError : IndexError :=
  .format "mphf: a remap entry points outside the image"

def backwardsError : IndexError :=
  .format "mphf: a remap's entries run backwards"

def holeCountError : IndexError :=
  .format "mphf: occupied values disagree with the hole count"

/-- The low part of the `j`-th hole of an `MPH2` list. -/
def holeLow (low : List Word) (lowBits j : Nat) : Nat :=
  if lowBits = 0 then 0
  else
    let w := j * lowBits / 64
    let o := j * lowBits % 64
    let x := low.getD w 0#64 >>> o
    let x := if o + lowBits > 64 then x ||| (low.getD (w + 1) 0#64 <<< (64 - o)) else x
    x.toNat % 2 ^ lowBits

/-- The holes of an `MPH2` list whose high part's ones are `positions`, the first
of them hole `j`, after `previous`. -/
def holesFrom (low : List Word) (holes lowBits u : Nat) :
    Nat → Option Nat → List Nat → Except IndexError (List Nat)
  | j, _, [] => do
      refuse (j ≠ holes) badRemapError
      pure []
  | j, previous, p :: rest => do
      refuse (holes ≤ j ∨ p < j) badRemapError
      let hole := (((p - j) <<< lowBits) % 2 ^ 64) ||| holeLow low lowBits j
      refuse (u ≤ hole) badRemapError
      refuse (previous.any (fun before => hole < before) = true) backwardsError
      let later ← holesFrom low holes lowBits u (j + 1) (some hole) rest
      pure (hole :: later)

/-- The value of each of `entries` entries from entry `i` on: a set one takes the
next hole, another its predecessor's. -/
def spreadHoles (set : List Word) : Nat → Nat → Nat → List Nat → Except IndexError (List Nat)
  | 0, _, _, holes => do
      refuse (holes ≠ []) holeCountError
      pure []
  | entries + 1, i, hole, holes =>
      if streamBit set i then
        match holes with
        | [] => .error holeCountError
        | next :: rest => do
            let later ← spreadHoles set entries (i + 1) next rest
            pure (next :: later)
      else do
        let later ← spreadHoles set entries (i + 1) hole holes
        pure (hole :: later)

/-- The remap of an `MPH2` blob, read into this layout. -/
def fromV2 (set low high : List Word) (holes lowBits entries u : Nat) :
    Except IndexError Remap := do
  let holeAt ← holesFrom low holes lowBits u 0 none (streamOnes high)
  let values ← spreadHoles set entries 0 0 holeAt
  encode values u

end Remap

end Lexindex.Mphf
