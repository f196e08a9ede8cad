import Mathlib
import Lexindex.DictIndex.Varint
import Lexindex.Lib.Cheapest
import Lexindex.Packed.Alphabet

/-!
# The pairs of a front-coded run

A run's pairs are coded at a fixed width: as offsets from the run's own bases, which it states as
offsets from its group's, or as slots of a table the group carries.  The all-ones code is the escape,
and the pair follows it as two numbers.
-/

set_option autoImplicit false

namespace Lexindex.PairCode

open Packed (top wordFrom)

/-- The `lcp` and the `len` of an entry. -/
abbrev Pair := Nat × Nat

def FRAME_MAX : Nat := 15

def TABLE_MAX : Nat := 10

def FIELD_MAX : Nat := 255

def PROLOGUE_MAX : Nat := 56

def OFFSET_MAX : Nat := 32

/-- `usize::MAX`. -/
def USIZE_MAX : Nat := 2 ^ 64 - 1

/-- `u16::MAX`: a pair without a slot. -/
def UNNAMED : Nat := 0xFFFF

def divCeil8 (bits : Nat) : Nat :=
  (bits + 7) / 8

def varintLen (v : Nat) : Nat :=
  if v < 0x80 then 1 else 1 + varintLen (v / 128)

/-- Bytes the two varints of an escaped pair take. -/
def escapeLen (p : Pair) : Nat :=
  varintLen p.1 + varintLen p.2

def escape (p : Pair) : List UInt8 :=
  putVarint p.1 ++ putVarint p.2

/-- Bits an offset needs. -/
def bitsOf (d : Nat) : Nat :=
  if d = 0 then 0 else d.log2 + 1

def bases (pairs : List Pair) : Nat × Nat :=
  pairs.foldl (fun least p => (min least.1 p.1, min least.2 p.2)) (USIZE_MAX, USIZE_MAX)

def frameFits (dl dn wl wn : Nat) : Bool :=
  decide (dl ≤ top wl ∧ dn ≤ top wn ∧ (dl, dn) ≠ (top wl, top wn))

def isPowerOfTwo (n : Nat) : Bool :=
  decide (n = 2 ^ n.log2)

/-! ## The widths of a run -/

structure Grid where
  get : Nat → Nat → Nat

/-- Zeroes in the rows and columns that a run reaches; what an earlier run left stays elsewhere. -/
def Grid.clear (g : Grid) (rows cols : Nat) : Grid :=
  ⟨fun i j => if i ≤ rows ∧ j ≤ cols then 0 else g.get i j⟩

def Grid.set (g : Grid) (i j v : Nat) : Grid :=
  ⟨fun k l => if k = i ∧ l = j then v else g.get k l⟩

def Grid.add (g : Grid) (i j e : Nat) : Grid :=
  g.set i j (g.get i j + e)

structure Widths where
  esc : Grid
  corner : Grid
  fit : Grid

def Widths.default : Widths :=
  { esc := ⟨fun _ _ => 0⟩, corner := ⟨fun _ _ => 0⟩, fit := ⟨fun _ _ => 0⟩ }

/-- The bits the offsets need, an offset past the widest frame counting as one bit more. -/
def capped (d : Nat) : Nat :=
  min (bitsOf d) (FRAME_MAX + 1)

def widest (offsets : List Nat) : Nat :=
  offsets.foldl (fun most d => max most (capped d)) 0

/-- A run's escapes by the bits its offsets need, and those that land on the all-ones code. -/
structure Tally where
  esc : Grid
  corner : Grid
  total : Nat

def tally (bl bn : Nat) (t : Tally) (p : Pair) : Tally :=
  let dl := p.1 - bl
  let dn := p.2 - bn
  let e := escapeLen p
  let hl := capped dl
  let hn := capped dn
  { esc := t.esc.add hl hn e
    corner :=
      if hl < FRAME_MAX + 1 ∧ hn < FRAME_MAX + 1 ∧ isPowerOfTwo (dl + 1) ∧ isPowerOfTwo (dn + 1) then
        t.corner.add hl hn e
      else t.corner
    total := t.total + e }

/-- One row of the sums over `0..=wl` and `0..=wn`. -/
def fitRow (esc : Grid) (nh : Nat) (fit : Grid) (wl : Nat) : Grid :=
  ((List.range (nh + 1)).foldl (fun (done : Nat × Grid) wn =>
    let row := done.1 + esc.get wl wn
    (row, done.2.set wl wn (row + if 0 < wl then done.2.get (wl - 1) wn else 0))) (0, fit)).2

def fitTable (esc : Grid) (lh nh : Nat) (fit : Grid) : Grid :=
  (List.range (lh + 1)).foldl (fitRow esc nh) fit

/-- Every pair of widths, in the order a search goes through them. -/
def widthPairs (lh nh : Nat) : List (Nat × Nat) :=
  (List.range (lh + 1)).flatMap fun wl => (List.range (nh + 1)).map fun wn => (wl, wn)

/-- The widths a run is cheapest under with the escapes they leave, and the tables as it leaves
them. -/
def frameWidths (pairs : List Pair) (w : Widths) : (Nat × Nat × Nat) × Widths :=
  let bl := (bases pairs).1
  let bn := (bases pairs).2
  let hlMax := widest (pairs.map fun p => p.1 - bl)
  let hnMax := widest (pairs.map fun p => p.2 - bn)
  let lh := min (hlMax + 1) FRAME_MAX
  let nh := min (hnMax + 1) FRAME_MAX
  let rows := max lh hlMax
  let cols := max nh hnMax
  let t := pairs.foldl (tally bl bn)
    { esc := w.esc.clear rows cols, corner := w.corner.clear rows cols, total := 0 }
  let fit := fitTable t.esc lh nh w.fit
  let esc := fun (c : Nat × Nat) => (t.total - fit.get c.1 c.2) + t.corner.get c.1 c.2
  let cost := fun (c : Nat × Nat) => divCeil8 (pairs.length * (c.1 + c.2)) + esc c
  -- The search starts from `usize::MAX`, which no run in memory costs.
  let best := (firstCheapest cost (widthPairs lh nh)).getD (0, 0)
  ((best.1, best.2, esc best), { esc := t.esc, corner := t.corner, fit })

/-! ## A group's frames -/

/-- Something of each of a frame's four numbers: the two bases and the two widths. -/
structure Four where
  bl : Nat
  bn : Nat
  wl : Nat
  wn : Nat
deriving DecidableEq, Repr

def Four.map (f : Nat → Nat) (x : Four) : Four :=
  ⟨f x.bl, f x.bn, f x.wl, f x.wn⟩

def Four.zip (f : Nat → Nat → Nat) (x y : Four) : Four :=
  ⟨f x.bl y.bl, f x.bn y.bn, f x.wl y.wl, f x.wn y.wn⟩

def Four.sum (x : Four) : Nat :=
  x.bl + x.bn + x.wl + x.wn

structure Fit where
  four : Four
  esc : Nat
  n : Nat
deriving DecidableEq, Repr

def fitRun (pairs : List Pair) (w : Widths) : Fit × Widths :=
  let found := frameWidths pairs w
  ({ four := ⟨(bases pairs).1, (bases pairs).2, found.1.1, found.1.2.1⟩, esc := found.1.2.2
     n := pairs.length }, found.2)

structure Frames where
  /-- The least of each number in the group. -/
  lo : Four
  /-- The mask each offset is read under. -/
  m : Four
  /-- The bit each offset starts at. -/
  sh : Four
  /-- The bit the codes start at, `sh[4]`. -/
  bits : Nat
deriving DecidableEq, Repr

namespace Frames

def new (lo p : Four) : Option Frames :=
  if PROLOGUE_MAX < p.sum ∨ OFFSET_MAX < p.bl ∨ OFFSET_MAX < p.bn then none
  else
    some {
      lo
      m := p.map fun w => top w % 2 ^ 32
      sh := ⟨0, p.bl, p.bl + p.bn, p.bl + p.bn + p.wl⟩
      bits := p.sum }

/-- `count_ones` of a mask. -/
def countOnes (m : Nat) : Nat :=
  (List.range 32).countP m.testBit

def widths (f : Frames) : Four :=
  f.m.map countOnes

def serializedLen (f : Frames) : Nat :=
  varintLen f.lo.bl + varintLen f.lo.bn + 4

def cost (f : Frames) (fits : List Fit) : Nat :=
  f.serializedLen +
    (fits.map fun r => divCeil8 (f.bits + r.n * (r.four.wl + r.four.wn)) + r.esc).sum

def nibbles (high low : Nat) : UInt8 :=
  UInt8.ofNat high <<< 4 ||| UInt8.ofNat low

def write (f : Frames) : List UInt8 :=
  let p := f.widths
  putVarint f.lo.bl ++ putVarint f.lo.bn ++
    [nibbles f.lo.wl f.lo.wn, UInt8.ofNat p.bl, UInt8.ofNat p.bn, nibbles p.wl p.wn]

def read (bytes : List UInt8) : Option (Frames × List UInt8) := do
  let bl ← varintAt bytes 0
  let bn ← varintAt bytes bl.2
  match bytes.drop bn.2 with
  | widths :: p0 :: p1 :: pw :: rest => do
      let f ← new ⟨bl.1, bn.1, widths.toNat >>> 4, widths.toNat &&& 0xF⟩
        ⟨p0.toNat, p1.toNat, pw.toNat >>> 4, pw.toNat &&& 0xF⟩
      pure (f, rest)
  | _ => none

end Frames

/-! ## The code of a group -/

inductive Code where
  | frame (f : Frames)
  /-- A pair of the table is `lcp << 8 | len`. -/
  | table (w : Nat) (pairs : List Nat)
deriving DecidableEq, Repr

/-- Whether the table can name the pair. -/
def nameable (p : Pair) : Bool :=
  decide (p.1 ≤ FIELD_MAX ∧ p.2 ≤ FIELD_MAX)

def keyOf (p : Pair) : Nat :=
  p.1 <<< 8 ||| p.2

/-- Times a pair is counted, in a `u32`. -/
def countOf (flat : List Pair) (p : Pair) : Nat :=
  flat.count p % 2 ^ 32

/-- What the slots go by: what the pair's escapes would cost, then the pair. -/
def rankLe (a b : Pair × Nat) : Bool :=
  decide (b.2 < a.2 ∨ a.2 = b.2 ∧ (a.1.1 < b.1.1 ∨ a.1.1 = b.1.1 ∧ a.1.2 ≤ b.1.2))

/-- The pairs worth a slot, with what their escapes would cost.  The counts' array lists each pair
once, and the order is the sort's. -/
def ranked (flat : List Pair) : List (Pair × Nat) :=
  (((flat.filter nameable).dedup.filter fun p => 0 < countOf flat p).map fun p =>
    (p, countOf flat p * escapeLen p)).mergeSort rankLe

namespace Code

/-- `write_to`. -/
def write : Code → List UInt8
  | .frame f => 0 :: f.write
  | .table w pairs => 1 :: UInt8.ofNat w :: (leBytes 2 pairs.length ++ pairs.flatMap (leBytes 2))

def read : List UInt8 → Option (Code × List UInt8)
  | [] => none
  | tag :: rest =>
      if tag = 0 then (Frames.read rest).map fun (f, rest) => (.frame f, rest)
      else if tag = 1 then
        match rest with
        | w :: c0 :: c1 :: rest =>
            let w := w.toNat
            let count := leNat [c0, c1]
            if w = 0 ∨ TABLE_MAX < w ∨ top w < count then none
            else if rest.length < 2 * count then none
            else some (.table w (leWords 2 count rest), rest.drop (2 * count))
        | _ => none
      else none

end Code

/-! ## Writing a run -/

/-- `Inverse`: the slot of every key the table could name, the last where two are one pair. -/
def slotsOf (pairs : List Nat) : Nat → Nat :=
  pairs.zipIdx.foldl (fun slots (p, i) => Function.update slots p i) fun _ => UNNAMED

structure Writer where
  /-- The word, its bits and the bytes out of it. -/
  stream : Packed.Bits
  width : Nat
  /-- The two bases and the two widths under a frame. -/
  frame : Option Four
  slots : Nat → Nat

namespace Writer

def new (code : Code) (pairs : List Pair) (w : Widths) : Writer :=
  match code with
  | .frame f =>
      let run := (fitRun pairs w).1
      let d := (run.four.zip (· - ·) f.lo).zip min f.m
      let own := f.lo.zip (· + ·) d
      -- Each offset is masked to its field, so no bit leaves the word.
      let acc := d.bl <<< f.sh.bl ||| d.bn <<< f.sh.bn ||| d.wl <<< f.sh.wl ||| d.wn <<< f.sh.wn
      { stream := Packed.Bits.spill (f.bits / 8) { out := [], len := 0, bits := acc, used := f.bits }
        width := own.wl + own.wn
        frame := some own
        slots := fun _ => UNNAMED }
  | .table w pairs =>
      { stream := Packed.Bits.empty, width := w, frame := none, slots := slotsOf pairs }

/-- The code of a pair, and the escape that goes before its suffix. -/
def codeOf (w : Writer) (p : Pair) : Nat × List UInt8 :=
  match w.frame with
  | some own =>
      let dl := p.1 - own.bl
      let dn := p.2 - own.bn
      if frameFits dl dn own.wl own.wn then (dl <<< own.wn ||| dn, [])
      else (top own.wl <<< own.wn ||| top own.wn, escape p)
  | none =>
      let slot := if nameable p then w.slots (keyOf p) else UNNAMED
      if slot = UNNAMED then (top w.width, escape p) else (slot, [])

def push (w : Writer) (p : Pair) : Writer × List UInt8 :=
  ({ w with stream := w.stream.push w.width (w.codeOf p).1 }, (w.codeOf p).2)

/-- Entries in turn, each its pair and its suffix as coded: the writer after them and the bytes
that follow the headers. -/
def pushAll (w : Writer) : List (Pair × List UInt8) → Writer × List UInt8
  | [] => (w, [])
  | (p, suffix) :: rest =>
      let pushed := w.push p
      let done := pushed.1.pushAll rest
      (done.1, pushed.2 ++ suffix ++ done.2)

def finish (w : Writer) : List UInt8 :=
  w.stream.drain

end Writer

/-- The headers of a run, and what follows them. -/
def writeRun (code : Code) (entries : List (Pair × List UInt8)) (w : Widths) :
    List UInt8 × List UInt8 :=
  let done := (Writer.new code (entries.map Prod.fst) w).pushAll entries
  (done.1.finish, done.2)

/-! ## Reading a run -/

structure Reader where
  data : List UInt8
  hdrEnd : Nat
  /-- The bit the next code starts at. -/
  bit : Nat
  width : Nat
  mask : Nat
  bl : Nat
  bn : Nat
  wn : Nat
  isFrame : Bool
  pairs : List Nat

namespace Reader

/-- A reader of `count` pairs, and where the suffixes begin. -/
def of (code : Code) (data : List UInt8) (count : Nat) : Option (Reader × List UInt8) :=
  match code with
  | .frame f =>
      if data.length * 8 < f.bits then none
      else
        let word := wordFrom data 0
        let own : Four := ⟨f.lo.bl + (word >>> f.sh.bl &&& f.m.bl), f.lo.bn + (word >>> f.sh.bn &&& f.m.bn),
          f.lo.wl + (word >>> f.sh.wl &&& f.m.wl), f.lo.wn + (word >>> f.sh.wn &&& f.m.wn)⟩
        if FRAME_MAX < own.wl ∨ FRAME_MAX < own.wn then none
        else
          let width := own.wl + own.wn
          let hdrEnd := divCeil8 (f.bits + count * width)
          if data.length < hdrEnd then none
          else
            some ({ data, hdrEnd, bit := f.bits, width, mask := top width, bl := own.bl, bn := own.bn
                    wn := own.wn, isFrame := true, pairs := [] }, data.drop hdrEnd)
  | .table w pairs =>
      let hdrEnd := divCeil8 (0 + count * w)
      if data.length < hdrEnd then none
      else
        some ({ data, hdrEnd, bit := 0, width := w, mask := top w, bl := 0, bn := 0, wn := 0
                isFrame := false, pairs }, data.drop hdrEnd)

def nextCode (r : Reader) : Nat × Reader :=
  (wordFrom r.data (r.bit / 8) >>> (r.bit % 8) &&& r.mask, { r with bit := r.bit + r.width })

/-- The pair a code stands for, or none for the escape. -/
def pair (r : Reader) (code : Nat) : Option Pair :=
  if r.isFrame then
    if code = r.mask then none else some (r.bl + code >>> r.wn, r.bn + (code &&& top r.wn))
  else r.pairs[code]?.map fun p => (p >>> 8, p &&& 0xFF)

/-- The next pair, its escape read from `at_` where it has one, and where its suffix begins. -/
def next (r : Reader) (tail : List UInt8) (at_ : Nat) : Option (Pair × Nat × Reader) :=
  match r.pair r.nextCode.1 with
  | some p => some (p, at_, r.nextCode.2)
  | none => do
      let lcp ← varintAt tail at_
      let len ← varintAt tail lcp.2
      some ((lcp.1, len.1), len.2, r.nextCode.2)

/-- A walk of `count` entries, `skip` saying how many bytes the suffix of a pair takes. -/
def walk (skip : Pair → Nat) (tail : List UInt8) : Nat → Reader → Nat → Option (List Pair)
  | 0, _, _ => some []
  | count + 1, r, at_ => do
      let (p, stop, r') ← r.next tail at_
      let rest ← walk skip tail count r' (stop + skip p)
      some (p :: rest)

end Reader

def readRun (code : Code) (data : List UInt8) (count : Nat) (skip : Pair → Nat) :
    Option (List Pair) := do
  let (r, tail) ← Reader.of code data count
  r.walk skip tail count 0

end Lexindex.PairCode
