import Mathlib
import Lexindex.Mphf.Remap
import Lexindex.DoubleArray.Trie
import Lexindex.DoubleArray.Occupancy

/-!
# Placing the rows

Every row takes the lowest base no row has whose slots are all free, at or above what the
floors and the window say, the rows with the most children first.
-/

set_option autoImplicit false

namespace Lexindex.DoubleArray

open Mphf (IndexError)

/-- A chunk with this few words holding a free slot is tested a word at a time. -/
def SPARSE : Nat := 4

/-- A row of two or more children searches no lower than this many slots under the highest. -/
def WINDOW : Nat := 1 <<< 16

/-- Words an exact search crosses before it starts again at the window's start. -/
def SEARCH_CAP : Nat := 1 <<< 14

/-- The slot the lowest search a set of labels could succeed at starts from, for a row's first
label, its first two, and all of them. -/
structure Floors where
  first : List Nat
  pair : Nat → Option Nat
  all : List Nat → Option Nat

def pairKey (a b : Nat) : Nat :=
  a <<< 16 ||| b

namespace Floors

def new (maxLabel : Nat) : Floors :=
  -- A first child's slot is at least its label: bases start at 0.
  { first := List.range (maxLabel + 1), pair := fun _ => none, all := fun _ => none }

/-- The floors for the first label, the first two and all of them, 0 where none is known. -/
def get (f : Floors) (labels : List Nat) : Nat × Nat × Nat :=
  let pair :=
    match labels with
    | a :: b :: _ => (f.pair (pairKey a b)).getD 0
    | _ => 0
  let all := if 2 < labels.length then (f.all labels).getD 0 else 0
  (f.first.getD (labels.headD 0) 0, pair, all)

def setFirst (f : Floors) (c0 slot : Nat) : Floors :=
  { f with first := f.first.set c0 slot }

def setPair (f : Floors) (labels : List Nat) (slot : Nat) : Floors :=
  let key := pairKey (labels.getD 0 0) (labels.getD 1 0)
  { f with pair := fun k => if k = key then some slot else f.pair k }

def setAll (f : Floors) (labels : List Nat) (slot : Nat) : Floors :=
  { f with all := fun k => if k = labels then some slot else f.all k }

end Floors

/-- The floors, and which of them the search may still learn. -/
structure Learning where
  first : Bool
  pair : Bool
  floors : Floors

namespace Learning

def sawFirst (l : Learning) (c0 slot : Nat) : Learning :=
  if l.first then { l with first := false, floors := l.floors.setFirst c0 slot } else l

/-- The lowest candidate of a chunk, if it has one. -/
def sawLowest (l : Learning) (c0 : Nat) : Option Nat → Learning
  | some s => l.sawFirst c0 s
  | none => l

def sawPair (l : Learning) (labels : List Nat) (slot : Nat) : Learning :=
  if l.pair then { l with pair := false, floors := l.floors.setPair labels slot } else l

end Learning

/-- A word of candidates against the other children's slots, `r` of them tested. -/
def narrowWord (o : Occupancy) (labels : List Nat) (w : Nat) :
    Nat → List (Nat × Nat) → Word → Learning → Word × Learning
  | _, [], f, l => (f, l)
  | r, (dq, sh) :: rel, f, l =>
      let f := f &&& ~~~(window o.used (w + dq) sh)
      if f = 0#64 then (f, l)
      else
        narrowWord o labels w (r + 1) rel f
          (if r = 0 then l.sawPair labels (64 * w + f.ctz.toNat) else l)

/-- The words with a free slot, a word at a time. -/
def sparseSearch (o : Occupancy) (labels : List Nat) (rel : List (Nat × Nat)) (c0 w0 : Nat)
    (mask0 : Word) : List Nat → Learning → Option Nat × Learning
  | [], l => (none, l)
  | j :: m, l =>
      let w := w0 + j
      let f := if j = 0 then o.candidates w c0 &&& mask0 else o.candidates w c0
      if f = 0#64 then sparseSearch o labels rel c0 w0 mask0 m l
      else
        let narrowed := narrowWord o labels w 0 rel f (l.sawFirst c0 (64 * w + f.ctz.toNat))
        if narrowed.1 ≠ 0#64 then (some (64 * w + narrowed.1.ctz.toNat), narrowed.2)
        else sparseSearch o labels rel c0 w0 mask0 m narrowed.2

/-- A chunk of candidates against the other children's slots, `r` of them tested. -/
def narrowChunk (o : Occupancy) (labels : List Nat) (w0 : Nat) :
    Nat → List (Nat × Nat) → List Word → Learning → List Word × Learning
  | _, [], fit, l => (fit, l)
  | r, (dq, sh) :: rel, fit, l =>
      let fit := fit.mapIdx fun j f => f &&& ~~~(window o.used (w0 + dq + j) sh)
      if fit.all (· = 0#64) then (fit, l)
      else
        narrowChunk o labels w0 (r + 1) rel fit
          (if r = 0 then l.sawPair labels ((lowest fit w0).getD 0) else l)

/-- All the words of a chunk together. -/
def chunkSearch (o : Occupancy) (labels : List Nat) (rel : List (Nat × Nat)) (c0 w0 : Nat)
    (mask0 : Word) (l : Learning) : Option Nat × Learning :=
  let fit := (o.candidatesChunk w0 c0).modify 0 (· &&& mask0)
  let narrowed := narrowChunk o labels w0 0 rel fit (l.sawLowest c0 (lowest fit w0))
  (lowest narrowed.1 w0, narrowed.2)

/-- One round of the search, over the `CHUNK` words from `w0`. -/
def searchRound (o : Occupancy) (labels : List Nat) (rel : List (Nat × Nat)) (c0 w0 : Nat)
    (mask0 : Word) (l : Learning) : Option Nat × Learning :=
  let openBits := o.openWords w0
  if rel = [] ∨ openBits.countOnes ≤ SPARSE then
    sparseSearch o labels rel c0 w0 mask0 openBits.ones l
  else chunkSearch o labels rel c0 w0 mask0 l

def tooMany : IndexError :=
  .build "double-array: the trie needs more than 8 388 608 slots; bases are 23 bits"

/-- Where a round starts: again at the window's start, once an exact search has crossed its cap. -/
def restarts (reach start : Nat) (wide : Bool) (e : Nat) : Prop :=
  wide = true ∧ e < reach ∧ 64 * SEARCH_CAP < e - start

instance (reach start : Nat) (wide : Bool) (e : Nat) : Decidable (restarts reach start wide e) :=
  inferInstanceAs (Decidable (_ ∧ _))

def roundStart (reach start : Nat) (wide : Bool) (e : Nat) : Nat :=
  if restarts reach start wide e then reach else e

theorem le_roundStart (reach start : Nat) (wide : Bool) (e : Nat) :
    e ≤ roundStart reach start wide e := by
  rw [roundStart]
  split
  · rename_i again
    exact Nat.le_of_lt again.2.1
  · exact Nat.le_refl _

/-- The search for the slot of a row's first child, from slot `e` on; `none` where it reads past
the bitmaps. -/
def search (o : Occupancy) (labels : List Nat) (rel : List (Nat × Nat))
    (c0 lastWord reach start : Nat) (wide : Bool) (e : Nat) (l : Learning) :
    Option (Except IndexError (Nat × Floors)) :=
  let from_ := roundStart reach start wide e
  match _opened : o.openFrom (from_ / 64) with
  | none => none
  | some w0 =>
      if w0 ≤ lastWord then
        let l := if restarts reach start wide e then { l with first := false, pair := false } else l
        let mask0 :=
          if w0 = from_ / 64 then BitVec.allOnes 64 <<< (from_ % 64) else BitVec.allOnes 64
        let found := searchRound o labels rel c0 w0 mask0 l
        match found.1 with
        | some s => some (.ok (s, found.2.floors))
        | none =>
            search o labels rel c0 lastWord reach start wide (64 * (w0 + CHUNK)) found.2
      else some (.error tooMany)
termination_by 64 * (lastWord + 1) - e
decreasing_by
  have above := openFrom_ge _opened
  have started := le_roundStart reach start wide e
  rw [CHUNK]
  omega

/-- What placement carries from row to row. -/
structure Placing where
  o : Occupancy
  /-- Every slot below it is in use. -/
  lo : Nat
  floors : Floors
  /-- The highest slot taken, the slots taken, and the single-child rows still to place. -/
  top : Nat
  used : Nat
  singles : Nat
  base : List Nat

namespace Placing

def baseOf (p : Placing) (v : Nat) : Nat :=
  p.base.getD v 0

/-- Row `v` placed with its first child, of label `c0`, in slot `s`. -/
def put (p : Placing) (maxLabel v c0 s : Nat) (labels : List Nat) : Except IndexError Placing :=
  let b := s - c0
  if MAX_SLOTS ≤ b + maxLabel then .error tooMany
  else
    .ok
      { p with
        o := labels.foldl (fun o c => o.take (b + c)) (p.o.takeBase b)
        top := max p.top (b + labels.getLastD 0)
        used := p.used + labels.length
        singles := p.singles - (if 1 < labels.length then 0 else 1)
        base := p.base.set v b }

/-- One turn of the loop over the rows; `none` where a search reads past the bitmaps. -/
def placeRow (t : Trie) (maxLabel : Nat) (p : Placing) (v : Nat) :
    Option (Except IndexError Placing) :=
  let labels := t.row v
  let c0 := labels.headD 0
  -- The other children's slots relative to the first child's: a word offset and a shift.
  let rel := labels.tail.map fun c => ((c - c0) / 64, (c - c0) % 64)
  match p.o.openFrom (p.lo / 64) with
  | none => none
  | some w =>
      let lo := 64 * w + (~~~(p.o.used.getD w 0#64)).ctz.toNat
      let floor := p.floors.get labels
      let e1 := max lo floor.1
      let e2 := max e1 floor.2.1
      let wide : Bool := 1 < labels.length
      let reach := if wide then p.top - max WINDOW (4 * maxLabel) else 0
      let free := p.top + 1 - p.used
      let from_ := if 2 * free < p.singles then reach else 0
      let e := max (max e2 floor.2.2) from_
      let learning : Learning :=
        { first := e = e1, pair := e = max e2 from_ ∧ wide, floors := p.floors }
      match search p.o labels rel c0 ((MAX_SLOTS - maxLabel) / 64) reach e wide e learning with
      | none => none
      | some (.error refused) => some (.error refused)
      | some (.ok (s, floors)) =>
          let floors := if 2 < labels.length then floors.setAll labels s else floors
          some ({ p with lo, floors }.put maxLabel v c0 s labels)

def placeRows (t : Trie) (maxLabel : Nat) : List Nat → Placing → Option (Except IndexError Placing)
  | [], p => some (.ok p)
  | v :: rows, p =>
      match p.placeRow t maxLabel v with
      | none => none
      | some (.error refused) => some (.error refused)
      | some (.ok p) => placeRows t maxLabel rows p

end Placing

/-- The rows but the root's, the ones with the most children first; their numbers are 32 bits. -/
def rowsOf (t : Trie) : List Nat :=
  ((List.range' 1 (t.label.length % 2 ^ 32 - 1)).filter fun v => t.kids v ≠ []).mergeSort
    fun v w => (t.kids w).length ≤ (t.kids v).length

/-- The root is placed at base 0. -/
def Placing.start (t : Trie) (maxLabel : Nat) : Placing :=
  { o := (t.row 0).foldl (fun o c => o.take c) (((Occupancy.new maxLabel).take 0).takeBase 0)
    lo := 0
    floors := Floors.new maxLabel
    top := 0
    used := 1 + (t.kids 0).length
    singles := (rowsOf t).countP fun v => (t.kids v).length = 1
    base := List.replicate t.label.length 0 }

/-- Every row's base. -/
def place (t : Trie) (maxLabel : Nat) : Option (Except IndexError (List Nat)) :=
  (Placing.placeRows t maxLabel (rowsOf t) (Placing.start t maxLabel)).map
    (Except.map Placing.base)

end Lexindex.DoubleArray
