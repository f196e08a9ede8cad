import Mathlib
import Lexindex.Lib.Word
import Lexindex.Lib.Faults
import Lexindex.Lib.Utf8
import Lexindex.Blob
import Lexindex.DictIndex.Lcp
import Lexindex.Phrase.Trie

/-!
# Labels and their counts

The labels a dictionary may name are the edges of its keys' patricia trie.  They are found off
the key before and the depths on its path alone, in memory (`selectEdges`) and on a stream
(`EdgeCount`), which walks the keys twice: once to sift out the labels that occur once, and once
to count the others.  What a label costs and saves is the caller's (`pays`).
-/

set_option autoImplicit false

namespace Lexindex.Labels

open Faulting (bytesBetween)
open DictIndex (lcp)
open Phrase (LABEL_MAX IDS_MAX)

abbrev Label := List UInt8

/-! ## The walk -/

/-- `last[start..deep]`, or none where the slice would panic. -/
def labelAt (last : List UInt8) (start deep : Nat) : Option Label :=
  if start ≤ deep ∧ deep ≤ last.length then some (bytesBetween last start deep) else none

/-- The upper end of the edge that ends deepest: the next depth of the path, or the depth the
next key shares. -/
def upperEnd (opened : List Nat) (shared : Nat) : Nat :=
  match opened with
  | up :: _ => max up shared
  | [] => shared

/-- The edges below where the next key leaves the path, closed; the path's depths, deepest first. -/
def closeEdges (last : List UInt8) (shared : Nat) : List Nat → Option (List Nat × List Label)
  | [] => some ([shared], [])
  | deep :: opened =>
      if deep ≤ shared then
        some (if deep = shared then deep :: opened else shared :: deep :: opened, [])
      else do
        let label ← labelAt last (upperEnd opened shared) deep
        let (left, labels) ← closeEdges last shared opened
        some (left, label :: labels)

/-- A key's end opened on the path; a key that is empty ends at the root. -/
def openKey (opened : List Nat) (len : Nat) : List Nat :=
  match opened with
  | at_ :: _ => if at_ < len then len :: opened else opened
  | [] => opened

/-- Whether a label of `len` bytes could pay at any count. -/
def mayPay (len : Nat) : Bool :=
  decide (5 ≤ len ∧ len ≤ LABEL_MAX)

/-! ## Counts -/

/-- The map of counts, an entry a label. -/
abbrev Counts := List (Label × UInt32)

/-- One more of a label; a count wraps as the release build's does. -/
def bump : Counts → Label → Counts
  | [], label => [(label, 1)]
  | (other, count) :: counts, label =>
      if other = label then (other, count + 1) :: counts else (other, count) :: bump counts label

/-- Most used first, ties in byte order. -/
def admittedBefore (a b : Label × UInt32) : Bool :=
  decide (b.2 < a.2 ∨ a.2 = b.2 ∧ a.1 ≤ b.1)

local instance label_lawful : LawfulBEq Label :=
  inferInstance

/-- The labels that pay at `counts`, past those `phrases` holds already, cut at `room`. -/
def admitted (pays : Nat → Nat → Bool) (counts : Counts) (phrases : List Label) (room : Nat) :
    Counts :=
  let kept := counts.filter fun e => pays e.1.length e.2.toNat && !decide (e.1 ∈ phrases)
  (kept.mergeSort admittedBefore).take (min room IDS_MAX)

/-! ## Labels seen twice -/

def SEEN_BITS_A_KEY : Nat := 8

/-- Two bit tables of one size. -/
structure Seen where
  once : List Word
  twice : List Word
  sized : twice.length = once.length
  some_ : 0 < once.length

namespace Seen

/-- The bits of a table; rounding up past 64 bits wraps to none, as the release build's does. -/
def bitsFor (keys : Nat) : Nat :=
  max ((min (keys * SEEN_BITS_A_KEY) (2 ^ 64 - 1)).nextPowerOfTwo % 2 ^ 64) (2 ^ 16)

def forKeys (keys : Nat) : Seen where
  once := List.replicate (bitsFor keys / 64) 0#64
  twice := List.replicate (bitsFor keys / 64) 0#64
  sized := rfl
  some_ := by
    rw [List.length_replicate]
    exact Nat.div_pos ((by decide : 64 ≤ 2 ^ 16).trans (Nat.le_max_right ..)) (by decide)

/-- A bit as a word's index and a mask in it. -/
def place (words h : Nat) : Nat × Word :=
  (h >>> 6 &&& (words - 1), 1#64 <<< (h &&& 63))

def places (s : Seen) (label : Label) : (Nat × Word) × (Nat × Word) :=
  let hash := Blob.hashBytes label
  (place s.once.length hash, place s.once.length (hash >>> 32))

/-- Whether a table has a bit. -/
def has (table : List Word) (at_ : Nat × Word) : Bool :=
  table.getD at_.1 0#64 &&& at_.2 != 0#64

def mark (table : List Word) (at_ : Nat × Word) : List Word :=
  table.modify at_.1 (· ||| at_.2)

@[simp] theorem length_mark (table : List Word) (at_ : Nat × Word) :
    (mark table at_).length = table.length :=
  List.length_modify ..

def add (s : Seen) (label : Label) : Seen :=
  let (a, b) := s.places label
  { once := mark (mark s.once a) b
    twice := if has s.once a && has s.once b then mark (mark s.twice a) b else s.twice
    sized := by
      split
      · simp only [length_mark, s.sized]
      · simp only [length_mark, s.sized]
    some_ := by simpa only [length_mark] using s.some_ }

def reports (s : Seen) (label : Label) : Bool :=
  let (a, b) := s.places label
  has s.twice a && has s.twice b

end Seen

/-! ## The streamed count -/

structure EdgeCount where
  last : List UInt8
  opened : List Nat
  seen : Seen
  counts : Counts

namespace EdgeCount

def forKeys (keys : Nat) : EdgeCount where
  last := []
  opened := [0]
  seen := .forKeys keys
  counts := []

/-- What a key does to the last key and the path, and the labels it closes. -/
def walk (last : List UInt8) (opened : List Nat) (key : List UInt8) :
    Option ((List UInt8 × List Nat) × List Label) := do
  let (left, labels) ← closeEdges last (lcp last key) opened
  some ((key, openKey left key.length), labels)

def siftOne (seen : Seen) (label : Label) : Seen :=
  if mayPay label.length then seen.add label else seen

def sift (e : EdgeCount) (key : List UInt8) : Option EdgeCount := do
  let ((last, opened), labels) ← walk e.last e.opened key
  some { e with last, opened, seen := labels.foldl siftOne e.seen }

/-- The first pass is over: the path of its last key has edges still open. -/
def sifted (e : EdgeCount) : Option EdgeCount := do
  let (opened, labels) ← closeEdges e.last 0 e.opened
  some { e with last := [], opened, seen := labels.foldl siftOne e.seen }

def tally (seen : Seen) (counts : Counts) (label : Label) : Counts :=
  if !mayPay label.length || !seen.reports label then counts else bump counts label

def count (e : EdgeCount) (key : List UInt8) : Option EdgeCount := do
  let ((last, opened), labels) ← walk e.last e.opened key
  some { e with last, opened, counts := labels.foldl (tally e.seen) e.counts }

/-- The end of the second pass, with which `select` starts. -/
def counted (e : EdgeCount) : Option EdgeCount := do
  let (opened, labels) ← closeEdges e.last 0 e.opened
  some { e with opened, counts := labels.foldl (tally e.seen) e.counts }

/-- Both passes over the keys. -/
def ofKeys (expected : Nat) (keys : List (List UInt8)) : Option EdgeCount := do
  let e ← keys.foldlM sift (forKeys expected)
  let e ← e.sifted
  let e ← keys.foldlM count e
  e.counted

/-- The labels `select` goes on with, its map's entries in whatever order; none where none pays. -/
def kept (pays : Nat → Nat → Bool) (entries : Counts → Counts) (e : EdgeCount)
    (phrases : List Label) (room : Nat) : Option Counts :=
  let kept := admitted pays (entries e.counts) phrases room
  if room = 0 ∨ kept = [] then none else some kept

end EdgeCount

/-- Keys walked one after another, as both passes walk them. -/
def walkAll : List UInt8 → List Nat → List (List UInt8) → Option ((List UInt8 × List Nat) × List Label)
  | last, opened, [] => some ((last, opened), [])
  | last, opened, key :: keys => do
      let ((last, opened), labels) ← EdgeCount.walk last opened key
      let (stop, more) ← walkAll last opened keys
      some (stop, labels ++ more)

/-- Every label the walk emits. -/
def edgesByWalk (keys : List (List UInt8)) : Option (List Label) := do
  let ((last, opened), labels) ← walkAll [] [0] keys
  let (_, rest) ← closeEdges last 0 opened
  some (labels ++ rest)

/-! ## The count in memory -/

/-- The labels of the edges from a key on, the path open at the key before. -/
def selectEdgesFrom (last : List UInt8) (opened : List Nat) : List (List UInt8) → Option (List Label)
  | [] => do
      let (_, labels) ← closeEdges last 0 opened
      some labels
  | key :: keys => do
      let (left, labels) ← closeEdges last (lcp last key) opened
      let more ← selectEdgesFrom key (openKey left key.length) keys
      some (labels ++ more)

/-- The labels `select` walks over; with no key there is none to start with. -/
def selectEdges : List (List UInt8) → Option (List Label)
  | [] => none
  | first :: keys => selectEdgesFrom first (openKey [0] first.length) keys

def countOne (counts : Counts) (label : Label) : Counts :=
  if mayPay label.length then bump counts label else counts

def selectCounts (keys : List (List UInt8)) : Option Counts := do
  let labels ← selectEdges keys
  some (labels.foldl countOne [])

/-- The labels `select` goes on with; none where none pays. -/
def selectKept (pays : Nat → Nat → Bool) (entries : Counts → Counts) (keys : List (List UInt8))
    (phrases : List Label) (room : Nat) : Option (Option Counts) :=
  if keys.length < 2 ∨ room = 0 then some none
  else do
    let counts ← selectCounts keys
    let kept := admitted pays (entries counts) phrases room
    some (if kept = [] then none else some kept)

end Lexindex.Labels
