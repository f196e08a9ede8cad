import Mathlib
import Lexindex.Lib.Checked
import Lexindex.Lib.Faults

/-!
# Nodes as bytes

A node of a transducer is addressed by its last byte and read downwards from there: a state byte,
the sizes its numbers are packed in, its inputs, the addresses they lead to and the outputs.  One
reader measures a node before it is decoded, another takes one step from it.
-/

set_option autoImplicit false

namespace Lexindex.FstWalk

open Faulting

/-- The address of the empty final node, a state and no bytes. -/
def EMPTY : Nat := 0

/-- The inputs a one-transition node stores in its state. -/
def COMMON_INPUTS : List UInt8 :=
  "te/oasripcnw.hlm-du012g=:bf3y5&_4v9678k%?xCDASFIBEjPTzRNM+LOqHG".toList.map
    fun c => c.toNat.toUInt8

/-- `bytes.get(lo..hi)`. -/
def getRange (bytes : List UInt8) (lo hi : Nat) : Option (List UInt8) :=
  if lo ≤ hi ∧ hi ≤ bytes.length then some (bytesBetween bytes lo hi) else none

def checkedSub (a b : Nat) : Option Nat :=
  if b ≤ a then some (a - b) else none

/-! ## The check -/

/-- Transitions above which a node carries an index of them, from version 2 on. -/
def INDEXED : Nat := 32

def version (bytes : List UInt8) : Nat :=
  ((getRange bytes 0 8).map leNat).getD 0

def rootAddr (bytes : List UInt8) : Option Nat := do
  let head ← (getRange bytes 0 8).filter fun _ => 36 ≤ bytes.length
  let stop ← (if leNat head ≤ 2 then some bytes.length else checkedSub bytes.length 4)
  let start ← checkedSub stop 8
  let part ← getRange bytes start (start + 8)
  if leNat part < bytes.length then some (leNat part) else none

/-- `unpack`, of at most eight bytes. -/
def unpack (bytes : List UInt8) (start n : Nat) : Option Nat := do
  let stop ← checkedAdd start n
  let part ← getRange bytes start stop
  pure (leNat part)

/-- The packed deltas, written in reverse, all lead to a byte of the blob. -/
def deltasFit (bytes : List UInt8) (first count size stop : Nat) : Bool :=
  (List.range count).all fun i =>
    match checkedSub first (i * size) with
    | none => false
    | some start =>
        match unpack bytes start size with
        | none => false
        | some delta => delta == EMPTY || decide (delta ≤ stop)

/-- A state's low bits: none of them set says that the input or the count is a byte of its own. -/
def lowBits (state : UInt8) : Nat :=
  (state &&& 0b00111111).toNat

def isFinal (state : UInt8) : Bool :=
  state &&& 0b01000000 ≠ 0

/-- The two sizes a byte packs. -/
def sizesOf (byte : UInt8) : Nat × Nat :=
  ((byte >>> 4).toNat, (byte &&& 15).toNat)

/-- A count in a byte of its own: one is always in the state, so it stands for 256. -/
def countOf (byte : UInt8) : Nat :=
  if byte = 1 then 256 else byte.toNat

/-- One transition with a packed address and output. -/
def oneFits (bytes : List UInt8) (addr input : Nat) : Bool :=
  match (checkedSub addr (input + 1)).bind (bytes[·]?) with
  | none => false
  | some sizes =>
      let (tsize, osize) := sizesOf sizes
      if ¬ (1 ≤ tsize ∧ tsize ≤ 8) ∨ 8 < osize then false
      else
        match checkedSub addr (input + 1 + tsize + osize) with
        | none => false
        | some stop => deltasFit bytes (addr - input - 1 - tsize) 1 tsize stop

/-- Any number of transitions. -/
def anyFits (bytes : List UInt8) (version addr : Nat) (state : UInt8) : Bool :=
  let countLen := if lowBits state = 0 then 1 else 0
  match (checkedSub addr (countLen + 1)).bind (bytes[·]?) with
  | none => false
  | some sizes =>
      let (tsize, osize) := sizesOf sizes
      let ntrans :=
        if countLen = 0 then some (lowBits state)
        else ((checkedSub addr 1).bind (bytes[·]?)).map countOf
      match ntrans with
      | none => false
      | some ntrans =>
          if (0 < ntrans ∧ ¬ (1 ≤ tsize ∧ tsize ≤ 8)) ∨ 8 < osize then false
          else
            let index := if 2 ≤ version ∧ INDEXED < ntrans then 256 else 0
            match checkedSub addr (countLen + 1 + ntrans + ntrans * tsize + index +
                ntrans * osize + if isFinal state then osize else 0) with
            | none => false
            | some stop =>
                ntrans == 0 ||
                  deltasFit bytes (addr - countLen - 1 - index - ntrans - tsize) ntrans tsize stop

/-- `node_fits`. -/
def nodeFits (bytes : List UInt8) (version addr : Nat) : Bool :=
  if addr = EMPTY then true
  else
    match bytes[addr]? with
    | none => false
    | some state =>
        let input := if lowBits state = 0 then 1 else 0
        if state >>> 6 = 0b11 then decide (input < addr)
        else if state >>> 6 = 0b10 then oneFits bytes addr input
        else anyFits bytes version addr state

/-! ## The step -/

structure Layout where
  root : Nat
  /-- Above this many transitions a node carries an index. -/
  indexedAbove : Nat
deriving DecidableEq, Repr

/-- What a format version says of the indexes. -/
def indexedAboveOf (version : Nat) : Nat :=
  if 2 ≤ version then 32 else 2 ^ 64 - 1

def Layout.of (bytes : List UInt8) : Option Layout := do
  let root ← rootAddr bytes
  pure { root, indexedAbove := indexedAboveOf (version bytes) }

/-- `LOW`: the mask of a word's low bytes. -/
def low (n : Nat) : Nat :=
  if n < 8 then 1 <<< (8 * n) - 1 else 2 ^ 64 - 1

/-- An integer of `n` bytes; one load where the blob has eight to give. -/
def uint (bytes : List UInt8) (start n : Nat) : Faulting Unit Nat :=
  if n = 0 then .ok 0
  else
    match getRange bytes start ((start + 8) % 2 ^ 64) with
    | some part => .ok (leNat part &&& low (n &&& 15))
    | none => do
        let stop ← add start n
        let part ← slice bytes start stop
        pure (part.reverse.foldl (fun v byte => (v <<< 8) % 2 ^ 64 ||| byte.toNat) 0)

/-- Where a packed delta leads from a node that ends at `stop`. -/
def target (bytes : List UInt8) (start size stop : Nat) : Faulting Unit Nat := do
  let delta ← uint bytes start size
  if delta = EMPTY then pure EMPTY else sub stop delta

/-- The input of a one-transition node, and how many bytes it takes. -/
def oneInput (bytes : List UInt8) (addr : Nat) (state : UInt8) : Faulting Unit (UInt8 × Nat) :=
  if lowBits state = 0 then do
    let start ← sub addr 1
    let inp ← index bytes start
    pure (inp, 1)
  else do
    let inp ← index COMMON_INPUTS (lowBits state - 1)
    pure (inp, 0)

/-- The lowest of the window's first `n` bytes that is `b`, its compares taken at once. -/
def firstEqual (window : List UInt8) (n : Nat) (b : UInt8) : Option Nat :=
  (window.take n).findIdx? (· == b)

/-- Where `b` first is among the `n` bytes at `start`. -/
def position (bytes : List UInt8) (start n : Nat) (b : UInt8) : Faulting Unit (Option Nat) :=
  let wide := if n ≤ 16 then 16 else 32
  match (getRange bytes start ((start + wide) % 2 ^ 64)).filter fun _ => n ≤ 32 with
  | some window => .ok (firstEqual window n b)
  | none => do
      let stop ← add start n
      let part ← slice bytes start stop
      pure (part.findIdx? (· == b))

/-- What a step answers: the final output, and where the input leads and the output on the way. -/
abbrev Answer :=
  Option Nat × Option (Nat × Nat)

/-- The step of a node with one transition, to the node written just before. -/
def stepNext (bytes : List UInt8) (addr : Nat) (state : UInt8) (input : Option UInt8) :
    Faulting Unit Answer := do
  let (inp, len) ← oneInput bytes addr state
  if input = some inp then do
    let start ← sub addr len
    let dest ← sub start 1
    pure (none, some (dest, 0))
  else pure (none, none)

/-- The step of a node with one transition of its own. -/
def stepOne (bytes : List UInt8) (addr : Nat) (state : UInt8) (input : Option UInt8) :
    Faulting Unit Answer := do
  let (inp, len) ← oneInput bytes addr state
  if input ≠ some inp then pure (none, none)
  else do
    let start ← sub addr len
    let sizes ← sub start 1
    let packed ← index bytes sizes
    let (tsize, osize) := sizesOf packed
    let first ← sub sizes tsize
    let stop ← sub first osize
    let dest ← target bytes first tsize stop
    let out ← uint bytes stop osize
    pure (none, some (dest, out))

/-- The count of a node with any number of transitions, and how many bytes it takes. -/
def countFor (bytes : List UInt8) (addr : Nat) (state : UInt8) : Faulting Unit (Nat × Nat) :=
  if lowBits state = 0 then do
    let start ← sub addr 1
    let count ← index bytes start
    pure (countOf count, 1)
  else pure (lowBits state, 0)

/-- Which transition takes `b`, by the index where there is one. -/
def findInput (bytes : List UInt8) (sizes indexLen inputs ntrans : Nat) (b : UInt8) :
    Faulting Unit (Option Nat) :=
  if indexLen ≠ 0 then do
    let table ← sub sizes 256
    let entry ← add table b.toNat
    let i ← index bytes entry
    pure (if i.toNat < ntrans then some i.toNat else none)
  else do
    let found ← position bytes inputs ntrans b
    match found with
    | none => pure none
    | some p => do
        let past ← sub ntrans p
        let i ← sub past 1
        pure (some i)

/-- The step of a node with any number of transitions. -/
def stepAny (layout : Layout) (final : Bool) (bytes : List UInt8) (addr : Nat) (state : UInt8)
    (input : Option UInt8) : Faulting Unit Answer := do
  let (ntrans, countLen) ← countFor bytes addr state
  let start ← sub addr countLen
  let sizes ← sub start 1
  let packed ← index bytes sizes
  let (tsize, osize) := sizesOf packed
  let indexLen := if layout.indexedAbove < ntrans then 256 else 0
  let past ← sub sizes indexLen
  let inputs ← sub past ntrans
  let outputs ← sub inputs (ntrans * tsize)
  let finalOutput ← (if final && isFinal state then do
      let at_ ← sub outputs ((ntrans + 1) * osize)
      let out ← uint bytes at_ osize
      pure (some out)
    else pure none)
  match input with
  | none => pure (finalOutput, none)
  | some b => do
      let found ← findInput bytes sizes indexLen inputs ntrans b
      match found with
      | none => pure (finalOutput, none)
      | some i => do
          let upTo ← sub outputs (ntrans * osize)
          let stop ← sub upTo (if isFinal state then osize else 0)
          let targetAt ← sub inputs ((i + 1) * tsize)
          let dest ← target bytes targetAt tsize stop
          let outAt ← sub outputs ((i + 1) * osize)
          let out ← uint bytes outAt osize
          pure (finalOutput, some (dest, out))

/-- `step::<FINAL>`. -/
def Layout.step (layout : Layout) (final : Bool) (bytes : List UInt8) (addr : Nat)
    (input : Option UInt8) : Faulting Unit Answer :=
  if addr = EMPTY then .ok (some 0, none)
  else do
    let state ← index bytes addr
    if state >>> 6 = 0b11 then stepNext bytes addr state input
    else if state >>> 6 = 0b10 then stepOne bytes addr state input
    else stepAny layout final bytes addr state input

end Lexindex.FstWalk
