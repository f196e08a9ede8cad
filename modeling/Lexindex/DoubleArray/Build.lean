import Mathlib
import Lexindex.Blob
import Lexindex.DoubleArray.Index
import Lexindex.DoubleArray.Place
import Lexindex.Lib.Checked
import Lexindex.Lib.Grouping
import Lexindex.Mphf.Remap

/-!
# Loading a double array

The framing of a blob, field by field, and the walk over its slots: a field past its
bound leaves the top bit of a difference set, and one test at the end finds it.
-/

set_option autoImplicit false

namespace Lexindex.DoubleArray

open Mphf (IndexError)

def MAGIC : List UInt8 := [0x42, 0x44, 0x41, 0x31]
def HEADER : Nat := 64
def RESERVED : Nat := 48
/-- Header bytes the trailing check covers. -/
def CHECKED : Nat := 60
def SUPP_ENTRY : Nat := 8

def u32At (b : List UInt8) (at_ : Nat) : Nat :=
  leNat ((b.drop at_).take 4)

def u64At (b : List UInt8) (at_ : Nat) : Nat :=
  leNat ((b.drop at_).take 8)

/-- What a slot adds to `stray`, on its two halves: the top bit is set where the slot says what
no build writes, or a field is past its bound. -/
def strayOf (lastBase lastId : BitVec 32) (v : Nat) : BitVec 32 :=
  let lo := BitVec.ofNat 32 v
  let hi := BitVec.ofNat 32 (v >>> 32)
  let word := (lo <<< 15).sshiftRight 31
  let leaf := (lo <<< 14).sshiftRight 31
  let empty := if lo &&& BitVec.ofNat 32 LABEL_MASK = 0#32 then BitVec.allOnes 32 else 0#32
  let base := (lo >>> BASE_SHIFT ||| hi <<< (32 - BASE_SHIFT)) &&& BitVec.ofNat 32 BASE_MASK
  let id := hi >>> (ID_SHIFT - 32)
  let idBound := word &&& lastId
  let baseBound := ~~~leaf &&& lastBase &&& ~~~empty
  leaf &&& ~~~word ||| word &&& empty ||| (idBound - id) ||| (baseBound - base)

/-- Whether some slot names a row running past the array or an id past `n`, or is one no build
writes. -/
def slotsMalformed (slots : List Nat) (n maxLabel nSlots : Nat) : Prop :=
  let lastBase := BitVec.ofNat 32 (nSlots - (maxLabel + 1))
  let lastId := BitVec.ofNat 32 n - 1#32
  slots.foldl (fun stray v => stray ||| strayOf lastBase lastId v) 0#32 >>> 31 ≠ 0#32

instance (slots : List Nat) (n maxLabel nSlots : Nat) :
    Decidable (slotsMalformed slots n maxLabel nSlots) := by
  unfold slotsMalformed
  infer_instance

/-- The blob's header. -/
def headerBytes (n : Nat) (empty : Option Nat) (nSlots table supp maxLabel payload : Nat) :
    List UInt8 :=
  let checked := MAGIC ++ leBytes 8 n ++ leBytes 8 (empty.getD (2 ^ 64 - 1)) ++
    leBytes 8 nSlots ++ leBytes 4 table ++ leBytes 4 supp ++ leBytes 4 maxLabel ++
    leBytes 8 payload ++ List.replicate (CHECKED - RESERVED) 0
  checked ++ leBytes 4 (Blob.hashBytes checked % 2 ^ 32)

/-- The id of the empty key, all ones where there is none. -/
def readEmpty (empty n : Nat) : Except IndexError (Option Nat) :=
  if empty = 2 ^ 64 - 1 then .ok none
  else if empty < n then .ok (some empty)
  else .error (.format "double-array: the empty key's id is past the end")

/-- The loop over the characters past the table, each a code point and a label. -/
def readSupp (maxLabel : Nat) :
    List Nat → List (Nat × Nat) → Except IndexError (List (Nat × Nat))
  | [], supp => .ok supp
  | e :: rest, supp => do
      let cp := e % 2 ^ 32
      let label := e >>> 32
      let ascending := supp.getLast?.all fun prev => prev.1 < cp
      refuse (¬ (BMP ≤ cp ∧ cp < 0x110000) ∨ ascending = false)
        (.format "double-array: supplementary characters out of range or order")
      refuse (label = 0 ∨ maxLabel < label)
        (.format "double-array: a supplementary label out of range")
      readSupp maxLabel rest (supp ++ [(cp, label % 2 ^ 16)])

/-- The framing of `bytes`, validated, and every slot checked. -/
def fromShared (bytes : List UInt8) (verifyPayload : Bool) :
    Except IndexError DoubleArrayIndex := do
  refuse (bytes.length < HEADER ∨ bytes.take 4 ≠ MAGIC)
    (.format "bad magic or truncated header")
  refuse (u32At bytes CHECKED ≠ Blob.hashBytes (bytes.take CHECKED) % 2 ^ 32)
    (.format "header checksum mismatch")
  refuse (((bytes.take CHECKED).drop RESERVED).any (· ≠ 0))
    (.format "double-array: reserved header bytes set")
  let n := u64At bytes 4
  let nSlots := u64At bytes 20
  let tableLen := u32At bytes 28
  let suppLen := u32At bytes 32
  let maxLabel := u32At bytes 36
  refuse (MAX_KEYS < n) (.format "double-array: more keys than ids can name")
  let empty ← readEmpty (u64At bytes 12) n
  refuse (MAX_SLOTS < nSlots) (.format "double-array: more slots than bases can name")
  refuse (BMP < tableLen ∨ 0x110000 - BMP < suppLen)
    (.format "double-array: code table length out of range")
  refuse (MAX_ALPHABET < maxLabel ∨ ¬ (maxLabel = 0 ↔ nSlots = 0) ∨ max nSlots 1 ≤ maxLabel)
    (.format "double-array: label range out of range")
  let tableAt := HEADER + 8 * nSlots
  let suppAt := tableAt + 2 * tableLen
  refuse (bytes.length ≠ suppAt + SUPP_ENTRY * suppLen)
    (.format "double-array: section lengths do not meet the blob's")
  refuse (verifyPayload = true ∧ u64At bytes 40 ≠ Blob.hashBlock (bytes.drop HEADER))
    (.format "payload checksum mismatch")
  let table := leWords 2 tableLen (bytes.drop tableAt)
  refuse (maxLabel < table.foldl max 0)
    (.format "double-array: a code-table label past the largest")
  let supp ← readSupp maxLabel (leWords 8 suppLen (bytes.drop suppAt)) []
  let slots := leWords 8 nSlots (bytes.drop HEADER)
  refuse (slotsMalformed slots n maxLabel nSlots)
    (.format ("double-array: a slot names a row past the array or an id past the end, " ++
      "or holds bits no build sets"))
  pure { slots, table, supp, n, empty }

end Lexindex.DoubleArray

/-!
## Building a double array

The keys sorted, their characters numbered by frequency, the trie placed, and the blob
written and loaded.  The outer `none` is where the source panics, or does not return.
-/

namespace Lexindex.DoubleArray

open Mphf (IndexError)

/-- Byte order, strictly ascending. -/
def isSorted (keys : List String) : Prop :=
  keys.IsChain fun a b => bytesOf a < bytesOf b

instance (keys : List String) : Decidable (isSorted keys) :=
  inferInstanceAs (Decidable (keys.IsChain _))

/-- The keys sorted and distinct; those that arrive strictly ascending are already. -/
def ranked (items : List String) : List String :=
  if isSorted items then items
  else (items.mergeSort fun a b => bytesOf a ≤ bytesOf b).destutter (· ≠ ·)

/-- Every key's characters, decoded once, and where each key's start. -/
def decodeKeys : List String → List Nat → List Nat → List Nat × List Nat
  | [], cps, starts => (cps, starts ++ [cps.length])
  | k :: keys, cps, starts =>
      decodeKeys keys (cps ++ k.toList.map Char.toNat) (starts ++ [cps.length])

/-- The characters with their frequencies, the most frequent first, ties by code point. -/
def charsOf (cps : List Nat) : List (Nat × Nat) :=
  let length := (cps.max?.map (· + 1)).getD 0
  let freq := tally (fun cp => cp) 0 length cps
  (((List.range length).map fun cp => (freq.getD cp 0, cp)).filter fun e => 0 < e.1).mergeSort
    fun a b => b.1 < a.1 ∨ a.1 = b.1 ∧ a.2 ≤ b.2

def tableLen (chars : List (Nat × Nat)) : Nat :=
  (((chars.map Prod.snd).filter (· < BMP)).max?.map (· + 1)).getD 0

/-- A label for every code point below the table's length. -/
def codeTable (chars : List (Nat × Nat)) : List Nat :=
  chars.zipIdx.foldl
    (fun table e => if e.1.2 < BMP then table.set e.1.2 (e.2 + 1) else table)
    (List.replicate (tableLen chars) 0)

/-- The characters past the table with their labels, ascending. -/
def suppOf (chars : List (Nat × Nat)) : List (Nat × Nat) :=
  (chars.zipIdx.filterMap fun e => if e.1.2 < BMP then none else some (e.1.2, e.2 + 1)).mergeSort
    fun a b => a.1 < b.1 ∨ a.1 = b.1 ∧ a.2 ≤ b.2

/-- The label of a character of the lexicon. -/
def labelOf (table : List Nat) (supp : List (Nat × Nat)) (cp : Nat) : Nat :=
  if cp < BMP then table.getD cp 0
  else ((supp.find? fun e => e.1 = cp).map Prod.snd).getD 0

/-- The slot of node `k`. -/
def slotOf (t : Trie) (base : List Nat) (k : Nat) : Nat :=
  let s :=
    if t.wordOf k ≠ NO_WORD then t.labelOf k ||| (WORD ||| t.wordOf k <<< ID_SHIFT)
    else t.labelOf k
  if t.kids k = [] then s ||| LEAF else s ||| base.getD k 0 <<< BASE_SHIFT

/-- A row's slots written. -/
def writeRow (t : Trie) (base : List Nat) (slots : List Nat) (v : Nat) : List Nat :=
  (t.kids v).foldl (fun slots k => slots.set (base.getD v 0 + t.labelOf k) (slotOf t base k)) slots

def slotsOf (t : Trie) (base : List Nat) (nSlots : Nat) : List Nat :=
  (List.range t.label.length).foldl (writeRow t base) (List.replicate nSlots 0)

/-- Everything after the header. -/
def bodyBytes (slots table : List Nat) (supp : List (Nat × Nat)) : List UInt8 :=
  slots.flatMap (leBytes 8) ++ table.flatMap (leBytes 2) ++
    supp.flatMap fun e => leBytes 4 e.1 ++ leBytes 4 e.2

/-- The blob of a placed trie, written and loaded. -/
def layOut (n : Nat) (empty : Option Nat) (chars : List (Nat × Nat)) (t : Trie) (base : List Nat) :
    Except IndexError DoubleArrayIndex :=
  let maxLabel := chars.length
  let nSlots := if maxLabel = 0 then 0 else base.foldl max 0 + maxLabel + 1
  if MAX_SLOTS < nSlots then .error tooMany
  else
    let body := bodyBytes (slotsOf t base nSlots) (codeTable chars) (suppOf chars)
    fromShared
      (headerBytes n empty nSlots (tableLen chars) (suppOf chars).length maxLabel
        (Blob.hashBlock body) ++ body)
      false

/-- `keys` sorted and distinct; a key's id is its position. -/
def buildRanked (keys : List String) : Option (Except IndexError DoubleArrayIndex) :=
  if MAX_KEYS < keys.length then
    some (.error (.build "double-array: more than 8 388 608 keys; ids are 23 bits"))
  else
    let empty := if keys.head? = some "" then some 0 else none
    let decoded := decodeKeys keys [] []
    let chars := charsOf decoded.1
    if MAX_ALPHABET < chars.length then
      some (.error (.build
        "double-array: more than 65 535 distinct characters; labels are 16 bits"))
    else
      let labels := decoded.1.map (labelOf (codeTable chars) (suppOf chars))
      match Trie.build labels decoded.2 (if empty.isSome then 1 else 0) with
      | none => none
      | some trie =>
          match place trie chars.length with
          | none => none
          | some (.error refused) => some (.error refused)
          | some (.ok base) => some (layOut keys.length empty chars trie base)

/-- Build an index from a collection of strings. -/
def build (items : List String) : Option (Except IndexError DoubleArrayIndex) :=
  buildRanked (ranked items)

end Lexindex.DoubleArray
