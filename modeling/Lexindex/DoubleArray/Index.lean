import Mathlib
import Lexindex.Lib.Bytes
import Lexindex.Lib.Utf8

/-!
# A character-wise double-array trie

The slots, the labels of the characters, and the walks over them.  A slot read past
the array or a byte past the text is undefined behaviour in the source; each walk is
`none` there, outside any `none` it answers.
-/

set_option autoImplicit false

namespace Lexindex

/-- An immutable character-wise double-array trie over a set of strings. -/
structure DoubleArrayIndex where
  /-- Eight bytes a slot: label (16 bits), a key ends here, nothing continues, base (23), id (23). -/
  slots : List Nat
  /-- A label for every code point below the table's length. -/
  table : List Nat
  /-- `(code point, label)` past the Basic Multilingual Plane, ascending. -/
  supp : List (Nat × Nat)
  n : Nat
  /-- The empty key's id. -/
  empty : Option Nat
  deriving DecidableEq

namespace DoubleArray

def LABEL_MASK : Nat := 0xFFFF
def WORD : Nat := 1 <<< 16
def LEAF : Nat := 1 <<< 17
def BASE_SHIFT : Nat := 18
def BASE_BITS : Nat := 23
def BASE_MASK : Nat := 1 <<< BASE_BITS - 1
def ID_SHIFT : Nat := BASE_SHIFT + BASE_BITS

/-- Ids and bases are 23 bits. -/
def MAX_KEYS : Nat := 1 <<< (64 - ID_SHIFT)
def MAX_SLOTS : Nat := 1 <<< BASE_BITS
def MAX_ALPHABET : Nat := LABEL_MASK

/-- The code table covers the Basic Multilingual Plane. -/
def BMP : Nat := 0x10000

/-- The code point starting at `b[i]` and its width. -/
def decode (b : List UInt8) (i : Nat) : Option (Nat × Nat) :=
  (b[i]?).bind fun byte =>
    let b0 := byte.toNat
    if b0 < 0x80 then some (b0, 1)
    else if b0 < 0xE0 then
      (b[i + 1]?).map fun b1 => ((b0 &&& 0x1F) <<< 6 ||| b1.toNat &&& 0x3F, 2)
    else if b0 < 0xF0 then
      (b[i + 1]?).bind fun b1 => (b[i + 2]?).map fun b2 =>
        ((b0 &&& 0x0F) <<< 12 ||| (b1.toNat &&& 0x3F) <<< 6 ||| b2.toNat &&& 0x3F, 3)
    else
      (b[i + 1]?).bind fun b1 => (b[i + 2]?).bind fun b2 => (b[i + 3]?).map fun b3 =>
        ((b0 &&& 0x07) <<< 18 ||| (b1.toNat &&& 0x3F) <<< 12 ||| (b2.toNat &&& 0x3F) <<< 6 |||
          b3.toNat &&& 0x3F, 4)

/-- A character decoded is whole, so that what follows starts inside the text or at its end. -/
theorem decode_inside {b : List UInt8} {i cp w : Nat} (decoded : decode b i = some (cp, w)) :
    0 < w ∧ i + w ≤ b.length := by
  obtain ⟨byte, head, decoded⟩ := Option.bind_eq_some_iff.mp decoded
  have inside := (List.getElem?_eq_some_iff.mp head).1
  simp only at decoded
  split at decoded
  · rw [Option.some.injEq, Prod.mk.injEq] at decoded
    omega
  · split at decoded
    · obtain ⟨b1, read, exact⟩ := Option.map_eq_some_iff.mp decoded
      have last := (List.getElem?_eq_some_iff.mp read).1
      rw [Prod.mk.injEq] at exact
      omega
    · split at decoded
      · obtain ⟨b1, -, decoded⟩ := Option.bind_eq_some_iff.mp decoded
        obtain ⟨b2, read, exact⟩ := Option.map_eq_some_iff.mp decoded
        have last := (List.getElem?_eq_some_iff.mp read).1
        rw [Prod.mk.injEq] at exact
        omega
      · obtain ⟨b1, -, decoded⟩ := Option.bind_eq_some_iff.mp decoded
        obtain ⟨b2, -, decoded⟩ := Option.bind_eq_some_iff.mp decoded
        obtain ⟨b3, read, exact⟩ := Option.map_eq_some_iff.mp decoded
        have last := (List.getElem?_eq_some_iff.mp read).1
        rw [Prod.mk.injEq] at exact
        omega

end DoubleArray

namespace DoubleArrayIndex

open DoubleArray

/-- A label past the table, by binary search of the ascending entries. -/
def labelPastTable (idx : DoubleArrayIndex) (cp : Nat) : Nat :=
  match idx.supp.find? fun e => e.1 = cp with
  | none => 0
  | some e => e.2

/-- The label of `cp`, or 0 if no key holds it. -/
def label (idx : DoubleArrayIndex) (cp : Nat) : Nat :=
  match idx.table[cp]? with
  | some x => x
  | none => idx.labelPastTable cp

/-- The slot of `x` in the row at `base`, if it is that row's: the read, then whether the label
is the slot's. -/
def step (idx : DoubleArrayIndex) (base x : Nat) : Option (Option Nat) :=
  (idx.slots[base + x]?).map fun v => if v &&& LABEL_MASK = x then some v else none

def endsKey (v : Nat) : Bool :=
  v &&& WORD ≠ 0

def continues (v : Nat) : Bool :=
  v &&& LEAF = 0

def baseOf (v : Nat) : Nat :=
  v >>> BASE_SHIFT &&& BASE_MASK

def idOf (v : Nat) : Nat :=
  v >>> ID_SHIFT

/-- The loop of `id`, at byte `i` in the row at `base`. -/
def idFrom (idx : DoubleArrayIndex) (b : List UInt8) (i base : Nat) : Option (Option Nat) :=
  match _read : decode b i with
  | none => none
  | some (cp, w) =>
      let x := idx.label cp
      if x = 0 then some none
      else
        (idx.step base x).bind fun taken =>
          match taken with
          | none => some none
          | some v =>
              if i + w = b.length then some (if endsKey v then some (idOf v) else none)
              else if continues v then idFrom idx b (i + w) (baseOf v)
              else some none
termination_by b.length - i
decreasing_by
  have inside := decode_inside _read
  omega

/-- Id of `key`, or `none` if absent. -/
def id (idx : DoubleArrayIndex) (key : String) : Option (Option Nat) :=
  let b := bytesOf key
  if b = [] then some idx.empty else idx.idFrom b 0 0

/-- The loop of `forEachCommonPrefix`: the calls it makes, in order. -/
def prefixesFrom (idx : DoubleArrayIndex) (b : List UInt8) (i base : Nat) :
    Option (List (Nat × Nat)) :=
  if i < b.length then
    match _read : decode b i with
    | none => none
    | some (cp, w) =>
        let x := idx.label cp
        if x = 0 then some []
        else
          (idx.step base x).bind fun taken =>
            match taken with
            | none => some []
            | some v =>
                let found := if endsKey v then [(i + w, idOf v)] else []
                if continues v then
                  (prefixesFrom idx b (i + w) (baseOf v)).map (found ++ ·)
                else some found
  else some []
termination_by b.length - i
decreasing_by
  have inside := decode_inside _read
  omega

/-- The empty key, reported before the walk. -/
def emptyPrefix (idx : DoubleArrayIndex) : List (Nat × Nat) :=
  match idx.empty with
  | some id => [(0, id)]
  | none => []

/-- `(end, id)` for every key that is a prefix of `query`, in the order they are reported. -/
def forEachCommonPrefix (idx : DoubleArrayIndex) (query : String) : Option (List (Nat × Nat)) :=
  (idx.prefixesFrom (bytesOf query) 0 0).map (idx.emptyPrefix ++ ·)

/-- `query[..end]`; `none` where `end` is no character boundary. -/
def sliced (query : String) (last : Nat) : Option String :=
  if last ≤ (bytesOf query).length then fromUtf8 ((bytesOf query).take last) else none

/-- Every key that is a prefix of `query`, shortest first, with its id. -/
def commonPrefix (idx : DoubleArrayIndex) (query : String) : Option (List (String × Nat)) :=
  (idx.forEachCommonPrefix query).bind fun found =>
    found.mapM fun e => (sliced query e.1).map fun key => (key, e.2)

/-- The longest key that is a prefix of `query`. -/
def longestPrefix (idx : DoubleArrayIndex) (query : String) : Option (Option (String × Nat)) :=
  (idx.forEachCommonPrefix query).bind fun found =>
    match found.getLast? with
    | none => some none
    | some e => (sliced query e.1).map fun key => some (key, e.2)

/-- The labels of a text's characters from byte `i` on, and where each ends. -/
def labelsFrom (idx : DoubleArrayIndex) (b : List UInt8) (i : Nat) :
    Option (List Nat × List Nat) :=
  if i < b.length then
    match _read : decode b i with
    | none => none
    | some (cp, w) =>
        (labelsFrom idx b (i + w)).map fun rest =>
          (idx.label cp % 2 ^ 16 :: rest.1, (i + w) :: rest.2)
  else some ([], [])
termination_by b.length - i
decreasing_by
  have inside := decode_inside _read
  omega

/-- The walk from character `j` on, in the row at `base`: each match's last character and id. -/
def matchesFrom (idx : DoubleArrayIndex) : List Nat → Nat → Nat → Option (List (Nat × Nat))
  | [], _, _ => none
  | x :: labels, j, base =>
      if x = 0 then some []
      else
        (idx.step base x).bind fun taken =>
          match taken with
          | none => some []
          | some v =>
              let found := if endsKey v then [(j + 1, idOf v)] else []
              if continues v then
                (matchesFrom idx labels (j + 1) (baseOf v)).map (found ++ ·)
              else some found

/-- Every key occurring in a text: its first character and the one past its last, its start and
its end in bytes, and its id. -/
def occurrences (idx : DoubleArrayIndex) (text : String) :
    Option (List (Nat × Nat × Nat × Nat × Nat)) :=
  (idx.labelsFrom (bytesOf text) 0).bind fun read =>
    -- Every walk ends on the last label at the latest.
    let labels := read.1 ++ [0]
    let ends := 0 :: read.2
    ((List.range read.1.length).mapM fun p =>
      (idx.matchesFrom (labels.drop p) p 0).bind fun found =>
        found.mapM fun e =>
          (ends[p]?).bind fun start => (ends[e.1]?).map fun last =>
            (p, e.1, start, last, e.2)).map List.flatten

/-- Every key occurring in `text`, as `(start, end, id)` in bytes. -/
def forEachOccurrence (idx : DoubleArrayIndex) (text : String) :
    Option (List (Nat × Nat × Nat)) :=
  (idx.occurrences text).map fun found => found.map fun e => (e.2.2.1, e.2.2.2.1, e.2.2.2.2)

end DoubleArrayIndex

end Lexindex
