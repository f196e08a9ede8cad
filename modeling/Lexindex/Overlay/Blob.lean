import Mathlib
import Lexindex.Blob
import Lexindex.Lib.Bytes
import Lexindex.Lib.Checked
import Lexindex.Lib.Utf8
import Lexindex.Lib.Word
import Lexindex.Mphf.Remap

/-!
# An overlay over an immutable index

What was added after the base, in an arena of length-prefixed records found through
a hash of the key, and the ids retired from either, a bit an id.  A record read
past the arena, an addition past `u32::MAX` or past four gibibytes of them and a
count below zero are where the source panics; each is `none` here.
-/

set_option autoImplicit false

namespace Lexindex

/-- What an overlay needs from the index underneath it. -/
class OverlayBase (I : Type) where
  baseLen : I → Nat
  /-- Subject to the base's own membership contract. -/
  baseId : I → String → Option Nat

/-- A base that stores its keys. -/
class OverlayKeys (I : Type) extends OverlayBase I where
  baseKey : I → Nat → Option String

structure Overlay (I : Type) where
  base : I
  /-- Every added key once, in id order: `[len: u32 LE]`, then the bytes. -/
  addedData : List UInt8
  /-- Where each addition's record starts. -/
  addedStarts : List Nat
  /-- Hash of an added key, to the index and the record start of the first one with it. -/
  addedLookup : List (UInt64 × Nat × Nat)
  /-- An addition whose hash a previous one already had. -/
  addedCollisions : List (UInt64 × Nat × Nat)
  /-- One bit per id. -/
  dead : List Word
  live : Nat

namespace Overlay

variable {I : Type} (hash : List UInt8 → UInt64)

/-- The bytes of the addition whose record starts at `start`. -/
def recordAt (ov : Overlay I) (start : Nat) : Option (List UInt8) :=
  let data := ov.addedData.drop start
  if ov.addedData.length < start + 4 then none
  else
    let len := leNat (data.take 4)
    if ov.addedData.length < start + 4 + len then none else some ((data.drop 4).take len)

def addedKey (ov : Overlay I) (i : Nat) : Option String := do
  let start ← ov.addedStarts[i]?
  let record ← ov.recordAt start
  fromUtf8 record

/-- The first of the colliding additions equal to the key. -/
def findCollision (ov : Overlay I) (h : UInt64) (key : List UInt8) :
    List (UInt64 × Nat × Nat) → Option (Option Nat)
  | [] => some none
  | (hh, i, at_) :: rest =>
      if hh = h then do
        let record ← ov.recordAt at_
        if record = key then some (some i) else ov.findCollision h key rest
      else ov.findCollision h key rest

/-- The index of the addition equal to `key`. -/
def addedIndex (ov : Overlay I) (key : String) : Option (Option Nat) :=
  let h := hash (bytesOf key)
  match ov.addedLookup.lookup h with
  | none => some none
  | some (first, start) => do
      let record ← ov.recordAt start
      if record = bytesOf key then some (some first)
      else ov.findCollision h (bytesOf key) ov.addedCollisions

/-- Append a key no addition equals to the arena and index it. -/
def pushAdded (ov : Overlay I) (key : String) : Option (Nat × Overlay I) :=
  let i := ov.addedStarts.length
  let start := ov.addedData.length
  let len := (bytesOf key).length
  if 2 ^ 32 ≤ i ∨ 2 ^ 32 ≤ start ∨ 2 ^ 32 ≤ len then none
  else
    let h := hash (bytesOf key)
    let pushed := { ov with
      addedStarts := ov.addedStarts ++ [start]
      addedData := ov.addedData ++ (leBytes 4 len ++ bytesOf key) }
    match ov.addedLookup.lookup h with
    | none => some (i, { pushed with addedLookup := (h, i, start) :: ov.addedLookup })
    | some _ => some (i, { pushed with addedCollisions := ov.addedCollisions ++ [(h, i, start)] })

def isDead (ov : Overlay I) (id : Nat) : Bool :=
  streamBit ov.dead id

def setDead (ov : Overlay I) (id : Nat) (dead : Bool) : Overlay I :=
  let w := id / 64
  if ov.dead.length ≤ w ∧ dead = false then ov
  else
    let words := ov.dead ++ List.replicate (w + 1 - ov.dead.length) 0#64
    { ov with dead := if dead then setBit words id else clearBit words id }

section Base

variable [OverlayBase I]

def new (base : I) : Overlay I :=
  { base
    addedData := []
    addedStarts := []
    addedLookup := []
    addedCollisions := []
    dead := []
    live := OverlayBase.baseLen base }

/-- How many keys are live. -/
def len (ov : Overlay I) : Nat :=
  ov.live

/-- How many ids have ever been issued. -/
def idSpace (ov : Overlay I) : Nat :=
  OverlayBase.baseLen ov.base + ov.addedStarts.length

/-- The id of a key; `none` inside where it is absent or has been removed. -/
def id (ov : Overlay I) (key : String) : Option (Option Nat) :=
  match OverlayBase.baseId ov.base key with
  | some id => some (if ov.isDead id then none else some id)
  | none => do
      match ← ov.addedIndex hash key with
      | none => some none
      | some i =>
          let id := OverlayBase.baseLen ov.base + i
          some (if ov.isDead id then none else some id)

/-- The id of a key that has one, live again if it was retired. -/
def revive (ov : Overlay I) (id : Nat) : Nat × Overlay I :=
  if ov.isDead id then (id, { ov.setDead id false with live := ov.live + 1 }) else (id, ov)

/-- Add a key and return its id, or return the id it already has. -/
def add (ov : Overlay I) (key : String) : Option (Nat × Overlay I) :=
  match OverlayBase.baseId ov.base key with
  | some id => some (ov.revive id)
  | none => do
      match ← ov.addedIndex hash key with
      | some i => some (ov.revive (OverlayBase.baseLen ov.base + i))
      | none =>
          let (_, pushed) ← ov.pushAdded hash key
          some (ov.idSpace, { pushed with live := ov.live + 1 })

/-- Retire an id, and whether it was live. -/
def retireId (ov : Overlay I) (id : Nat) : Option (Bool × Overlay I) :=
  if ov.idSpace ≤ id ∨ ov.isDead id = true then some (false, ov)
  else if ov.live = 0 then none
  else some (true, { ov.setDead id true with live := ov.live - 1 })

/-- Remove a key, and whether it was live: on a base with exact membership only. -/
def remove (ov : Overlay I) (key : String) : Option (Bool × Overlay I) := do
  match ← ov.id hash key with
  | some id => ov.retireId id
  | none => some (false, ov)

end Base

section Keys

variable [OverlayKeys I]

/-- The key at an id; `none` inside where it was never issued or has been retired. -/
def key (ov : Overlay I) (id : Nat) : Option (Option String) :=
  let baseN := OverlayBase.baseLen ov.base
  if ov.isDead id then some none
  else if id < baseN then some (OverlayKeys.baseKey ov.base id)
  else if id - baseN < ov.addedStarts.length then (ov.addedKey (id - baseN)).map some
  else some none

/-- Every live key, in id order. -/
def keys (ov : Overlay I) : Option (List String) :=
  (List.range ov.idSpace).foldr
    (fun id rest => do
      let key ← ov.key id
      let rest ← rest
      pure (key.toList ++ rest))
    (some [])

end Keys

/-! ## Runs -/

/-- An edit of an overlay; the third is on a base with exact membership only. -/
inductive Edit
  | add (key : String)
  | retireId (id : Nat)
  | remove (key : String)
  deriving DecidableEq

variable [OverlayBase I]

def step (ov : Overlay I) : Edit → Option (Overlay I)
  | .add key => (ov.add hash key).map Prod.snd
  | .retireId id => (ov.retireId id).map Prod.snd
  | .remove key => (ov.remove hash key).map Prod.snd

def run (ov : Overlay I) : List Edit → Option (Overlay I)
  | [] => some ov
  | edit :: rest => do
      let ov ← ov.step hash edit
      ov.run rest

end Overlay

end Lexindex

/-!
## The overlay's blob

The header, the base's own blob, the additions as the arena holds them and the tombstone
words.  A loader takes this format and the one before it, which has no checksums and keeps
the word count between the additions and the words.  A sum of lengths that leaves the
machine word is past the end of any blob.
-/

namespace Lexindex

open Mphf (IndexError)

/-- What an overlay's blob needs from the base. -/
class OverlayBlob (I : Type) extends OverlayBase I where
  baseTag : UInt8
  /-- Whether `baseId` answers for the base's keys alone. -/
  exactMembership : Bool
  writeBase : I → Except IndexError (List UInt8)

namespace Overlay

def OVERLAY_MAGIC : List UInt8 := [0x4F, 0x56, 0x4C, 0x32]

def OVERLAY_MAGIC_V1 : List UInt8 := [0x4F, 0x56, 0x4C, 0x31]

def OVERLAY_HEADER : Nat := 4 + 1 + 8 + 8 + 8 + 8 + 8 + 4

/-- Header bytes the trailing check covers. -/
def OVERLAY_CHECKED : Nat := OVERLAY_HEADER - 4

def OVERLAY_HEADER_V1 : Nat := 4 + 1 + 8 + 8

def readU32 (bytes : List UInt8) (at_ : Nat) : Nat :=
  leNat ((bytes.drop at_).take 4)

def readU64 (bytes : List UInt8) (at_ : Nat) : Nat :=
  leNat ((bytes.drop at_).take 8)

/-- The header's fields before its check. -/
def headerFields (tag : UInt8) (baseLen addedCount addedBytes words payload : Nat) : List UInt8 :=
  OVERLAY_MAGIC ++ ([tag] ++ (leBytes 8 baseLen ++ (leBytes 8 addedCount ++
    (leBytes 8 addedBytes ++ (leBytes 8 words ++ leBytes 8 payload)))))

def header (tag : UInt8) (baseLen addedCount addedBytes words payload : Nat) : List UInt8 :=
  let fields := headerFields tag baseLen addedCount addedBytes words payload
  fields ++ leBytes 4 (Blob.hashBytes fields)

/-- The blob's sections, already bounded by whichever header framed them. -/
structure Sections where
  base : List UInt8
  addedCount : Nat
  additions : List UInt8
  tombstones : List UInt8

/-- One addition, and where the next one starts. -/
def readAddition (bytes : List UInt8) (at_ : Nat) : Except IndexError (String × Nat) := do
  refuse (bytes.length < at_ + 4) (.format "overlay additions truncated")
  let len := readU32 bytes at_
  refuse (bytes.length < at_ + 4 + len) (.format "overlay addition out of range")
  let key ← okOr (fromUtf8 ((bytes.drop (at_ + 4)).take len))
    (.format "overlay addition is not UTF-8")
  pure (key, at_ + 4 + len)

/-- Where `count` additions end. -/
def skipAdditions (bytes : List UInt8) : Nat → Nat → Except IndexError Nat
  | 0, at_ => .ok at_
  | count + 1, at_ => do
      let read ← readAddition bytes at_
      skipAdditions bytes count read.2

def v2Sections (bytes : List UInt8) (baseEnd addedCount : Nat) : Except IndexError Sections := do
  let addedBytes := readU64 bytes 21
  let words := readU64 bytes 29
  let addedEnd := baseEnd + addedBytes
  refuse (bytes.length < addedEnd) (.format "overlay addition region out of range")
  refuse (2 ^ 64 ≤ words * 8) (.format "overlay tombstone count out of range")
  refuse (bytes.length - addedEnd ≠ words * 8) (.format "overlay tombstone length mismatch")
  refuse (readU64 bytes 37 ≠ Blob.hashBlock (bytes.drop OVERLAY_HEADER))
    (.format "overlay payload checksum mismatch")
  pure
    { base := (bytes.take baseEnd).drop OVERLAY_HEADER
      addedCount
      additions := (bytes.take addedEnd).drop baseEnd
      tombstones := bytes.drop addedEnd }

/-- The sections of the older format: the additions are as long as a walk of them. -/
def v1Sections (bytes : List UInt8) (baseEnd addedCount : Nat) : Except IndexError Sections := do
  let addedEnd ← skipAdditions bytes addedCount baseEnd
  let countEnd := addedEnd + 8
  refuse (bytes.length < countEnd) (.format "overlay tombstones truncated")
  let words := readU64 bytes addedEnd
  refuse (2 ^ 64 ≤ words * 8) (.format "overlay tombstone count out of range")
  refuse (bytes.length - countEnd ≠ words * 8) (.format "overlay tombstone length mismatch")
  pure
    { base := (bytes.take baseEnd).drop OVERLAY_HEADER_V1
      addedCount
      additions := (bytes.take addedEnd).drop baseEnd
      tombstones := bytes.drop countEnd }

/-- The sections of a blob over a base with the tag, whichever format it is in. -/
def frame (tag : UInt8) (bytes : List UInt8) : Except IndexError Sections := do
  let legacy := decide (bytes.take 4 = OVERLAY_MAGIC_V1)
  let size := if legacy then OVERLAY_HEADER_V1 else OVERLAY_HEADER
  refuse (bytes.length < size ∨ legacy = false ∧ bytes.take 4 ≠ OVERLAY_MAGIC)
    (.format "bad overlay magic or truncated header")
  refuse (legacy = false ∧
      readU32 bytes OVERLAY_CHECKED ≠ Blob.hashBytes (bytes.take OVERLAY_CHECKED) % 2 ^ 32)
    (.format "overlay header checksum mismatch")
  refuse (bytes.getD 4 0 ≠ tag) (.format "overlay blob was written over a different base index")
  let baseLen := readU64 bytes 5
  let addedCount := readU64 bytes 13
  let baseEnd := size + baseLen
  refuse (bytes.length < baseEnd) (.format "overlay base blob out of range")
  if legacy then v1Sections bytes baseEnd addedCount else v2Sections bytes baseEnd addedCount

/-- Bits `0..n` set. -/
def maskBelow (n : Nat) : Word :=
  (1#64 <<< n) - 1#64

/-- A tombstone word has a bit past the id space. -/
def strayWord (idSpace : Nat) (word : Word) (w : Nat) : Bool :=
  match compare w (idSpace / 64) with
  | .lt => false
  | .eq => word &&& ~~~maskBelow (idSpace % 64) != 0#64
  | .gt => word != 0#64

section Blob

variable {I : Type} [OverlayBlob I] (hash : List UInt8 → UInt64)

/-- The blob, or `none` where it is too long for a `Vec`. -/
def toBytes (ov : Overlay I) : Option (Except IndexError (List UInt8)) :=
  match OverlayBlob.writeBase ov.base with
  | .error error => some (.error error)
  | .ok base =>
      let sections := base ++ (ov.addedData ++ ov.dead.flatMap fun word => leBytes 8 word.toNat)
      if 2 ^ 63 ≤ OVERLAY_HEADER + sections.length then none
      else some (.ok (header (OverlayBlob.baseTag I) base.length ov.addedStarts.length
        ov.addedData.length ov.dead.length (Blob.hashBlock sections) ++ sections))

/-- Push the additions of a region, each checked against the base and those before it. -/
def addAdditions (additions : List UInt8) :
    Nat → Nat → Overlay I → Option (Except IndexError (Overlay I × Nat))
  | 0, at_, ov => some (.ok (ov, at_))
  | count + 1, at_, ov =>
      match readAddition additions at_ with
      | .error error => some (.error error)
      | .ok (key, next) =>
          if OverlayBlob.exactMembership I = true ∧ (OverlayBase.baseId ov.base key).isSome then
            some (.error (.format "overlay addition duplicates a base key"))
          else
            match ov.addedIndex hash key with
            | none => none
            | some (some _) =>
                some (.error (.format "duplicate key among overlay additions"))
            | some none =>
                match ov.pushAdded hash key with
                | none => none
                | some (_, ov) => addAdditions additions count next ov

/-- The tombstones over additions already pushed, and the count that follows from them. -/
def bury (ov : Overlay I) (tombstones : List UInt8) : Except IndexError (Overlay I) := do
  let dead := (leWords 8 (tombstones.length / 8) tombstones).map (BitVec.ofNat 64)
  refuse (dead.zipIdx.any (fun e => strayWord ov.idSpace e.1 e.2) = true)
    (.format "overlay tombstone outside the id space")
  pure { ov with dead, live := ov.idSpace - (dead.map Word.countOnes).sum }

/-- The contents of a bounded blob, checked against each other and against the base. -/
def assemble (base : I) (sections : Sections) : Option (Except IndexError (Overlay I)) :=
  match addAdditions hash sections.additions sections.addedCount 0
      { Overlay.new base with live := 0 } with
  | none => none
  | some (.error error) => some (.error error)
  | some (.ok (ov, at_)) => some do
      refuse (at_ ≠ sections.additions.length)
        (.format "overlay addition region is longer than its additions")
      ov.bury sections.tombstones

/-- An overlay from its blob, the base through `loadBase`. -/
def fromBytesWith (bytes : List UInt8) (loadBase : List UInt8 → Except IndexError I) :
    Option (Except IndexError (Overlay I)) :=
  match frame (OverlayBlob.baseTag I) bytes with
  | .error error => some (.error error)
  | .ok sections =>
      match loadBase sections.base with
      | .error error => some (.error error)
      | .ok base => assemble hash base sections

end Blob

end Overlay

end Lexindex
