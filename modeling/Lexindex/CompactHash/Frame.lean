import Mathlib
import Lexindex.Blob.Hasher
import Lexindex.Mphf.Read
import Lexindex.Lib.Front

/-!
# The frame of a compact hash index

A header with the numbers of the index, a checksum of the payload and one of the header itself; then the
perfect hash, the fingerprints and the side table.  An owned load compares both checksums before it
reads a length.
-/

set_option autoImplicit false

namespace Lexindex.CompactHash

open Mphf (IndexError)

def LEGACY_MAGICS : List (List UInt8) :=
  [[0x42, 0x43, 0x48, 0x31], [0x42, 0x43, 0x48, 0x32], [0x42, 0x43, 0x48, 0x33], [0x42, 0x43, 0x48, 0x34],
    [0x42, 0x43, 0x48, 0x35], [0x42, 0x43, 0x48, 0x36], [0x42, 0x43, 0x48, 0x37]]

def MAGIC_V8 : List UInt8 := [0x42, 0x43, 0x48, 0x38]

def MAGIC_V9 : List UInt8 := [0x42, 0x43, 0x48, 0x39]

def HEADER_V7 : Nat := 40

/-- Header bytes the trailing check covers. -/
def CHECKED_V7 : Nat := 36

def SIDE_ENTRY : Nat := 20

def REFUSED_BCH8 : String :=
  "compact-hash: blob written by lexindex 4.x, keyed on a hash this version no longer computes; it " ++
    "stores no keys, so `lexindex dump` cannot convert it - rebuild the index from the corpus it was " ++
    "built from, and expect new ids"

/-- A field of the header. -/
def fieldAt (bytes : List UInt8) (first width : Nat) : Nat :=
  leNat ((bytes.drop first).take width)

/-- Hash, second hash and id. -/
abbrev SideEntry := Nat × Nat × Nat

def sideEntryOf (rec : List UInt8) : SideEntry :=
  (fieldAt rec 0 8, fieldAt rec 8 8, fieldAt rec 16 4)

/-- The whole entries of some bytes. -/
def sideEntries (bytes : List UInt8) : List SideEntry :=
  (List.range (bytes.length / SIDE_ENTRY)).map fun i =>
    sideEntryOf ((bytes.drop (i * SIDE_ENTRY)).take SIDE_ENTRY)

/-- Every field a query will trust. -/
structure Frame where
  n : Nat
  fpBits : Nat
  /-- Where the perfect hash is. -/
  mph : Nat × Nat
  fps : List UInt8
  side : List SideEntry
deriving DecidableEq, Repr

/-- The checks of the header, and of the payload where `verify` says so. -/
def checkFrame (bytes : List UInt8) (verify : Bool) : Except IndexError Unit :=
  if 4 ≤ bytes.length ∧ bytes.take 4 ∈ LEGACY_MAGICS then
    .error (.format
      ("compact-hash: blob written by lexindex < 4.0, keyed on a hash this version no longer computes; " ++
        "the keys are not stored, so it cannot be converted - rebuild the index from its keys"))
  else if 4 ≤ bytes.length ∧ bytes.take 4 = MAGIC_V8 then .error (.format REFUSED_BCH8)
  else if bytes.length < HEADER_V7 ∨ bytes.take 4 ≠ MAGIC_V9 then
    .error (.format "bad magic or truncated header")
  else if fieldAt bytes CHECKED_V7 4 ≠ Blob.hashBytes (bytes.take CHECKED_V7) % 2 ^ 32 then
    .error (.format "header checksum mismatch")
  else if verify ∧ fieldAt bytes 28 8 ≠ Blob.hashBlock (bytes.drop HEADER_V7) then
    .error (.format "payload checksum mismatch")
  else .ok ()

/-- The framing of a blob, parsed and checked; a length that would not fit a word is one that does not
fit the blob. -/
def parseFrame (bytes : List UInt8) (verify : Bool) : Except IndexError Frame := do
  checkFrame bytes verify
  let n := fieldAt bytes 4 8
  if 2 ^ 32 - 1 < n then
    throw (.format "compact-hash: header claims more than u32::MAX keys")
  let fpBits := fieldAt bytes 12 4
  if fpBits < 1 ∨ 64 < fpBits then
    throw (.format "compact-hash: bad fingerprint width")
  let mphLen := fieldAt bytes 16 8
  let sideLen := fieldAt bytes 24 4
  if n < sideLen ∨ sideLen = n ∧ 0 < n then
    throw (.format "side table length out of range")
  let m := n - sideLen
  if bytes.length < sideLen * SIDE_ENTRY then
    throw (.format "side table length out of range")
  let sideStart := bytes.length - sideLen * SIDE_ENTRY
  let mphEnd := HEADER_V7 + mphLen
  if sideStart < mphEnd then
    throw (.format "mph length out of range")
  let side := sortByKey (fun e : SideEntry => toLex (e.1, toLex e.2)) (sideEntries (bytes.drop sideStart))
  let ids := sortByKey id (side.map fun e => e.2.2)
  if ids ≠ List.range' m (n - m) then
    throw (.format "compact-hash: side-table ids are not the tail id range")
  let fps := (bytes.drop mphEnd).take (sideStart - mphEnd)
  if (m * fpBits + 7) / 8 ≠ fps.length then
    throw (.format "compact-hash: fingerprint length mismatch")
  return { n, fpBits, mph := (HEADER_V7, mphEnd), fps, side }

/-! ## Writing -/

/-- The header before its check. -/
def checkedHeader (n fpBits mphLen sideLen payload : Nat) : List UInt8 :=
  MAGIC_V9 ++ leBytes 8 n ++ leBytes 4 fpBits ++ leBytes 8 mphLen ++ leBytes 4 sideLen ++ leBytes 8 payload

def headerV7 (n fpBits mphLen sideLen payload : Nat) : List UInt8 :=
  let header := checkedHeader n fpBits mphLen sideLen payload
  header ++ leBytes 4 (Blob.hashBytes header % 2 ^ 32)

def sideBytes (e : SideEntry) : List UInt8 :=
  leBytes 8 e.1 ++ leBytes 8 e.2.1 ++ leBytes 4 e.2.2

/-- The blob of an index: the header with the payload's checksum, taken section by section, and the
sections. -/
def toBytes (n fpBits : Nat) (mph fps : List UInt8) (side : List SideEntry) : List UInt8 :=
  let sideBuf := side.flatMap sideBytes
  let payload := (((Blob.BlockHasher.new.update mph).update fps).update sideBuf).finish
  headerV7 n fpBits mph.length side.length payload ++ mph ++ fps ++ sideBuf

/-! ## One byte changed -/

/-- The checksum the header holds is the payload's. -/
def Sealed (bytes : List UInt8) : Prop :=
  fieldAt bytes 28 8 = Blob.hashBlock (bytes.drop HEADER_V7)

theorem sealed_of_parsed {bytes : List UInt8} {frame : Frame} (parsed : parseFrame bytes true = .ok frame) :
    Sealed bytes := by
  by_contra broken
  have refused : ∃ e, checkFrame bytes true = .error e := by
    rw [checkFrame]
    split_ifs with h1 h2 h3 h4 h5
    · exact ⟨_, rfl⟩
    · exact ⟨_, rfl⟩
    · exact ⟨_, rfl⟩
    · exact ⟨_, rfl⟩
    · exact ⟨_, rfl⟩
    · exact absurd ⟨rfl, broken⟩ h5
  obtain ⟨e, refused⟩ := refused
  rw [parseFrame, refused] at parsed
  cases parsed

theorem length_headerV7 (n fpBits mphLen sideLen payload : Nat) :
    (headerV7 n fpBits mphLen sideLen payload).length = HEADER_V7 := by
  simp only [headerV7, checkedHeader, List.length_append, leBytes_length]
  rfl

theorem sealed_toBytes (n fpBits : Nat) (mph fps : List UInt8) (side : List SideEntry) :
    Sealed (toBytes n fpBits mph fps side) := by
  have parts := Blob.BlockHasher.finish_updates [mph, fps, side.flatMap sideBytes]
  rw [List.flatten_cons, List.flatten_cons, List.flatten_singleton] at parts
  have small : Blob.hashBlock (mph ++ (fps ++ side.flatMap sideBytes)) < 256 ^ 8 := Blob.finalize_lt _
  rw [Sealed, toBytes, List.append_assoc, List.append_assoc, List.drop_left' (length_headerV7 ..)]
  simp only [List.foldl_cons, List.foldl_nil] at parts
  rw [parts]
  generalize Blob.hashBlock (mph ++ (fps ++ side.flatMap sideBytes)) = payload at small
  rw [fieldAt, headerV7, checkedHeader, List.append_assoc, List.append_assoc, List.drop_left']
  · rw [List.take_left' (leBytes_length ..), leNat_leBytes _ _ small]
  · simp only [List.length_append, leBytes_length]
    rfl

/-- A byte of the payload changed: the header is what it was, and the checksum is not the payload's. -/
theorem refused_of_set {bytes : List UInt8} (sealed_ : Sealed bytes) {i : Nat} (past : HEADER_V7 ≤ i)
    (inside : i < bytes.length) {byte : UInt8} (other : bytes[i] ≠ byte) :
    ∃ e, parseFrame (bytes.set i byte) true = .error e := by
  have front : ∀ k ≤ HEADER_V7, (bytes.set i byte).take k = bytes.take k := fun k within =>
    List.take_set_of_le (within.trans past)
  have field : fieldAt (bytes.set i byte) 28 8 = fieldAt bytes 28 8 := by
    rw [fieldAt, fieldAt, List.take_drop, List.take_drop, front _ (by decide)]
  have changed : bytes.drop HEADER_V7 ≠ (bytes.set i byte).drop HEADER_V7 := by
    intro same
    have here := congrArg (fun xs => xs[i - HEADER_V7]?) same
    simp only [List.getElem?_drop, Nat.add_sub_cancel' past, List.getElem?_set_self inside,
      List.getElem?_eq_getElem inside] at here
    exact other (Option.some.inj here)
  have broken : ¬ Sealed (bytes.set i byte) := by
    rw [Sealed, field, sealed_]
    refine Blob.hashBlock_ne_of_word ((i - HEADER_V7) / 8)
      (by simp only [List.length_drop, List.length_set]) (fun j apart => ?_) changed
    rw [List.getElem?_drop, List.getElem?_drop, List.getElem?_set_ne]
    rintro rfl
    exact apart (by rw [Nat.add_sub_cancel_left])
  cases parsed : parseFrame (bytes.set i byte) true with
  | error e => exact ⟨e, rfl⟩
  | ok frame => exact absurd (sealed_of_parsed parsed) broken

/-- The payload's checksum catches what changes inside one word of it, however the payload was cut when
it was taken; so an index with one byte changed past its header, written or accepted before, is never
loaded. -/
theorem payload_checksum_catches :
    (∀ parts : List (List UInt8),
      (parts.foldl Blob.BlockHasher.update Blob.BlockHasher.new).finish = Blob.hashBlock parts.flatten) ∧
    (∀ (bytes others : List UInt8) (word : Nat), bytes.length = others.length →
      (∀ i, i / 8 ≠ word → bytes[i]? = others[i]?) → bytes ≠ others →
        Blob.hashBlock bytes ≠ Blob.hashBlock others) ∧
    ∀ bytes : List UInt8,
      (∃ n fpBits mph fps side, bytes = toBytes n fpBits mph fps side) ∨
        (∃ frame, parseFrame bytes true = .ok frame) →
      ∀ (i : Nat) (inside : i < bytes.length) (byte : UInt8), HEADER_V7 ≤ i → bytes[i] ≠ byte →
        ∃ e, parseFrame (bytes.set i byte) true = .error e := by
  refine ⟨Blob.BlockHasher.finish_updates, fun bytes others word length same apart =>
    Blob.hashBlock_ne_of_word word length same apart, fun bytes origin i inside byte past other => ?_⟩
  have sealed_ : Sealed bytes := by
    rcases origin with ⟨n, fpBits, mph, fps, side, rfl⟩ | ⟨frame, parsed⟩
    · exact sealed_toBytes n fpBits mph fps side
    · exact sealed_of_parsed parsed
  exact refused_of_set sealed_ past inside other

theorem payload_checksum_catches_one :
    Blob.hashBlock [1, 2, 3] ≠ Blob.hashBlock [1, 7, 3] ∧
    ∃ e, parseFrame ((toBytes 1 8 [9, 9] [5] []).set 41 8) true = .error e := by
  obtain ⟨-, words, loads⟩ := payload_checksum_catches
  refine ⟨words [1, 2, 3] [1, 7, 3] 0 rfl ?_ (by decide), loads _ (.inl ⟨1, 8, [9, 9], [5], [], rfl⟩) 41 ?_ 8 ?_ ?_⟩
  · intro i outside
    rw [List.getElem?_eq_none (by change 3 ≤ i; omega), List.getElem?_eq_none (by change 3 ≤ i; omega)]
  · decide
  · decide
  · decide

end Lexindex.CompactHash
