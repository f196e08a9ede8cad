import Mathlib
import Lexindex.Overlay.Reload

/-!
# What a blob loads as

An overlay that edits reach loads back as itself.  Any other blob is refused or loads as an
overlay of the same kind, the older format included, unless its additions run past what an
arena has room for: that load does not return.
-/

set_option autoImplicit false

namespace Lexindex.Overlay

open Mphf (IndexError)

variable {I : Type} [OverlayBlob I]

/-- The base is loaded from what it writes. -/
def LoadsBack (loadBase : List UInt8 → Except IndexError I) (base : I) : Prop :=
  ∀ raw, OverlayBlob.writeBase base = .ok raw → loadBase raw = .ok base

/-- The load returns: an error, or an overlay that its operations can rely on and that, where it
is from the older format, is the same after it is saved and loaded again. -/
def LoadsSafely (hash : List UInt8 → UInt64) (loadBase : List UInt8 → Except IndexError I)
    (bytes : List UInt8) : Prop :=
  ∃ result, fromBytesWith hash bytes loadBase = some result ∧ ∀ ov, result = .ok ov →
    RunInvariant hash ov ∧
      (bytes.take 4 = OVERLAY_MAGIC_V1 → LoadsBack loadBase ov.base →
        ∀ saved, toBytes ov = some (.ok saved) →
          fromBytesWith hash saved loadBase = some (.ok ov))

/-- The blob is framed and its base loads, and its additions are crowded. -/
def CrowdedBlob (loadBase : List UInt8 → Except IndexError I) (bytes : List UInt8) : Prop :=
  ∃ sections base, frame (OverlayBlob.baseTag I) bytes = .ok sections ∧
    loadBase sections.base = .ok base ∧ Crowded base sections.additions sections.addedCount

variable {hash : List UInt8 → UInt64} {base : I} {ov : Overlay I} {keys : List String}

theorem bury_eq_ok {tombstones : List UInt8} {buried : Overlay I} :
    ov.bury tombstones = .ok buried ↔
      (∀ id, streamBit ((leWords 8 (tombstones.length / 8) tombstones).map (BitVec.ofNat 64)) id =
        true → id < ov.idSpace) ∧
      { ov with
        dead := (leWords 8 (tombstones.length / 8) tombstones).map (BitVec.ofNat 64)
        live := ov.idSpace - (((leWords 8 (tombstones.length / 8) tombstones).map
          (BitVec.ofNat 64)).map Word.countOnes).sum } = buried := by
  simp only [bury, bind_eq_ok, refuse_eq_ok, pure_eq_ok, strayWord_none]
  exact ⟨fun ⟨_, inside, same⟩ => ⟨inside, same⟩, fun ⟨inside, same⟩ => ⟨(), inside, same⟩⟩

/-- The words are read as they were written. -/
theorem tombstones_written (words : List Word) :
    (leWords 8 ((words.flatMap fun word => leBytes 8 word.toNat).length / 8)
      (words.flatMap fun word => leBytes 8 word.toNat)).map (BitVec.ofNat 64) = words := by
  have numbers : (words.flatMap fun word => leBytes 8 word.toNat) =
      (words.map BitVec.toNat).flatMap (leBytes 8) := by
    rw [List.flatMap_map]
  have fits : ∀ w ∈ words.map BitVec.toNat, w < 256 ^ 8 := by
    intro w member
    obtain ⟨word, -, rfl⟩ := List.mem_map.mp member
    exact word.isLt
  have read := leWords_flatMap (words.map BitVec.toNat) [] fits
  rw [List.append_nil] at read
  rw [numbers, flatMap_leBytes_length, Nat.mul_div_cancel_left _ (by decide), read, List.map_map]
  refine (List.map_congr_left fun word _ => ?_).trans (List.map_id words)
  simp

/-- The sections written from an overlay are assembled into it. -/
theorem Grown.assemble (grown : Grown hash base ov keys) (raw : List UInt8) :
    Overlay.assemble hash base
      { base := raw
        addedCount := ov.addedStarts.length
        additions := ov.addedData
        tombstones := ov.dead.flatMap fun word => leBytes 8 word.toNat } = some (.ok ov) := by
  obtain ⟨count, -⟩ := grown.arena.data_length
  have walked : addAdditions hash ov.addedData ov.addedStarts.length 0
      { Overlay.new base with live := 0 } =
        some (.ok ({ ov with dead := [], live := 0 }, ov.addedData.length)) := by
    rw [count]
    exact addAdditions_pushes keys ((arena_new base).marked [] 0) grown.pushed grown.arena.data
      grown.arena.nodup grown.arena.small grown.strangers
  rw [Overlay.assemble, walked]
  refine congrArg some ?_
  simp only [bind_eq_ok, refuse_eq_ok]
  refine ⟨(), fun other => other rfl, bury_eq_ok.mpr ?_⟩
  rw [tombstones_written]
  have counted := card_dead grown.issued
  have live := grown.live
  have left : ov.idSpace - (ov.dead.map Word.countOnes).sum = ov.live := by
    rw [← counted]
    exact Nat.sub_eq_of_eq_add live.symm
  refine ⟨grown.issued, ?_⟩
  change { ov with live := ov.idSpace - (ov.dead.map Word.countOnes).sum } = ov
  rw [left]

/-- What is saved loads as what it was saved from. -/
theorem Grown.reload (grown : Grown hash base ov keys)
    {loadBase : List UInt8 → Except IndexError I} (back : LoadsBack loadBase base)
    {blob : List UInt8} (saved : toBytes ov = some (.ok blob)) :
    fromBytesWith hash blob loadBase = some (.ok ov) := by
  rw [toBytes, grown.baseIs] at saved
  cases written : OverlayBlob.writeBase base with
  | error error =>
      rw [written] at saved
      cases saved
  | ok raw =>
      rw [written] at saved
      simp only at saved
      split at saved
      · cases saved
      · next short =>
        rw [Option.some.injEq, Except.ok.injEq] at saved
        obtain ⟨count, data⟩ := grown.arena.data_length
        have whole : (ov.dead.flatMap fun word => leBytes 8 word.toNat).length =
            ov.dead.length * 8 := by
          rw [List.length_flatMap]
          simp
        have small := Nat.lt_of_not_le short
        have counted := small
        rw [List.length_append, List.length_append] at counted
        rw [← saved, fromBytesWith, frame_written small (by omega) whole]
        simp only
        rw [back raw written]
        exact grown.assemble raw

/-- Sections are refused, assembled as pushes and retired ids, or crowded. -/
theorem assemble_spec (base : I) (sections : Sections) :
    (∃ error, assemble hash base sections = some (.error error)) ∨
      (∃ ov keys, assemble hash base sections = some (.ok ov) ∧ Grown hash base ov keys) ∨
      (assemble hash base sections = none ∧
        Crowded base sections.additions sections.addedCount) := by
  have start : Arena hash ({ Overlay.new base with live := 0 } : Overlay I) [] :=
    (arena_new base).marked [] 0
  have apart : Strangers base [] := fun _ _ member => absurd member List.not_mem_nil
  have front : ([] : List String).flatMap record <+: sections.additions := List.nil_prefix
  have walk := addAdditions_spec sections.addedCount start front apart
  rw [show ({ Overlay.new base with live := 0 } : Overlay I).addedData.length = 0 from rfl] at walk
  rw [assemble]
  rcases walk with
    ⟨error, refused⟩ | ⟨after, more, walked, -, arena, pushed, -, apart, dead, live, baseIs⟩ |
    ⟨full, more, key, fewer, front, once, short, apart, far⟩
  · rw [refused]
    exact .inl ⟨error, rfl⟩
  · rw [walked]
    simp only
    cases result : (do
      refuse (after.addedData.length ≠ sections.additions.length)
        (IndexError.format "overlay addition region is longer than its additions")
      after.bury sections.tombstones) with
    | error error => exact .inl ⟨error, rfl⟩
    | ok ov =>
        simp only [bind_eq_ok, refuse_eq_ok] at result
        obtain ⟨-, -, buried⟩ := result
        obtain ⟨inside, rfl⟩ := bury_eq_ok.mp buried
        refine .inr (.inl ⟨_, more, rfl, baseIs, arena.marked _ _, ?_, apart, inside, ?_⟩)
        · rw [pushed]
          cases after
          subst dead live
          rfl
        · have counted := card_dead inside
          have most := Finset.card_filter_le (Finset.range after.idSpace) fun id =>
            streamBit ((leWords 8 (sections.tombstones.length / 8) sections.tombstones).map
              (BitVec.ofNat 64)) id = true
          rw [counted, Finset.card_range] at most
          refine Eq.trans (congrArg _ counted) ?_
          exact Nat.sub_add_cancel most
  · rw [full]
    exact .inr (.inr ⟨rfl, more, key, fewer, front, once, short, apart, far⟩)

/-- Crowded sections are not assembled. -/
theorem assemble_crowded {sections : Sections}
    (crowded : Crowded base sections.additions sections.addedCount) :
    assemble hash base sections = none := by
  obtain ⟨more, key, fewer, front, once, short, apart, far⟩ := crowded
  have start : Arena hash ({ Overlay.new base with live := 0 } : Overlay I) [] :=
    (arena_new base).marked [] 0
  have enough : (more ++ [key]).length ≤ sections.addedCount := by
    rw [List.length_append, List.length_singleton]
    exact fewer
  have full := addAdditions_crowded (more ++ [key]) start (by simp) enough front once short apart
    (by rwa [List.dropLast_concat])
  rw [show ({ Overlay.new base with live := 0 } : Overlay I).addedData.length = 0 from rfl] at full
  rw [assemble, full]

variable {loadBase : List UInt8 → Except IndexError I} {bytes : List UInt8}

theorem load_crowded (crowded : CrowdedBlob loadBase bytes) :
    fromBytesWith hash bytes loadBase = none := by
  obtain ⟨sections, base, framed, loaded, crowded⟩ := crowded
  rw [fromBytesWith, framed]
  simp only
  rw [loaded]
  exact assemble_crowded crowded

/-- A load errs, loads an overlay as edits reach it, or is crowded. -/
theorem load_spec :
    (∃ error, fromBytesWith hash bytes loadBase = some (.error error)) ∨
      (∃ base ov keys, fromBytesWith hash bytes loadBase = some (.ok ov) ∧
        Grown hash base ov keys) ∨
      CrowdedBlob loadBase bytes := by
  rw [fromBytesWith]
  cases framed : frame (OverlayBlob.baseTag I) bytes with
  | error error => exact .inl ⟨error, rfl⟩
  | ok sections =>
      simp only
      cases loaded : loadBase sections.base with
      | error error => exact .inl ⟨error, rfl⟩
      | ok base =>
          simp only
          rcases @assemble_spec _ _ hash base sections with refused | ⟨ov, keys, built, grown⟩ |
            ⟨-, crowded⟩
          · exact .inl refused
          · exact .inr (.inl ⟨base, ov, keys, built, grown⟩)
          · exact .inr (.inr ⟨sections, base, framed, loaded, crowded⟩)

/-- A load is safe where the additions fit. -/
theorem loadsSafely_iff : LoadsSafely hash loadBase bytes ↔ ¬ CrowdedBlob loadBase bytes := by
  refine ⟨fun ⟨result, returned, _⟩ crowded => ?_, fun room => ?_⟩
  · rw [load_crowded crowded] at returned
    cases returned
  · rcases @load_spec _ _ hash loadBase bytes with ⟨error, refused⟩ |
      ⟨base, ov, keys, loaded, grown⟩ | crowded
    · exact ⟨_, refused, fun ov same => by cases same⟩
    · refine ⟨_, loaded, fun other same => ?_⟩
      rw [Except.ok.injEq] at same
      rw [← same]
      exact ⟨grown.runInvariant, fun _ back _ saved => grown.reload (grown.baseIs ▸ back) saved⟩
    · exact absurd crowded room

/-- Every overlay that edits reach loads back as itself, and exactly the blobs whose additions fit
load safely. -/
theorem overlay_blob_reloads (hash : List UInt8 → UInt64)
    (loadBase : List UInt8 → Except IndexError I) :
    (∀ base edits ov blob, LoadsBack loadBase base → (Overlay.new base).run hash edits = some ov →
      toBytes ov = some (.ok blob) → fromBytesWith hash blob loadBase = some (.ok ov)) ∧
    ∀ bytes, LoadsSafely hash loadBase bytes ↔ ¬ CrowdedBlob loadBase bytes := by
  refine ⟨fun base edits ov blob back reached saved => ?_, fun bytes => loadsSafely_iff⟩
  obtain ⟨keys, grown⟩ := Grown.run edits (grown_new base) reached
  exact grown.reload back saved

/-! ## An older blob with a key of four gibibytes -/

theorem skipAdditions_records (keys : List String) : ∀ {front rest : List UInt8},
    (∀ key ∈ keys, (bytesOf key).length < 2 ^ 32) →
      skipAdditions (front ++ (keys.flatMap record ++ rest)) keys.length front.length =
        .ok (front.length + (keys.flatMap record).length) := by
  induction keys with
  | nil => exact fun _ => rfl
  | cons key keys ih =>
      intro front rest short
      obtain ⟨keyShort, short⟩ := List.forall_mem_cons.mp short
      have read := @readAddition_record front (keys.flatMap record ++ rest) key keyShort
      have later := @ih (front ++ record key) rest short
      rw [List.length_append, List.append_assoc] at later
      rw [List.length_cons, List.flatMap_cons, List.append_assoc, skipAdditions, read]
      refine later.trans ?_
      rw [List.length_append, Nat.add_assoc]

/-- A blob of the older format over an empty base blob, with no tombstones. -/
def legacyBlob (tag : UInt8) (keys : List String) : List UInt8 :=
  OVERLAY_MAGIC_V1 ++ ([tag] ++ (leBytes 8 0 ++ leBytes 8 keys.length)) ++
    (keys.flatMap record ++ leBytes 8 0)

theorem frame_legacyBlob {tag : UInt8} {keys : List String} (few : keys.length < 2 ^ 64)
    (short : ∀ key ∈ keys, (bytesOf key).length < 2 ^ 32) :
    frame tag (legacyBlob tag keys) =
      .ok { base := [], addedCount := keys.length, additions := keys.flatMap record,
            tombstones := [] } := by
  obtain ⟨front, isFront⟩ : ∃ front, front =
    OVERLAY_MAGIC_V1 ++ ([tag] ++ (leBytes 8 0 ++ leBytes 8 keys.length)) := ⟨_, rfl⟩
  have size : front.length = OVERLAY_HEADER_V1 := by
    rw [isFront]
    simp [OVERLAY_MAGIC_V1, OVERLAY_HEADER_V1]
  obtain ⟨bytes, same⟩ : ∃ bytes, bytes = front ++ (keys.flatMap record ++ leBytes 8 0) :=
    ⟨_, rfl⟩
  have length : bytes.length = OVERLAY_HEADER_V1 + (keys.flatMap record).length + 8 := by
    rw [same, List.length_append, List.length_append, size, leBytes_length, Nat.add_assoc]
  have magic : bytes.take 4 = OVERLAY_MAGIC_V1 := by
    rw [same, isFront]
    rfl
  have tagged : bytes.getD 4 0 = tag := by
    rw [same, isFront]
    rfl
  have baseLen : readU64 bytes 5 = 0 := by
    rw [same, isFront]
    rfl
  have count : readU64 bytes 13 = keys.length := by
    have there : bytes = (OVERLAY_MAGIC_V1 ++ ([tag] ++ leBytes 8 0)) ++
        (leBytes 8 keys.length ++ (keys.flatMap record ++ leBytes 8 0)) := by
      rw [same, isFront]
      simp
    have sized : (OVERLAY_MAGIC_V1 ++ ([tag] ++ leBytes 8 0)).length = 13 := rfl
    rw [there, readU64, List.drop_left' sized]
    exact leNat_here few
  have skipped : skipAdditions bytes keys.length (OVERLAY_HEADER_V1 + 0) =
      .ok (OVERLAY_HEADER_V1 + (keys.flatMap record).length) := by
    rw [same, Nat.add_zero, ← size]
    exact skipAdditions_records keys short
  have words : readU64 bytes (OVERLAY_HEADER_V1 + (keys.flatMap record).length) = 0 := by
    rw [same, readU64, ← size, ← List.drop_drop, List.drop_left, List.drop_left]
    rfl
  have addedSection : (bytes.take (OVERLAY_HEADER_V1 + (keys.flatMap record).length)).drop
      OVERLAY_HEADER_V1 = keys.flatMap record := by
    rw [List.drop_take, same, ← size, List.drop_left, Nat.add_sub_cancel_left, List.take_left]
  have tombSection : bytes.drop (OVERLAY_HEADER_V1 + (keys.flatMap record).length + 8) = [] :=
    List.drop_of_length_le (Nat.le_of_eq length)
  have baseSection : (bytes.take OVERLAY_HEADER_V1).drop OVERLAY_HEADER_V1 = [] :=
    List.drop_of_length_le (List.length_take_le _ _)
  have legacy : decide (bytes.take 4 = OVERLAY_MAGIC_V1) = true := decide_eq_true magic
  rw [legacyBlob, ← isFront, ← same]
  simp only [frame, legacy, v1Sections, bind_eq_ok, refuse_eq_ok, if_true, pure_eq_ok, baseLen,
    count]
  refine ⟨(), ?_, (), ?_, (), ?_, (), ?_, _, skipped, (), ?_, (), ?_, (), ?_, ?_⟩
  · rintro (few | ⟨current, -⟩)
    · omega
    · cases current
  · rintro ⟨current, -⟩
    cases current
  · exact fun other => other tagged
  · omega
  · omega
  · rw [words]
    decide
  · rw [words]
    omega
  · rw [Nat.add_zero, baseSection, addedSection, tombSection]

/-- A base without keys. -/
inductive NoKeys
  | none_
  deriving DecidableEq

instance noKeysBlob : OverlayBlob NoKeys where
  baseLen _ := 0
  baseId _ _ := none
  baseTag := 0
  exactMembership := true
  writeBase _ := .ok []

def NoKeys.load (raw : List UInt8) : Except IndexError NoKeys := do
  refuse (raw ≠ []) (.format "base blob is not empty")
  pure .none_

/-- A key of one byte less than four gibibytes before another: the other has no room, whatever
hashes them. -/
theorem crowded_blob_lost : ¬ ∃ hash, LoadsSafely hash NoKeys.load
    (legacyBlob 0 [String.ofList (List.replicate (2 ^ 32 - 1) 'b'), "a"]) := by
  rintro ⟨hash, safe⟩
  have longLength := bytesOf_replicate_length (2 ^ 32 - 1)
  generalize String.ofList (List.replicate (2 ^ 32 - 1) 'b') = long at longLength safe
  have aLength : (bytesOf "a").length = 1 := by decide
  have short : ∀ key ∈ [long, "a"], (bytesOf key).length < 2 ^ 32 := by
    rw [List.forall_mem_cons, List.forall_mem_singleton, longLength, aLength]
    exact ⟨by omega, by omega⟩
  have apart : [long, "a"].Nodup := by
    rw [List.nodup_cons, List.mem_singleton]
    refine ⟨fun same => ?_, List.nodup_singleton _⟩
    rw [same, aLength] at longLength
    omega
  refine loadsSafely_iff.mp safe ⟨_, NoKeys.none_, frame_legacyBlob (by simp) short, rfl, [long],
    "a", by simp, List.prefix_rfl, apart, short, fun _ _ _ => rfl, ?_⟩
  rw [List.flatMap_singleton, record_length, longLength]
  omega

end Lexindex.Overlay
