import Mathlib
import Lexindex.Overlay.Exact
import Lexindex.StringIndex.Build

/-!
# Compaction

The live keys rebuilt into a fresh base, in memory or straight to a file.  A base builds
from a list of keys; a base of keys and ranks also streams its own live keys, merged with the
additions, to a sorted builder.
-/

set_option autoImplicit false

namespace Lexindex

/-- A base that can be rebuilt from its own contents. -/
class OverlayRebuild (I : Type) (E : outParam Type) extends OverlayKeys I where
  /-- A fresh base of the keys, in this base's own configuration. -/
  rebuildLike : I → List String → Except E I
  writeBase : I → List UInt8
  /-- A fresh base written to a file: the base's own keys whose id passes `live`, then the
  additions.  With the count of keys it holds. -/
  rebuildToFile : I → (Nat → Bool) → List String → Except E (List UInt8 × Nat)
  /-- The file loads as the index. -/
  loads : List UInt8 → I → Prop

/-- The default of `rebuildToFile`: every live key materialised, and a rebuild. -/
def materialise {I E : Type} [OverlayKeys I] (rebuildLike : I → List String → Except E I)
    (writeBase : I → List UInt8) (base : I) (live : Nat → Bool) (additions : List String) :
    Except E (List UInt8 × Nat) := do
  let keys := ((List.range (OverlayBase.baseLen base)).filter live).filterMap
    (OverlayKeys.baseKey base)
  let fresh ← rebuildLike base (keys ++ additions)
  pure (writeBase fresh, OverlayBase.baseLen fresh)

/-- Two ascending streams as one. -/
def mergeSorted (a b : List String) : List String :=
  a.merge b fun x y => bytesOf x ≤ bytesOf y

namespace Overlay

section Compact

variable {I E : Type} [OverlayRebuild I E] (hash : List UInt8 → UInt64)

/-- The new id of an old one, `u64::MAX` where it was retired. -/
def remapped (ov fresh : Overlay I) (id : Nat) : Option Nat :=
  (ov.key id).bind fun
    | some key => (fresh.id hash key).bind fun new => new
    | none => some (2 ^ 64 - 1)

end Compact

/-- An index whose key set is the live keys of an overlay. -/
def HoldsLive {I : Type} [OverlayKeys I] (hash : List UInt8 → UInt64) (ov : Overlay I)
    (fresh : I) : Prop :=
  ExactBase fresh ∧ ∀ key, (∃ id, OverlayBase.baseId fresh key = some id) ↔
    ∃ id, ov.id hash key = some (some id)

section Default

variable {I E : Type} [OverlayRebuild I E]

end Default

section Live

variable {I E : Type} [OverlayRebuild I E] {hash : List UInt8 → UInt64} {base : I}
  {ov : Overlay I} {l : Ledger String} (exact : ExactBase base)
  (shows : Represents hash base ov l)

/-- An exact base holds as many keys as its length. -/
theorem ExactBase.count {fresh : I} (exactFresh : ExactBase fresh) {keys : List String}
    (once : keys.Nodup)
    (members : ∀ key, (∃ id, OverlayBase.baseId fresh key = some id) ↔ key ∈ keys) :
    OverlayBase.baseLen fresh = keys.length := by
  have listed : ((List.range (OverlayBase.baseLen fresh)).filterMap
      (OverlayKeys.baseKey fresh)).Perm keys := by
    refine (List.perm_ext_iff_of_nodup (List.Nodup.filterMap ?_ List.nodup_range) once).mpr ?_
    · intro id other key found otherFound
      have mine := (exactFresh.inverse key id).mpr found
      rw [(exactFresh.inverse key other).mpr otherFound, Option.some.injEq] at mine
      exact mine.symm
    · intro key
      rw [← members, List.mem_filterMap]
      constructor
      · rintro ⟨id, -, here⟩
        exact ⟨id, (exactFresh.inverse key id).mpr here⟩
      · rintro ⟨id, here⟩
        exact ⟨id, List.mem_range.mpr (exactFresh.bounded key id here),
          (exactFresh.inverse key id).mp here⟩
  rw [← listed.length_eq, List.length_filterMap_eq_countP]
  have all : (List.range (OverlayBase.baseLen fresh)).countP
      (fun id => (OverlayKeys.baseKey fresh id).isSome) =
      (List.range (OverlayBase.baseLen fresh)).length := by
    rw [List.countP_eq_length]
    intro id member
    rw [exactFresh.range]
    exact List.mem_range.mp member
  rw [all, List.length_range]

end Live

section Exact

variable {I E : Type} [OverlayRebuild I E] {hash : List UInt8 → UInt64} {base : I}
  {ov : Overlay I} {l : Ledger String}

theorem new_id {fresh : I} (key : String) (id : Nat)
    (owned : OverlayBase.baseId fresh key = some id) :
    (Overlay.new fresh).id hash key = some (some id) := by
  have alive : (Overlay.new fresh).isDead id = false := by
    simp [isDead, Overlay.new, streamBit]
  rw [Overlay.id, show (Overlay.new fresh).base = fresh from rfl, owned]
  simp only
  rw [alive]
  rfl

/-- The renumbering sends the id of a live key to its new one. -/
theorem Represents.remapped (exact : ExactBase base) (shows : Represents hash base ov l)
    {fresh : I} (holds : HoldsLive hash ov fresh) (id : Nat) :
    ∃ new, ov.remapped hash (Overlay.new fresh) id = some new ∧
      (∀ key, ov.key id = some (some key) → (Overlay.new fresh).id hash key = some (some new)) ∧
      (ov.key id = some none → new = 2 ^ 64 - 1) := by
  rw [Overlay.remapped, shows.key]
  cases here : keyOf base l id with
  | none => exact ⟨_, rfl, fun key found => (by cases found), fun _ => rfl⟩
  | some key =>
      have live : ov.id hash key = some (some id) := by
        rw [shows.id, (exact.lookup_iff shows.sound key id).mpr here]
      obtain ⟨new, owned⟩ := (holds.2 key).mpr ⟨id, live⟩
      have found := @new_id _ _ _ hash fresh key new owned
      refine ⟨new, ?_, fun other same => ?_, fun absent => by cases absent⟩
      · rw [Option.bind_some]
        simp only [found, Option.bind_some]
      · cases same
        exact found

end Exact

end Overlay

end Lexindex
