import Mathlib
import Lexindex.Overlay.Compact

/-!
# Compaction over keys and ranks

A base of keys and ranks streams its live keys in order and merges them with the sorted
additions.  The builder is fed what the build in memory feeds it, so the file is the same.
-/

set_option autoImplicit false

namespace Lexindex

/-- An index every value of which is the rank of its key. -/
abbrev RankedIndex (fst : Fst) : Type :=
  { idx : StringIndex fst // ∃ keys, idx.IsRanked keys }

namespace RankedIndex

variable {fst : Fst}

def build (keys : List String) : Except FstError (RankedIndex fst) :=
  match built : StringIndex.build keys with
  | .error error => .error error
  | .ok idx => .ok ⟨idx, sortDedup bytesOf keys, sortDedup_ascending (fun _ _ => bytesOf_inj) keys,
      (Except.ok.inj (built.symm.trans (StringIndex.build_eq keys))) ▸ rfl⟩

/-- The base's live keys, in order, merged with the sorted additions. -/
def liveStream (idx : RankedIndex fst) (live : Nat → Bool) (additions : List String) :
    List String :=
  mergeSorted ((idx.1.iter.filter fun e => live e.2).map Prod.fst)
    (additions.mergeSort fun a b => bytesOf a ≤ bytesOf b)

instance rebuild : OverlayRebuild (RankedIndex fst) FstError where
  baseLen idx := idx.1.len
  baseId idx key := idx.1.id key
  baseKey idx id := idx.1.key id
  rebuildLike _ keys := build keys
  writeBase idx := idx.1.toBytes
  rebuildToFile idx live additions := StringIndex.buildSortedToFile fst (idx.liveStream live additions)
  loads file idx := StringIndex.fromBytes file = .ok idx.1

/-- The index of some keys at their ranks. -/
def ofKeys (keys : List String) : RankedIndex fst :=
  ⟨{ map := rankedFrom (sortDedup bytesOf keys) 0 }, sortDedup bytesOf keys,
    sortDedup_ascending (fun _ _ => bytesOf_inj) keys, rfl⟩

theorem build_eq (keys : List String) : build keys = .ok (ofKeys keys : RankedIndex fst) := by
  rw [build]
  split
  · next error failed =>
    rw [StringIndex.build_eq] at failed
    cases failed
  · next idx made =>
    rw [StringIndex.build_eq, Except.ok.injEq] at made
    exact congrArg Except.ok (Subtype.ext made.symm)

theorem exact (idx : RankedIndex fst) : Overlay.ExactBase idx := by
  obtain ⟨keys, ranked⟩ := idx.2
  refine ⟨fun key id => ?_, fun id => ?_⟩
  · exact (ranked.id_iff key id).trans (by rw [← ranked.key id]; rfl)
  · change (idx.1.key id).isSome ↔ id < idx.1.len
    rw [ranked.key, ranked.len]
    simp

end RankedIndex

namespace Overlay

/-- A base of listed keys, rebuilt and filed by the trait's defaults. -/
instance listedRebuild : OverlayRebuild ListedBase FstError where
  rebuildLike _ keys := .ok ⟨keys.dedup, keys.nodup_dedup⟩
  writeBase base := base.keys.flatMap record
  rebuildToFile := materialise (fun _ keys => .ok ⟨keys.dedup, keys.nodup_dedup⟩)
    fun base => base.keys.flatMap record
  loads file base := base.keys.flatMap record = file

end Overlay

end Lexindex
