import Mathlib
import Lexindex.Lib.Ledger
import Lexindex.Overlay.Arena

/-!
# An overlay keeps a ledger

Every edit of an overlay is a change of the ledger of its ids: the keys in the arena
are those entered, the set bits the ids retired, and the counter how many are live.
The counter never passes below zero, and the only panic is an addition that does not
fit the arena.
-/

set_option autoImplicit false

namespace Lexindex

/-- A base that answers ids of its own only, whichever key it is asked for. -/
def BoundedBase {I : Type} [OverlayBase I] (base : I) : Prop :=
  ∀ key id, OverlayBase.baseId base key = some id → id < OverlayBase.baseLen base

namespace Overlay

variable {I : Type} [OverlayBase I] {hash : List UInt8 → UInt64}

/-- Whether an id was issued and is not retired. -/
def isLive (ov : Overlay I) (id : Nat) : Bool :=
  decide (id < ov.idSpace) && !ov.isDead id

omit [OverlayBase I] in
theorem isDead_setDead (ov : Overlay I) (id j : Nat) (dead : Bool) :
    (ov.setDead id dead).isDead j = if j = id then dead else ov.isDead j := by
  have grown : ∀ count, streamBit (ov.dead ++ List.replicate count 0#64) j = ov.isDead j := by
    intro count
    rw [isDead, streamBit, streamBit, List.getD_eq_getElem?_getD, List.getD_eq_getElem?_getD,
      List.getElem?_append]
    split
    · rfl
    · next past =>
      rw [List.getElem?_replicate, List.getElem?_eq_none (by omega)]
      split <;> rfl
  rw [setDead]
  simp only
  by_cases still : ov.dead.length ≤ id / 64 ∧ dead = false
  · rw [if_pos still]
    split
    · next here =>
      rw [here, still.2, isDead, streamBit, List.getD_eq_getElem?_getD,
        List.getElem?_eq_none still.1, Option.getD_none, BitVec.getLsbD_zero]
    · rfl
  · rw [if_neg still]
    have inside : id / 64 <
        (ov.dead ++ List.replicate (id / 64 + 1 - ov.dead.length) 0#64).length := by
      rw [List.length_append, List.length_replicate]
      omega
    rw [isDead]
    cases dead with
    | true =>
        simp only [if_true]
        rw [streamBit_setBit inside, grown]
        by_cases here : j = id <;> simp [here]
    | false =>
        simp only [Bool.false_eq_true, if_false]
        rw [streamBit_clearBit, grown]
        by_cases here : j = id <;> simp [here]

omit [OverlayBase I] in
/-- Setting a bit changes the bits only. -/
theorem setDead_eq (ov : Overlay I) (id : Nat) (dead : Bool) :
    ∃ words, ov.setDead id dead = { ov with dead := words } := by
  rw [setDead]
  simp only
  split
  · exact ⟨ov.dead, rfl⟩
  · exact ⟨_, rfl⟩

omit [OverlayBase I] in
theorem Arena.marked {ov : Overlay I} {keys : List String} (arena : Arena hash ov keys)
    (words : List Word) (live : Nat) : Arena hash { ov with dead := words, live := live } keys :=
  ⟨arena.data, arena.starts, arena.small, arena.nodup, arena.first, arena.collided, arena.indexed⟩

/-- An overlay over `base` whose ids are as the ledger has them. -/
structure Represents (hash : List UInt8 → UInt64) (base : I) (ov : Overlay I)
    (l : Ledger String) : Prop where
  baseIs : ov.base = base
  arena : Arena hash ov l.entered
  dead : ∀ id, ov.isDead id = decide (id ∈ l.retired)
  live : ov.live = (l.liveSet (OverlayBase.baseLen base)).card
  sound : l.Sound (OverlayBase.baseId base) (OverlayBase.baseLen base)

theorem represents_new (base : I) :
    Represents hash base (Overlay.new base) { entered := [], retired := ∅ } where
  baseIs := rfl
  arena := arena_new base
  dead := by
    intro id
    simp [isDead, Overlay.new, streamBit]
  live := by
    simp [Overlay.new, Ledger.liveSet, Ledger.space]
  sound := Ledger.sound_start _ _

section Represented

variable {base : I} {ov : Overlay I} {l : Ledger String} (shows : Represents hash base ov l)
include shows

theorem Represents.idSpace : ov.idSpace = l.space (OverlayBase.baseLen base) := by
  rw [Overlay.idSpace, shows.baseIs, shows.arena.starts, List.length_map, List.length_range,
    Ledger.space]

theorem Represents.isLive (id : Nat) :
    ov.isLive id = decide (l.Live (OverlayBase.baseLen base) id) := by
  rw [Overlay.isLive, shows.idSpace, shows.dead, ← decide_not, ← Bool.decide_and]
  rfl

theorem Represents.id (key : String) :
    ov.id hash key =
      some (l.lookup (OverlayBase.baseId base) (OverlayBase.baseLen base) key) := by
  have filtered : ∀ id, (if ov.isDead id = true then none else some id) =
      (some id).filter fun i => decide (i ∉ l.retired) := by
    intro id
    rw [shows.dead, Option.filter_some]
    by_cases retired : id ∈ l.retired <;> simp [retired]
  rw [Overlay.id, shows.baseIs, Ledger.lookup, Ledger.holds]
  cases OverlayBase.baseId base key with
  | some id => exact congrArg some (filtered id)
  | none =>
      simp only
      rw [shows.arena.addedIndex]
      simp only [Option.bind_eq_bind, Option.bind_some]
      by_cases entered : key ∈ l.entered
      · rw [if_pos entered, if_pos entered]
        exact congrArg some (filtered _)
      · rw [if_neg entered, if_neg entered]
        rfl

/-- Reviving an id is what the ledger does for a key that holds it. -/
theorem Represents.revive (bounded : BoundedBase base) {key : String} {id : Nat}
    (held : l.holds (OverlayBase.baseId base) (OverlayBase.baseLen base) key = some id) :
    (ov.revive id).1 = (l.enter (OverlayBase.baseId base) (OverlayBase.baseLen base) key).1 ∧
      Represents hash base (ov.revive id).2
        (l.enter (OverlayBase.baseId base) (OverlayBase.baseLen base) key).2 := by
  have after : l.enter (OverlayBase.baseId base) (OverlayBase.baseLen base) key =
      (id, { l with retired := l.retired.erase id }) := by
    rw [Ledger.enter, held]
  have liveAfter := Ledger.liveSet_enter bounded shows.sound key
  have soundAfter := shows.sound.enter key
  rw [after] at liveAfter soundAfter ⊢
  rw [Overlay.revive]
  by_cases dead : ov.isDead id = true
  · rw [if_pos dead]
    have retired : id ∈ l.retired := by
      rw [shows.dead, decide_eq_true_eq] at dead
      exact dead
    have deadAfter := fun j => isDead_setDead ov id j false
    obtain ⟨words, marked⟩ := setDead_eq ov id false
    rw [marked] at deadAfter ⊢
    refine ⟨rfl, shows.baseIs, shows.arena.marked _ _, fun j => ?_, ?_, soundAfter⟩
    · refine (deadAfter j).trans ?_
      rw [shows.dead]
      by_cases here : j = id <;> simp [here]
    · change ov.live + 1 = _
      rw [shows.live, liveAfter, Finset.card_insert_of_notMem]
      rw [Ledger.mem_liveSet]
      exact fun live => live.2 retired
  · rw [if_neg dead]
    have notRetired : id ∉ l.retired := by
      rw [shows.dead, decide_eq_true_eq] at dead
      exact dead
    have same : { l with retired := l.retired.erase id } = l := by
      rw [Finset.erase_eq_of_notMem notRetired]
    rw [same]
    exact ⟨rfl, shows⟩

/-- An addition enters the key; where it is none, it did not fit. -/
theorem Represents.add (bounded : BoundedBase base) (key : String) :
    (¬ Roomy ov key ∧ ov.add hash key = none ∧
        l.holds (OverlayBase.baseId base) (OverlayBase.baseLen base) key = none) ∨
      ∃ after, ov.add hash key =
          some ((l.enter (OverlayBase.baseId base) (OverlayBase.baseLen base) key).1, after) ∧
        Represents hash base after
          (l.enter (OverlayBase.baseId base) (OverlayBase.baseLen base) key).2 := by
  rw [Overlay.add, shows.baseIs]
  cases owned : OverlayBase.baseId base key with
  | some id =>
      obtain ⟨answer, now⟩ := shows.revive bounded (Ledger.holds_own owned)
      exact Or.inr ⟨_, congrArg some (Prod.ext answer rfl), now⟩
  | none =>
      simp only
      rw [shows.arena.addedIndex]
      simp only [Option.bind_eq_bind, Option.bind_some]
      by_cases entered : key ∈ l.entered
      · rw [if_pos entered]
        obtain ⟨answer, now⟩ := shows.revive bounded (Ledger.holds_entered owned entered)
        exact Or.inr ⟨_, congrArg some (Prod.ext answer rfl), now⟩
      · rw [if_neg entered]
        have unheld := (@Ledger.holds_eq_none _ _ _ (OverlayBase.baseLen base) l key).mpr ⟨owned, entered⟩
        have after : l.enter (OverlayBase.baseId base) (OverlayBase.baseLen base) key =
            (l.space (OverlayBase.baseLen base), { l with entered := l.entered ++ [key] }) := by
          rw [Ledger.enter, unheld]
        rcases shows.arena.pushAdded entered with ⟨crowded, result⟩ |
          ⟨pushed, result, _, arena, baseIs, deadIs⟩
        · rw [result]
          exact Or.inl ⟨crowded, rfl, unheld⟩
        · have liveAfter := Ledger.liveSet_enter bounded shows.sound key
          have soundAfter := shows.sound.enter key
          rw [after] at liveAfter soundAfter ⊢
          right
          rw [result, shows.idSpace]
          refine ⟨_, rfl, baseIs.trans shows.baseIs, ?_, fun j => ?_, ?_, soundAfter⟩
          · exact arena.marked _ _
          · rw [← shows.dead, isDead, isDead, ← deadIs]
          · change ov.live + 1 = _
            rw [shows.live, liveAfter, Finset.card_insert_of_notMem]
            rw [Ledger.mem_liveSet]
            exact fun live => Nat.lt_irrefl _ live.1

/-- Retiring an id is what the ledger does, and the counter has room for it. -/
theorem Represents.retireId (id : Nat) :
    ∃ after, ov.retireId id = some ((l.retire (OverlayBase.baseLen base) id).1, after) ∧
      Represents hash base after (l.retire (OverlayBase.baseLen base) id).2 := by
  have liveAfter := @Ledger.liveSet_retire _ (OverlayBase.baseLen base) l id
  have soundAfter := shows.sound.retire id
  rw [Overlay.retireId, shows.idSpace, shows.dead]
  rw [Ledger.retire] at liveAfter soundAfter ⊢
  by_cases live : l.Live (OverlayBase.baseLen base) id
  · rw [if_pos live] at liveAfter soundAfter ⊢
    have member := Ledger.mem_liveSet.mpr live
    have positive : 0 < ov.live := by
      rw [shows.live]
      exact Finset.card_pos.mpr ⟨id, member⟩
    rw [if_neg (by rw [decide_eq_true_eq, not_or, Nat.not_le]; exact live), if_neg (by omega)]
    have deadAfter := fun j => isDead_setDead ov id j true
    obtain ⟨words, marked⟩ := setDead_eq ov id true
    rw [marked] at deadAfter ⊢
    refine ⟨_, rfl, shows.baseIs, shows.arena.marked _ _, fun j => ?_, ?_, soundAfter⟩
    · refine (deadAfter j).trans ?_
      rw [shows.dead]
      by_cases here : j = id <;> simp [here]
    · change ov.live - 1 = _
      rw [liveAfter, shows.live, Finset.card_erase_of_mem member]
  · rw [if_neg live] at liveAfter soundAfter ⊢
    refine ⟨ov, if_pos ?_, shows⟩
    rw [decide_eq_true_eq]
    by_contra both
    rw [not_or, Nat.not_le] at both
    exact live both

/-- Removing a key retires the id it is live under. -/
theorem Represents.remove (key : String) :
    match l.lookup (OverlayBase.baseId base) (OverlayBase.baseLen base) key with
    | some id => ∃ after, ov.remove hash key =
          some ((l.retire (OverlayBase.baseLen base) id).1, after) ∧
        Represents hash base after (l.retire (OverlayBase.baseLen base) id).2
    | none => ov.remove hash key = some (false, ov) := by
  rw [Overlay.remove, shows.id]
  cases l.lookup (OverlayBase.baseId base) (OverlayBase.baseLen base) key with
  | some id => exact shows.retireId id
  | none => rfl

end Represented

end Overlay

end Lexindex
