import Mathlib
import Lexindex.Overlay.Refines

/-!
# Runs of edits

Over any base, a key keeps the id it was given until that very id is retired, and no
other key is issued it.  Over an exact base the live keys are those of a catalog that
numbers every key once and knows nothing of arenas, lookups or bits.
-/

set_option autoImplicit false

namespace Lexindex.Overlay

variable {I : Type}

/-- An edit there is over every base: only a removal by key needs exact membership. -/
def Edit.OnAnyBase : Edit → Prop
  | .remove _ => False
  | _ => True

section Run

variable [OverlayBase I] {hash : List UInt8 → UInt64}

/-- What an edit does to the ledger of an overlay over `base`. -/
def ledgerStep (base : I) (l : Ledger String) : Edit → Ledger String
  | .add key => (l.enter (OverlayBase.baseId base) (OverlayBase.baseLen base) key).2
  | .retireId id => (l.retire (OverlayBase.baseLen base) id).2
  | .remove key =>
      match l.lookup (OverlayBase.baseId base) (OverlayBase.baseLen base) key with
      | some id => (l.retire (OverlayBase.baseLen base) id).2
      | none => l

variable {base : I} {ov : Overlay I} {l : Ledger String}

/-- An edit is a change of the ledger; where it panics it is an addition that does not fit. -/
theorem Represents.step (bounded : BoundedBase base) (shows : Represents hash base ov l)
    (edit : Edit) :
    (∃ after, ov.step hash edit = some after ∧
        Represents hash base after (ledgerStep base l edit)) ∨
      (ov.step hash edit = none ∧ ∃ key, edit = .add key ∧ ¬ Roomy ov key) := by
  cases edit with
  | add key =>
      rcases shows.add bounded key with ⟨crowded, result, _⟩ | ⟨after, result, now⟩
      · refine Or.inr ⟨?_, key, rfl, crowded⟩
        rw [Overlay.step, result]
        rfl
      · refine Or.inl ⟨after, ?_, now⟩
        rw [Overlay.step, result]
        rfl
  | retireId id =>
      obtain ⟨after, result, now⟩ := shows.retireId id
      refine Or.inl ⟨after, ?_, now⟩
      rw [Overlay.step, result]
      rfl
  | remove key =>
      have removed := shows.remove key
      left
      rw [Overlay.step, ledgerStep]
      cases looked : l.lookup (OverlayBase.baseId base) (OverlayBase.baseLen base) key with
      | some id =>
          rw [looked] at removed
          obtain ⟨after, result, now⟩ := removed
          refine ⟨after, ?_, now⟩
          rw [result]
          rfl
      | none =>
          rw [looked] at removed
          refine ⟨ov, ?_, shows⟩
          rw [removed]
          rfl

theorem Represents.run (bounded : BoundedBase base) :
    ∀ {edits : List Edit} {ov after : Overlay I} {l : Ledger String}, Represents hash base ov l →
      ov.run hash edits = some after →
      Represents hash base after (edits.foldl (ledgerStep base) l) := by
  intro edits
  induction edits with
  | nil =>
      intro ov after l shows reached
      rw [Overlay.run, Option.some.injEq] at reached
      rw [← reached]
      exact shows
  | cons edit rest ih =>
      intro ov after l shows reached
      rw [Overlay.run] at reached
      rcases shows.step bounded edit with ⟨next, result, now⟩ | ⟨result, _⟩
      · rw [result] at reached
        exact ih now reached
      · rw [result] at reached
        cases reached

/-- The ledger of a run has changed by changes; without removals, by the retirements asked for. -/
theorem ledger_changes (base : I) (edits : List Edit) (l : Ledger String) :
    ∃ changes, edits.foldl (ledgerStep base) l =
        l.run (OverlayBase.baseId base) (OverlayBase.baseLen base) changes ∧
      ((∀ edit ∈ edits, edit.OnAnyBase) →
        ∀ id, Ledger.Change.retire id ∈ changes → Edit.retireId id ∈ edits) := by
  induction edits generalizing l with
  | nil => exact ⟨[], rfl, by simp⟩
  | cons edit rest ih =>
      obtain ⟨changes, result, retired⟩ := ih (ledgerStep base l edit)
      rw [List.foldl_cons, result]
      have later : (∀ edit' ∈ edit :: rest, edit'.OnAnyBase) → ∀ id,
          Ledger.Change.retire id ∈ changes → Edit.retireId id ∈ edit :: rest :=
        fun plain id member => List.mem_cons_of_mem _
          (retired (fun edit' inRest => plain edit' (List.mem_cons_of_mem _ inRest)) id member)
      cases edit with
      | add key =>
          refine ⟨.enter key :: changes, rfl, fun plain id member => ?_⟩
          rcases List.mem_cons.mp member with here | more
          · cases here
          · exact later plain id more
      | retireId j =>
          refine ⟨.retire j :: changes, rfl, fun plain id member => ?_⟩
          rcases List.mem_cons.mp member with here | more
          · cases here
            exact List.mem_cons_self
          · exact later plain id more
      | remove key =>
          rw [ledgerStep]
          cases l.lookup (OverlayBase.baseId base) (OverlayBase.baseLen base) key with
          | some j =>
              exact ⟨.retire j :: changes, rfl, fun plain => (plain _ List.mem_cons_self).elim⟩
          | none => exact ⟨changes, rfl, fun plain => (plain _ List.mem_cons_self).elim⟩

/-- Only a key an edit added is in the arena. -/
theorem entered_of_edits (base : I) (edits : List Edit) (l : Ledger String) (key : String) :
    key ∈ (edits.foldl (ledgerStep base) l).entered → key ∈ l.entered ∨ Edit.add key ∈ edits := by
  induction edits generalizing l with
  | nil => exact Or.inl
  | cons edit rest ih =>
      intro member
      rcases ih (ledgerStep base l edit) member with now | later
      · have retired : ∀ id, (l.retire (OverlayBase.baseLen base) id).2.entered = l.entered := by
          intro id
          rw [Ledger.retire]
          split <;> rfl
        cases edit with
        | add other =>
            rw [ledgerStep, Ledger.enter] at now
            split at now
            · exact Or.inl now
            · rcases List.mem_append.mp now with old | new
              · exact Or.inl old
              · rw [List.mem_singleton.mp new]
                exact Or.inr List.mem_cons_self
        | retireId id =>
            rw [ledgerStep, retired] at now
            exact Or.inl now
        | remove other =>
            rw [ledgerStep] at now
            split at now
            · rw [retired] at now
              exact Or.inl now
            · exact Or.inl now
      · exact Or.inr (List.mem_cons_of_mem _ later)

/-! ## Any base -/

/-- What an overlay promises over any base, after the edits `edits`. -/
structure KeepsIds (hash : List UInt8 → UInt64) (edits : List Edit) (ov : Overlay I) : Prop where
  /-- A key keeps the id it was given until that id is retired. -/
  kept : ∀ key id after more later, ov.add hash key = some (id, after) →
    (∀ edit ∈ more, edit.OnAnyBase) → Edit.retireId id ∉ more →
    after.run hash more = some later → later.id hash key = some (some id)
  /-- A key the base does not answer and nobody added takes the next id. -/
  appended : ∀ key id after, OverlayBase.baseId ov.base key = none → Edit.add key ∉ edits →
    ov.add hash key = some (id, after) → id = ov.idSpace ∧ OverlayBase.baseLen ov.base ≤ id
  /-- The id of a key the base does not answer is never another key's, before or after. -/
  unshared : ∀ key id after, OverlayBase.baseId ov.base key = none →
    ov.add hash key = some (id, after) → ∀ other, other ≠ key →
      ov.id hash other ≠ some (some id) ∧
      ∀ more later otherId last, (∀ edit ∈ more, edit.OnAnyBase) →
        after.run hash more = some later → later.add hash other = some (otherId, last) →
        otherId ≠ id
  /-- Retiring an id answers whether it was issued and live, and changes that and no more. -/
  retired : ∀ id, ∃ after, ov.retireId id = some (ov.isLive id, after) ∧
    after.idSpace = ov.idSpace ∧ (∀ j, after.isLive j = (ov.isLive j && decide (j ≠ id))) ∧
    ∀ key, after.id hash key = (ov.id hash key).map fun held => held.filter fun j => decide (j ≠ id)
  counted : ov.len = ((Finset.range ov.idSpace).filter fun id => ov.isLive id = true).card
  /-- An addition returns whenever the arena has room for the key. -/
  returns : ∀ key, Roomy ov key → ov.add hash key ≠ none

theorem Represents.keepsIds (bounded : BoundedBase base) {edits : List Edit}
    (shows : Represents hash base ov (edits.foldl (ledgerStep base) { entered := [], retired := ∅ })) :
    KeepsIds hash edits ov := by
  generalize ledgerIs : edits.foldl (ledgerStep base) { entered := [], retired := ∅ } = l at shows
  have added : ∀ {key id after}, ov.add hash key = some (id, after) →
      (l.enter (OverlayBase.baseId base) (OverlayBase.baseLen base) key).1 = id ∧
        Represents hash base after
          (l.enter (OverlayBase.baseId base) (OverlayBase.baseLen base) key).2 := by
    intro key id after result
    rcases shows.add bounded key with ⟨_, none, _⟩ | ⟨now, found, represents⟩
    · rw [none] at result
      cases result
    · rw [result, Option.some.injEq, Prod.mk.injEq] at found
      exact ⟨found.1.symm, found.2 ▸ represents⟩
  refine ⟨?_, ?_, ?_, ?_, ?_, ?_⟩
  · intro key id after more later result plain notRetired reached
    obtain ⟨rfl, now⟩ := added result
    have final := now.run bounded reached
    obtain ⟨changes, changed, retires⟩ := ledger_changes base more
      (l.enter (OverlayBase.baseId base) (OverlayBase.baseLen base) key).2
    have answered := (Ledger.lookup_eq_some.mp (Ledger.lookup_enter shows.sound key)).1
    have live := (Ledger.live_enter bounded shows.sound key _).mpr (Or.inr rfl)
    rw [changed] at final
    rw [final.id, Option.some.injEq, Ledger.lookup_eq_some]
    refine ⟨Ledger.holds_run answered changes, ?_⟩
    exact (Ledger.live_run bounded (shows.sound.enter key) live
      fun member => notRetired (retires plain _ member)).2
  · intro key id after stranger unadded result
    obtain ⟨rfl, _⟩ := added result
    rw [shows.baseIs] at stranger ⊢
    have fresh : key ∉ l.entered := by
      intro member
      rw [← ledgerIs] at member
      rcases entered_of_edits base edits _ key member with never | later
      · cases never
      · exact unadded later
    rw [Ledger.enter, Ledger.holds_eq_none.mpr ⟨stranger, fresh⟩, shows.idSpace]
    exact ⟨rfl, Nat.le_add_right _ _⟩
  · intro key id after stranger result other apart
    obtain ⟨rfl, now⟩ := added result
    rw [shows.baseIs] at stranger
    have answered := (Ledger.lookup_eq_some.mp (Ledger.lookup_enter shows.sound key)).1
    constructor
    · intro held
      rw [shows.id, Option.some.injEq, Ledger.lookup_eq_some] at held
      exact apart (Ledger.holds_inj bounded stranger answered (Ledger.holds_enter key held.1))
    · rintro more later otherId last plain reached again rfl
      have final := now.run bounded reached
      obtain ⟨changes, changed, _⟩ := ledger_changes base more
        (l.enter (OverlayBase.baseId base) (OverlayBase.baseLen base) key).2
      rw [changed] at final
      rcases final.add bounded other with ⟨_, none, _⟩ | ⟨_, found, _⟩
      · rw [none] at again
        cases again
      · rw [again, Option.some.injEq, Prod.mk.injEq] at found
        have otherAnswered :=
          (Ledger.lookup_eq_some.mp (Ledger.lookup_enter final.sound other)).1
        rw [← found.1] at otherAnswered
        have kept := Ledger.holds_enter other (Ledger.holds_run answered changes)
        exact apart (Ledger.holds_inj bounded stranger kept otherAnswered)
  · intro id
    obtain ⟨after, result, now⟩ := shows.retireId id
    have answer : (l.retire (OverlayBase.baseLen base) id).1 = ov.isLive id := by
      rw [Bool.eq_iff_iff, Ledger.retire_true_iff, shows.isLive, decide_eq_true_eq]
    refine ⟨after, by rw [result, answer], ?_, fun j => ?_, fun key => ?_⟩
    · rw [now.idSpace, shows.idSpace, Ledger.retire]
      split <;> rfl
    · rw [now.isLive, shows.isLive, ← Bool.decide_and, decide_eq_decide, Ledger.live_retire]
    · rw [now.id, shows.id, Option.map_some, Option.some.injEq]
      exact Ledger.lookup_retire bounded id key
  · rw [len, shows.live]
    congr 1
    ext id
    rw [Ledger.mem_liveSet, Finset.mem_filter, Finset.mem_range, shows.isLive, decide_eq_true_eq,
      shows.idSpace]
    exact ⟨fun live => ⟨live.1, live⟩, And.right⟩
  · intro key roomy none
    rcases shows.add bounded key with ⟨crowded, _⟩ | ⟨_, found, _⟩
    · exact crowded roomy
    · rw [none] at found
      cases found

theorem any_base_run (bounded : BoundedBase base) (edits : List Edit)
    (reached : (Overlay.new base).run hash edits = some ov) : KeepsIds hash edits ov :=
  ((represents_new base).run bounded reached).keepsIds bounded

end Run

/-- A base given by what it answers. -/
structure AnsweringBase where
  baseLen : Nat
  baseId : String → Option Nat

instance : OverlayBase AnsweringBase where
  baseLen := AnsweringBase.baseLen
  baseId := AnsweringBase.baseId

/-- A base of one key that answers its id for a stranger too. -/
def oneKeyBase : AnsweringBase where
  baseLen := 1
  baseId key := if key = "a" ∨ key = "b" then some 0 else none

theorem any_base_run_one_key :
    ∃ ov, (Overlay.new oneKeyBase).run (fun _ => 0)
        [.add "c", .add "d", .retireId 0, .add "b", .retireId 2] = some ov ∧
      ov.len = 2 ∧
      KeepsIds (fun _ => 0) [.add "c", .add "d", .retireId 0, .add "b", .retireId 2] ov := by
  have bounded : BoundedBase oneKeyBase := by
    intro key id answered
    change (if key = "a" ∨ key = "b" then some 0 else none) = some id at answered
    split at answered
    · cases answered
      exact Nat.zero_lt_one
    · cases answered
  refine ⟨_, rfl, rfl, any_base_run bounded _ rfl⟩

end Lexindex.Overlay
