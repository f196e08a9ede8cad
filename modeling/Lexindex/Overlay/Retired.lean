import Mathlib
import Lexindex.Overlay.Runs

/-!
# Retired ids

A retired id is live again only through an addition that the id belongs to: of the key
it was issued for, or of a key the base itself answers it for.  A base that answers the
id of another key for a stranger has the stranger revive it.
-/

set_option autoImplicit false

namespace Lexindex.Overlay

variable {I : Type} [OverlayBase I]

/-- The id was issued for the key by an addition of the run `edits`. -/
def IssuedTo (hash : List UInt8 → UInt64) (base : I) (edits : List Edit) (id : Nat)
    (key : String) : Prop :=
  ∃ earlier rest at_ after, edits = earlier ++ .add key :: rest ∧
    (Overlay.new base).run hash earlier = some at_ ∧ at_.idSpace = id ∧
    at_.add hash key = some (id, after) ∧ after.idSpace = id + 1

variable {hash : List UInt8 → UInt64} {base : I}

/-- What a run has made of an overlay: its additions are the keys of its arena, each issued the
next id, and only issued ids are retired. -/
structure Tracks (hash : List UInt8 → UInt64) (base : I) (edits : List Edit) (ov : Overlay I)
    (entered : List String) : Prop where
  baseIs : ov.base = base
  arena : Arena hash ov entered
  issued : ∀ i key, entered[i]? = some key →
    IssuedTo hash base edits (OverlayBase.baseLen base + i) key
  retired : ∀ id, ov.isDead id = true → id < OverlayBase.baseLen base + entered.length

/-- The overlay entered the key at the id. -/
def EnteredAt (base : I) (entered : List String) (id : Nat) (key : String) : Prop :=
  ∃ i, OverlayBase.baseLen base + i = id ∧ entered[i]? = some key

theorem IssuedTo.later {edits : List Edit} {id : Nat} {key : String}
    (issued : IssuedTo hash base edits id key) (more : List Edit) :
    IssuedTo hash base (edits ++ more) id key := by
  obtain ⟨earlier, rest, at_, after, rfl, reached, space, added, grown⟩ := issued
  exact ⟨earlier, rest ++ more, at_, after, by simp, reached, space, added, grown⟩

section Step

variable {edits : List Edit} {ov next : Overlay I} {entered : List String}
  (tracks : Tracks hash base edits ov entered)
include tracks

theorem Tracks.idSpace : ov.idSpace = OverlayBase.baseLen base + entered.length := by
  rw [Overlay.idSpace, tracks.baseIs, tracks.arena.starts, List.length_map, List.length_range]

/-- Marking an id of its own, whichever way, leaves the additions as they are. -/
theorem Tracks.marked (edit : Edit) {id : Nat} {dead : Bool} (live : Nat)
    (inside : dead = true → id < ov.idSpace) :
    Tracks hash base (edits ++ [edit]) { ov.setDead id dead with live := live } entered := by
  have bits := fun j => isDead_setDead ov id j dead
  obtain ⟨words, marked⟩ := setDead_eq ov id dead
  rw [marked] at bits ⊢
  refine ⟨tracks.baseIs, tracks.arena.marked _ _, ?_, fun j retired => ?_⟩
  · exact fun i key listed => (tracks.issued i key listed).later [edit]
  · change Overlay.isDead { ov with dead := words } j = true at retired
    rw [bits] at retired
    split at retired
    · next here =>
      rw [here, ← tracks.idSpace]
      exact inside retired
    · exact tracks.retired j retired

theorem Tracks.same (edit : Edit) : Tracks hash base (edits ++ [edit]) ov entered :=
  ⟨tracks.baseIs, tracks.arena, fun i key listed => (tracks.issued i key listed).later [edit],
    tracks.retired⟩

/-- A revived id is cleared and no other. -/
theorem Tracks.revive (edit : Edit) (id : Nat) :
    Tracks hash base (edits ++ [edit]) (ov.revive id).2 entered ∧
      ∀ j, j ≠ id → (ov.revive id).2.isDead j = ov.isDead j := by
  rw [Overlay.revive]
  split
  · refine ⟨tracks.marked edit _ (by simp), fun j other => ?_⟩
    exact (isDead_setDead ov id j false).trans (if_neg other)
  · exact ⟨tracks.same edit, fun j _ => rfl⟩

theorem Tracks.retireId (edit : Edit) (id : Nat) {answer : Bool}
    (result : ov.retireId id = some (answer, next)) :
    Tracks hash base (edits ++ [edit]) next entered ∧
      ∀ j, ov.isDead j = true → next.isDead j = true := by
  rw [Overlay.retireId] at result
  split at result
  · rw [Option.some.injEq, Prod.mk.injEq] at result
    rw [← result.2]
    exact ⟨tracks.same edit, fun j dead => dead⟩
  · next open_ =>
    split at result
    · cases result
    · rw [Option.some.injEq, Prod.mk.injEq] at result
      rw [← result.2]
      rw [not_or, Nat.not_le] at open_
      refine ⟨tracks.marked edit _ fun _ => open_.1, fun j dead => ?_⟩
      refine (isDead_setDead ov id j true).trans ?_
      split
      · rfl
      · exact dead

/-- An edit of a run keeps what it tracks, and clears no id but one that belongs to the key it
adds. -/
theorem Tracks.step (reached : (Overlay.new base).run hash edits = some ov) {edit : Edit}
    (result : ov.step hash edit = some next) :
    (∃ more, Tracks hash base (edits ++ [edit]) next (entered ++ more)) ∧
      ∀ id, ov.isDead id = true → next.isDead id = false → ∃ key, edit = .add key ∧
        (OverlayBase.baseId base key = some id ∨ EnteredAt base entered id key) := by
  have cleared : ∀ {key : String} {j : Nat}, (∀ i, i ≠ j → next.isDead i = ov.isDead i) →
      (OverlayBase.baseId base key = some j ∨ EnteredAt base entered j key) →
      ∀ id, ov.isDead id = true → next.isDead id = false →
        OverlayBase.baseId base key = some id ∨ EnteredAt base entered id key := by
    intro key j others belongs id dead live
    by_cases here : id = j
    · exact here ▸ belongs
    · rw [others id here, dead] at live
      cases live
  cases edit with
  | retireId id =>
      obtain ⟨⟨answer, after⟩, retired, rfl⟩ := Option.map_eq_some_iff.mp result
      obtain ⟨now, kept⟩ := tracks.retireId (.retireId id) id retired
      refine ⟨⟨[], entered.append_nil.symm ▸ now⟩, fun j dead live => ?_⟩
      rw [kept j dead] at live
      cases live
  | remove key =>
      obtain ⟨⟨answer, after⟩, removed, rfl⟩ := Option.map_eq_some_iff.mp result
      rw [Overlay.remove] at removed
      obtain ⟨held, -, removed⟩ := Option.bind_eq_some_iff.mp removed
      cases held with
      | none =>
          rw [Option.some.injEq, Prod.mk.injEq] at removed
          rw [← removed.2]
          refine ⟨⟨[], entered.append_nil.symm ▸ tracks.same _⟩, fun j dead live => ?_⟩
          rw [dead] at live
          cases live
      | some id =>
          obtain ⟨now, kept⟩ := tracks.retireId (.remove key) id removed
          refine ⟨⟨[], entered.append_nil.symm ▸ now⟩, fun j dead live => ?_⟩
          rw [kept j dead] at live
          cases live
  | add key =>
      obtain ⟨⟨id, after⟩, added, rfl⟩ := Option.map_eq_some_iff.mp result
      have again := added
      rw [Overlay.add, tracks.baseIs] at added
      cases owned : OverlayBase.baseId base key with
      | some j =>
          rw [owned, Option.some.injEq] at added
          obtain ⟨now, others⟩ := tracks.revive (.add key) j
          rw [added] at now others
          exact ⟨⟨[], entered.append_nil.symm ▸ now⟩, fun i dead live =>
            ⟨key, rfl, owned ▸ cleared others (.inl owned) i dead live⟩⟩
      | none =>
          rw [owned] at added
          simp only [tracks.arena.addedIndex, Option.bind_eq_bind, Option.bind_some] at added
          by_cases isEntered : key ∈ entered
          · rw [if_pos isEntered] at added
            simp only [Option.some.injEq] at added
            have listed : entered[entered.idxOf key]? = some key := by
              have inside := List.idxOf_lt_length_of_mem isEntered
              rw [List.getElem?_eq_getElem inside, List.getElem_idxOf inside]
            obtain ⟨now, others⟩ :=
              tracks.revive (.add key) (OverlayBase.baseLen base + entered.idxOf key)
            rw [added] at now others
            refine ⟨⟨[], entered.append_nil.symm ▸ now⟩, fun i dead live => ⟨key, rfl, ?_⟩⟩
            exact owned ▸ cleared others (.inr ⟨_, rfl, listed⟩) i dead live
          · rw [if_neg isEntered] at added
            simp only at added
            rcases tracks.arena.pushAdded isEntered with ⟨-, none⟩ |
              ⟨pushed, found, -, arena, baseIs, deadIs⟩
            · rw [none] at added
              cases added
            · rw [found, Option.bind_some, Option.some.injEq, Prod.mk.injEq] at added
              obtain ⟨idIs, afterIs⟩ := added
              have bits : ∀ i, after.isDead i = ov.isDead i := by
                intro i
                rw [← afterIs, isDead, isDead, ← deadIs]
              have space := tracks.idSpace
              have tracked : Arena hash after (entered ++ [key]) := by
                rw [← afterIs]
                exact arena.marked _ _
              have afterBase : after.base = base := by
                rw [← afterIs]
                exact baseIs.trans tracks.baseIs
              have grown : after.idSpace = ov.idSpace + 1 := by
                rw [Overlay.idSpace, afterBase, tracked.starts, List.length_map, List.length_range,
                  List.length_append, List.length_singleton, space, Nat.add_assoc]
              refine ⟨⟨[key], afterBase, tracked, fun i other listed => ?_,
                fun i dead => ?_⟩, fun i dead live => ?_⟩
              · by_cases old : i < entered.length
                · rw [List.getElem?_append_left old] at listed
                  exact (tracks.issued i other listed).later _
                · rw [List.getElem?_append_right (Nat.le_of_not_lt old)] at listed
                  have last : i = entered.length := by
                    have inside := (List.getElem?_eq_some_iff.mp listed).1
                    rw [List.length_singleton] at inside
                    omega
                  rw [last, Nat.sub_self, List.getElem?_cons_zero, Option.some.injEq] at listed
                  rw [last, ← space, ← listed]
                  exact ⟨edits, [], ov, after, rfl, reached, rfl, idIs ▸ again, grown⟩
              · rw [bits i] at dead
                have inside := tracks.retired i dead
                rw [List.length_append, List.length_singleton]
                omega
              · rw [bits i, dead] at live
                cases live

end Step

end Lexindex.Overlay
