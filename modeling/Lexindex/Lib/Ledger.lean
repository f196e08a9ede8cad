import Mathlib

/-!
# A ledger of issued numbers

Numbers are issued once and in order.  Some keys own a number from the start, by a
function that may answer for a key nobody ever gave a number; any other key is
issued the next number when it is first entered, and keeps it.  A number is retired
and revived; it is never issued again.
-/

set_option autoImplicit false

namespace Lexindex

universe u

/-- The keys entered, in the order of their numbers, and the numbers retired. -/
structure Ledger (κ : Type u) where
  entered : List κ
  retired : Finset Nat

namespace Ledger

variable {κ : Type u}

/-- How many numbers have been issued, the first `first` of them from the start. -/
def space (l : Ledger κ) (first : Nat) : Nat :=
  first + l.entered.length

def Live (l : Ledger κ) (first i : Nat) : Prop :=
  i < l.space first ∧ i ∉ l.retired

instance (l : Ledger κ) (first i : Nat) : Decidable (l.Live first i) :=
  inferInstanceAs (Decidable (_ ∧ _))

def liveSet (l : Ledger κ) (first : Nat) : Finset Nat :=
  (Finset.range (l.space first)).filter fun i => i ∉ l.retired

@[simp] theorem mem_liveSet {l : Ledger κ} {first i : Nat} :
    i ∈ l.liveSet first ↔ l.Live first i := by
  rw [liveSet, Finset.mem_filter, Finset.mem_range]
  rfl

variable [DecidableEq κ] (own : κ → Option Nat) (first : Nat)

/-- The number of a key, live or retired. -/
def holds (l : Ledger κ) (k : κ) : Option Nat :=
  match own k with
  | some i => some i
  | none => if k ∈ l.entered then some (first + l.entered.idxOf k) else none

/-- The number of a live key. -/
def lookup (l : Ledger κ) (k : κ) : Option Nat :=
  (l.holds own first k).filter fun i => decide (i ∉ l.retired)

def enter (l : Ledger κ) (k : κ) : Nat × Ledger κ :=
  match l.holds own first k with
  | some i => (i, { l with retired := l.retired.erase i })
  | none => (l.space first, { l with entered := l.entered ++ [k] })

def retire (l : Ledger κ) (i : Nat) : Bool × Ledger κ :=
  if l.Live first i then (true, { l with retired := insert i l.retired }) else (false, l)

/-- What happens to a ledger. -/
inductive Change (κ : Type u)
  | enter (k : κ)
  | retire (i : Nat)

def apply (l : Ledger κ) : Change κ → Ledger κ
  | .enter k => (l.enter own first k).2
  | .retire i => (l.retire first i).2

def run (l : Ledger κ) (changes : List (Change κ)) : Ledger κ :=
  changes.foldl (apply own first) l

/-! ## A sound ledger -/

/-- No key is entered twice or beside a number of its own, and only issued numbers are retired. -/
structure Sound (l : Ledger κ) : Prop where
  nodup : l.entered.Nodup
  strangers : ∀ k ∈ l.entered, own k = none
  issued : ∀ i ∈ l.retired, i < l.space first

omit [DecidableEq κ] in
theorem sound_start : Sound own first { entered := ([] : List κ), retired := ∅ } :=
  ⟨List.nodup_nil, by simp, by simp⟩

variable {own first} {l : Ledger κ}

theorem holds_own {k : κ} {i : Nat} (owned : own k = some i) : l.holds own first k = some i := by
  rw [holds, owned]

theorem holds_entered {k : κ} (stranger : own k = none) (entered : k ∈ l.entered) :
    l.holds own first k = some (first + l.entered.idxOf k) := by
  rw [holds, stranger]
  exact if_pos entered

theorem holds_eq_none {k : κ} : l.holds own first k = none ↔ own k = none ∧ k ∉ l.entered := by
  rw [holds]
  cases own k with
  | some i => simp
  | none => simp

theorem holds_lt (bounded : ∀ k i, own k = some i → i < first) {k : κ} {i : Nat}
    (held : l.holds own first k = some i) : i < l.space first := by
  rw [space]
  cases owned : own k with
  | some j =>
      rw [holds_own owned, Option.some.injEq] at held
      have := bounded k j owned
      omega
  | none =>
      by_cases entered : k ∈ l.entered
      · rw [holds_entered owned entered, Option.some.injEq] at held
        have := List.idxOf_lt_length_of_mem entered
        omega
      · rw [holds_eq_none.mpr ⟨owned, entered⟩] at held
        cases held

theorem lookup_eq_some {k : κ} {i : Nat} :
    l.lookup own first k = some i ↔ l.holds own first k = some i ∧ i ∉ l.retired := by
  rw [lookup, Option.filter_eq_some_iff]
  simp

/-! ## One change -/

theorem Sound.enter (sound : Sound own first l) (k : κ) :
    Sound own first (l.enter own first k).2 := by
  rw [Ledger.enter]
  cases held : l.holds own first k with
  | some i =>
      refine ⟨sound.nodup, sound.strangers, fun j member => ?_⟩
      exact sound.issued j (Finset.mem_of_mem_erase member)
  | none =>
      obtain ⟨stranger, fresh⟩ := holds_eq_none.mp held
      refine ⟨?_, ?_, fun j member => ?_⟩
      · rw [List.nodup_append]
        refine ⟨sound.nodup, List.nodup_singleton k, ?_⟩
        rintro a aMember b bMember rfl
        rw [List.mem_singleton] at bMember
        exact fresh (bMember ▸ aMember)
      · intro a member
        rcases List.mem_append.mp member with earlier | last
        · exact sound.strangers a earlier
        · rw [List.mem_singleton] at last
          rw [last, stranger]
      · have issued := sound.issued j member
        rw [space] at *
        rw [List.length_append]
        omega

omit [DecidableEq κ] in
theorem Sound.retire (sound : Sound own first l) (i : Nat) :
    Sound own first (l.retire first i).2 := by
  rw [Ledger.retire]
  split
  · next live =>
    refine ⟨sound.nodup, sound.strangers, fun j member => ?_⟩
    rcases Finset.mem_insert.mp member with rfl | earlier
    · exact live.1
    · exact sound.issued j earlier
  · exact sound

/-- Entering a key answers the number it holds from then on, and that number is live. -/
theorem lookup_enter (sound : Sound own first l) (k : κ) :
    (l.enter own first k).2.lookup own first k = some (l.enter own first k).1 := by
  rw [lookup_eq_some, Ledger.enter]
  cases held : l.holds own first k with
  | some i =>
      refine ⟨?_, Finset.notMem_erase i l.retired⟩
      exact held
  | none =>
      obtain ⟨stranger, fresh⟩ := holds_eq_none.mp held
      constructor
      · rw [holds_entered stranger (List.mem_append_right _ List.mem_cons_self),
          List.idxOf_append_of_notMem fresh]
        simp [space]
      · intro member
        exact Nat.lt_irrefl _ (sound.issued _ member)

/-- Entering a key gives it the number answered, and no other key any. -/
theorem holds_enter_other {k other : κ} (apart : other ≠ k) :
    (l.enter own first k).2.holds own first other = l.holds own first other := by
  rw [Ledger.enter]
  cases l.holds own first k with
  | some j => rfl
  | none =>
      rw [holds, holds]
      cases own other with
      | some i => rfl
      | none =>
          by_cases entered : other ∈ l.entered
          · rw [if_pos entered]
            simp only [List.mem_append, entered, true_or, if_true]
            rw [List.idxOf_append_of_mem entered]
          · rw [if_neg entered]
            simp [entered, apart]

/-- A key that holds a number keeps it. -/
theorem holds_enter {k : κ} {i : Nat} (other : κ) (held : l.holds own first k = some i) :
    (l.enter own first other).2.holds own first k = some i := by
  by_cases here : k = other
  · subst here
    rw [Ledger.enter, held]
    exact held
  · rw [holds_enter_other here, held]

theorem holds_retire {k : κ} (i : Nat) :
    (l.retire first i).2.holds own first k = l.holds own first k := by
  rw [Ledger.retire]
  split <;> rfl

omit [DecidableEq κ] in
/-- Retiring a number changes whether it is live, and of no other number. -/
theorem live_retire (i j : Nat) :
    (l.retire first i).2.Live first j ↔ l.Live first j ∧ j ≠ i := by
  rw [Ledger.retire]
  by_cases live : l.Live first i
  · rw [if_pos live]
    simp only [Live, space, Finset.mem_insert, not_or]
    exact ⟨fun both => ⟨⟨both.1, both.2.2⟩, both.2.1⟩, fun both => ⟨both.1.1, both.2, both.1.2⟩⟩
  · rw [if_neg live]
    constructor
    · intro jLive
      refine ⟨jLive, ?_⟩
      rintro rfl
      exact live jLive
    · exact fun both => both.1

omit [DecidableEq κ] in
theorem retire_true_iff (i : Nat) : (l.retire first i).1 = true ↔ l.Live first i := by
  rw [Ledger.retire]
  split <;> simp_all

/-- Entering a key makes the number it answers live, and leaves every other as it was. -/
theorem live_enter (bounded : ∀ k i, own k = some i → i < first) (sound : Sound own first l)
    (k : κ) (j : Nat) :
    (l.enter own first k).2.Live first j ↔ l.Live first j ∨ j = (l.enter own first k).1 := by
  rw [Ledger.enter]
  cases held : l.holds own first k with
  | some i =>
      have issued := holds_lt bounded held
      simp only [Live, space, Finset.mem_erase, not_and] at *
      constructor
      · rintro ⟨jLt, live⟩
        by_cases here : j = i
        · exact Or.inr here
        · exact Or.inl ⟨jLt, live here⟩
      · rintro (⟨jLt, live⟩ | rfl)
        · exact ⟨jLt, fun _ member => live member⟩
        · exact ⟨issued, fun apart => (apart rfl).elim⟩
  | none =>
      simp only [Live, space, List.length_append, List.length_singleton]
      constructor
      · rintro ⟨jLt, live⟩
        by_cases here : j = first + l.entered.length
        · exact Or.inr here
        · exact Or.inl ⟨by omega, live⟩
      · rintro (⟨jLt, live⟩ | rfl)
        · exact ⟨by omega, live⟩
        · refine ⟨by omega, fun member => ?_⟩
          exact Nat.lt_irrefl _ (sound.issued _ member)

theorem liveSet_enter (bounded : ∀ k i, own k = some i → i < first) (sound : Sound own first l)
    (k : κ) : (l.enter own first k).2.liveSet first =
      insert (l.enter own first k).1 (l.liveSet first) := by
  ext j
  rw [mem_liveSet, Finset.mem_insert, mem_liveSet, live_enter bounded sound, or_comm]

omit [DecidableEq κ] in
theorem liveSet_retire (i : Nat) :
    (l.retire first i).2.liveSet first = (l.liveSet first).erase i := by
  ext j
  rw [mem_liveSet, Finset.mem_erase, mem_liveSet, live_retire, and_comm]

theorem lookup_live (bounded : ∀ k i, own k = some i → i < first) {k : κ} {i : Nat} :
    l.lookup own first k = some i ↔ l.holds own first k = some i ∧ l.Live first i := by
  rw [lookup_eq_some]
  exact ⟨fun found => ⟨found.1, holds_lt bounded found.1, found.2⟩,
    fun found => ⟨found.1, found.2.2⟩⟩

/-- Retiring a number takes it from the key that holds it, and from no other. -/
theorem lookup_retire (bounded : ∀ k i, own k = some i → i < first) (i : Nat) (k : κ) :
    (l.retire first i).2.lookup own first k =
      (l.lookup own first k).filter fun j => decide (j ≠ i) := by
  apply Option.ext
  intro j
  rw [lookup_live bounded, Option.filter_eq_some_iff, lookup_live bounded, holds_retire,
    live_retire, decide_eq_true_eq]
  tauto

/-! ## Runs -/

theorem Sound.run (sound : Sound own first l) (changes : List (Change κ)) :
    Sound own first (l.run own first changes) := by
  induction changes generalizing l with
  | nil => exact sound
  | cons change rest ih =>
      apply ih
      cases change with
      | enter k => exact sound.enter k
      | retire i => exact sound.retire i

/-- A key keeps its number over every run. -/
theorem holds_run {k : κ} {i : Nat} (held : l.holds own first k = some i)
    (changes : List (Change κ)) : (l.run own first changes).holds own first k = some i := by
  induction changes generalizing l with
  | nil => exact held
  | cons change rest ih =>
      apply ih
      cases change with
      | enter other => exact holds_enter other held
      | retire j => exact (holds_retire j).trans held

/-- A live number stays live over a run that does not retire it. -/
theorem live_run (bounded : ∀ k i, own k = some i → i < first) (sound : Sound own first l) {i : Nat}
    (live : l.Live first i) {changes : List (Change κ)} (kept : Change.retire i ∉ changes) :
    (l.run own first changes).Live first i := by
  induction changes generalizing l with
  | nil => exact live
  | cons change rest ih =>
      rw [List.mem_cons, not_or] at kept
      cases change with
      | enter k =>
          exact ih (sound.enter k) ((live_enter bounded sound k i).mpr (Or.inl live)) kept.2
      | retire j =>
          refine ih (sound.retire j) ((live_retire j i).mpr ⟨live, ?_⟩) kept.2
          rintro rfl
          exact kept.1 rfl

theorem space_run_le (changes : List (Change κ)) :
    l.space first ≤ (l.run own first changes).space first := by
  induction changes generalizing l with
  | nil => exact Nat.le_refl _
  | cons change rest ih =>
      refine Nat.le_trans ?_ ih
      cases change with
      | enter k =>
          change l.space first ≤ (l.enter own first k).2.space first
          rw [Ledger.enter]
          split
          · exact Nat.le_refl _
          · simp only [space, List.length_append, List.length_singleton]
            omega
      | retire i =>
          change l.space first ≤ (l.retire first i).2.space first
          rw [Ledger.retire]
          split <;> exact Nat.le_refl _

/-- No two keys hold one number, unless it is their own. -/
theorem holds_inj (bounded : ∀ k i, own k = some i → i < first) {k other : κ} {i : Nat}
    (stranger : own k = none) (held : l.holds own first k = some i)
    (otherHeld : l.holds own first other = some i) : other = k := by
  have entered : k ∈ l.entered := by
    by_contra fresh
    rw [holds_eq_none.mpr ⟨stranger, fresh⟩] at held
    cases held
  rw [holds_entered stranger entered, Option.some.injEq] at held
  cases owned : own other with
  | some j =>
      rw [holds_own owned, Option.some.injEq] at otherHeld
      have := bounded other j owned
      omega
  | none =>
      by_cases otherEntered : other ∈ l.entered
      · rw [holds_entered owned otherEntered, Option.some.injEq] at otherHeld
        exact (List.idxOf_inj otherEntered).mp (by omega)
      · rw [holds_eq_none.mpr ⟨owned, otherEntered⟩] at otherHeld
        cases otherHeld

end Ledger

end Lexindex
