import Mathlib

/-!
# Order-keeping prefix codes

Two lists diverge where both still run and the first pair of entries that differ
ascends.  A code whose codewords diverge as the symbols they spell ascend keeps the
order of what it spells, its prefixes and its equalities, symbol after symbol.
-/

set_option autoImplicit false

namespace Lexindex

variable {α β : Type}

theorem prefix_flatMap {code : α → List β} {xs ys : List α} (before : xs <+: ys) :
    xs.flatMap code <+: ys.flatMap code := by
  obtain ⟨rest, rfl⟩ := before
  rw [List.flatMap_append]
  exact List.prefix_append _ _

variable [LinearOrder α] [LinearOrder β]

/-- `xs` is below `ys` at an entry that both have. -/
def Diverges (xs ys : List β) : Prop :=
  ∃ shared x xsRest y ysRest,
    xs = shared ++ x :: xsRest ∧ ys = shared ++ y :: ysRest ∧ x < y

theorem Diverges.of_lt {x y : β} (less : x < y) (xs ys : List β) :
    Diverges (x :: xs) (y :: ys) :=
  ⟨[], x, xs, y, ys, rfl, rfl, less⟩

theorem Diverges.cons {xs ys : List β} (diverged : Diverges xs ys) (entry : β) :
    Diverges (entry :: xs) (entry :: ys) := by
  obtain ⟨shared, x, xsRest, y, ysRest, xsExact, ysExact, less⟩ := diverged
  refine ⟨entry :: shared, x, xsRest, y, ysRest, ?_, ?_, less⟩
  · rw [xsExact, List.cons_append]
  · rw [ysExact, List.cons_append]

/-- Heads in order, and tails that diverge where the heads are the same. -/
theorem Diverges.of_le {x y : β} {xs ys : List β} (ordered : x ≤ y)
    (tied : x = y → Diverges xs ys) : Diverges (x :: xs) (y :: ys) := by
  rcases ordered.lt_or_eq with less | same
  · exact .of_lt less xs ys
  · rw [same]
    exact (tied same).cons y

theorem Diverges.map {γ : Type} [LinearOrder γ] {xs ys : List β} (diverged : Diverges xs ys)
    (f : β → γ) (ascends : ∀ x ∈ xs, ∀ y ∈ ys, x < y → f x < f y) :
    Diverges (xs.map f) (ys.map f) := by
  obtain ⟨shared, x, xsRest, y, ysRest, rfl, rfl, less⟩ := diverged
  refine ⟨shared.map f, f x, xsRest.map f, f y, ysRest.map f, ?_, ?_, ?_⟩
  · rw [List.map_append, List.map_cons]
  · rw [List.map_append, List.map_cons]
  · exact ascends x (by simp) y (by simp) less

theorem Diverges.append_left {xs ys : List β} (diverged : Diverges xs ys) (front : List β) :
    Diverges (front ++ xs) (front ++ ys) := by
  induction front with
  | nil => exact diverged
  | cons entry front ih => exact ih.cons entry

theorem Diverges.append_right {xs ys : List β} (diverged : Diverges xs ys)
    (xsTail ysTail : List β) : Diverges (xs ++ xsTail) (ys ++ ysTail) := by
  obtain ⟨shared, x, xsRest, y, ysRest, xsExact, ysExact, less⟩ := diverged
  refine ⟨shared, x, xsRest ++ xsTail, y, ysRest ++ ysTail, ?_, ?_, less⟩
  · rw [xsExact, List.append_assoc, List.cons_append]
  · rw [ysExact, List.append_assoc, List.cons_append]

theorem Diverges.lt {xs ys : List β} (diverged : Diverges xs ys) : xs < ys := by
  obtain ⟨shared, x, xsRest, y, ysRest, xsExact, ysExact, less⟩ := diverged
  rw [xsExact, ysExact]
  exact List.append_left_lt (List.cons_lt_cons_iff.mpr (.inl less))

theorem Diverges.ne {xs ys : List β} (diverged : Diverges xs ys) : xs ≠ ys :=
  diverged.lt.ne

/-- Neither of two lists that diverge carries on from the other. -/
theorem Diverges.prefix_free {xs ys : List β} (diverged : Diverges xs ys) :
    ¬ xs <+: ys ∧ ¬ ys <+: xs := by
  constructor
  · rintro ⟨rest, exact⟩
    have extended := diverged.append_right rest []
    rw [exact, List.append_nil] at extended
    exact extended.ne rfl
  · rintro ⟨rest, exact⟩
    have extended := diverged.append_right [] rest
    rw [exact, List.append_nil] at extended
    exact extended.ne rfl

theorem prefix_or_diverges (xs ys : List β) :
    xs <+: ys ∨ ys <+: xs ∨ Diverges xs ys ∨ Diverges ys xs := by
  induction xs generalizing ys with
  | nil => exact .inl (List.nil_prefix)
  | cons x xs ih =>
      cases ys with
      | nil => exact .inr (.inl List.nil_prefix)
      | cons y ys =>
          rcases lt_trichotomy x y with less | same | more
          · exact .inr (.inr (.inl (.of_lt less xs ys)))
          · subst same
            rcases ih ys with before | after | below | above
            · exact .inl (List.cons_prefix_cons.mpr ⟨rfl, before⟩)
            · exact .inr (.inl (List.cons_prefix_cons.mpr ⟨rfl, after⟩))
            · exact .inr (.inr (.inl (below.cons x)))
            · exact .inr (.inr (.inr (above.cons x)))
          · exact .inr (.inr (.inr (.of_lt more ys xs)))

theorem lt_of_prefixed {xs ys : List β} (before : xs <+: ys) (differ : xs ≠ ys) : xs < ys := by
  obtain ⟨rest, rfl⟩ := before
  cases rest with
  | nil => exact absurd (List.append_nil xs).symm differ
  | cons entry rest =>
      have extended : xs ++ [] < xs ++ entry :: rest :=
        List.append_left_lt (List.nil_lt_cons entry rest)
      rwa [List.append_nil] at extended

theorem le_of_prefixed {xs ys : List β} (before : xs <+: ys) : xs ≤ ys := by
  by_cases same : xs = ys
  · exact le_of_eq same
  · exact (lt_of_prefixed before same).le

theorem append_lt_append_iff (front xs ys : List β) : front ++ xs < front ++ ys ↔ xs < ys := by
  induction front with
  | nil => rfl
  | cons entry front ih => rw [List.cons_append, List.cons_append, List.cons_lt_cons_self, ih]

/-- A list is below another with a given front just where it is below the front, or
shares it and goes on below what the other goes on with. -/
theorem lt_append_iff (key front tail : List β) :
    key < front ++ tail ↔ key < front ∨ ∃ rest, key = front ++ rest ∧ rest < tail := by
  induction front generalizing key with
  | nil => simp
  | cons entry front ih =>
      cases key with
      | nil => simp [List.nil_lt_cons]
      | cons first key =>
          rw [List.cons_append, List.cons_lt_cons_iff, List.cons_lt_cons_iff, ih, and_or_left,
            or_assoc]
          refine or_congr_right (or_congr_right ?_)
          constructor
          · intro ⟨same, rest, keyExact, less⟩
            exact ⟨rest, by rw [same, keyExact, List.cons_append], less⟩
          · intro ⟨rest, keyExact, less⟩
            rw [List.cons_append, List.cons.injEq] at keyExact
            exact ⟨keyExact.1, rest, keyExact.2, less⟩

/-- The codewords of the symbols spelled are not empty and diverge as the symbols ascend. -/
structure PrefixCode (code : α → List β) (spelled : α → Prop) : Prop where
  nonempty : ∀ a, spelled a → code a ≠ []
  ascends : ∀ a b, spelled a → spelled b → a < b → Diverges (code a) (code b)

namespace PrefixCode

variable {code : α → List β} {spelled : α → Prop}

theorem diverges_flatMap (prefixCode : PrefixCode code spelled) {xs ys : List α}
    (xsSpelled : ∀ a ∈ xs, spelled a) (ysSpelled : ∀ a ∈ ys, spelled a)
    (diverged : Diverges xs ys) : Diverges (xs.flatMap code) (ys.flatMap code) := by
  obtain ⟨shared, x, xsRest, y, ysRest, rfl, rfl, less⟩ := diverged
  have xSpelled : spelled x := xsSpelled x (by simp)
  have ySpelled : spelled y := ysSpelled y (by simp)
  rw [List.flatMap_append, List.flatMap_append, List.flatMap_cons, List.flatMap_cons]
  have codewords := prefixCode.ascends x y xSpelled ySpelled less
  exact (codewords.append_right _ _).append_left _

theorem flatMap_eq_nil (prefixCode : PrefixCode code spelled) {xs : List α}
    (xsSpelled : ∀ a ∈ xs, spelled a) (empty : xs.flatMap code = []) : xs = [] := by
  cases xs with
  | nil => rfl
  | cons x xs =>
      rw [List.flatMap_cons, List.append_eq_nil_iff] at empty
      exact absurd empty.1 (prefixCode.nonempty x (xsSpelled x (by simp)))

theorem flatMap_prefix_iff (prefixCode : PrefixCode code spelled) {xs ys : List α}
    (xsSpelled : ∀ a ∈ xs, spelled a) (ysSpelled : ∀ a ∈ ys, spelled a) :
    xs.flatMap code <+: ys.flatMap code ↔ xs <+: ys := by
  refine ⟨fun before => ?_, prefix_flatMap⟩
  rcases prefix_or_diverges xs ys with same | after | below | above
  · exact same
  · obtain ⟨rest, rfl⟩ := after
    rw [List.flatMap_append] at before
    have restEmpty : rest.flatMap code = [] := by
      have lengths := before.length_le
      rw [List.length_append] at lengths
      exact List.length_eq_zero_iff.mp (by omega)
    have restSpelled : ∀ a ∈ rest, spelled a :=
      fun a member => xsSpelled a (List.mem_append_right ys member)
    rw [prefixCode.flatMap_eq_nil restSpelled restEmpty, List.append_nil]
  · exact absurd before (prefixCode.diverges_flatMap xsSpelled ysSpelled below).prefix_free.1
  · exact absurd before (prefixCode.diverges_flatMap ysSpelled xsSpelled above).prefix_free.2

theorem flatMap_inj (prefixCode : PrefixCode code spelled) {xs ys : List α}
    (xsSpelled : ∀ a ∈ xs, spelled a) (ysSpelled : ∀ a ∈ ys, spelled a)
    (same : xs.flatMap code = ys.flatMap code) : xs = ys := by
  have before := (prefixCode.flatMap_prefix_iff xsSpelled ysSpelled).mp
    (by rw [same])
  have after := (prefixCode.flatMap_prefix_iff ysSpelled xsSpelled).mp
    (by rw [same])
  exact before.eq_of_length (Nat.le_antisymm before.length_le after.length_le)

theorem flatMap_lt_of_lt (prefixCode : PrefixCode code spelled) {xs ys : List α}
    (xsSpelled : ∀ a ∈ xs, spelled a) (ysSpelled : ∀ a ∈ ys, spelled a)
    (less : xs < ys) : xs.flatMap code < ys.flatMap code := by
  rcases prefix_or_diverges xs ys with before | after | below | above
  · refine lt_of_prefixed (prefix_flatMap before) fun same => ?_
    exact less.ne (prefixCode.flatMap_inj xsSpelled ysSpelled same)
  · exact absurd less (not_lt.mpr (le_of_prefixed after))
  · exact (prefixCode.diverges_flatMap xsSpelled ysSpelled below).lt
  · exact absurd less (not_lt.mpr above.lt.le)

theorem flatMap_lt_iff (prefixCode : PrefixCode code spelled) {xs ys : List α}
    (xsSpelled : ∀ a ∈ xs, spelled a) (ysSpelled : ∀ a ∈ ys, spelled a) :
    xs.flatMap code < ys.flatMap code ↔ xs < ys := by
  refine ⟨fun less => ?_, prefixCode.flatMap_lt_of_lt xsSpelled ysSpelled⟩
  rcases lt_trichotomy xs ys with below | same | above
  · exact below
  · rw [same] at less
    exact absurd less (lt_irrefl _)
  · have reversed := prefixCode.flatMap_lt_of_lt ysSpelled xsSpelled above
    exact absurd less (not_lt.mpr reversed.le)

end PrefixCode

end Lexindex
