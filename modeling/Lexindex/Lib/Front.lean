import Mathlib
import Lexindex.Lib.Ascending

/-!
# The front of a ranking

Items with a size and a cost, ranked.  One item beats another that is no smaller and no cheaper, and is
larger or dearer.  The items sorted by size and then by cost, and those kept that are cheaper than all
before them, are the items nothing beats, the first in the ranking for those that are equal on both.
-/

set_option autoImplicit false

namespace Lexindex

section Stable

variable {α β : Type} [LinearOrder β]

/-- A stable sort by key. -/
def sortByKey (key : α → β) (items : List α) : List α :=
  items.mergeSort fun a b => key a ≤ key b

variable (key : α → β) (items : List α)

theorem sortByKey_perm : (sortByKey key items).Perm items :=
  List.mergeSort_perm ..

theorem sortByKey_sorted : Sorted key (sortByKey key items) :=
  sorted_mergeSort key items

/-- Items of one key stay in their order. -/
theorem filter_sortByKey (k : β) :
    (sortByKey key items).filter (fun a => decide (key a = k)) =
      items.filter fun a => decide (key a = k) := by
  have equal : (items.filter fun a => decide (key a = k)).Pairwise fun a b => decide (key a ≤ key b) := by
    refine List.pairwise_of_forall_mem_list fun a memberA b memberB => ?_
    have keyA := of_decide_eq_true (List.mem_filter.mp memberA).2
    have keyB := of_decide_eq_true (List.mem_filter.mp memberB).2
    exact decide_eq_true (keyA.trans keyB.symm).le
  have kept : (items.filter fun a => decide (key a = k)).Sublist (sortByKey key items) :=
    List.sublist_mergeSort (fun a b c => by simpa using le_trans) (fun a b => by simpa using le_total _ _)
      equal List.filter_sublist
  have inside := kept.filter fun a => decide (key a = k)
  rw [List.filter_filter] at inside
  simp only [Bool.and_self] at inside
  have lengths := ((sortByKey_perm key items).filter fun a => decide (key a = k)).length_eq
  exact (inside.eq_of_length lengths.symm).symm

/-- The first item of a key stays the first of its key. -/
theorem find?_sortByKey (k : β) :
    (sortByKey key items).find? (fun a => decide (key a = k)) =
      items.find? fun a => decide (key a = k) := by
  rw [← List.head?_filter, filter_sortByKey, List.head?_filter]

end Stable

section Front

variable {α β γ : Type} [LinearOrder β] [LinearOrder γ] (size : α → β) (cost : α → γ)

/-- No larger and no dearer, and smaller or cheaper. -/
def Beats (a b : α) : Prop :=
  size a ≤ size b ∧ cost a ≤ cost b ∧ (size a < size b ∨ cost a < cost b)

/-- By size, then by cost. -/
def sizeThenCost (a : α) : β ×ₗ γ :=
  toLex (size a, cost a)

/-- The items that are cheaper than the bound and than every one before them. -/
def sweep : WithTop γ → List α → List α
  | _, [] => []
  | bound, a :: items =>
      if (cost a : WithTop γ) < bound then a :: sweep (min bound (cost a)) items
      else sweep (min bound (cost a)) items

def front (items : List α) : List α :=
  sweep cost ⊤ (sortByKey (sizeThenCost size cost) items)

variable {size cost}

theorem sizeThenCost_eq {a b : α} :
    sizeThenCost size cost a = sizeThenCost size cost b ↔ size a = size b ∧ cost a = cost b := by
  rw [sizeThenCost, sizeThenCost, toLex_inj, Prod.mk.injEq]

theorem Beats.less {a b : α} (beats : Beats size cost a b) :
    sizeThenCost size cost a < sizeThenCost size cost b := by
  obtain ⟨small, cheap, strict⟩ := beats
  rw [sizeThenCost, sizeThenCost, Prod.Lex.toLex_lt_toLex]
  rcases small.lt_or_eq with smaller | same
  · exact .inl smaller
  · exact .inr ⟨same, strict.resolve_left fun less => less.ne same⟩

/-- What is kept is cheaper than all that came before it. -/
theorem mem_sweep {e : α} (items : List α) : ∀ {bound : WithTop γ}, e ∈ sweep cost bound items ↔
    ∃ earlier later, items = earlier ++ e :: later ∧ (cost e : WithTop γ) < bound ∧
      ∀ a ∈ earlier, cost e < cost a := by
  induction items with
  | nil =>
      intro bound
      simp [sweep]
  | cons first items ih =>
      intro bound
      have split : (∃ earlier later, first :: items = earlier ++ e :: later ∧
            (cost e : WithTop γ) < bound ∧ ∀ a ∈ earlier, cost e < cost a) ↔
          (e = first ∧ (cost e : WithTop γ) < bound) ∨
            e ∈ sweep cost (min bound (cost first)) items := by
        rw [ih]
        constructor
        · rintro ⟨earlier, later, cut, below, cheaper⟩
          cases earlier with
          | nil =>
              rw [List.nil_append, List.cons.injEq] at cut
              exact .inl ⟨cut.1.symm, below⟩
          | cons a earlier =>
              rw [List.cons_append, List.cons.injEq] at cut
              obtain ⟨rfl, cut⟩ := cut
              refine .inr ⟨earlier, later, cut, lt_min below ?_, fun b member =>
                cheaper b (List.mem_cons_of_mem _ member)⟩
              exact WithTop.coe_lt_coe.mpr (cheaper first List.mem_cons_self)
        · rintro (⟨rfl, below⟩ | ⟨earlier, later, rfl, below, cheaper⟩)
          · exact ⟨[], items, rfl, below, fun a member => absurd member List.not_mem_nil⟩
          · refine ⟨first :: earlier, later, rfl, below.trans_le (min_le_left _ _), ?_⟩
            refine List.forall_mem_cons.mpr ⟨?_, cheaper⟩
            exact WithTop.coe_lt_coe.mp (below.trans_le (min_le_right _ _))
      rw [sweep, split]
      by_cases keep : (cost first : WithTop γ) < bound
      · rw [if_pos keep, List.mem_cons]
        exact or_congr_left ⟨fun same => ⟨same, same ▸ keep⟩, fun both => both.1⟩
      · rw [if_neg keep, or_iff_right]
        rintro ⟨rfl, below⟩
        exact keep below

theorem sweep_sublist (items : List α) : ∀ bound : WithTop γ, (sweep cost bound items).Sublist items := by
  induction items with
  | nil => exact fun _ => List.Sublist.refl _
  | cons first items ih =>
      intro bound
      rw [sweep]
      split
      · exact (ih _).cons_cons first
      · exact (ih _).cons first

theorem sweep_below (items : List α) : ∀ {bound : WithTop γ}, ∀ e ∈ sweep cost bound items,
    (cost e : WithTop γ) < bound := by
  intro bound e member
  obtain ⟨-, -, -, below, -⟩ := (mem_sweep items).mp member
  exact below

theorem sweep_descending (items : List α) : ∀ bound : WithTop γ,
    (sweep cost bound items).Pairwise fun a b => cost b < cost a := by
  induction items with
  | nil => exact fun _ => List.Pairwise.nil
  | cons first items ih =>
      intro bound
      rw [sweep]
      split
      · refine List.pairwise_cons.mpr ⟨fun e member => ?_, ih _⟩
        exact WithTop.coe_lt_coe.mp ((sweep_below items e member).trans_le (min_le_right _ _))
      · exact ih _

/-! ## The front -/

/-- The front goes up in size as it goes down in cost. -/
theorem front_ascending (items : List α) :
    (front size cost items).Pairwise fun a b => size a < size b ∧ cost b < cost a := by
  have kept : (front size cost items).Sublist (sortByKey (sizeThenCost size cost) items) :=
    sweep_sublist _ ⊤
  have sorted := (sortByKey_sorted (sizeThenCost size cost) items).sublist kept
  have both := List.Pairwise.and sorted (sweep_descending _ ⊤)
  refine both.imp fun {a b} order => ⟨?_, order.2⟩
  obtain ⟨order, dearer⟩ := order
  rw [sizeThenCost, sizeThenCost, Prod.Lex.toLex_le_toLex] at order
  rcases order with less | ⟨-, cheap⟩
  · exact less
  · exact absurd dearer (not_lt.mpr cheap)

theorem not_beats_self (e : α) : ¬ Beats size cost e e :=
  fun beats => beats.2.2.elim (lt_irrefl _) (lt_irrefl _)

/-- The front is what nothing beats, the first of those that are equal on both. -/
theorem mem_front {e : α} (items : List α) : e ∈ front size cost items ↔
    (∀ a ∈ items, ¬ Beats size cost a e) ∧
      items.find? (fun a => decide (sizeThenCost size cost a = sizeThenCost size cost e)) = some e := by
  have members : ∀ a, a ∈ items ↔ a ∈ sortByKey (sizeThenCost size cost) items := fun a =>
    (sortByKey_perm (sizeThenCost size cost) items).mem_iff.symm
  have sorted := sortByKey_sorted (sizeThenCost size cost) items
  rw [front, mem_sweep, ← find?_sortByKey]
  generalize sortByKey (sizeThenCost size cost) items = ranked at members sorted
  constructor
  · rintro ⟨earlier, later, rfl, -, cheaper⟩
    obtain ⟨-, tail, -⟩ := List.pairwise_append.mp sorted
    constructor
    · intro a member beats
      rcases List.mem_append.mp ((members a).mp member) with before | after
      · exact absurd (cheaper a before) (not_lt.mpr beats.2.1)
      · rcases List.mem_cons.mp after with rfl | last
        · exact not_beats_self a beats
        · exact absurd beats.less (not_lt.mpr ((List.pairwise_cons.mp tail).1 a last))
    · rw [List.find?_append, List.find?_eq_none.mpr, Option.none_or, List.find?_cons_of_pos]
      · exact decide_eq_true rfl
      · intro a member same
        exact (cheaper a member).ne (sizeThenCost_eq.mp (of_decide_eq_true same)).2.symm
  · rintro ⟨unbeaten, first⟩
    obtain ⟨-, earlier, later, rfl, others⟩ := List.find?_eq_some_iff_append.mp first
    refine ⟨earlier, later, rfl, WithTop.coe_lt_top _, fun a member => ?_⟩
    by_contra cheap
    have order := (List.pairwise_append.mp sorted).2.2 a member e List.mem_cons_self
    have apart : sizeThenCost size cost a ≠ sizeThenCost size cost e := by
      simpa using others a member
    have less := order.lt_of_ne apart
    rw [sizeThenCost, sizeThenCost, Prod.Lex.toLex_lt_toLex] at less
    have held : a ∈ items := (members a).mpr (List.mem_append_left _ member)
    refine unbeaten a held ⟨?_, le_of_not_gt cheap, ?_⟩
    · exact less.elim le_of_lt fun both => both.1.le
    · exact less.imp_right fun both => both.2

/-- Where a ranking puts what beats an item before it, the first of the ranking is on the front. -/
theorem head_mem_front {δ : Type} [LinearOrder δ] {rankKey : α → δ} {items : List α} {best : α}
    (strict : ∀ a b, Beats size cost a b → rankKey a < rankKey b) (ranked : Sorted rankKey items)
    (head : items.head? = some best) : best ∈ front size cost items := by
  obtain ⟨rest, rfl⟩ := List.head?_eq_some_iff.mp head
  rw [mem_front]
  constructor
  · refine List.forall_mem_cons.mpr ⟨not_beats_self best, fun a member beats => ?_⟩
    exact absurd (strict a best beats) (not_lt.mpr ((List.pairwise_cons.mp ranked).1 a member))
  · rw [List.find?_cons_of_pos]
    exact decide_eq_true rfl

end Front

end Lexindex
