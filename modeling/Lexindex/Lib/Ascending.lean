import Mathlib

/-!
# Ascending lists

Items compared by an injective key.  A list that is strictly ascending is determined by
its members, so whatever sorts and drops duplicates, in whichever steps, arrives at the
same list.
-/

set_option autoImplicit false

namespace Lexindex

section Ascending

variable {α β : Type} [LinearOrder β] {key : α → β}

/-- Strictly ascending by key. -/
def Ascending (key : α → β) (items : List α) : Prop :=
  items.Pairwise fun a b => key a < key b

/-- Ascending by key, equal items adjacent. -/
def Sorted (key : α → β) (items : List α) : Prop :=
  items.Pairwise fun a b => key a ≤ key b

theorem Ascending.nodup {items : List α} (ascending : Ascending key items) : items.Nodup :=
  ascending.imp fun less same => less.ne (congrArg key same)

theorem Ascending.sorted {items : List α} (ascending : Ascending key items) : Sorted key items :=
  ascending.imp le_of_lt

/-- Members determine a strictly ascending list. -/
theorem Ascending.unique {items others : List α} (ascending : Ascending key items)
    (also : Ascending key others) (same : ∀ item, item ∈ items ↔ item ∈ others) :
    items = others := by
  have perm := (List.perm_ext_iff_of_nodup ascending.nodup also.nodup).mpr same
  refine perm.eq_of_pairwise (fun a b _ _ less more => ?_) ascending also
  exact absurd less (lt_asymm more)

theorem mem_destutter_of_sorted [DecidableEq α] (inj : Function.Injective key) :
    ∀ {items : List α}, Sorted key items →
      Ascending key (items.destutter (· ≠ ·)) ∧
        ∀ item, item ∈ items.destutter (· ≠ ·) ↔ item ∈ items := by
  have from_ (items : List α) : ∀ a, Sorted key (a :: items) →
      Ascending key (List.destutter' (· ≠ ·) a items) ∧
        ∀ item, item ∈ List.destutter' (· ≠ ·) a items ↔ item ∈ a :: items := by
    induction items with
    | nil =>
        intro a _
        exact ⟨List.pairwise_singleton .., fun item => Iff.rfl⟩
    | cons b items ih =>
        intro a sorted
        obtain ⟨least, rest⟩ := List.pairwise_cons.mp sorted
        by_cases same : a = b
        · rw [List.destutter'_cons_neg _ (by simpa using same)]
          obtain ⟨ascending, members⟩ := ih a (List.pairwise_cons.mpr
            ⟨fun item member => least item (List.mem_cons_of_mem _ member),
              (List.pairwise_cons.mp rest).2⟩)
          refine ⟨ascending, fun item => (members item).trans ?_⟩
          rw [← same, List.mem_cons, List.mem_cons, List.mem_cons, or_self_left]
        · rw [List.destutter'_cons_pos _ same]
          obtain ⟨ascending, members⟩ := ih b rest
          refine ⟨List.pairwise_cons.mpr ⟨fun item member => ?_, ascending⟩, fun item => ?_⟩
          · have first : key a < key b :=
              (least b List.mem_cons_self).lt_of_ne fun keys => same (inj keys)
            rcases List.mem_cons.mp ((members item).mp member) with rfl | later
            · exact first
            · exact first.trans_le ((List.pairwise_cons.mp rest).1 item later)
          · rw [List.mem_cons, members, List.mem_cons (a := item) (l := b :: items)]
  intro items
  cases items with
  | nil => exact fun _ => ⟨List.Pairwise.nil, fun item => Iff.rfl⟩
  | cons a items => exact from_ items a

/-- The items ascending and distinct. -/
def sortDedup [DecidableEq α] (key : α → β) (items : List α) : List α :=
  (items.mergeSort fun a b => key a ≤ key b).destutter (· ≠ ·)

theorem sorted_mergeSort (key : α → β) (items : List α) :
    Sorted key (items.mergeSort fun a b => key a ≤ key b) := by
  have pairwise := @List.pairwise_mergeSort _ (fun a b => decide (key a ≤ key b))
    (fun a b c => by simpa using le_trans) (fun a b => by simpa using le_total _ _) items
  exact pairwise.imp fun le => of_decide_eq_true le

theorem mergeSort_sorted {items : List α} (sorted : Sorted key items) :
    (items.mergeSort fun a b => key a ≤ key b) = items :=
  List.mergeSort_of_pairwise (sorted.imp fun le => decide_eq_true le)

section SortDedup

variable [DecidableEq α] (inj : Function.Injective key) (items : List α)
include inj

theorem sortDedup_ascending : Ascending key (sortDedup key items) :=
  (mem_destutter_of_sorted inj (sorted_mergeSort key items)).1

theorem mem_sortDedup (item : α) : item ∈ sortDedup key items ↔ item ∈ items := by
  rw [sortDedup, (mem_destutter_of_sorted inj (sorted_mergeSort key items)).2, List.mem_mergeSort]

/-- Whatever is strictly ascending with the same members is the items sorted and distinct. -/
theorem eq_sortDedup {others : List α} (ascending : Ascending key others)
    (same : ∀ item, item ∈ others ↔ item ∈ items) : others = sortDedup key items :=
  ascending.unique (sortDedup_ascending inj items) fun item =>
    (same item).trans (mem_sortDedup inj items item).symm

end SortDedup

end Ascending

end Lexindex
