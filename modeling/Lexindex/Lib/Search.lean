import Mathlib
import Lexindex.Lib.Ascending

/-!
# Searching in order

A binary search for where a predicate stops holding, the places of a list of lists, and how
many items of an ascending list are below a bound.
-/

set_option autoImplicit false

namespace Lexindex

section Partition

/-- The first place from `lo` on, short of `hi`, where `holds` stops, by halving. -/
def partitionPoint (holds : Nat → Bool) (lo hi : Nat) : Nat :=
  if lo < hi then
    if holds ((lo + hi) / 2) then partitionPoint holds ((lo + hi) / 2 + 1) hi
    else partitionPoint holds lo ((lo + hi) / 2)
  else lo
termination_by hi - lo

/-- Where what holds at a place holds before it, the search parts the places. -/
theorem partitionPoint_spec {holds : Nat → Bool} (down : ∀ i j, i ≤ j → holds j → holds i)
    {lo hi : Nat} (le : lo ≤ hi) :
    lo ≤ partitionPoint holds lo hi ∧ partitionPoint holds lo hi ≤ hi ∧
      (∀ i, lo ≤ i → i < partitionPoint holds lo hi → holds i) ∧
      ∀ i, partitionPoint holds lo hi ≤ i → i < hi → ¬ holds i := by
  induction size : hi - lo using Nat.strong_induction_on generalizing lo hi with
  | _ size ih =>
      rw [partitionPoint]
      by_cases more : lo < hi
      · rw [if_pos more]
        by_cases here : holds ((lo + hi) / 2)
        · rw [if_pos here]
          obtain ⟨above, below, held, stopped⟩ :=
            @ih (hi - ((lo + hi) / 2 + 1)) (by omega) ((lo + hi) / 2 + 1) hi (by omega) rfl
          refine ⟨by omega, below, fun i from_ short => ?_, stopped⟩
          rcases Nat.lt_or_ge ((lo + hi) / 2) i with later | earlier
          · exact held i later short
          · exact down i _ earlier here
        · rw [if_neg here]
          obtain ⟨above, below, held, stopped⟩ :=
            @ih ((lo + hi) / 2 - lo) (by omega) lo ((lo + hi) / 2) (by omega) rfl
          refine ⟨above, by omega, held, fun i from_ short => ?_⟩
          rcases Nat.lt_or_ge i ((lo + hi) / 2) with earlier | later
          · exact stopped i from_ earlier
          · exact fun there => here (down _ i later there)
      · rw [if_neg more]
        exact ⟨le_rfl, le, fun i from_ short => absurd from_ (by omega),
          fun i from_ short => absurd short (by omega)⟩

end Partition

section Places

variable {α : Type}

/-- A place in the whole is one in some part, behind the parts before it. -/
theorem getElem?_flatten_iff {parts : List (List α)} : ∀ {k : Nat} {a : α},
    parts.flatten[k]? = some a ↔ ∃ j part m, parts[j]? = some part ∧ part[m]? = some a ∧
      k = (parts.take j).flatten.length + m := by
  induction parts with
  | nil => simp
  | cons first parts ih =>
      intro k a
      rw [List.flatten_cons]
      constructor
      · intro here
        rcases Nat.lt_or_ge k first.length with inside | past
        · rw [List.getElem?_append_left inside] at here
          exact ⟨0, first, k, rfl, here, by simp⟩
        · rw [List.getElem?_append_right past] at here
          obtain ⟨j, part, m, at_, there, place⟩ := ih.mp here
          refine ⟨j + 1, part, m, at_, there, ?_⟩
          rw [List.take_succ_cons, List.flatten_cons, List.length_append]
          omega
      · rintro ⟨j, part, m, at_, there, rfl⟩
        cases j with
        | zero =>
            cases at_
            obtain ⟨inside, -⟩ := List.getElem?_eq_some_iff.mp there
            rw [List.take_zero, List.flatten_nil, List.length_nil, Nat.zero_add,
              List.getElem?_append_left inside]
            exact there
        | succ j =>
            rw [List.take_succ_cons, List.flatten_cons, List.length_append,
              List.getElem?_append_right (by omega)]
            exact ih.mpr ⟨j, part, m, at_, there, by omega⟩

end Places

section Down

variable {α : Type} {holds : α → Bool}

/-- What holds of an item holds of the ones before it. -/
def Down (holds : α → Bool) (items : List α) : Prop :=
  items.Pairwise fun a b => holds b = true → holds a = true

theorem Down.none {a : α} {items : List α} (down : Down holds (a :: items))
    (not_first : ¬ holds a = true) : ∀ item ∈ a :: items, ¬ holds item = true :=
  List.forall_mem_cons.mpr ⟨not_first, fun item member held =>
    not_first ((List.pairwise_cons.mp down).1 item member held)⟩

/-- The items something holds of are the first ones, as many as there are. -/
theorem Down.filter_eq_take {items : List α} (down : Down holds items) :
    items.filter holds = items.take (items.countP holds) := by
  induction items with
  | nil => rfl
  | cons a items ih =>
      by_cases first : holds a = true
      · rw [List.filter_cons_of_pos first, List.countP_cons_of_pos first, List.take_succ_cons,
          ih (List.pairwise_cons.mp down).2]
      · rw [List.countP_eq_zero.mpr (down.none first), List.take_zero, List.filter_eq_nil_iff]
        exact down.none first

theorem Down.filter_not_eq_drop {items : List α} (down : Down holds items) :
    items.filter (fun item => !holds item) = items.drop (items.countP holds) := by
  induction items with
  | nil => rfl
  | cons a items ih =>
      by_cases first : holds a = true
      · rw [List.filter_cons_of_neg (by simpa using first), List.countP_cons_of_pos first,
          List.drop_succ_cons, ih (List.pairwise_cons.mp down).2]
      · rw [List.countP_eq_zero.mpr (down.none first), List.drop_zero, List.filter_eq_self]
        exact fun item member => by simpa using down.none first item member

/-- It holds at just the places short of the count. -/
theorem Down.holds_iff {items : List α} (down : Down holds items) :
    ∀ {i : Nat} {a : α}, items[i]? = some a → (holds a = true ↔ i < items.countP holds) := by
  induction items with
  | nil => exact fun here => by cases here
  | cons first items ih =>
      intro i a here
      by_cases held : holds first = true
      · rw [List.countP_cons_of_pos held]
        cases i with
        | zero =>
            cases here
            exact iff_of_true held (Nat.succ_pos _)
        | succ i =>
            exact (ih (List.pairwise_cons.mp down).2 here).trans Nat.succ_lt_succ_iff.symm
      · rw [List.countP_eq_zero.mpr (down.none held)]
        exact iff_of_false (down.none held a (List.mem_of_getElem? here)) (Nat.not_lt_zero i)

end Down

section Bounds

variable {α β : Type} [LinearOrder β] [DecidableLT β] [DecidableLE β] {key : α → β} {items : List α}

omit [DecidableLE β] in
theorem Ascending.down_lt (ascending : Ascending key items) (bound : β) :
    Down (fun item => decide (key item < bound)) items :=
  ascending.imp fun less below => by
    rw [decide_eq_true_eq] at below ⊢
    exact less.trans below

omit [DecidableLT β] in
theorem Ascending.down_le (ascending : Ascending key items) (bound : β) :
    Down (fun item => decide (key item ≤ bound)) items :=
  ascending.imp fun less below => by
    rw [decide_eq_true_eq] at below ⊢
    exact less.le.trans below

/-- How many items are below a bound. -/
def countBelow (key : α → β) (bound : β) (items : List α) : Nat :=
  items.countP fun item => decide (key item < bound)

omit [DecidableLE β] in
theorem countBelow_le (bound : β) : countBelow key bound items ≤ items.length :=
  List.countP_le_length

omit [DecidableLE β] in
theorem countBelow_mono {bound other : β} (le : bound ≤ other) :
    countBelow key bound items ≤ countBelow key other items :=
  List.countP_mono_left fun _ _ below => by
    rw [decide_eq_true_eq] at below ⊢
    exact below.trans_le le

/-- The items from one bound to another are those below the one but not the other. -/
theorem countBelow_between {bound other : β} (le : bound ≤ other) :
    countBelow key other items = countBelow key bound items +
      items.countP fun item => decide (bound ≤ key item ∧ key item < other) := by
  induction items with
  | nil => rfl
  | cons a items ih =>
      rw [countBelow, countBelow] at *
      rw [List.countP_cons, List.countP_cons, List.countP_cons, ih]
      by_cases below : key a < bound
      · simp [below, below.trans_le le, not_le.mpr below]
        omega
      · simp [below, not_lt.mp below]
        omega

end Bounds

end Lexindex
