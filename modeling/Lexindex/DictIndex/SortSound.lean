import Mathlib
import Lexindex.DictIndex.Sort

/-!
# The sample sort sorts

The parts between two splitters are cut from every run without a key lost or taken twice, and every key
of a part is below every key of the parts after it, so merging them one by one sorts the keys.  Runs
shorter than the sample, equal splitters and equal keys only make parts empty.
-/

set_option autoImplicit false

namespace Lexindex.DictIndex

open Extsort (chunks chunks_flatten chunks_some)

/-! ## The passes over keys that ascend -/

theorem keyAt_of {keys : List String} {i : Nat} {key : String} (here : keys[i]? = some key) :
    keyAt keys i = key := by
  rw [keyAt, List.getD_eq_getElem?_getD, here, Option.getD_some]

theorem getElem?_keyAt {keys : List String} {i : Nat} (inside : i < keys.length) :
    keys[i]? = some (keyAt keys i) := by
  rw [keyAt, List.getD_eq_getElem?_getD, List.getElem?_eq_getElem inside]
  rfl

theorem rangeAscends_chain (keys : List String) : ∀ (prev : Option String),
    rangeAscends prev keys = true →
      (prev.toList ++ keys).IsChain fun a b => bytesOf a < bytesOf b := by
  induction keys with
  | nil =>
      intro prev _
      cases prev with
      | none => exact List.IsChain.nil
      | some p => exact List.IsChain.singleton p
  | cons key keys ih =>
      intro prev ascends
      cases prev with
      | none => exact ih (some key) (by simpa [rangeAscends] using ascends)
      | some p =>
          simp only [rangeAscends, Bool.and_eq_true, decide_eq_true_eq] at ascends
          exact List.IsChain.cons_cons ascends.1 (ih (some key) ascends.2)

/-- Ranges that ascend, each below the next, are keys that ascend. -/
theorem chunks_chain (size : Nat) (positive : 0 < size) (keys : List String) :
    (∀ group ∈ chunks size keys, group.IsChain fun a b => bytesOf a < bytesOf b) →
    (∀ i, 0 < i → i % size = 0 → i < keys.length →
      bytesOf (keyAt keys (i - 1)) < bytesOf (keyAt keys i)) →
    keys.IsChain fun a b => bytesOf a < bytesOf b := by
  fun_induction chunks size keys with
  | case1 => exact fun _ _ => List.IsChain.nil
  | case2 item items ih =>
      intro groups edges
      obtain ⟨first, later⟩ := List.forall_mem_cons.mp groups
      have whole : item :: items = (item :: items.take (size - 1)) ++ items.drop (size - 1) := by
        rw [List.cons_append, List.take_append_drop]
      have rest := ih later (by
        intro i above multiple inside
        rw [List.length_drop] at inside
        have edge := edges (i + size) (by omega) (by rw [Nat.add_mod_right, multiple]) (by
          rw [List.length_cons]
          omega)
        have shift : ∀ j, 0 < j → keyAt (item :: items) (j + size - 1) =
            keyAt (items.drop (size - 1)) (j - 1) := by
          intro j some_
          rw [keyAt, keyAt, List.getD_eq_getElem?_getD, List.getD_eq_getElem?_getD, List.getElem?_drop,
            show j + size - 1 = (size - 1 + (j - 1)) + 1 by omega, List.getElem?_cons_succ]
        have here : keyAt (item :: items) (i + size) = keyAt (items.drop (size - 1)) i := by
          have next := shift (i + 1) (by omega)
          rwa [show i + 1 + size - 1 = i + size by omega, Nat.add_sub_cancel] at next
        rw [here, shift i above] at edge
        exact edge)
      rw [whole, List.isChain_append]
      refine ⟨first, rest, ?_⟩
      intro last isLast head isHead
      have inside : size < (item :: items).length := by
        by_contra past
        rw [List.length_cons] at past
        rw [List.drop_eq_nil_of_le (by omega)] at isHead
        cases isHead
      have edge := edges size positive (Nat.mod_self size) inside
      rw [List.length_cons] at inside
      have lastKey : keyAt (item :: items) (size - 1) = last := by
        apply keyAt_of
        rw [Option.mem_def, List.getLast?_eq_getElem?, List.length_cons, List.length_take,
          Nat.min_eq_left (by omega), Nat.add_sub_cancel] at isLast
        rw [whole, List.getElem?_append_left (by
          rw [List.length_cons, List.length_take]
          omega)]
        exact isLast
      have headKey : keyAt (item :: items) size = head := by
        apply keyAt_of
        rw [Option.mem_def, List.head?_eq_getElem?, List.getElem?_drop, Nat.add_zero] at isHead
        rw [show size = (size - 1) + 1 by omega, List.getElem?_cons_succ]
        exact isHead
      rw [lastKey, headKey] at edge
      exact edge

theorem ascending_of_chain {keys : List String}
    (chain : keys.IsChain fun a b => bytesOf a < bytesOf b) : Ascending bytesOf keys := by
  have transitive : ∀ a b c : String, bytesOf a < bytesOf b → bytesOf b < bytesOf c →
      bytesOf a < bytesOf c := fun a b c => lt_trans
  have instance_ : IsTrans String fun a b => bytesOf a < bytesOf b := ⟨transitive⟩
  exact List.isChain_iff_pairwise.mp chain

theorem strictlyAscending_sound {keys : List String} {threads : Nat}
    (ascends : strictlyAscending keys threads = true) : Ascending bytesOf keys := by
  rw [strictlyAscending, Bool.and_eq_true, List.all_eq_true, List.all_eq_true] at ascends
  obtain ⟨ranges, edges⟩ := ascends
  apply ascending_of_chain
  rw [inRanges] at ranges
  split at ranges
  · exact rangeAscends_chain keys none (ranges _ (List.mem_singleton.mpr rfl))
  · next many =>
    have threadsIs : max threads 1 = threads := by omega
    rw [threadsIs] at edges
    have positive : 0 < (keys.length + threads - 1) / threads :=
      Nat.div_pos (by omega) (by omega)
    rw [Nat.max_eq_left positive] at edges
    generalize (keys.length + threads - 1) / threads = size at *
    apply chunks_chain size positive keys
    · intro group member
      exact rangeAscends_chain group none (ranges _ (List.mem_map_of_mem member))
    · intro i above multiple inside
      have edge := edges i (by
        rw [List.mem_range']
        obtain ⟨k, rfl⟩ := Nat.dvd_of_mod_eq_zero multiple
        cases k with
        | zero => omega
        | succ k =>
            refine ⟨k, ?_, by rw [Nat.mul_succ]; omega⟩
            rw [Nat.lt_div_iff_mul_lt positive, Nat.mul_comm]
            rw [Nat.mul_succ] at inside
            omega)
      exact of_decide_eq_true edge

/-- Where a pass that drops duplicates is, `kept` of the first `i` keys kept. -/
structure Deduping (original : List String) (i kept : Nat) (keys : List String) : Prop where
  few : kept ≤ i
  inside : i ≤ keys.length
  perm : keys.Perm original
  rest : keys.drop i = original.drop i
  ascending : Ascending bytesOf (keys.take kept)
  members : ∀ key, key ∈ keys.take kept ↔ key ∈ original.take i

namespace Deduping

variable {original keys : List String} {i kept : Nat}

theorem here (state : Deduping original i kept keys) (more : i < keys.length) :
    original[i]? = some (keyAt keys i) := by
  have same := congrArg (fun rest => rest[0]?) state.rest
  simp only [List.getElem?_drop, Nat.add_zero] at same
  rw [← same, getElem?_keyAt more]

theorem take_succ (state : Deduping original i kept keys) (more : i < keys.length) (key : String) :
    key ∈ original.take (i + 1) ↔ key ∈ original.take i ∨ key = keyAt keys i := by
  rw [List.take_add_one, state.here more, Option.toList_some, List.mem_append, List.mem_singleton]

theorem last (state : Deduping original i kept keys) (some_ : 0 < kept) :
    keyAt keys (kept - 1) ∈ keys.take kept := by
  have few := state.few
  have inside := state.inside
  apply List.mem_of_getElem? (i := kept - 1)
  rw [List.getElem?_take_of_lt (by omega), getElem?_keyAt (by omega)]

/-- A duplicate of the last key kept. -/
theorem skip (state : Deduping original i kept keys) (more : i < keys.length) (some_ : 0 < kept)
    (same : keyAt keys i = keyAt keys (kept - 1)) : Deduping original (i + 1) kept keys := by
  refine ⟨Nat.le_succ_of_le state.few, more, state.perm, ?_, state.ascending, ?_⟩
  · rw [← List.drop_drop, state.rest, List.drop_drop]
  · intro key
    rw [state.take_succ more, state.members key]
    constructor
    · exact .inl
    · rintro (before | rfl)
      · exact before
      · rw [same]
        exact (state.members _).mp (state.last some_)

/-- A key above the last one kept, or the first. -/
theorem keep (state : Deduping original i kept keys) (more : i < keys.length)
    (above : 0 < kept → bytesOf (keyAt keys (kept - 1)) < bytesOf (keyAt keys i)) :
    Deduping original (i + 1) (kept + 1) (if kept ≠ i then swap keys kept i else keys) := by
  have few := state.few
  have next : (if kept ≠ i then swap keys kept i else keys).take (kept + 1) =
      keys.take kept ++ [keyAt keys i] := by
    split
    · next apart =>
      rw [swap, List.take_set_of_le (by omega), List.take_add_one, List.take_set_of_le (by omega),
        List.getElem?_set_self (by omega)]
      rfl
    · next same =>
      rw [not_not] at same
      rw [same, List.take_add_one, getElem?_keyAt more]
      rfl
  have later : (if kept ≠ i then swap keys kept i else keys).drop (i + 1) = keys.drop (i + 1) := by
    split
    · rw [swap, List.drop_set_of_lt (by omega), List.drop_set_of_lt (by omega)]
    · rfl
  have length : (if kept ≠ i then swap keys kept i else keys).length = keys.length := by
    split
    · rw [swap, List.length_set, List.length_set]
    · rfl
  refine ⟨by omega, by omega, ?_, ?_, ?_, ?_⟩
  · split
    · have keptInside : kept < keys.length := by omega
      have moved := List.set_set_perm keptInside more
      rw [swap, keyAt, keyAt, List.getD_eq_getElem _ _ more, List.getD_eq_getElem _ _ keptInside]
      exact moved.trans state.perm
    · exact state.perm
  · rw [later, ← List.drop_drop, state.rest, List.drop_drop]
  · rw [next]
    refine List.pairwise_append.mpr ⟨state.ascending, List.pairwise_singleton .., ?_⟩
    intro a member b isLast
    rw [List.mem_singleton.mp isLast]
    have some_ : 0 < kept := by
      by_contra none_
      rw [show kept = 0 by omega] at member
      exact List.not_mem_nil member
    apply lt_of_le_of_lt ?_ (above some_)
    obtain ⟨j, at_⟩ := List.getElem?_of_mem member
    obtain ⟨below, -⟩ := List.getElem?_eq_some_iff.mp at_
    rw [List.length_take] at below
    rw [List.getElem?_take_of_lt (by omega)] at at_
    by_cases end_ : j = kept - 1
    · rw [← keyAt_of at_, end_]
    · apply le_of_lt
      have pairs := List.pairwise_iff_getElem.mp state.ascending j (kept - 1) (by
        rw [List.length_take]
        omega) (by
        rw [List.length_take]
        omega) (by omega)
      rw [List.getElem_take, List.getElem_take] at pairs
      rw [← keyAt_of at_, keyAt, keyAt, List.getD_eq_getElem _ _ (by omega),
        List.getD_eq_getElem _ _ (by omega)]
      exact pairs
  · intro key
    rw [next, List.mem_append, List.mem_singleton, state.members, state.take_succ more]

end Deduping

/-- What the pass answers: the keys ascending and distinct, or the keys in some order. -/
structure Deduped (original : List String) (out : Bool × List String) : Prop where
  distinct : out.1 = true → Ascending bytesOf out.2 ∧ ∀ key, key ∈ out.2 ↔ key ∈ original
  moved : out.1 = false → out.2.Perm original
  sorted : Sorted bytesOf original → out.1 = true

theorem dedupFrom_spec {original : List String} : ∀ (left : Nat) {i kept : Nat} {keys : List String},
    Deduping original i kept keys → i + left = keys.length →
      Deduped original (dedupFrom left i kept keys) := by
  intro left
  induction left with
  | zero =>
      intro i kept keys state whole
      have all : original.take i = original := by
        apply List.take_of_length_le
        rw [← state.perm.length_eq]
        omega
      refine ⟨fun _ => ⟨state.ascending, fun key => ?_⟩, fun off => (by cases off), fun _ => rfl⟩
      rw [dedupFrom, state.members, all]
  | succ left ih =>
      intro i kept keys state whole
      have more : i < keys.length := by omega
      rw [dedupFrom]
      split
      · next below =>
        refine ⟨fun off => (by cases off), fun _ => state.perm, ?_⟩
        intro sorted
        have earlier := (state.members _).mp (state.last below.1)
        obtain ⟨j, at_⟩ := List.getElem?_of_mem earlier
        obtain ⟨inside, -⟩ := List.getElem?_eq_some_iff.mp at_
        rw [List.length_take] at inside
        rw [List.getElem?_take_of_lt (by omega)] at at_
        obtain ⟨jInside, atJ⟩ := List.getElem?_eq_some_iff.mp at_
        obtain ⟨iInside, atI⟩ := List.getElem?_eq_some_iff.mp (state.here more)
        have order := List.pairwise_iff_getElem.mp sorted j i jInside iInside (by omega)
        rw [atJ, atI] at order
        exact absurd order (not_le_of_gt below.2)
      · next notBelow =>
        split
        · next same => exact ih (state.skip more same.1 same.2) (by omega)
        · next apart =>
          apply ih (state.keep more ?_)
          · split
            · rw [swap, List.length_set, List.length_set]
              omega
            · omega
          · intro some_
            rcases lt_trichotomy (bytesOf (keyAt keys i)) (bytesOf (keyAt keys (kept - 1))) with
              less | same | above
            · exact absurd ⟨some_, less⟩ notBelow
            · exact absurd ⟨some_, bytesOf_inj same⟩ apart
            · exact above

theorem dedupAscending_spec (keys : List String) : Deduped keys (dedupAscending keys) := by
  apply dedupFrom_spec
  · exact ⟨Nat.le_refl 0, Nat.zero_le _, List.Perm.refl _, rfl, List.Pairwise.nil, fun _ => Iff.rfl⟩
  · exact Nat.zero_add _

theorem distinctAscending_spec (keys : List String) (threads : Nat) :
    Deduped keys (distinctAscending keys threads) := by
  rw [distinctAscending]
  split
  · next ascends =>
    exact ⟨fun _ => ⟨strictlyAscending_sound ascends, fun _ => Iff.rfl⟩, fun off => (by cases off),
      fun _ => rfl⟩
  · exact dedupAscending_spec keys

/-! ## Merging the parts -/

theorem flatMap_taken {α : Type} {items : List Nat} (distinct : items.Nodup) {r : Nat}
    (member : r ∈ items) {f g : Nat → List α} {a : α} (taken : f r = a :: g r)
    (same : ∀ i, i ≠ r → f i = g i) : (items.flatMap f).Perm (a :: items.flatMap g) := by
  induction items with
  | nil => cases member
  | cons i items ih =>
      obtain ⟨fresh, distinct⟩ := List.nodup_cons.mp distinct
      rw [List.flatMap_cons, List.flatMap_cons]
      rcases List.mem_cons.mp member with rfl | later
      · have rest : items.flatMap f = items.flatMap g :=
          List.flatMap_congr fun j held => same j fun is => fresh (is ▸ held)
        rw [taken, rest]
        exact List.Perm.refl _
      · rw [same i fun is => fresh (is ▸ later)]
        exact ((ih distinct later).append_left (g i)).trans List.perm_middle

/-- What is left of a part past the keys that were read. -/
def restOf (parts : List (List String)) (next : List Nat) (r : Nat) : List String :=
  (parts.getD r []).drop (next.getD r 0)

/-- A merge at work: the heap holds the last key read of every part that has not ended. -/
structure Heads (parts : List (List String)) (next : List Nat) (heads : List (String × Nat)) : Prop where
  counts : next.length = parts.length
  ordered : heads.Pairwise Extsort.before
  once : (heads.map Prod.snd).Nodup
  ready : ∀ e ∈ heads, e.2 < parts.length ∧ 0 < next.getD e.2 0 ∧
    (parts.getD e.2 [])[next.getD e.2 0 - 1]? = some e.1
  ended : ∀ r < parts.length, r ∉ heads.map Prod.snd → restOf parts next r = []

/-- Every key that is ready or still to be read. -/
def pendingOf (parts : List (List String)) (next : List Nat) (heads : List (String × Nat)) :
    List String :=
  heads.map Prod.fst ++ (List.range parts.length).flatMap (restOf parts next)

namespace Heads

variable {parts : List (List String)} {next : List Nat} {key : String} {r : Nat}
  {heads : List (String × Nat)}

theorem none_left (state : Heads parts next []) : pendingOf parts next [] = [] := by
  rw [pendingOf, List.map_nil, List.nil_append, List.flatMap_eq_nil_iff]
  intro i member
  exact state.ended i (List.mem_range.mp member) List.not_mem_nil

/-- No key is below the top of the heap. -/
theorem least (state : Heads parts next ((key, r) :: heads))
    (sorted : ∀ part ∈ parts, Sorted bytesOf part) :
    ∀ x ∈ pendingOf parts next ((key, r) :: heads), bytesOf key ≤ bytesOf x := by
  have first : ∀ e ∈ (key, r) :: heads, bytesOf key ≤ bytesOf e.1 := by
    intro e member
    rcases List.mem_cons.mp member with rfl | later
    · exact le_refl _
    · exact Extsort.before_le ((List.pairwise_cons.mp state.ordered).1 e later)
  intro x member
  rw [pendingOf] at member
  rcases List.mem_append.mp member with here | later
  · obtain ⟨e, held, rfl⟩ := List.mem_map.mp here
    exact first e held
  · obtain ⟨i, inside, held⟩ := List.mem_flatMap.mp later
    rw [List.mem_range] at inside
    by_cases headed : i ∈ ((key, r) :: heads).map Prod.snd
    · obtain ⟨e, known, rfl⟩ := List.mem_map.mp headed
      obtain ⟨-, some_, at_⟩ := state.ready e known
      have order : bytesOf e.1 ≤ bytesOf x := by
        have part := sorted (parts.getD e.2 []) (by
          rw [List.getD_eq_getElem _ _ inside]
          exact List.getElem_mem inside)
        obtain ⟨j, atJ⟩ := List.getElem?_of_mem held
        rw [restOf, List.getElem?_drop] at atJ
        obtain ⟨eInside, eIs⟩ := List.getElem?_eq_some_iff.mp at_
        obtain ⟨jInside, jIs⟩ := List.getElem?_eq_some_iff.mp atJ
        have pair := List.pairwise_iff_getElem.mp part _ _ eInside jInside (by omega)
        rwa [eIs, jIs] at pair
      exact (first e known).trans order
    · rw [state.ended i inside headed] at held
      cases held

/-- The part of the top has a key more. -/
theorem pushed (state : Heads parts next ((key, r) :: heads)) {k : String}
    (more : (parts.getD r [])[next.getD r 0]? = some k) :
    Heads parts (next.set r (next.getD r 0 + 1)) (heads.orderedInsert Extsort.before (k, r)) ∧
      (pendingOf parts next ((key, r) :: heads)).Perm
        (key :: pendingOf parts (next.set r (next.getD r 0 + 1))
          (heads.orderedInsert Extsort.before (k, r))) := by
  obtain ⟨inside, some_, -⟩ := state.ready (key, r) List.mem_cons_self
  simp only at inside some_
  have counts := state.counts
  have distinct := state.once
  rw [List.map_cons, List.nodup_cons] at distinct
  have perm := List.perm_orderedInsert Extsort.before (k, r) heads
  have own : (next.set r (next.getD r 0 + 1)).getD r 0 = next.getD r 0 + 1 := by
    rw [List.getD_eq_getElem?_getD, List.getElem?_set_self (by omega), Option.getD_some]
  have other : ∀ i, i ≠ r → (next.set r (next.getD r 0 + 1)).getD i 0 = next.getD i 0 := by
    intro i apart
    rw [List.getD_eq_getElem?_getD, List.getElem?_set_ne apart.symm, List.getD_eq_getElem?_getD]
  have taken : restOf parts next r = k :: restOf parts (next.set r (next.getD r 0 + 1)) r := by
    obtain ⟨below, isK⟩ := List.getElem?_eq_some_iff.mp more
    rw [restOf, restOf, own, ← isK]
    exact List.drop_eq_getElem_cons below
  have kept : ∀ i, i ≠ r → restOf parts next i =
      restOf parts (next.set r (next.getD r 0 + 1)) i := by
    intro i apart
    rw [restOf, restOf, other i apart]
  refine ⟨⟨by rw [List.length_set, counts], ?_, ?_, ?_, ?_⟩, ?_⟩
  · exact (List.pairwise_cons.mp state.ordered).2.orderedInsert (k, r) heads
  · rw [(perm.map Prod.snd).nodup_iff]
    exact List.nodup_cons.mpr distinct
  · intro e member
    rcases List.mem_cons.mp (perm.mem_iff.mp member) with rfl | later
    · simp only
      rw [own]
      exact ⟨inside, Nat.succ_pos _, more⟩
    · have slot : e.2 ∈ heads.map Prod.snd := List.mem_map_of_mem later
      have apart : e.2 ≠ r := fun same => distinct.1 (same ▸ slot)
      rw [other e.2 apart]
      exact state.ready e (List.mem_cons_of_mem _ later)
  · intro i below absent
    rw [(perm.map Prod.snd).mem_iff, List.map_cons, List.mem_cons, not_or] at absent
    rw [← kept i absent.1]
    apply state.ended i below
    rw [List.map_cons, List.mem_cons, not_or]
    exact absent
  · have rest := flatMap_taken List.nodup_range (List.mem_range.mpr inside) taken kept
    rw [pendingOf, pendingOf, List.map_cons, List.cons_append]
    apply List.Perm.cons
    refine (rest.append_left _).trans (List.perm_middle.trans ?_)
    rw [← List.cons_append]
    exact ((perm.map Prod.fst).symm).append_right _

/-- The part of the top has ended. -/
theorem popped (state : Heads parts next ((key, r) :: heads))
    (none_ : (parts.getD r [])[next.getD r 0]? = none) : Heads parts next heads := by
  have distinct := state.once
  rw [List.map_cons, List.nodup_cons] at distinct
  refine ⟨state.counts, (List.pairwise_cons.mp state.ordered).2, distinct.2,
    fun e member => state.ready e (List.mem_cons_of_mem _ member), ?_⟩
  intro i below absent
  by_cases here : i = r
  · rw [here]
    exact List.drop_eq_nil_of_le (List.getElem?_eq_none_iff.mp none_)
  · apply state.ended i below
    rw [List.map_cons, List.mem_cons, not_or]
    exact ⟨here, absent⟩

end Heads

/-- As many slots as there are keys are filled with the keys, ascending. -/
theorem mergeFrom_spec {parts : List (List String)} (sorted : ∀ part ∈ parts, Sorted bytesOf part) :
    ∀ (slots : Nat) {next : List Nat} {heads : List (String × Nat)}, Heads parts next heads →
      (pendingOf parts next heads).length = slots → ∃ out, mergeFrom parts slots next heads = some out ∧
        out.Perm (pendingOf parts next heads) ∧ Sorted bytesOf out := by
  intro slots
  induction slots with
  | zero =>
      intro next heads state none_
      rw [List.eq_nil_of_length_eq_zero none_]
      exact ⟨[], by rw [mergeFrom], List.Perm.refl _, List.Pairwise.nil⟩
  | succ slots ih =>
      intro next heads state count
      cases heads with
      | nil =>
          rw [state.none_left] at count
          cases count
      | cons top heads =>
          obtain ⟨key, r⟩ := top
          have least := state.least sorted
          rw [mergeFrom]
          cases more : (parts.getD r [])[next.getD r 0]? with
          | some k =>
              obtain ⟨state', perm⟩ := state.pushed more
              rw [perm.length_eq, List.length_cons, Nat.succ_inj] at count
              obtain ⟨out, merged, outPerm, outSorted⟩ := ih state' count
              refine ⟨key :: out, ?_, (outPerm.cons key).trans perm.symm,
                List.pairwise_cons.mpr ⟨?_, outSorted⟩⟩
              · simp only [merged, Option.map_some]
              · intro x member
                exact least x (perm.mem_iff.mpr (List.mem_cons_of_mem _ (outPerm.mem_iff.mp member)))
          | none =>
              have state' := state.popped more
              have whole : pendingOf parts next ((key, r) :: heads) =
                  key :: pendingOf parts next heads := rfl
              rw [whole, List.length_cons, Nat.succ_inj] at count
              obtain ⟨out, merged, outPerm, outSorted⟩ := ih state' count
              refine ⟨key :: out, ?_, (outPerm.cons key).trans (by rw [whole]),
                List.pairwise_cons.mpr ⟨?_, outSorted⟩⟩
              · simp only [merged, Option.map_some]
              · intro x member
                apply least x
                rw [whole]
                exact List.mem_cons_of_mem _ (outPerm.mem_iff.mp member)

/-- The first keys of the parts, each with its part's number. -/
def firstsOf (parts : List (List String)) (start : Nat) : List (String × Nat) :=
  (parts.zipIdx start).filterMap fun part => part.1.head?.map fun key => (key, part.2)

theorem firstsOf_cons (part : List String) (parts : List (List String)) (start : Nat) :
    firstsOf (part :: parts) start =
      (part.head?.map fun key => (key, start)).toList ++ firstsOf parts (start + 1) := by
  rw [firstsOf, List.zipIdx_cons, List.filterMap_cons]
  cases part with
  | nil => rfl
  | cons key part => rfl

theorem firstsOf_spec (parts : List (List String)) : ∀ (start : Nat),
    (∀ e, e ∈ firstsOf parts start ↔
      start ≤ e.2 ∧ e.2 < start + parts.length ∧ (parts.getD (e.2 - start) []).head? = some e.1) ∧
    ((firstsOf parts start).map Prod.snd).Nodup ∧
    ((firstsOf parts start).map Prod.fst ++ parts.flatMap (List.drop 1)).Perm parts.flatten := by
  induction parts with
  | nil =>
      intro start
      refine ⟨fun e => ?_, List.nodup_nil, List.Perm.refl _⟩
      constructor
      · intro member
        cases member
      · rintro ⟨least, below, -⟩
        rw [List.length_nil] at below
        omega
  | cons part parts ih =>
      intro start
      obtain ⟨members, distinct, perm⟩ := ih (start + 1)
      rw [firstsOf_cons]
      refine ⟨fun e => ?_, ?_, ?_⟩
      · rw [List.mem_append, members, List.length_cons]
        constructor
        · rintro (first | ⟨least, below, head⟩)
          · rw [Option.mem_toList, Option.map_eq_some_iff] at first
            obtain ⟨key, head, rfl⟩ := first
            refine ⟨Nat.le_refl _, by simp only; omega, ?_⟩
            simp only [Nat.sub_self, List.getD_cons_zero]
            exact head
          · refine ⟨by omega, by omega, ?_⟩
            rw [show e.2 - start = (e.2 - (start + 1)) + 1 by omega, List.getD_cons_succ]
            exact head
        · rintro ⟨least, below, head⟩
          rcases Nat.eq_or_lt_of_le least with same | above
          · rw [← same, Nat.sub_self, List.getD_cons_zero] at head
            refine .inl ?_
            rw [head, same]
            exact List.mem_singleton.mpr rfl
          · refine .inr ⟨above, by omega, ?_⟩
            rwa [show e.2 - start = (e.2 - (start + 1)) + 1 by omega, List.getD_cons_succ] at head
      · rw [List.map_append, List.nodup_append]
        refine ⟨?_, distinct, ?_⟩
        · cases part.head? with
          | none => exact List.nodup_nil
          | some key => exact List.nodup_singleton _
        · intro a one b other same
          obtain ⟨e, member, rfl⟩ := List.mem_map.mp other
          obtain ⟨f, first, rfl⟩ := List.mem_map.mp one
          rw [Option.mem_toList, Option.map_eq_some_iff] at first
          obtain ⟨key, -, rfl⟩ := first
          have least := ((members e).mp member).1
          simp only at same
          omega
      · rw [List.map_append, List.flatMap_cons, List.flatten_cons]
        cases part with
        | nil => exact perm
        | cons key part =>
            change (key :: ((firstsOf parts (start + 1)).map Prod.fst ++
              (part ++ parts.flatMap (List.drop 1)))).Perm (key :: (part ++ parts.flatten))
            apply List.Perm.cons
            exact (List.perm_append_comm_assoc _ _ _).trans (perm.append_left part)

/-- The parts are merged into as many slots as they have keys. -/
theorem mergeInto_spec {parts : List (List String)} (sorted : ∀ part ∈ parts, Sorted bytesOf part) :
    ∃ out, mergeInto parts (parts.map List.length).sum = some out ∧ out.Perm parts.flatten ∧
      Sorted bytesOf out := by
  obtain ⟨members, distinct, perm⟩ := firstsOf_spec parts 0
  have order : (headsOf parts).Perm (firstsOf parts 0) := List.perm_insertionSort Extsort.before _
  have ones : ∀ r < parts.length, (parts.map fun _ => 1).getD r 0 = 1 := by
    intro r below
    rw [List.getD_eq_getElem _ _ (by rw [List.length_map]; exact below), List.getElem_map]
  have state : Heads parts (parts.map fun _ => 1) (headsOf parts) := by
    refine ⟨List.length_map .., List.pairwise_insertionSort Extsort.before _, ?_, ?_, ?_⟩
    · exact (order.map Prod.snd).nodup_iff.mpr distinct
    · intro e member
      obtain ⟨-, below, head⟩ := (members e).mp (order.mem_iff.mp member)
      rw [Nat.zero_add] at below
      rw [Nat.sub_zero, List.head?_eq_getElem?] at head
      rw [ones e.2 below]
      exact ⟨below, Nat.one_pos, head⟩
    · intro r below absent
      rw [restOf, ones r below]
      cases part : parts.getD r [] with
      | nil => rfl
      | cons key rest =>
          refine absurd ?_ absent
          rw [(order.map Prod.snd).mem_iff]
          refine List.mem_map.mpr ⟨(key, r), (members (key, r)).mpr ⟨Nat.zero_le r, ?_, ?_⟩, rfl⟩
          · simp only
            omega
          · simp only [Nat.sub_zero]
            rw [part]
            rfl
  have rests : (List.range parts.length).flatMap (restOf parts (parts.map fun _ => 1)) =
      parts.flatMap (List.drop 1) := by
    rw [List.flatMap, List.flatMap]
    congr 1
    apply List.ext_getElem
    · rw [List.length_map, List.length_map, List.length_range]
    · intro r one other
      rw [List.length_map] at other
      rw [List.getElem_map, List.getElem_map, List.getElem_range, restOf, ones r other,
        List.getD_eq_getElem _ _ other]
  have whole : (pendingOf parts (parts.map fun _ => 1) (headsOf parts)).Perm parts.flatten := by
    rw [pendingOf, rests]
    exact ((order.map Prod.fst).append_right _).trans perm
  obtain ⟨out, merged, outPerm, outSorted⟩ := mergeFrom_spec sorted _ state rfl
  refine ⟨out, ?_, outPerm.trans whole, outSorted⟩
  rw [mergeInto, ← List.length_flatten, ← whole.length_eq]
  exact merged

/-! ## The parts of the runs -/

theorem takeWhile_length_mono {α : Type} {p q : α → Bool} (weaker : ∀ a, p a = true → q a = true)
    (items : List α) : (items.takeWhile p).length ≤ (items.takeWhile q).length := by
  induction items with
  | nil => exact Nat.le_refl _
  | cons a items ih =>
      rw [List.takeWhile_cons, List.takeWhile_cons]
      split
      · next holds =>
        rw [if_pos (weaker a holds), List.length_cons, List.length_cons]
        exact Nat.succ_le_succ ih
      · exact Nat.zero_le _

/-- The keys of a sorted run past a splitter's cut are not below it. -/
theorem past_cut {run : List String} (sorted : Sorted bytesOf run) (s : String) :
    ∀ x ∈ run.drop (run.takeWhile fun k => bytesOf k < bytesOf s).length, bytesOf s ≤ bytesOf x := by
  induction run with
  | nil =>
      intro x member
      rw [List.drop_nil] at member
      cases member
  | cons key run ih =>
      obtain ⟨least, rest⟩ := List.pairwise_cons.mp sorted
      intro x member
      rw [List.takeWhile_cons] at member
      split at member
      · exact ih rest x (by simpa using member)
      · next above =>
        rw [decide_eq_true_eq, not_lt] at above
        rcases List.mem_cons.mp member with rfl | later
        · exact above
        · exact above.trans (least x later)

/-- The keys before it are. -/
theorem before_cut (run : List String) (s : String) :
    ∀ x ∈ run.take (run.takeWhile fun k => bytesOf k < bytesOf s).length, bytesOf x < bytesOf s := by
  induction run with
  | nil =>
      intro x member
      rw [List.take_nil] at member
      cases member
  | cons key run ih =>
      intro x member
      rw [List.takeWhile_cons] at member
      split at member
      · next below =>
        rw [List.length_cons, List.take_succ_cons] at member
        rcases List.mem_cons.mp member with rfl | later
        · exact of_decide_eq_true below
        · exact ih x later
      · rw [List.length_nil, List.take_zero] at member
        cases member

section Cuts

variable {splitters : List String} (ordered : Sorted bytesOf splitters) {run : List String}

/-- A run's cut below splitter `j`; its start for none, its end past the last. -/
def cutAt (splitters : List String) (run : List String) (j : Nat) : Nat :=
  (cutsOf splitters run).getD j 0

theorem cutAt_zero : cutAt splitters run 0 = 0 := by
  rw [cutAt, cutsOf, List.cons_append, List.getD_cons_zero]

theorem cutAt_splitter {j : Nat} (inside : j < splitters.length) : cutAt splitters run (j + 1) =
    (run.takeWhile fun k => bytesOf k < bytesOf (keyAt splitters j)).length := by
  rw [cutAt, cutsOf, List.cons_append, List.getD_cons_succ, List.getD_append _ _ _ _ (by
    rw [List.length_map]
    exact inside), List.getD_eq_getElem _ _ (by rw [List.length_map]; exact inside), List.getElem_map,
    keyAt, List.getD_eq_getElem _ _ inside]

theorem cutAt_last : cutAt splitters run (splitters.length + 1) = run.length := by
  rw [cutAt, cutsOf, List.cons_append, List.getD_cons_succ, List.getD_append_right _ _ _ _ (by
    rw [List.length_map]), List.length_map, Nat.sub_self]
  rfl

theorem cutAt_le {j : Nat} (inside : j ≤ splitters.length + 1) : cutAt splitters run j ≤ run.length := by
  cases j with
  | zero =>
      rw [cutAt_zero]
      exact Nat.zero_le _
  | succ j =>
      by_cases last : j = splitters.length
      · rw [last, cutAt_last]
      · rw [cutAt_splitter (by omega)]
        exact (List.takeWhile_prefix _).length_le

include ordered in
theorem keyAt_mono {i j : Nat} (order : i ≤ j) (inside : j < splitters.length) :
    bytesOf (keyAt splitters i) ≤ bytesOf (keyAt splitters j) := by
  rcases Nat.eq_or_lt_of_le order with rfl | less
  · exact le_refl _
  · have pair := List.pairwise_iff_getElem.mp ordered i j (by omega) inside less
    rwa [keyAt, keyAt, List.getD_eq_getElem _ _ (by omega), List.getD_eq_getElem _ _ inside]

include ordered in
theorem cutAt_mono (run : List String) {j : Nat} (inside : j ≤ splitters.length) :
    cutAt splitters run j ≤ cutAt splitters run (j + 1) := by
  cases j with
  | zero =>
      rw [cutAt_zero]
      exact Nat.zero_le _
  | succ j =>
      by_cases last : j + 1 = splitters.length
      · rw [last, cutAt_last]
        exact cutAt_le (by omega)
      · rw [cutAt_splitter (by omega), cutAt_splitter (by omega)]
        apply takeWhile_length_mono
        intro k below
        rw [decide_eq_true_eq] at below ⊢
        exact below.trans_le (keyAt_mono ordered (Nat.le_succ j) (by omega))

/-- The keys of a run between splitters `j - 1` and `j`. -/
def pieceOf (splitters : List String) (j : Nat) (run : List String) : List String :=
  (run.take (cutAt splitters run (j + 1))).drop (cutAt splitters run j)

/-- Every key of a piece is below its upper splitter. -/
theorem pieceOf_below {j : Nat} (inside : j < splitters.length) :
    ∀ x ∈ pieceOf splitters j run, bytesOf x < bytesOf (keyAt splitters j) := by
  intro x member
  rw [pieceOf, cutAt_splitter inside] at member
  exact before_cut run _ x (List.mem_of_mem_drop member)

/-- And not below its lower one. -/
theorem pieceOf_above (sorted : Sorted bytesOf run) {j : Nat} (inside : j < splitters.length) :
    ∀ x ∈ pieceOf splitters (j + 1) run, bytesOf (keyAt splitters j) ≤ bytesOf x := by
  intro x member
  rw [pieceOf, cutAt_splitter inside, List.drop_take] at member
  exact past_cut sorted _ x (List.mem_of_mem_take member)

include ordered in
/-- The pieces of a run are the run. -/
theorem pieces_flatten (run : List String) : ∀ (left : Nat) {j : Nat},
    j + left = splitters.length + 1 →
      (List.range' j left).flatMap (fun j => pieceOf splitters j run) =
        run.drop (cutAt splitters run j) := by
  intro left
  induction left with
  | zero =>
      intro j whole
      rw [Nat.add_zero] at whole
      rw [whole, cutAt_last, List.drop_length]
      rfl
  | succ left ih =>
      intro j whole
      rw [List.range'_succ, List.flatMap_cons, ih (by omega), pieceOf, List.drop_take]
      have grows := cutAt_mono ordered run (show j ≤ splitters.length by omega)
      have rest : run.drop (cutAt splitters run (j + 1)) =
          (run.drop (cutAt splitters run j)).drop
            (cutAt splitters run (j + 1) - cutAt splitters run j) := by
        rw [List.drop_drop, Nat.add_sub_cancel' grows]
      rw [rest, List.take_append_drop]

end Cuts

/-! ## The parts in order -/

theorem mapM_some {α β : Type} {f : α → Option β} {g : α → β} {items : List α}
    (each : ∀ a ∈ items, f a = some (g a)) : items.mapM f = some (items.map g) := by
  induction items with
  | nil => rfl
  | cons a items ih =>
      rw [List.mapM_cons, each a List.mem_cons_self,
        ih fun b member => each b (List.mem_cons_of_mem _ member)]
      rfl

section Parts

variable {splitters : List String} (ordered : Sorted bytesOf splitters) {runs : List (List String)}
  (sorted : ∀ run ∈ runs, Sorted bytesOf run)
include ordered

theorem partsOf_eq {j : Nat} (inside : j ≤ splitters.length) :
    partsOf runs (runs.map (cutsOf splitters)) j = some (runs.map (pieceOf splitters j)) := by
  have pairs : runs.zip (runs.map (cutsOf splitters)) =
      runs.map fun run => (run, cutsOf splitters run) := by
    induction runs with
    | nil => rfl
    | cons run runs ih => rw [List.map_cons, List.zip_cons_cons, ih, List.map_cons]
  rw [partsOf, pairs, List.mapM_map]
  apply mapM_some
  intro run _
  apply if_pos
  exact ⟨cutAt_mono ordered run inside, cutAt_le (by omega)⟩

include sorted

/-- The parts from one on, merged: their keys, ascending, none below the part's lower splitter. -/
theorem mergeParts_spec : ∀ (left : Nat) {j : Nat}, j + left = splitters.length + 1 →
    ∃ out, mergeParts runs (runs.map (cutsOf splitters)) left j
        ((List.range' j left).flatMap fun j => runs.flatMap (pieceOf splitters j)).length = some out ∧
      out.Perm ((List.range' j left).flatMap fun j => runs.flatMap (pieceOf splitters j)) ∧
      Sorted bytesOf out ∧
      (∀ i < j, ∀ x ∈ out, i < splitters.length → bytesOf (keyAt splitters i) ≤ bytesOf x) := by
  intro left
  induction left with
  | zero =>
      intro j _
      exact ⟨[], rfl, List.Perm.refl _, List.Pairwise.nil, fun i _ x member =>
        absurd member List.not_mem_nil⟩
  | succ left ih =>
      intro j whole
      obtain ⟨tail, merged, tailPerm, tailSorted, tailAbove⟩ := @ih (j + 1) (by omega)
      have flat : (runs.map (pieceOf splitters j)).flatten = runs.flatMap (pieceOf splitters j) := rfl
      have pieces : ∀ part ∈ runs.map (pieceOf splitters j), Sorted bytesOf part := by
        intro part member
        obtain ⟨run, known, rfl⟩ := List.mem_map.mp member
        exact ((sorted run known).sublist (List.take_sublist _ _)).sublist (List.drop_sublist _ _)
      obtain ⟨part, filled, partPerm, partSorted⟩ := mergeInto_spec pieces
      have members : ∀ x ∈ part, ∃ run ∈ runs, x ∈ pieceOf splitters j run := by
        intro x member
        have held := partPerm.mem_iff.mp member
        rw [flat] at held
        exact List.mem_flatMap.mp held
      have count : ((runs.map (pieceOf splitters j)).map List.length).sum =
          (runs.flatMap (pieceOf splitters j)).length := by
        rw [← List.length_flatten, flat]
      rw [List.range'_succ, List.flatMap_cons, List.length_append, mergeParts,
        partsOf_eq ordered (by omega)]
      refine ⟨part ++ tail, ?_, ?_, ?_, ?_⟩
      · simp only [Option.bind_eq_bind, Option.bind_some, count]
        rw [if_neg (by omega), ← count, filled, count, Nat.add_sub_cancel_left, merged]
        rfl
      · exact (flat ▸ partPerm).append tailPerm
      · refine List.pairwise_append.mpr ⟨partSorted, tailSorted, ?_⟩
        intro x one y other
        obtain ⟨run, known, piece⟩ := members x one
        by_cases last : j = splitters.length
        · rw [show left = 0 by omega, List.range'_zero, List.flatMap_nil] at tailPerm
          rw [tailPerm.eq_nil] at other
          cases other
        · exact (pieceOf_below (by omega) x piece).le.trans
            (tailAbove j (Nat.lt_succ_self j) y other (by omega))
      · intro i below x member inside
        rcases List.mem_append.mp member with one | other
        · obtain ⟨run, known, piece⟩ := members x one
          obtain ⟨k, rfl⟩ : ∃ k, j = k + 1 := ⟨j - 1, by omega⟩
          exact (keyAt_mono ordered (by omega) (by omega)).trans
            (pieceOf_above (sorted run known) (by omega) x piece)
        · exact tailAbove i (by omega) x other inside

omit sorted in
/-- All the parts of all the runs are the runs. -/
theorem parts_perm (runs : List (List String)) : ((List.range' 0 (splitters.length + 1)).flatMap fun j =>
    runs.flatMap (pieceOf splitters j)).Perm runs.flatten := by
  induction runs with
  | nil =>
      rw [List.flatten_nil]
      apply List.Perm.of_eq
      rw [List.flatMap_eq_nil_iff]
      exact fun _ _ => rfl
  | cons run runs ih =>
      have split := List.flatMap_append_perm (List.range' 0 (splitters.length + 1))
        (fun j => pieceOf splitters j run) fun j => runs.flatMap (pieceOf splitters j)
      refine split.symm.trans ?_
      rw [pieces_flatten ordered run (splitters.length + 1) (Nat.zero_add _), cutAt_zero, List.drop_zero,
        List.flatten_cons]
      exact ih.append_left run

end Parts

/-! ## The sample sort -/

theorem sortUnstable_sorted (keys : List String) : Sorted bytesOf (sortUnstable keys) :=
  sorted_mergeSort bytesOf keys

theorem sortUnstable_perm (keys : List String) : (sortUnstable keys).Perm keys :=
  List.mergeSort_perm keys _

theorem scaled_lt {i len threads : Nat} (below : i < threads) (some_ : 0 < len) :
    i * len / threads < len := by
  rw [Nat.div_lt_iff_lt_mul (by omega), Nat.mul_comm len]
  exact Nat.mul_lt_mul_of_pos_right below some_

theorem sampleOf_some {runs : List (List String)} {threads : Nat} (filled : ∀ run ∈ runs, run ≠ [])
    (some_ : runs ≠ []) (positive : 0 < threads) :
    ∃ sample, sampleOf runs threads = some sample ∧ Sorted bytesOf sample ∧ 0 < sample.length := by
  have each : ∀ run ∈ runs, (List.range threads).mapM (fun i => run[i * run.length / threads]?) =
      some ((List.range threads).map fun i => keyAt run (i * run.length / threads)) := by
    intro run member
    apply mapM_some
    intro i inside
    exact getElem?_keyAt (scaled_lt (List.mem_range.mp inside)
      (List.length_pos_of_ne_nil (filled run member)))
  rw [sampleOf, mapM_some each, Option.map_some]
  refine ⟨_, rfl, sortUnstable_sorted _, ?_⟩
  rw [(sortUnstable_perm _).length_eq]
  obtain ⟨run, rest, rfl⟩ := List.exists_cons_of_ne_nil some_
  rw [List.map_cons, List.flatten_cons, List.length_append, List.length_map, List.length_range]
  omega

theorem splittersOf_some {sample : List String} (sorted : Sorted bytesOf sample)
    (some_ : 0 < sample.length) (threads : Nat) :
    ∃ splitters, splittersOf sample threads = some splitters ∧ Sorted bytesOf splitters ∧
      splitters.length = threads - 1 := by
  have each : ∀ j ∈ List.range' 1 (threads - 1), sample[j * sample.length / threads]? =
      some (keyAt sample (j * sample.length / threads)) := by
    intro j member
    rw [List.mem_range'_1] at member
    exact getElem?_keyAt (scaled_lt (by omega) some_)
  rw [splittersOf, mapM_some each]
  refine ⟨_, rfl, ?_, by rw [List.length_map, List.length_range']⟩
  rw [Sorted, List.pairwise_map]
  refine (List.pairwise_lt_range' (s := 1) (n := threads - 1)).imp_of_mem ?_
  intro i j _ member less
  rw [List.mem_range'_1] at member
  exact keyAt_mono sorted (Nat.div_le_div_right (Nat.mul_le_mul_right _ (Nat.le_of_lt less)))
    (scaled_lt (by omega) some_)

/-- On any number of threads the sort ends with the keys, ascending. -/
theorem sortOn_spec (keys : List String) (threads : Nat) :
    ∃ out, sortOn keys threads = some out ∧ out.Perm keys ∧ Sorted bytesOf out := by
  rw [sortOn]
  generalize isThreads : max (min threads keys.length.sqrt) 1 = count
  simp only
  split
  · exact ⟨_, rfl, sortUnstable_perm keys, sortUnstable_sorted keys⟩
  · next many =>
    have rooted : count ≤ keys.length.sqrt := by omega
    have long : count ≤ keys.length := rooted.trans (Nat.sqrt_le_self _)
    have someKeys : keys ≠ [] := by
      rintro rfl
      rw [List.length_nil] at long
      omega
    generalize (keys.length + count - 1) / count = size
    have flat := chunks_flatten size keys
    have filled : ∀ run ∈ (chunks size keys).map sortUnstable, run ≠ [] := by
      intro run member
      obtain ⟨group, known, rfl⟩ := List.mem_map.mp member
      intro none_
      have perm := sortUnstable_perm group
      rw [none_] at perm
      exact chunks_some size keys group known perm.symm.eq_nil
    have someRuns : (chunks size keys).map sortUnstable ≠ [] := by
      intro none_
      rw [List.map_eq_nil_iff] at none_
      rw [none_] at flat
      exact someKeys flat.symm
    have runsPerm : ((chunks size keys).map sortUnstable).flatten.Perm keys := by
      conv_rhs => rw [← flat]
      generalize chunks size keys = groups
      induction groups with
      | nil => exact List.Perm.refl _
      | cons group groups ih =>
          rw [List.map_cons, List.flatten_cons, List.flatten_cons]
          exact (sortUnstable_perm group).append ih
    have positive : 0 < count := by omega
    obtain ⟨sample, sampled, sampleSorted, sampleSome⟩ := sampleOf_some filled someRuns positive
    obtain ⟨splitters, split, splitSorted, splitCount⟩ :=
      splittersOf_some sampleSorted sampleSome count
    have runsSorted : ∀ run ∈ (chunks size keys).map sortUnstable, Sorted bytesOf run := by
      intro run member
      obtain ⟨group, -, rfl⟩ := List.mem_map.mp member
      exact sortUnstable_sorted group
    obtain ⟨out, merged, outPerm, outSorted, -⟩ :=
      mergeParts_spec splitSorted runsSorted (splitters.length + 1) (Nat.zero_add _)
    have parts := parts_perm splitSorted ((chunks size keys).map sortUnstable)
    refine ⟨out, ?_, outPerm.trans (parts.trans runsPerm), outSorted⟩
    rw [parts.length_eq, runsPerm.length_eq, splitCount, Nat.sub_add_cancel (by omega)] at merged
    rw [sampled, Option.bind_eq_bind, Option.bind_some, split, Option.bind_some]
    exact merged

/-- For every list of strings and every number of threads the sort yields a sorted permutation, and the
distinct sort is sorting and dropping duplicates; keys that are ascending and distinct stay as they are. -/
theorem sorts_exactly (keys : List String) (threads : Nat) :
    (∃ out, sortOn keys threads = some out ∧ out.Perm keys ∧ Sorted bytesOf out) ∧
    sortDistinct keys threads = some (sortDedup bytesOf keys) ∧
    (Ascending bytesOf keys → sortDistinct keys threads = some keys) := by
  have injective : Function.Injective bytesOf := fun _ _ => bytesOf_inj
  have distinct : sortDistinct keys threads = some (sortDedup bytesOf keys) := by
    have first := distinctAscending_spec keys threads
    rw [sortDistinct]
    cases passed : distinctAscending keys threads with
    | mk ok kept =>
        rw [passed] at first
        cases ok with
        | true =>
            obtain ⟨ascending, members⟩ := first.distinct rfl
            exact congrArg some (eq_sortDedup injective keys ascending members)
        | false =>
            obtain ⟨out, sorted, perm, outSorted⟩ := sortOn_spec kept threads
            have second := dedupAscending_spec out
            simp only [sorted, Option.bind_eq_bind, Option.bind_some]
            cases again : dedupAscending out with
            | mk ok' kept' =>
                rw [again] at second
                have ok : ok' = true := second.sorted outSorted
                subst ok
                obtain ⟨ascending, members⟩ := second.distinct rfl
                exact congrArg some (eq_sortDedup injective keys ascending fun key =>
                  (members key).trans ((perm.trans (first.moved rfl)).mem_iff))
  refine ⟨sortOn_spec keys threads, distinct, ?_⟩
  intro ascending
  rw [distinct, ← eq_sortDedup injective keys ascending fun _ => Iff.rfl]

end Lexindex.DictIndex
