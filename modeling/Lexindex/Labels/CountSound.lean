import Mathlib
import Lexindex.Labels.EdgesSound

/-!
# Both counts agree

A label added twice is reported, whatever else is: bits are only ever set, and the second time a
label comes its bits are there.  So the second pass counts every label the first saw twice, as
often as the walk in memory does, and what either counts besides does not pay.
-/

set_option autoImplicit false

namespace Lexindex.Labels

open Patricia

/-! ## Labels seen twice -/

namespace Seen

theorem has_iff {table : List Word} {p : Nat × Word} :
    has table p = true ↔ ∃ j, (table.getD p.1 0#64).getLsbD j = true ∧ p.2.getLsbD j = true := by
  rw [has, bne_iff_ne, ne_eq, ← not_iff_not, not_not, not_exists]
  constructor
  · intro zero j both
    have bit := congrArg (fun w => w.getLsbD j) zero
    simp only [BitVec.getLsbD_and, BitVec.getLsbD_zero, both.1, both.2] at bit
    cases bit
  · intro none_
    apply BitVec.eq_of_getLsbD_eq
    intro j _
    rw [BitVec.getLsbD_and, BitVec.getLsbD_zero, Bool.and_eq_false_iff]
    by_cases left : (table.getD p.1 0#64).getLsbD j
    · exact .inr (Bool.eq_false_iff.mpr fun right => none_ j ⟨left, right⟩)
    · exact .inl (Bool.eq_false_iff.mpr left)

/-- A mark takes no bit away. -/
theorem has_mark {table : List Word} {p : Nat × Word} (held : has table p = true) (at_ : Nat × Word) :
    has (mark table at_) p = true := by
  obtain ⟨j, bit, mask⟩ := has_iff.mp held
  refine has_iff.mpr ⟨j, ?_, mask⟩
  rw [mark, List.getD_eq_getElem?_getD, List.getElem?_modify]
  rw [List.getD_eq_getElem?_getD] at bit
  cases here : table[p.1]? with
  | none =>
      rw [here] at bit
      exact bit
  | some w =>
      rw [here] at bit
      change (if at_.1 = p.1 then w ||| at_.2 else w).getLsbD j = true
      split
      · rw [BitVec.getLsbD_or, show w.getLsbD j = true from bit, Bool.true_or]
      · exact bit

/-- A mark is there. -/
theorem has_marked {table : List Word} {at_ : Nat × Word} (inside : at_.1 < table.length)
    (mask : at_.2 ≠ 0#64) : has (mark table at_) at_ = true := by
  obtain ⟨j, bit⟩ : ∃ j, at_.2.getLsbD j = true := by
    by_contra none_
    rw [not_exists] at none_
    exact mask (BitVec.eq_of_getLsbD_eq fun j _ => by
      rw [BitVec.getLsbD_zero]
      exact Bool.eq_false_iff.mpr (none_ j))
  refine has_iff.mpr ⟨j, ?_, bit⟩
  rw [mark, List.getD_eq_getElem?_getD, List.getElem?_modify, List.getElem?_eq_getElem inside]
  change (if at_.1 = at_.1 then table[at_.1] ||| at_.2 else table[at_.1]).getLsbD j = true
  rw [if_pos rfl, BitVec.getLsbD_or, bit, Bool.or_true]

theorem place_inside {words : Nat} (some_ : 0 < words) (h : Nat) : (place words h).1 < words := by
  have least : (place words h).1 ≤ words - 1 := Nat.and_le_right
  omega

theorem place_mask (words h : Nat) : (place words h).2 ≠ 0#64 := by
  have small : h &&& 63 < 64 := Nat.and_lt_two_pow h (by decide : 63 < 2 ^ 6)
  intro zero
  have bit := congrArg (fun w => w.getLsbD (h &&& 63)) zero
  simp only [place, BitVec.getLsbD_shiftLeft, BitVec.getLsbD_zero, decide_eq_true small,
    Nat.lt_irrefl, decide_false, Nat.sub_self] at bit
  cases bit

/-- What a set has another has, tables of one size. -/
structure Grows (s t : Seen) : Prop where
  size : t.once.length = s.once.length
  once : ∀ p, has s.once p = true → has t.once p = true
  twice : ∀ p, has s.twice p = true → has t.twice p = true

theorem Grows.places {s t : Seen} (grows : Grows s t) (label : Label) :
    t.places label = s.places label := by
  rw [Seen.places, Seen.places, grows.size]

theorem grows_add (s : Seen) (label : Label) : Grows s (s.add label) := by
  refine ⟨by simp only [add, length_mark], fun p held => has_mark (has_mark held _) _, fun p held => ?_⟩
  change has (if _ then mark (mark s.twice _) _ else s.twice) p = true
  split
  · exact has_mark (has_mark held _) _
  · exact held

theorem Grows.trans {s t u : Seen} (first : Grows s t) (second : Grows t u) : Grows s u :=
  ⟨second.size.trans first.size, fun p held => second.once p (first.once p held),
    fun p held => second.twice p (first.twice p held)⟩

theorem grows_foldl (labels : List Label) : ∀ s : Seen, Grows s (labels.foldl add s) := by
  induction labels with
  | nil => exact fun s => ⟨rfl, fun _ held => held, fun _ held => held⟩
  | cons label labels ih => exact fun s => (grows_add s label).trans (ih _)

/-- Both of a label's bits were seen once. -/
def Met (s : Seen) (label : Label) : Prop :=
  has s.once (s.places label).1 = true ∧ has s.once (s.places label).2 = true

theorem Grows.met {s t : Seen} (grows : Grows s t) {label : Label} (met : s.Met label) :
    t.Met label := by
  rw [Met, grows.places]
  exact ⟨grows.once _ met.1, grows.once _ met.2⟩

theorem Grows.reports {s t : Seen} (grows : Grows s t) {label : Label}
    (reported : s.reports label = true) : t.reports label = true := by
  change (has t.twice (t.places label).1 && has t.twice (t.places label).2) = true
  rw [grows.places]
  have both : (has s.twice (s.places label).1 && has s.twice (s.places label).2) = true := reported
  rw [Bool.and_eq_true] at both ⊢
  exact ⟨grows.twice _ both.1, grows.twice _ both.2⟩

theorem met_add (s : Seen) (label : Label) : (s.add label).Met label := by
  rw [Met, (grows_add s label).places]
  exact ⟨has_mark (has_marked (place_inside s.some_ _) (place_mask _ _)) _,
    has_marked (by rw [length_mark]; exact place_inside s.some_ _) (place_mask _ _)⟩

/-- The second time a label comes it is reported, also where its two bits are one. -/
theorem reports_add {s : Seen} {label : Label} (met : s.Met label) :
    (s.add label).reports label = true := by
  change (has (s.add label).twice ((s.add label).places label).1 &&
    has (s.add label).twice ((s.add label).places label).2) = true
  rw [(grows_add s label).places]
  change (has (if (has s.once (s.places label).1 && has s.once (s.places label).2) = true then
      mark (mark s.twice (s.places label).1) (s.places label).2 else s.twice) (s.places label).1 &&
    has (if (has s.once (s.places label).1 && has s.once (s.places label).2) = true then
      mark (mark s.twice (s.places label).1) (s.places label).2 else s.twice) (s.places label).2) = true
  rw [met.1, met.2, Bool.and_self, if_pos rfl, Bool.and_eq_true]
  have room : 0 < s.twice.length := by
    rw [s.sized]
    exact s.some_
  have inside : ∀ h, (place s.once.length h).1 < s.twice.length := fun h => by
    rw [s.sized]
    exact place_inside s.some_ h
  exact ⟨has_mark (has_marked (inside _) (place_mask _ _)) _,
    has_marked (by rw [length_mark]; exact inside _) (place_mask _ _)⟩

theorem reports_of_met {labels : List Label} {label : Label} : ∀ {s : Seen}, s.Met label →
    label ∈ labels → (labels.foldl add s).reports label = true := by
  induction labels with
  | nil =>
      intro s _ member
      cases member
  | cons other labels ih =>
      intro s met member
      by_cases same : label = other
      · subst same
        exact (grows_foldl labels _).reports (reports_add met)
      · exact ih ((grows_add s other).met met) ((List.mem_cons.mp member).resolve_left same)

/-- Every label added at least twice is reported. -/
theorem reports_of_twice {labels : List Label} {label : Label} (often : 2 ≤ labels.count label) :
    ∀ s : Seen, (labels.foldl add s).reports label = true := by
  induction labels with
  | nil =>
      rw [List.count_nil] at often
      omega
  | cons other labels ih =>
      intro s
      by_cases same : other = label
      · subst same
        rw [List.count_cons_self] at often
        rw [List.foldl_cons]
        exact reports_of_met (met_add s other) (List.count_pos_iff.mp (by omega))
      · rw [List.count_cons_of_ne same] at often
        exact ih often _

end Seen

/-! ## Counts -/

/-- A map with an entry for every label of a list, and no other. -/
structure Tallied (labels : List Label) (counts : Counts) : Prop where
  nodup : (counts.map Prod.fst).Nodup
  entries : ∀ label count, (label, count) ∈ counts ↔
    label ∈ labels ∧ count = UInt32.ofNat (labels.count label)

theorem bump_keys (counts : Counts) (label : Label) : (bump counts label).map Prod.fst =
    if label ∈ counts.map Prod.fst then counts.map Prod.fst else counts.map Prod.fst ++ [label] := by
  induction counts with
  | nil => rfl
  | cons entry counts ih =>
      obtain ⟨other, count⟩ := entry
      rw [bump]
      by_cases same : other = label
      · subst same
        rw [if_pos rfl, List.map_cons, List.map_cons, if_pos List.mem_cons_self]
      · rw [if_neg same, List.map_cons, ih, List.map_cons]
        by_cases known : label ∈ counts.map Prod.fst
        · rw [if_pos known, if_pos (List.mem_cons_of_mem _ known)]
        · rw [if_neg known, if_neg (by simpa [Ne.symm same] using known)]
          rfl

theorem mem_bump {counts : Counts} {label : Label} (nodup : (counts.map Prod.fst).Nodup)
    (other : Label) (count : UInt32) : (other, count) ∈ bump counts label ↔
      if other = label then
        (∃ before, (label, before) ∈ counts ∧ count = before + 1) ∨
          label ∉ counts.map Prod.fst ∧ count = 1
      else (other, count) ∈ counts := by
  induction counts with
  | nil =>
      rw [bump, List.mem_singleton, Prod.mk.injEq]
      by_cases same : other = label
      · simp [same]
      · simp [same]
  | cons entry counts ih =>
      obtain ⟨first, held⟩ := entry
      rw [List.map_cons, List.nodup_cons] at nodup
      rw [bump]
      by_cases here : first = label
      · subst here
        rw [if_pos rfl, List.mem_cons, Prod.mk.injEq]
        by_cases same : other = first
        · subst same
          have absent : ∀ c, (other, c) ∉ counts := fun c member =>
            nodup.1 (List.mem_map.mpr ⟨(other, c), member, rfl⟩)
          simp [absent]
        · rw [if_neg same, List.mem_cons, Prod.mk.injEq]
          simp [same]
      · rw [if_neg here, List.mem_cons, Prod.mk.injEq, ih nodup.2]
        by_cases same : other = label
        · subst same
          have apart : ¬ other = first := fun same => here same.symm
          simp [apart]
        · rw [if_neg same, if_neg same, List.mem_cons, Prod.mk.injEq]

theorem tallied_nil : Tallied [] [] :=
  ⟨List.nodup_nil, fun label count => by simp⟩

theorem Tallied.bump {labels : List Label} {counts : Counts} (tallied : Tallied labels counts)
    (label : Label) : Tallied (labels ++ [label]) (bump counts label) := by
  have known : ∀ other, other ∈ counts.map Prod.fst ↔ other ∈ labels := by
    intro other
    constructor
    · intro member
      obtain ⟨⟨_, count⟩, held, rfl⟩ := List.mem_map.mp member
      exact ((tallied.entries _ count).mp held).1
    · intro member
      exact List.mem_map.mpr ⟨_, (tallied.entries other _).mpr ⟨member, rfl⟩, rfl⟩
  refine ⟨?_, fun other count => ?_⟩
  · rw [bump_keys]
    split
    · exact tallied.nodup
    · next absent =>
      exact List.nodup_append.mpr ⟨tallied.nodup, List.nodup_singleton _, fun a member b here same => by
        rw [List.mem_singleton.mp here] at same
        exact absent (same ▸ member)⟩
  · rw [mem_bump tallied.nodup, List.mem_append, List.mem_singleton, List.count_append]
    by_cases same : other = label
    · subst same
      rw [if_pos rfl, List.count_singleton_self, known, UInt32.ofNat_add]
      constructor
      · rintro (⟨before, held, rfl⟩ | ⟨absent, rfl⟩)
        · rw [((tallied.entries other before).mp held).2]
          exact ⟨.inr rfl, rfl⟩
        · rw [List.count_eq_zero_of_not_mem absent]
          exact ⟨.inr rfl, rfl⟩
      · rintro ⟨-, rfl⟩
        by_cases member : other ∈ labels
        · exact .inl ⟨_, (tallied.entries other _).mpr ⟨member, rfl⟩, rfl⟩
        · rw [List.count_eq_zero_of_not_mem member]
          exact .inr ⟨member, rfl⟩
    · rw [if_neg same, tallied.entries, List.count_singleton, if_neg (by simpa using Ne.symm same),
        Nat.add_zero, or_iff_left same]

theorem tallied_foldl {keep : Label → Bool} (labels : List Label) {f : Counts → Label → Counts}
    (step : ∀ counts label, f counts label = if keep label then bump counts label else counts) :
    Tallied (labels.filter keep) (labels.foldl f []) := by
  induction labels using List.reverseRecOn with
  | nil => exact tallied_nil
  | append_singleton labels label ih =>
      rw [List.foldl_append, List.filter_append, List.foldl_cons, List.foldl_nil, step]
      by_cases kept : keep label
      · rw [if_pos kept, List.filter_cons_of_pos kept, List.filter_nil]
        exact ih.bump label
      · rw [if_neg kept, List.filter_cons_of_neg kept, List.filter_nil, List.append_nil]
        exact ih

theorem Tallied.lookup {labels : List Label} {counts : Counts} (tallied : Tallied labels counts)
    {label : Label} (member : label ∈ labels) :
    counts.lookup label = some (UInt32.ofNat (labels.count label)) := by
  have held := (tallied.entries label _).mpr ⟨member, rfl⟩
  obtain ⟨front, tail, split⟩ := List.append_of_mem held
  have nodup := tallied.nodup
  rw [List.lookup_eq_some_iff]
  refine ⟨front, tail, split, fun entry early => ?_⟩
  rw [split, List.map_append, List.map_cons] at nodup
  rw [bne_iff_ne]
  rintro rfl
  exact (List.nodup_append.mp nodup).2.2 _ (List.mem_map_of_mem early) _ List.mem_cons_self rfl

/-! ## The two passes -/

theorem walkAll_cons {last key : List UInt8} {opened : List Nat} {keys : List (List UInt8)}
    {stop : List UInt8 × List Nat} {labels : List Label}
    (ran : walkAll last opened (key :: keys) = some (stop, labels)) :
    ∃ next first rest, EdgeCount.walk last opened key = some (next, first) ∧
      walkAll next.1 next.2 keys = some (stop, rest) ∧ labels = first ++ rest := by
  rw [walkAll] at ran
  obtain ⟨⟨next, first⟩, walked, ran⟩ := Option.bind_eq_some_iff.mp ran
  obtain ⟨⟨stop', rest⟩, more, ran⟩ := Option.bind_eq_some_iff.mp ran
  obtain ⟨rfl, rfl⟩ := Prod.mk.inj (Option.some.inj ran)
  exact ⟨next, first, rest, walked, more, rfl⟩

theorem walkAll_nil {last : List UInt8} {opened : List Nat} {stop : List UInt8 × List Nat}
    {labels : List Label} (ran : walkAll last opened [] = some (stop, labels)) :
    stop = (last, opened) ∧ labels = [] := by
  obtain ⟨rfl, rfl⟩ := Prod.mk.inj (Option.some.inj ran)
  exact ⟨rfl, rfl⟩

namespace EdgeCount

theorem sift_all {keys : List (List UInt8)} : ∀ {e : EdgeCount} {stop : List UInt8 × List Nat}
    {labels : List Label}, walkAll e.last e.opened keys = some (stop, labels) →
    keys.foldlM sift e =
      some { e with last := stop.1, opened := stop.2, seen := labels.foldl siftOne e.seen } := by
  induction keys with
  | nil =>
      intro e stop labels ran
      obtain ⟨rfl, rfl⟩ := walkAll_nil ran
      rfl
  | cons key keys ih =>
      intro e stop labels ran
      obtain ⟨next, first, rest, walked, more, rfl⟩ := walkAll_cons ran
      rw [List.foldlM_cons, sift, walked, List.foldl_append]
      exact ih more

theorem count_all {keys : List (List UInt8)} : ∀ {e : EdgeCount} {stop : List UInt8 × List Nat}
    {labels : List Label}, walkAll e.last e.opened keys = some (stop, labels) →
    keys.foldlM count e =
      some { e with last := stop.1, opened := stop.2, counts := labels.foldl (tally e.seen) e.counts } := by
  induction keys with
  | nil =>
      intro e stop labels ran
      obtain ⟨rfl, rfl⟩ := walkAll_nil ran
      rfl
  | cons key keys ih =>
      intro e stop labels ran
      obtain ⟨next, first, rest, walked, more, rfl⟩ := walkAll_cons ran
      rw [List.foldlM_cons, count, walked, List.foldl_append]
      exact ih more

theorem sift_reports {labels : List Label} {label : Label} (fits : mayPay label.length = true)
    (often : 2 ≤ labels.count label) (s : Seen) : (labels.foldl siftOne s).reports label = true := by
  have sifted : labels.foldl siftOne s = (labels.filter fun l => mayPay l.length).foldl Seen.add s := by
    rw [List.foldl_filter]
    rfl
  rw [sifted]
  apply Seen.reports_of_twice
  have kept : (labels.filter fun l => mayPay l.length).count label = labels.count label :=
    List.count_filter (p := fun l : Label => mayPay l.length) fits
  rwa [kept]

/-- Both passes over sorted keys: the same edges twice, counted off what the first pass saw. -/
theorem ofKeys_spec {keys : List (List UInt8)} {opened : List Nat} {labels rest : List Label}
    (ran : walkAll [] [0] keys = some ((lastOf keys, opened), labels))
    (closed : closeEdges (lastOf keys) 0 opened = some ([0], rest)) (expected : Nat) :
    ∃ e, ofKeys expected keys = some e ∧
      e.seen = (labels ++ rest).foldl siftOne (.forKeys expected) ∧
      e.counts = (labels ++ rest).foldl (tally e.seen) [] := by
  have seen : rest.foldl siftOne (labels.foldl siftOne (.forKeys expected)) =
      (labels ++ rest).foldl siftOne (.forKeys expected) := List.foldl_append.symm
  refine ⟨⟨lastOf keys, [0], (labels ++ rest).foldl siftOne (.forKeys expected),
    (labels ++ rest).foldl (tally ((labels ++ rest).foldl siftOne (.forKeys expected))) []⟩, ?_, rfl, rfl⟩
  rw [ofKeys, sift_all (show walkAll (forKeys expected).last (forKeys expected).opened keys = _ from ran)]
  change (sifted ⟨lastOf keys, opened, labels.foldl siftOne (.forKeys expected), []⟩).bind _ = _
  rw [sifted, closed]
  change (keys.foldlM count ⟨[], [0], rest.foldl siftOne (labels.foldl siftOne (.forKeys expected)), []⟩).bind
    _ = _
  rw [seen, count_all (show walkAll _ _ keys = _ from ran)]
  rw [Option.bind_some, counted, closed, List.foldl_append (f := tally _)]
  rfl

end EdgeCount

/-! ## The walk in memory -/

theorem selectEdgesFrom_eq {keys : List (List UInt8)} : ∀ {last : List UInt8} {opened : List Nat}
    {stop : List UInt8 × List Nat} {labels rest : List Label} {left : List Nat},
    walkAll last opened keys = some (stop, labels) → closeEdges stop.1 0 stop.2 = some (left, rest) →
    selectEdgesFrom last opened keys = some (labels ++ rest) := by
  induction keys with
  | nil =>
      intro last opened stop labels rest left ran closed
      obtain ⟨rfl, rfl⟩ := walkAll_nil ran
      rw [selectEdgesFrom, closed]
      rfl
  | cons key keys ih =>
      intro last opened stop labels rest left ran closed
      obtain ⟨next, first, more, walked, onward, rfl⟩ := walkAll_cons ran
      obtain ⟨⟨left', labels'⟩, closed', same⟩ := Option.bind_eq_some_iff.mp walked
      obtain ⟨rfl, rfl⟩ := Prod.mk.inj (Option.some.inj same)
      rw [selectEdgesFrom, closed']
      change (selectEdgesFrom key (openKey left' key.length) keys).bind _ = _
      rw [ih onward closed, List.append_assoc]
      rfl

/-- The first key opens its path at the root in both walks. -/
theorem selectEdges_eq {keys : List (List UInt8)} (some_ : keys ≠ []) {opened : List Nat}
    {labels rest : List Label} (ran : walkAll [] [0] keys = some ((lastOf keys, opened), labels))
    (closed : closeEdges (lastOf keys) 0 opened = some ([0], rest)) :
    selectEdges keys = some (labels ++ rest) := by
  cases keys with
  | nil => exact absurd rfl some_
  | cons first keys =>
      obtain ⟨next, none_, more, walked, onward, rfl⟩ := walkAll_cons ran
      have started : EdgeCount.walk [] [0] first = some ((first, openKey [0] first.length), []) := by
        rw [EdgeCount.walk, DictIndex.lcp_eq]
        rfl
      rw [started] at walked
      obtain ⟨rfl, rfl⟩ := Prod.mk.inj (Option.some.inj walked)
      exact selectEdgesFrom_eq onward closed

/-! ## What is admitted -/

variable {pays : Nat → Nat → Bool}

theorem admittedBefore_iff (a b : Label × UInt32) : admittedBefore a b = true ↔
    b.2.toNat < a.2.toNat ∨ a.2.toNat = b.2.toNat ∧ a.1 ≤ b.1 := by
  rw [admittedBefore, decide_eq_true_eq, UInt32.lt_iff_toNat_lt, UInt32.toNat_inj]

theorem admittedBefore_total (a b : Label × UInt32) :
    (admittedBefore a b || admittedBefore b a) = true := by
  rw [Bool.or_eq_true, admittedBefore_iff, admittedBefore_iff]
  rcases Nat.lt_trichotomy a.2.toNat b.2.toNat with less | same | more
  · exact .inr (.inl less)
  · rcases le_total a.1 b.1 with low | high
    · exact .inl (.inr ⟨same, low⟩)
    · exact .inr (.inr ⟨same.symm, high⟩)
  · exact .inl (.inl more)

theorem admittedBefore_trans (a b c : Label × UInt32) (first : admittedBefore a b = true)
    (second : admittedBefore b c = true) : admittedBefore a c = true := by
  rw [admittedBefore_iff] at *
  rcases first with more | ⟨same, low⟩
  · rcases second with more' | ⟨same', -⟩
    · exact .inl (more'.trans more)
    · exact .inl (by omega)
  · rcases second with more' | ⟨same', low'⟩
    · exact .inl (by omega)
    · exact .inr ⟨same.trans same', low.trans low'⟩

/-- What is admitted is a function of the entries that pay, in whatever order the maps list them. -/
theorem admitted_congr {counts others : Counts} {phrases : List Label} {room : Nat}
    (nodup : (counts.map Prod.fst).Nodup) (nodup' : (others.map Prod.fst).Nodup)
    (same : ∀ label count, pays label.length count.toNat = true →
      ((label, count) ∈ counts ↔ (label, count) ∈ others)) :
    admitted pays counts phrases room = admitted pays others phrases room := by
  have perm : (counts.filter fun e => pays e.1.length e.2.toNat && !decide (e.1 ∈ phrases)).Perm
      (others.filter fun e => pays e.1.length e.2.toNat && !decide (e.1 ∈ phrases)) := by
    refine (List.perm_ext_iff_of_nodup (nodup.of_map.filter _) (nodup'.of_map.filter _)).mpr ?_
    rintro ⟨label, count⟩
    rw [List.mem_filter, List.mem_filter]
    refine and_congr_left fun paying => same label count ?_
    exact (Bool.and_eq_true_iff.mp paying).1
  have distinct : ∀ a ∈ counts, ∀ b ∈ counts, a.1 = b.1 → a = b := fun a member b member' =>
    List.inj_on_of_nodup_map nodup member member'
  rw [admitted, admitted]
  congr 1
  refine ((List.mergeSort_perm _ _).trans (perm.trans (List.mergeSort_perm _ _).symm)).eq_of_pairwise
    ?_ (List.pairwise_mergeSort admittedBefore_trans admittedBefore_total _)
    (List.pairwise_mergeSort admittedBefore_trans admittedBefore_total _)
  intro a b member member' first second
  rw [List.mem_mergeSort] at member member'
  have known := (List.mem_filter.mp member).1
  have known' := (List.mem_filter.mp (perm.mem_iff.mpr member')).1
  apply distinct a known b known'
  rw [admittedBefore_iff] at first second
  rcases first with more | ⟨same, low⟩
  · rcases second with more' | ⟨same, -⟩
    · omega
    · omega
  · rcases second with more' | ⟨-, high⟩
    · omega
    · exact low.antisymm high

section Passes

variable {all : List Label} {e : EdgeCount} {expected : Nat}
  (single : ∀ len, mayPay len = true → pays len 1 = false)
  (seen : e.seen = all.foldl EdgeCount.siftOne (.forKeys expected))
  (counts : e.counts = all.foldl (EdgeCount.tally e.seen) [])

theorem tallied_select (all : List Label) :
    Tallied (all.filter fun l => mayPay l.length) (all.foldl countOne []) :=
  tallied_foldl all fun _ _ => rfl

include counts in
theorem tallied_streamed :
    Tallied (all.filter fun l => mayPay l.length && e.seen.reports l) e.counts := by
  rw [counts]
  refine tallied_foldl all fun counts l => ?_
  rw [EdgeCount.tally]
  cases mayPay l.length <;> cases e.seen.reports l <;> rfl

include seen in
theorem reported {l : Label} (fits : mayPay l.length = true) (often : 2 ≤ all.count l) :
    (mayPay l.length && e.seen.reports l) = true := by
  rw [seen, fits, Bool.true_and]
  exact EdgeCount.sift_reports fits often _

include seen counts in
/-- A label that can pay and occurs at least twice has the same count in both maps. -/
theorem lookups_agree {l : Label} (fits : mayPay l.length = true) (often : 2 ≤ all.count l) :
    e.counts.lookup l = some (UInt32.ofNat (all.count l)) ∧
      (all.foldl countOne []).lookup l = some (UInt32.ofNat (all.count l)) := by
  have member : l ∈ all := List.count_pos_iff.mp (by omega)
  have both := reported seen fits often
  constructor
  · rw [(tallied_streamed counts).lookup (List.mem_filter.mpr ⟨member, both⟩),
      List.count_filter (p := fun l : Label => mayPay l.length && e.seen.reports l) both]
  · rw [(tallied_select all).lookup (List.mem_filter.mpr ⟨member, fits⟩),
      List.count_filter (p := fun l : Label => mayPay l.length) fits]

include single in
/-- An entry that pays stands for a label that occurs at least twice. -/
theorem often_of_pays {keep : Label → Bool} {found : Counts} (tallied : Tallied (all.filter keep) found)
    (kept : ∀ l, keep l = true → mayPay l.length = true) {l : Label} {count : UInt32}
    (entry : (l, count) ∈ found) (paying : pays l.length count.toNat = true) :
    keep l = true ∧ 2 ≤ all.count l ∧ count = UInt32.ofNat (all.count l) := by
  obtain ⟨member, rfl⟩ := (tallied.entries l count).mp entry
  obtain ⟨inside, keeps⟩ := List.mem_filter.mp member
  rw [List.count_filter keeps] at paying ⊢
  refine ⟨keeps, ?_, rfl⟩
  have some_ := List.count_pos_iff.mpr inside
  by_contra few
  have one : all.count l = 1 := by omega
  rw [one] at paying
  exact absurd (single _ (kept l keeps)) (by rw [show pays l.length 1 = true from paying]; decide)

include single seen counts in
/-- The entries that pay are the same in both. -/
theorem entries_agree (l : Label) (count : UInt32) (paying : pays l.length count.toNat = true) :
    (l, count) ∈ e.counts ↔ (l, count) ∈ all.foldl countOne [] := by
  have fits : ∀ l, (mayPay l.length && e.seen.reports l) = true → mayPay l.length = true :=
    fun l both => (Bool.and_eq_true_iff.mp both).1
  constructor
  · intro entry
    obtain ⟨both, often, rfl⟩ := often_of_pays single (tallied_streamed counts) fits entry paying
    refine ((tallied_select all).entries _ _).mpr ⟨?_, ?_⟩
    · exact List.mem_filter.mpr ⟨List.count_pos_iff.mp (by omega), fits l both⟩
    · rw [List.count_filter (p := fun l : Label => mayPay l.length) (fits l both)]
  · intro entry
    obtain ⟨fit, often, rfl⟩ := often_of_pays single (tallied_select all) (fun _ fit => fit) entry paying
    have both := reported seen fit often
    refine ((tallied_streamed counts).entries _ _).mpr ⟨?_, ?_⟩
    · exact List.mem_filter.mpr ⟨List.count_pos_iff.mp (by omega), both⟩
    · rw [List.count_filter (p := fun l : Label => mayPay l.length && e.seen.reports l) both]

include single counts in
/-- Where no label occurs twice nothing is admitted. -/
theorem admitted_eq_nil {entries : Counts → Counts} (listed : ∀ counts, (entries counts).Perm counts)
    (few : all.length < 2) (phrases : List Label) (room : Nat) :
    admitted pays (entries e.counts) phrases room = [] := by
  have none_ : ((entries e.counts).filter fun e =>
      pays e.1.length e.2.toNat && !decide (e.1 ∈ phrases)) = [] := by
    rw [List.filter_eq_nil_iff]
    rintro ⟨l, count⟩ entry paying
    have known := (listed _).mem_iff.mp entry
    obtain ⟨-, often, -⟩ := often_of_pays single (tallied_streamed counts)
      (fun l both => (Bool.and_eq_true_iff.mp both).1) known (Bool.and_eq_true_iff.mp paying).1
    have most : all.count l ≤ all.length := List.count_le_length
    omega
  rw [admitted, none_, List.mergeSort_nil, List.take_nil]

end Passes

/-- Under two keys there is one edge at most. -/
theorem edges_few {keys : List (List UInt8)} (few : keys.length < 2)
    {edges : List (List UInt8 × List UInt8)} (lists : Lists edges (Edge (Node keys))) :
    edges.length < 2 := by
  have node : ∀ {r : List UInt8}, Node keys r → r = [] ∨ r = lastOf keys := by
    intro r node
    cases keys with
    | nil => exact .inl node.of_nil
    | cons key others =>
        have none_ : others = [] := List.length_eq_zero_iff.mp (by rw [List.length_cons] at few; omega)
        subst none_
        have alone : ([] ++ [key]).Pairwise (· < ·) := List.pairwise_singleton _ key
        rcases (node_snoc alone r).mp node with root | shared | here
        · exact .inl root.of_nil
        · exact .inl shared
        · exact .inr here
  have within : edges ⊆ [([], lastOf keys)] := by
    rintro ⟨p, q⟩ member
    have edge := (lists.2 p q).mp member
    have lower : q = lastOf keys := by
      refine (node edge.lower).resolve_left fun root => edge.apart ?_
      have down := edge.down
      rw [root] at down ⊢
      exact List.prefix_nil.mp down
    have upper : p = [] := (node edge.upper).resolve_right fun same => edge.apart (same.trans lower.symm)
    rw [lower, upper]
    exact List.mem_cons_self
  have most := (lists.1.subperm within).length_le
  exact Nat.lt_succ_of_le most

/-- The patricia trie of sorted keys streamed: the walk emits its edges, each once, and the two passes
count and admit what the walk in memory does; and a label added twice is always reported. -/
theorem streamed_count_exact (pays : Nat → Nat → Bool) (single : ∀ len, mayPay len = true → pays len 1 = false)
    {keys : List (List UInt8)} (sorted : keys.Pairwise (· < ·)) (expected : Nat)
    (phrases : List Label) (room : Nat) {streamedEntries entries : Counts → Counts}
    (streamedListed : ∀ counts, (streamedEntries counts).Perm counts)
    (listed : ∀ counts, (entries counts).Perm counts) :
    (∃ edges streamed, Lists edges (Edge (Node keys)) ∧
      edgesByWalk keys = some (edges.map label) ∧
      EdgeCount.ofKeys expected keys = some streamed ∧
      (keys ≠ [] → ∃ counts, selectCounts keys = some counts ∧ ∀ l, mayPay l.length = true →
        2 ≤ (edges.map label).count l →
          streamed.counts.lookup l = some (UInt32.ofNat ((edges.map label).count l)) ∧
          counts.lookup l = some (UInt32.ofNat ((edges.map label).count l))) ∧
      selectKept pays entries keys phrases room =
        some (streamed.kept pays streamedEntries phrases room)) ∧
    ∀ (size : Nat) (labels : List Label) (l : Label), 2 ≤ labels.count l →
      (labels.foldl Seen.add (Seen.forKeys size)).reports l = true := by
  refine ⟨?_, fun size labels l often => Seen.reports_of_twice often _⟩
  obtain ⟨edges, opened, labels, rest, lists, ran, closed, emitted⟩ := edgesByWalk_spec sorted
  obtain ⟨streamed, counted, seen, counts⟩ := EdgeCount.ofKeys_spec ran closed expected
  rw [← emitted] at seen counts
  have selected : keys ≠ [] → selectCounts keys = some ((edges.map label).foldl countOne []) := by
    intro some_
    rw [selectCounts, selectEdges_eq some_ ran closed, ← emitted]
    rfl
  refine ⟨edges, streamed, lists, ?_, counted, ?_, ?_⟩
  · rw [edgesByWalk, ran, emitted]
    change (closeEdges (lastOf keys) 0 opened).bind _ = _
    rw [closed]
    rfl
  · intro some_
    exact ⟨_, selected some_, fun l fits often => lookups_agree seen counts fits often⟩
  · rw [selectKept, EdgeCount.kept]
    by_cases none_ : room = 0
    · rw [if_pos (.inr none_), if_pos (.inl none_)]
    by_cases few : keys.length < 2
    · have nothing := admitted_eq_nil single counts streamedListed
        (by rw [List.length_map]; exact edges_few few lists) phrases room
      rw [if_pos (.inl few), if_pos (.inr nothing)]
    · rw [if_neg (by omega), selected (by rintro rfl; exact few (by decide))]
      have same : admitted pays (entries ((edges.map label).foldl countOne [])) phrases room =
          admitted pays (streamedEntries streamed.counts) phrases room := by
        apply admitted_congr
        · exact ((listed _).map Prod.fst).nodup_iff.mpr (tallied_select _).nodup
        · exact ((streamedListed _).map Prod.fst).nodup_iff.mpr (tallied_streamed counts).nodup
        · intro l count paying
          rw [(listed _).mem_iff, (streamedListed _).mem_iff]
          exact (entries_agree single seen counts l count paying).symm
      change some (if admitted pays (entries ((edges.map label).foldl countOne [])) phrases room = []
        then none else some (admitted pays (entries ((edges.map label).foldl countOne [])) phrases room)) = _
      rw [same]
      simp only [none_, false_or]

theorem streamed_count_exact_three :
    ∃ edges streamed,
      Lists edges (Edge (Node [[97], [97, 105, 110, 100, 101, 120, 46, 104, 116, 109, 108], [98],
        [98, 105, 110, 100, 101, 120, 46, 104, 116, 109, 108], [99],
        [99, 105, 110, 100, 101, 120, 46, 104, 116, 109, 108]])) ∧
      edgesByWalk [[97], [97, 105, 110, 100, 101, 120, 46, 104, 116, 109, 108], [98],
        [98, 105, 110, 100, 101, 120, 46, 104, 116, 109, 108], [99],
        [99, 105, 110, 100, 101, 120, 46, 104, 116, 109, 108]] = some (edges.map label) ∧
      EdgeCount.ofKeys 6 [[97], [97, 105, 110, 100, 101, 120, 46, 104, 116, 109, 108], [98],
        [98, 105, 110, 100, 101, 120, 46, 104, 116, 109, 108], [99],
        [99, 105, 110, 100, 101, 120, 46, 104, 116, 109, 108]] = some streamed := by
  obtain ⟨⟨edges, streamed, lists, walked, counted, -⟩, -⟩ := streamed_count_exact
    (fun len count => decide (60 * len + 300 + 250 * count < 58 * count * len))
    (fun len _ => decide_eq_false (by omega))
    (by decide : [[97], [97, 105, 110, 100, 101, 120, 46, 104, 116, 109, 108], [98],
        [98, 105, 110, 100, 101, 120, 46, 104, 116, 109, 108], [99],
        [99, 105, 110, 100, 101, 120, 46, 104, 116, 109, (108 : UInt8)]].Pairwise (· < ·)) 6 [] 16
    (fun _ => List.Perm.refl _) fun _ => List.Perm.refl _
  exact ⟨edges, streamed, lists, walked, counted⟩

end Lexindex.Labels
