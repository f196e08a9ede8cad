import Mathlib
import Lexindex.DoubleArray.PlaceSound

/-!
# The rows placed

Row after row, the rows placed so far have bases and slots of their own, and every one of
them is marked; so it is once all of them are.
-/

set_option autoImplicit false

namespace Lexindex.DoubleArray

open Mphf (IndexError)

theorem takes_spec {o : Occupancy} {maxLabel : Nat} (sized : o.Sized maxLabel) (b : Nat)
    {labels : List Nat} (inside : ∀ c ∈ labels, b + c < MAX_SLOTS) :
    (labels.foldl (fun o c => o.take (b + c)) o).Sized maxLabel ∧
      (∀ i, (labels.foldl (fun o c => o.take (b + c)) o).isTaken i = o.isTaken i) ∧
      ∀ i, (labels.foldl (fun o c => o.take (b + c)) o).isUsed i = true ↔
        o.isUsed i = true ∨ ∃ c ∈ labels, i = b + c := by
  induction labels generalizing o with
  | nil => exact ⟨sized, fun i => rfl, by simp⟩
  | cons c labels ih =>
      obtain ⟨cInside, inside⟩ := List.forall_mem_cons.mp inside
      obtain ⟨resized, taken, used⟩ := ih (sized.take (b + c)) inside
      rw [List.foldl_cons]
      refine ⟨resized, fun i => (taken i).trans (Occupancy.isTaken_take ..), fun i => ?_⟩
      rw [used i, sized.isUsed_take cInside i, Bool.or_eq_true, decide_eq_true_iff]
      simp only [List.mem_cons, exists_eq_or_imp]
      tauto

/-- Labels of a row: ascending, none past the largest. -/
structure RowOk (maxLabel : Nat) (labels : List Nat) : Prop where
  ascending : labels.Pairwise (· < ·)
  bounded : ∀ c ∈ labels, c ≤ maxLabel

/-- Two rows that do not meet. -/
structure RowsApart (t : Trie) (base : Nat → Nat) (v w : Nat) : Prop where
  bases : base v ≠ base w
  slots : ∀ c ∈ t.row v, ∀ c' ∈ t.row w, base v + c ≠ base w + c'

theorem RowsApart.symm {t : Trie} {base : Nat → Nat} {v w : Nat} (apart : RowsApart t base v w) :
    RowsApart t base w v :=
  ⟨apart.bases.symm, fun c cIn c' c'In same => apart.slots c' c'In c cIn same.symm⟩

/-- The rows `done` have been placed. -/
structure Placed (t : Trie) (maxLabel : Nat) (p : Placing) (done : List Nat) : Prop where
  sized : p.o.Sized maxLabel
  nodes : p.base.length = t.label.length
  root : p.baseOf 0 = 0
  floors : p.floors.Sound maxLabel
  fits : ∀ v ∈ done, p.baseOf v + maxLabel < MAX_SLOTS
  taken : ∀ v ∈ done, p.o.isTaken (p.baseOf v) = true
  used : ∀ v ∈ done, ∀ c ∈ t.row v, p.o.isUsed (p.baseOf v + c) = true
  apart : ∀ v ∈ done, ∀ w ∈ done, v ≠ w → RowsApart t p.baseOf v w

variable {t : Trie} {maxLabel : Nat}

theorem Placed.put {p p' : Placing} {done : List Nat} (placed : Placed t maxLabel p done)
    {v c0 s : Nat} {rest : List Nat} (labels : t.row v = c0 :: rest) (ok : RowOk maxLabel (t.row v))
    (isNode : v < t.label.length) (isNew : v ∉ done) (notRoot : v ≠ 0)
    (fits : Fits p.o c0 (rest.map fun c => ((c - c0) / 64, (c - c0) % 64)) s)
    (put : p.put maxLabel v c0 s (t.row v) = .ok p') : Placed t maxLabel p' (v :: done) := by
  have above := fits.above
  have ascending := ok.ascending
  have bounded := ok.bounded
  rw [labels, List.pairwise_cons] at ascending
  rw [Placing.put] at put
  split at put
  · cases put
  · rename_i room
    rw [Except.ok.injEq] at put
    subst put
    have inside : ∀ c ∈ t.row v, s - c0 + c < MAX_SLOTS := by
      intro c member
      have small := bounded c member
      omega
    have small : s - c0 < MAX_SLOTS := by omega
    obtain ⟨sized, taken, used⟩ := takes_spec (placed.sized.takeBase (s - c0)) (s - c0) inside
    have newTaken := placed.sized.isTaken_takeBase small
    -- Every slot of the new row was free before it.
    have free : ∀ c ∈ t.row v, p.o.isUsed (s - c0 + c) = false := by
      intro c member
      rw [labels] at member
      rcases List.mem_cons.mp member with rfl | member
      · rw [Nat.sub_add_cancel above]
        exact fits.free
      · have larger := ascending.1 c member
        have other := fits.others _ (List.mem_map.mpr ⟨c, member, rfl⟩)
        have at_ : s + 64 * ((c - c0) / 64) + (c - c0) % 64 = s - c0 + c := by omega
        rwa [at_] at other
    have own : ({ p with base := p.base.set v (s - c0) } : Placing).baseOf v = s - c0 := by
      rw [Placing.baseOf, List.getD_eq_getElem?_getD,
        List.getElem?_set_self (by rw [placed.nodes]; exact isNode), Option.getD_some]
    have kept : ∀ w, w ≠ v →
        ({ p with base := p.base.set v (s - c0) } : Placing).baseOf w = p.baseOf w := by
      intro w other
      rw [Placing.baseOf, Placing.baseOf, List.getD_eq_getElem?_getD, List.getD_eq_getElem?_getD,
        List.getElem?_set_ne (Ne.symm other)]
    have others : ∀ w ∈ done, w ≠ v := fun w member same => isNew (same ▸ member)
    change ∀ w, w ≠ v → (p.base.set v (s - c0)).getD w 0 = p.baseOf w at kept
    change (p.base.set v (s - c0)).getD v 0 = s - c0 at own
    have newApart : ∀ w ∈ done,
        RowsApart t (fun w => (p.base.set v (s - c0)).getD w 0) v w := by
      intro w member
      refine ⟨?_, fun c cIn c' c'In same => ?_⟩
      · simp only [own, kept w (others w member)]
        intro same
        have before := placed.taken w member
        rw [← same, fits.base] at before
        cases before
      · simp only [own, kept w (others w member)] at same
        have before := placed.used w member c' c'In
        rw [← same, free c cIn] at before
        cases before
    refine ⟨sized, ?_, ?_, placed.floors, ?_, ?_, ?_, ?_⟩
    · rw [List.length_set]
      exact placed.nodes
    · exact (kept 0 (Ne.symm notRoot)).trans placed.root
    · intro w member
      change (p.base.set v (s - c0)).getD w 0 + maxLabel < MAX_SLOTS
      rcases List.mem_cons.mp member with rfl | member
      · rw [own]
        omega
      · rw [kept w (others w member)]
        exact placed.fits w member
    · intro w member
      change Occupancy.isTaken _ ((p.base.set v (s - c0)).getD w 0) = true
      rw [taken, newTaken, Bool.or_eq_true, decide_eq_true_iff]
      rcases List.mem_cons.mp member with rfl | member
      · exact .inl own
      · rw [kept w (others w member)]
        exact .inr (placed.taken w member)
    · intro w member c cIn
      change Occupancy.isUsed _ ((p.base.set v (s - c0)).getD w 0 + c) = true
      rw [used, Occupancy.isUsed_takeBase]
      rcases List.mem_cons.mp member with rfl | member
      · exact .inr ⟨c, cIn, by rw [own]⟩
      · rw [kept w (others w member)]
        exact .inl (placed.used w member c cIn)
    · intro w wIn x xIn differ
      change RowsApart t (fun w => (p.base.set v (s - c0)).getD w 0) w x
      rcases List.mem_cons.mp wIn with rfl | wOld
      · rcases List.mem_cons.mp xIn with rfl | xOld
        · exact absurd rfl differ
        · exact newApart x xOld
      · rcases List.mem_cons.mp xIn with rfl | xOld
        · exact (newApart w wOld).symm
        · have before := placed.apart w wOld x xOld differ
          refine ⟨?_, fun c cIn c' c'In => ?_⟩
          · simp only [kept w (others w wOld), kept x (others x xOld)]
            exact before.bases
          · simp only [kept w (others w wOld), kept x (others x xOld)]
            exact before.slots c cIn c' c'In

theorem Placed.placeRow {p p' : Placing} {done : List Nat} (placed : Placed t maxLabel p done)
    {v : Nat} (some_kid : t.row v ≠ []) (ok : RowOk maxLabel (t.row v))
    (isNode : v < t.label.length) (isNew : v ∉ done) (notRoot : v ≠ 0)
    (step : p.placeRow t maxLabel v = some (.ok p')) : Placed t maxLabel p' (v :: done) := by
  obtain ⟨c0, rest, labels⟩ := List.exists_cons_of_ne_nil some_kid
  have head : (t.row v).headD 0 = c0 := by rw [labels, List.headD_cons]
  have tail : (t.row v).tail = rest := by rw [labels, List.tail_cons]
  have c0Small : c0 ≤ maxLabel := ok.bounded c0 (labels ▸ List.mem_cons_self)
  have floor : c0 ≤ (p.floors.get (t.row v)).1 := by
    change c0 ≤ p.floors.first.getD ((t.row v).headD 0) 0
    rw [head]
    exact placed.floors c0 c0Small
  have room : c0 ≤ 64 * p.o.pad := by
    rw [placed.sized.pad]
    omega
  have shifts : ∀ q ∈ rest.map (fun c => ((c - c0) / 64, (c - c0) % 64)), q.2 < 64 := by
    intro q member
    obtain ⟨c, -, rfl⟩ := List.mem_map.mp member
    exact Nat.mod_lt _ (by decide)
  simp only [Placing.placeRow, head, tail] at step
  split at step
  · cases step
  · split at step
    · cases step
    · cases step
    · rename_i s floors found
      obtain ⟨fits, sound⟩ := search_sound room shifts (by omega) placed.floors found
      rw [Option.some.injEq] at step
      have learned : (if 2 < (t.row v).length then floors.setAll (t.row v) s else floors).Sound
          maxLabel := by
        split
        · exact sound
        · exact sound
      generalize (if 2 < (t.row v).length then floors.setAll (t.row v) s else floors) = floors'
        at step learned
      refine Placed.put (p := { p with lo := _, floors := floors' }) ?_ labels ok isNode isNew
        notRoot fits step
      exact ⟨placed.sized, placed.nodes, placed.root, learned, placed.fits, placed.taken,
        placed.used, placed.apart⟩

theorem Placed.placeRows {p p' : Placing} {done rows : List Nat} (placed : Placed t maxLabel p done)
    (ok : ∀ v ∈ rows, t.row v ≠ [] ∧ RowOk maxLabel (t.row v) ∧ v < t.label.length ∧ v ≠ 0)
    (distinct : rows.Nodup) (isNew : ∀ v ∈ rows, v ∉ done)
    (run : Placing.placeRows t maxLabel rows p = some (.ok p')) :
    ∃ all, (∀ v, v ∈ all ↔ v ∈ done ∨ v ∈ rows) ∧ Placed t maxLabel p' all := by
  induction rows generalizing p done with
  | nil =>
      rw [Placing.placeRows, Option.some.injEq, Except.ok.injEq] at run
      exact ⟨done, by simp, run ▸ placed⟩
  | cons v rows ih =>
      obtain ⟨⟨some_kid, rowOk, isNode, notRoot⟩, ok⟩ := List.forall_mem_cons.mp ok
      rw [List.nodup_cons] at distinct
      obtain ⟨vNew, isNew⟩ := List.forall_mem_cons.mp isNew
      rw [Placing.placeRows] at run
      split at run
      · cases run
      · cases run
      · rename_i next step
        have stepped := placed.placeRow some_kid rowOk isNode vNew notRoot step
        obtain ⟨all, members, placed'⟩ := ih stepped ok distinct.2
          (fun w member among => by
            rcases List.mem_cons.mp among with rfl | among
            · exact distinct.1 member
            · exact isNew w member among) run
        refine ⟨all, fun w => ?_, placed'⟩
        rw [members w, List.mem_cons, List.mem_cons]
        tauto

/-- Where the rows lie: none meets another, and each fits the largest array. -/
structure Placement (t : Trie) (maxLabel : Nat) (base : List Nat) : Prop where
  nodes : base.length = t.label.length
  root : base.getD 0 0 = 0
  fits : ∀ v, v < t.label.length → v = 0 ∨ t.kids v ≠ [] → base.getD v 0 + maxLabel < MAX_SLOTS
  apart : ∀ v w, v < t.label.length → w < t.label.length → v = 0 ∨ t.kids v ≠ [] →
    w = 0 ∨ t.kids w ≠ [] → v ≠ w → RowsApart t (fun v => base.getD v 0) v w

theorem mem_rowsOf (few : t.label.length < 2 ^ 32) (v : Nat) :
    v ∈ rowsOf t ↔ (v ≠ 0 ∧ v < t.label.length) ∧ t.kids v ≠ [] := by
  rw [rowsOf, (List.mergeSort_perm ..).mem_iff, List.mem_filter, decide_eq_true_iff,
    Nat.mod_eq_of_lt few, List.mem_range'_1]
  refine and_congr_left fun _ => ?_
  omega

theorem rowsOf_nodup : (rowsOf t).Nodup :=
  (List.mergeSort_perm ..).nodup_iff.mpr (List.Nodup.filter _ (List.nodup_range' ..))

theorem placed_start (small : maxLabel < MAX_SLOTS) (root : RowOk maxLabel (t.row 0)) : Placed t maxLabel (Placing.start t maxLabel) [0] := by
  have sized := ((Occupancy.sized_new maxLabel).take 0).takeBase 0
  have inside : ∀ c ∈ t.row 0, 0 + c < MAX_SLOTS := by
    intro c member
    have bounded := root.bounded c member
    omega
  have zero : ∀ v, (Placing.start t maxLabel).baseOf v = 0 := by
    intro v
    rw [Placing.baseOf, Placing.start, List.getD_eq_getElem?_getD, List.getElem?_replicate]
    split <;> rfl
  obtain ⟨resized, taken, used⟩ := takes_spec sized 0 inside
  have folded : (Placing.start t maxLabel).o = (t.row 0).foldl (fun o c => o.take (0 + c))
      (((Occupancy.new maxLabel).take 0).takeBase 0) := by
    simp only [Nat.zero_add, Placing.start]
  refine ⟨folded ▸ resized, ?_, zero 0, floors_new maxLabel, ?_, ?_, ?_, ?_⟩
  · rw [Placing.start, List.length_replicate]
  · intro v _
    rw [zero v]
    omega
  · intro v _
    rw [zero v, folded, taken, ((Occupancy.sized_new maxLabel).take 0).isTaken_takeBase (by decide)]
    simp
  · intro v only c cIn
    rw [List.mem_singleton] at only
    subst only
    rw [zero 0, folded, used]
    exact .inr ⟨c, cIn, rfl⟩
  · intro v only w onlyW differ
    rw [List.mem_singleton] at only onlyW
    exact absurd (only.trans onlyW.symm) differ

/-- Where rows are placed at all, they are placed apart. -/
theorem place_placement (few : t.label.length < 2 ^ 32) (some_node : 0 < t.label.length)
    (small : maxLabel < MAX_SLOTS) (ok : ∀ v, v < t.label.length → RowOk maxLabel (t.row v))
    {base : List Nat} (placed : place t maxLabel = some (.ok base)) : Placement t maxLabel base := by
  obtain ⟨outcome, run, mapped⟩ := Option.map_eq_some_iff.mp placed
  cases outcome with
  | error refused => cases mapped
  | ok p =>
      rw [Except.map, Except.ok.injEq] at mapped
      subst mapped
      have rows : ∀ v ∈ rowsOf t, t.row v ≠ [] ∧ RowOk maxLabel (t.row v) ∧
          v < t.label.length ∧ v ≠ 0 := by
        intro v member
        obtain ⟨⟨notRoot, isNode⟩, some_kid⟩ := (mem_rowsOf few v).mp member
        exact ⟨fun bare => some_kid (List.map_eq_nil_iff.mp bare), ok v isNode, isNode, notRoot⟩
      obtain ⟨all, members, held⟩ := (placed_start small (ok 0 some_node)).placeRows rows
        rowsOf_nodup (fun v member among => (rows v member).2.2.2 (List.mem_singleton.mp among)) run
      have isDone : ∀ v, v < t.label.length → v = 0 ∨ t.kids v ≠ [] → v ∈ all := by
        intro v isNode row
        rw [members v, List.mem_singleton, mem_rowsOf few]
        by_cases isRoot : v = 0
        · exact .inl isRoot
        · exact .inr ⟨⟨isRoot, isNode⟩, row.resolve_left isRoot⟩
      exact ⟨held.nodes, held.root, fun v isNode row => held.fits v (isDone v isNode row),
        fun v w vNode wNode vRow wRow differ =>
          held.apart v (isDone v vNode vRow) w (isDone w wNode wRow) differ⟩

end Lexindex.DoubleArray
