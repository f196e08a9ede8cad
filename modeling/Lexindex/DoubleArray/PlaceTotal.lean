import Mathlib
import Lexindex.DoubleArray.FloorsBelow

/-!
# Placing stays inside its bitmaps

Every round of a search, and every row put, is checked against the bitmaps it reads and writes: no
check fails, so the checked loops are the loops, and they end with a base for each row or with the
one error there is.
-/

set_option autoImplicit false

namespace Lexindex.DoubleArray

open Mphf (IndexError)

/-! ## The loops, every index checked -/

/-- What a round over the words from `w0` reads lies in the bitmaps. -/
def roundInside (o : Occupancy) (rel : List (Nat × Nat)) (c0 w0 : Nat) : Prop :=
  w0 / 64 + 1 < o.free.length ∧ w0 + CHUNK ≤ o.used.length ∧ c0 ≤ 64 * (w0 + o.pad) ∧
    (o.baseAt w0 c0).1 + CHUNK + 1 ≤ o.taken.length ∧
    ∀ q ∈ rel, w0 + q.1 + CHUNK + 1 ≤ o.used.length

instance (o : Occupancy) (rel : List (Nat × Nat)) (c0 w0 : Nat) : Decidable (roundInside o rel c0 w0) :=
  inferInstanceAs (Decidable (_ ∧ _))

/-- `search`, what each round reads checked. -/
def searchChecked (o : Occupancy) (labels : List Nat) (rel : List (Nat × Nat))
    (c0 lastWord reach start : Nat) (wide : Bool) (e : Nat) (l : Learning) :
    Option (Except IndexError (Nat × Floors)) :=
  let from_ := roundStart reach start wide e
  match _opened : o.openFrom (from_ / 64) with
  | none => none
  | some w0 =>
      if w0 ≤ lastWord then
        if roundInside o rel c0 w0 then
          let l := if restarts reach start wide e then { l with first := false, pair := false } else l
          let mask0 :=
            if w0 = from_ / 64 then BitVec.allOnes 64 <<< (from_ % 64) else BitVec.allOnes 64
          let found := searchRound o labels rel c0 w0 mask0 l
          match found.1 with
          | some s => some (.ok (s, found.2.floors))
          | none =>
              searchChecked o labels rel c0 lastWord reach start wide (64 * (w0 + CHUNK)) found.2
        else none
      else some (.error tooMany)
termination_by 64 * (lastWord + 1) - e
decreasing_by
  have above := openFrom_ge _opened
  have started := le_roundStart reach start wide e
  rw [CHUNK]
  omega

/-- What a row put at `b` writes lies in the bitmaps and the array. -/
def rowInside (p : Placing) (v b : Nat) (labels : List Nat) : Prop :=
  (b + 64 * p.o.pad) / 64 < p.o.taken.length ∧ v < p.base.length ∧
    ∀ c ∈ labels, (b + c) / 64 < p.o.used.length ∧ (b + c) / 64 / 64 < p.o.free.length

instance (p : Placing) (v b : Nat) (labels : List Nat) : Decidable (rowInside p v b labels) :=
  inferInstanceAs (Decidable (_ ∧ _))

namespace Placing

/-- `put`, the subtraction and what is written checked. -/
def putChecked (p : Placing) (maxLabel v c0 s : Nat) (labels : List Nat) :
    Option (Except IndexError Placing) :=
  if c0 ≤ s ∧ (s - c0 + maxLabel < MAX_SLOTS → rowInside p v (s - c0) labels) then
    some (p.put maxLabel v c0 s labels)
  else none

/-- `placeRow`, every index checked. -/
def placeRowChecked (t : Trie) (maxLabel : Nat) (p : Placing) (v : Nat) :
    Option (Except IndexError Placing) :=
  let labels := t.row v
  let c0 := labels.headD 0
  let rel := labels.tail.map fun c => ((c - c0) / 64, (c - c0) % 64)
  match p.o.openFrom (p.lo / 64) with
  | none => none
  | some w =>
      if w < p.o.used.length ∧ c0 < p.floors.first.length then
        let lo := 64 * w + (~~~(p.o.used.getD w 0#64)).ctz.toNat
        let floor := p.floors.get labels
        let e1 := max lo floor.1
        let e2 := max e1 floor.2.1
        let wide : Bool := 1 < labels.length
        let reach := if wide then p.top - max WINDOW (4 * maxLabel) else 0
        let free := p.top + 1 - p.used
        let from_ := if 2 * free < p.singles then reach else 0
        let e := max (max e2 floor.2.2) from_
        let learning : Learning :=
          { first := e = e1, pair := e = max e2 from_ ∧ wide, floors := p.floors }
        match searchChecked p.o labels rel c0 ((MAX_SLOTS - maxLabel) / 64) reach e wide e learning with
        | none => none
        | some (.error refused) => some (.error refused)
        | some (.ok (s, floors)) =>
            let floors := if 2 < labels.length then floors.setAll labels s else floors
            { p with lo, floors }.putChecked maxLabel v c0 s labels
      else none

def placeRowsChecked (t : Trie) (maxLabel : Nat) : List Nat → Placing → Option (Except IndexError Placing)
  | [], p => some (.ok p)
  | v :: rows, p =>
      match p.placeRowChecked t maxLabel v with
      | none => none
      | some (.error refused) => some (.error refused)
      | some (.ok p) => placeRowsChecked t maxLabel rows p

end Placing

section Search

variable {o : Occupancy} {labels : List Nat} {rel : List (Nat × Nat)} {c0 maxLabel : Nat}

theorem roundInside_of (opened : o.Open maxLabel) (small : c0 ≤ maxLabel)
    (reach : ∀ q ∈ rel, 64 * q.1 ≤ maxLabel) {w0 : Nat} (low : w0 ≤ (MAX_SLOTS - maxLabel) / 64) :
    roundInside o rel c0 w0 := by
  have words := opened.words
  have used := opened.sized.used
  have taken := opened.sized.taken
  have pad := opened.sized.pad
  have chunk : CHUNK = 32 := rfl
  refine ⟨by omega, by omega, by omega, ?_, fun q member => ?_⟩
  · rw [taken, Occupancy.baseAt]
    simp only
    omega
  · have far := reach q member
    omega

section Step

variable {lastWord reach start e w0 : Nat} {wide : Bool} {l : Learning} {found : Option Nat × Learning}
  (opens : o.openFrom (roundStart reach start wide e / 64) = some w0) (within : w0 ≤ lastWord)
  (round : found = searchRound o labels rel c0 w0
    (if w0 = roundStart reach start wide e / 64 then
      BitVec.allOnes 64 <<< (roundStart reach start wide e % 64) else BitVec.allOnes 64)
    (if restarts reach start wide e then { l with first := false, pair := false } else l))
include opens within round

theorem search_found {s : Nat} (answered : found.1 = some s) :
    search o labels rel c0 lastWord reach start wide e l = some (.ok (s, found.2.floors)) := by
  rw [search]
  split
  · rename_i none_open
    rw [opens] at none_open
    cases none_open
  · rename_i w1 opens'
    obtain rfl : w0 = w1 := Option.some.inj (opens.symm.trans opens')
    rw [if_pos within]
    dsimp only
    rw [← round, answered]

theorem search_next (answered : found.1 = none) :
    search o labels rel c0 lastWord reach start wide e l =
      search o labels rel c0 lastWord reach start wide (64 * (w0 + CHUNK)) found.2 := by
  rw [search]
  split
  · rename_i none_open
    rw [opens] at none_open
    cases none_open
  · rename_i w1 opens'
    obtain rfl : w0 = w1 := Option.some.inj (opens.symm.trans opens')
    rw [if_pos within]
    dsimp only
    rw [← round, answered]

end Step

/-- A search ends, inside the bitmaps. -/
theorem search_total (opened : o.Open maxLabel) (small : c0 ≤ maxLabel)
    (reaches : ∀ q ∈ rel, 64 * q.1 ≤ maxLabel) {reach start e : Nat} {wide : Bool} {l : Learning}
    (low : e ≤ 64 * (LAST + CHUNK)) (reachLow : reach ≤ 64 * (LAST + CHUNK))
    (below : l.floors.Below maxLabel) :
    ∃ outcome,
      searchChecked o labels rel c0 ((MAX_SLOTS - maxLabel) / 64) reach start wide e l = some outcome ∧
      search o labels rel c0 ((MAX_SLOTS - maxLabel) / 64) reach start wide e l = some outcome ∧
      (outcome = .error tooMany ∨ ∃ s floors, outcome = .ok (s, floors) ∧ floors.Below maxLabel ∧
        s < 64 * (LAST + CHUNK)) := by
  have most : (MAX_SLOTS - maxLabel) / 64 ≤ LAST := Nat.div_le_div_right (Nat.sub_le ..)
  have opens : ∀ e, e ≤ 64 * (LAST + CHUNK) →
      ∃ w0, o.openFrom (roundStart reach start wide e / 64) = some w0 := by
    intro e low
    have started : roundStart reach start wide e / 64 ≤ LAST + CHUNK := by
      rw [roundStart]
      split <;> omega
    obtain ⟨w0, opens, -, -⟩ := opened.openFrom started
    exact ⟨w0, opens⟩
  fun_induction searchChecked o labels rel c0 ((MAX_SLOTS - maxLabel) / 64) reach start wide e l with
  | case1 e l from_ past =>
      obtain ⟨w0, some_open⟩ := opens e low
      exact absurd (past.symm.trans some_open) (by simp)
  | case2 e l from_ w0 opened' within inside l' mask0 round slot answered =>
      have below' : l'.floors.Below maxLabel := by
        simp only [l']
        split
        · exact below
        · exact below
      have held : RoundBelow maxLabel w0 round := searchRound_below (by omega) below'
      refine ⟨_, rfl, search_found opened' within ?_ answered,
        .inr ⟨slot, round.2.floors, rfl, held.floors, ?_⟩⟩
      · simp only [round, mask0, l', dite_eq_ite, from_]
      · have less := held.slot slot answered
        omega
  | case3 e l from_ w0 opened' within inside l' mask0 round answered ih =>
      have below' : l'.floors.Below maxLabel := by
        simp only [l']
        split
        · exact below
        · exact below
      have held : RoundBelow maxLabel w0 round := searchRound_below (by omega) below'
      obtain ⟨outcome, checked, runs, ends⟩ := ih (by omega) held.floors
      refine ⟨outcome, checked, (search_next opened' within ?_ answered).trans runs, ends⟩
      simp only [round, mask0, l', dite_eq_ite, from_]
  | case4 e l from_ w0 opened' within outside =>
      exact absurd (roundInside_of opened small reaches within) outside
  | case5 e l from_ w0 opened' past =>
      refine ⟨_, rfl, ?_, .inl rfl⟩
      rw [search]
      split
      · rename_i none_open
        rw [opened'] at none_open
        cases none_open
      · rename_i w1 opens'
        obtain rfl : w0 = w1 := Option.some.inj (opened'.symm.trans opens')
        rw [if_neg past]

end Search

/-! ## Row after row -/

/-- What the loop over the rows keeps besides the rows placed. -/
structure Roomy (t : Trie) (maxLabel : Nat) (p : Placing) : Prop where
  opened : p.o.Open maxLabel
  lo : p.lo ≤ 64 * LAST
  floors : p.floors.Below maxLabel
  top : p.top < MAX_SLOTS
  nodes : p.base.length = t.label.length

section Rows

variable {t : Trie} {maxLabel : Nat} {p : Placing}

/-- A word past the last slot there can be has its first slot free. -/
theorem lowest_free {o : Occupancy} (opened : o.Open maxLabel) {w : Nat} (low : w ≤ LAST) :
    64 * w + (~~~(o.used.getD w 0#64)).ctz.toNat ≤ 64 * LAST := by
  rcases low.lt_or_eq with less | rfl
  · have bits : (~~~(o.used.getD w 0#64)).ctz.toNat ≤ 64 := by
      by_cases zero : ~~~(o.used.getD w 0#64) = 0#64
      · have empty : (0#64).ctz = 64#64 := by decide +kernel
        rw [zero, empty, BitVec.toNat_ofNat]
      · exact (ctz_lt zero).le
    omega
  · have free : (~~~(o.used.getD LAST 0#64)).getLsbD 0 = true := by
      rw [BitVec.getLsbD_not, Occupancy.used_getLsbD LAST 0 (by decide), opened.high _ (by decide)]
      rfl
    have zero : (~~~(o.used.getD LAST 0#64)).ctz.toNat = 0 := by
      by_contra above
      rw [BitVec.getLsbD_false_of_lt_ctz (Nat.pos_of_ne_zero above)] at free
      cases free
    rw [zero, Nat.add_zero]

theorem rowInside_of (roomy : Roomy t maxLabel p) {v b : Nat} {labels : List Nat}
    (isNode : v < t.label.length) (bounded : ∀ c ∈ labels, c ≤ maxLabel)
    (fits : b + maxLabel < MAX_SLOTS) : rowInside p v b labels := by
  have words := roomy.opened.words
  have used := roomy.opened.sized.used
  have taken := roomy.opened.sized.taken
  have chunk : CHUNK = 32 := rfl
  refine ⟨?_, by rw [roomy.nodes]; exact isNode, fun c member => ?_⟩
  · rw [taken]
    omega
  · have small := bounded c member
    omega

/-- A row put leaves room for the next. -/
theorem Roomy.put (roomy : Roomy t maxLabel p) {v c0 s : Nat} {labels : List Nat}
    (isNode : v < t.label.length) (bounded : ∀ c ∈ labels, c ≤ maxLabel) (above : c0 ≤ s) :
    ∃ outcome, p.putChecked maxLabel v c0 s labels = some outcome ∧
      p.put maxLabel v c0 s labels = outcome ∧
      (outcome = .error tooMany ∨ ∃ p', outcome = .ok p' ∧ Roomy t maxLabel p') := by
  refine ⟨_, if_pos ⟨above, rowInside_of roomy isNode bounded⟩, rfl, ?_⟩
  rw [Placing.put]
  split
  · exact .inl rfl
  · rename_i fits
    refine .inr ⟨_, rfl, ?_, roomy.lo, roomy.floors, ?_, List.length_set.trans roomy.nodes⟩
    · refine (roomy.opened.takeBase (s - c0)).takes (s - c0) fun c member => ?_
      have small := bounded c member
      omega
    · have last : labels.getLastD 0 ≤ maxLabel := by
        cases labels with
        | nil => exact Nat.zero_le _
        | cons c labels =>
            rw [List.getLastD_cons]
            exact bounded _ (List.getLastD_mem_cons ..)
      exact Nat.max_lt.mpr ⟨roomy.top, by omega⟩

theorem Roomy.placeRow {done : List Nat} (placed : Placed t maxLabel p done) (roomy : Roomy t maxLabel p)
    {v : Nat} (some_kid : t.row v ≠ []) (ok : RowOk maxLabel (t.row v)) (isNode : v < t.label.length) :
    ∃ outcome, p.placeRowChecked t maxLabel v = some outcome ∧
      p.placeRow t maxLabel v = some outcome ∧
      (outcome = .error tooMany ∨ ∃ p', outcome = .ok p' ∧ Roomy t maxLabel p') := by
  obtain ⟨c0, rest, labels⟩ := List.exists_cons_of_ne_nil some_kid
  have head : (t.row v).headD 0 = c0 := by rw [labels, List.headD_cons]
  have tail : (t.row v).tail = rest := by rw [labels, List.tail_cons]
  have c0Small : c0 ≤ maxLabel := ok.bounded c0 (labels ▸ List.mem_cons_self)
  have floor : c0 ≤ (p.floors.get (t.row v)).1 := by
    change c0 ≤ p.floors.first.getD ((t.row v).headD 0) 0
    rw [head]
    exact placed.floors c0 c0Small
  have room : c0 ≤ 64 * p.o.pad := by
    rw [placed.sized.pad]
    omega
  have shifts : ∀ q ∈ rest.map (fun c => ((c - c0) / 64, (c - c0) % 64)), q.2 < 64 := by
    intro q member
    obtain ⟨c, -, rfl⟩ := List.mem_map.mp member
    exact Nat.mod_lt _ (by decide)
  have reaches : ∀ q ∈ rest.map (fun c => ((c - c0) / 64, (c - c0) % 64)), 64 * q.1 ≤ maxLabel := by
    intro q member
    obtain ⟨c, cIn, rfl⟩ := List.mem_map.mp member
    have bounded := ok.bounded c (labels ▸ List.mem_cons_of_mem _ cIn)
    simp only
    omega
  have chunk : CHUNK = 32 := rfl
  have slots : MAX_SLOTS = 64 * LAST := by decide
  have lowest := roomy.lo
  obtain ⟨w, opens, -, most⟩ := roomy.opened.openFrom (w := p.lo / 64) (by omega)
  have wLow : w ≤ LAST := by omega
  have inside : w < p.o.used.length ∧ c0 < p.floors.first.length := by
    rw [roomy.floors.length, roomy.opened.sized.used]
    omega
  have loLow := lowest_free roomy.opened wLow
  obtain ⟨first, pair, all⟩ := @Floors.Below.get _ _ (t.row v) roomy.floors
  have top := roomy.top
  simp only [Placing.placeRowChecked, Placing.placeRow, head, tail, opens, if_pos inside]
  generalize 64 * w + (~~~(p.o.used.getD w 0#64)).ctz.toNat = lo at *
  generalize p.floors.get (t.row v) = floors at *
  have reachLow : (if decide (1 < (t.row v).length) = true then p.top - max WINDOW (4 * maxLabel)
      else 0) ≤ 64 * (LAST + CHUNK) := by
    split <;> omega
  generalize (if decide (1 < (t.row v).length) = true then p.top - max WINDOW (4 * maxLabel)
      else 0) = reach at *
  have fromLow : (if 2 * (p.top + 1 - p.used) < p.singles then reach else 0) ≤ 64 * (LAST + CHUNK) := by
    split <;> omega
  generalize (if 2 * (p.top + 1 - p.used) < p.singles then reach else 0) = from_ at *
  have eLow : max (max (max (max lo floors.1) floors.2.1) floors.2.2) from_ ≤ 64 * (LAST + CHUNK) := by
    omega
  obtain ⟨outcome, checked, runs, ends⟩ := @search_total p.o (t.row v)
    (rest.map fun c => ((c - c0) / 64, (c - c0) % 64)) c0 maxLabel roomy.opened c0Small reaches reach
    (max (max (max (max lo floors.1) floors.2.1) floors.2.2) from_)
    (max (max (max (max lo floors.1) floors.2.1) floors.2.2) from_) (decide (1 < (t.row v).length))
    { first := max (max (max (max lo floors.1) floors.2.1) floors.2.2) from_ = max lo floors.1
      pair := max (max (max (max lo floors.1) floors.2.1) floors.2.2) from_ =
        max (max (max lo floors.1) floors.2.1) from_ ∧ decide (1 < (t.row v).length)
      floors := p.floors } eLow reachLow roomy.floors
  rw [checked, runs]
  rcases ends with rfl | ⟨s, learned, rfl, below, low⟩
  · exact ⟨_, rfl, rfl, .inl rfl⟩
  · obtain ⟨fits, -⟩ := search_sound room shifts (by omega) placed.floors runs
    have learned' : (if 2 < (t.row v).length then learned.setAll (t.row v) s else learned).Below
        maxLabel := by
      split
      · exact below.setAll low
      · exact below
    simp only [Option.some.injEq]
    have held : Roomy t maxLabel { p with lo := lo
                                          floors := if 2 < (t.row v).length then
                                            learned.setAll (t.row v) s else learned } :=
      ⟨roomy.opened, loLow, learned', roomy.top, roomy.nodes⟩
    exact held.put isNode ok.bounded fits.above

theorem Roomy.placeRows {done rows : List Nat} (placed : Placed t maxLabel p done)
    (roomy : Roomy t maxLabel p)
    (ok : ∀ v ∈ rows, t.row v ≠ [] ∧ RowOk maxLabel (t.row v) ∧ v < t.label.length ∧ v ≠ 0)
    (distinct : rows.Nodup) (isNew : ∀ v ∈ rows, v ∉ done) :
    ∃ outcome, Placing.placeRowsChecked t maxLabel rows p = some outcome ∧
      Placing.placeRows t maxLabel rows p = some outcome ∧
      (outcome = .error tooMany ∨ ∃ p', outcome = .ok p') := by
  induction rows generalizing p done with
  | nil => exact ⟨_, rfl, rfl, .inr ⟨p, rfl⟩⟩
  | cons v rows ih =>
      obtain ⟨⟨some_kid, rowOk, isNode, notRoot⟩, ok⟩ := List.forall_mem_cons.mp ok
      rw [List.nodup_cons] at distinct
      obtain ⟨vNew, isNew⟩ := List.forall_mem_cons.mp isNew
      rw [Placing.placeRowsChecked, Placing.placeRows]
      obtain ⟨outcome, checked, runs, ends⟩ := roomy.placeRow placed some_kid rowOk isNode
      rw [checked, runs]
      rcases ends with rfl | ⟨p', rfl, roomy'⟩
      · exact ⟨_, rfl, rfl, .inl rfl⟩
      · refine ih (placed.placeRow some_kid rowOk isNode vNew notRoot runs) roomy' ok distinct.2 ?_
        intro w member among
        rcases List.mem_cons.mp among with rfl | among
        · exact distinct.1 member
        · exact isNew w member among

theorem roomy_start (small : maxLabel ≤ MAX_ALPHABET) (root : RowOk maxLabel (t.row 0)) :
    Roomy t maxLabel (Placing.start t maxLabel) := by
  have wide : MAX_ALPHABET < MAX_SLOTS := by decide
  have opened := ((Occupancy.open_new maxLabel).take (s := 0) (by decide)).takeBase 0
  have inside : ∀ c ∈ t.row 0, 0 + c < MAX_SLOTS := fun c member => by
    have bounded := root.bounded c member
    omega
  have taken := opened.takes 0 inside
  simp only [Nat.zero_add] at taken
  refine ⟨taken, Nat.zero_le _, below_new small, show 0 < MAX_SLOTS by decide, ?_⟩
  rw [Placing.start, List.length_replicate]

section Whole

variable (few : t.label.length < 2 ^ 32) (some_node : 0 < t.label.length) (small : maxLabel ≤ MAX_ALPHABET)
  (ok : ∀ v, v < t.label.length → RowOk maxLabel (t.row v))
include few some_node small ok

theorem rows_total :
    ∃ outcome, Placing.placeRowsChecked t maxLabel (rowsOf t) (Placing.start t maxLabel) = some outcome ∧
      Placing.placeRows t maxLabel (rowsOf t) (Placing.start t maxLabel) = some outcome ∧
      (outcome = .error tooMany ∨ ∃ p', outcome = .ok p') := by
  have wide : MAX_ALPHABET < MAX_SLOTS := by decide
  have rows : ∀ v ∈ rowsOf t, t.row v ≠ [] ∧ RowOk maxLabel (t.row v) ∧
      v < t.label.length ∧ v ≠ 0 := by
    intro v member
    obtain ⟨⟨notRoot, isNode⟩, some_kid⟩ := (mem_rowsOf few v).mp member
    exact ⟨fun bare => some_kid (List.map_eq_nil_iff.mp bare), ok v isNode, isNode, notRoot⟩
  have fresh : ∀ v ∈ rowsOf t, v ∉ [0] := fun v member among =>
    (rows v member).2.2.2 (List.mem_singleton.mp among)
  exact (roomy_start small (ok 0 some_node)).placeRows (placed_start (by omega) (ok 0 some_node)) rows
    rowsOf_nodup fresh

theorem place_ends : ∃ outcome, place t maxLabel = some outcome ∧
    (outcome = .error tooMany ∨ ∃ base, outcome = .ok base) := by
  obtain ⟨outcome, -, runs, ends⟩ := rows_total few some_node small ok
  refine ⟨outcome.map Placing.base, by rw [place, runs, Option.map_some], ?_⟩
  rcases ends with rfl | ⟨p', rfl⟩
  · exact .inl rfl
  · exact .inr ⟨p'.base, rfl⟩

end Whole

end Rows

end Lexindex.DoubleArray
