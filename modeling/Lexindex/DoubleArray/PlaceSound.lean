import Mathlib
import Lexindex.DoubleArray.Place

/-!
# No two rows share a base or a slot

A search answers a free slot whose base no row has, with every other child's slot free
besides, whatever it started from and whatever it learned; so the rows never meet.
-/

set_option autoImplicit false

namespace Lexindex.DoubleArray

open Mphf (IndexError)

/-- No floor of a first label lies below the label. -/
def Floors.Sound (f : Floors) (maxLabel : Nat) : Prop :=
  ∀ c, c ≤ maxLabel → c ≤ f.first.getD c 0

theorem floors_new (maxLabel : Nat) : (Floors.new maxLabel).Sound maxLabel := by
  intro c small
  rw [Floors.new, List.getD_eq_getElem _ _ (by rw [List.length_range]; omega), List.getElem_range]

theorem Floors.Sound.setFirst {f : Floors} {maxLabel c0 slot : Nat} (sound : f.Sound maxLabel)
    (above : c0 ≤ slot) : (f.setFirst c0 slot).Sound maxLabel := by
  intro c small
  have before := sound c small
  rw [List.getD_eq_getElem?_getD] at before
  rw [Floors.setFirst, List.getD_eq_getElem?_getD, List.getElem?_set]
  by_cases here : c0 = c
  · subst here
    rw [if_pos rfl]
    by_cases inside : c0 < f.first.length
    · rw [if_pos inside]
      exact above
    · rw [if_neg inside]
      rw [List.getElem?_eq_none (Nat.le_of_not_lt inside)] at before
      exact before
  · rw [if_neg here]
    exact before

section Search

variable {o : Occupancy} {maxLabel c0 : Nat} {labels : List Nat} {rel : List (Nat × Nat)}

/-- What a search is after: a first child's slot whose base is no row's, with its row's slots
free. -/
structure Fits (o : Occupancy) (c0 : Nat) (rel : List (Nat × Nat)) (s : Nat) : Prop where
  above : c0 ≤ s
  free : o.isUsed s = false
  base : o.isTaken (s - c0) = false
  others : ∀ r ∈ rel, o.isUsed (s + 64 * r.1 + r.2) = false

theorem Learning.sawFirst_sound {l : Learning} {slot : Nat} (sound : l.floors.Sound maxLabel)
    (above : c0 ≤ slot) : (l.sawFirst c0 slot).floors.Sound maxLabel := by
  rw [Learning.sawFirst]
  split
  · exact sound.setFirst above
  · exact sound

theorem Learning.sawPair_sound {l : Learning} {slot : Nat} (sound : l.floors.Sound maxLabel) :
    (l.sawPair labels slot).floors.Sound maxLabel := by
  rw [Learning.sawPair]
  split
  · exact sound
  · exact sound

theorem narrowWord_floors {w r : Nat} {f : Word} {l : Learning}
    (sound : l.floors.Sound maxLabel) :
    (narrowWord o labels w r rel f l).2.floors.Sound maxLabel := by
  induction rel generalizing r f l with
  | nil => exact sound
  | cons q rel ih =>
      rw [narrowWord]
      split
      · exact sound
      · refine ih ?_
        split
        · exact Learning.sawPair_sound sound
        · exact sound

theorem narrowWord_getLsbD {w r : Nat} {f : Word} {l : Learning} (shifts : ∀ q ∈ rel, q.2 < 64)
    {t : Nat} (small : t < 64) (set : (narrowWord o labels w r rel f l).1.getLsbD t = true) :
    f.getLsbD t = true ∧ ∀ q ∈ rel, o.isUsed (64 * w + t + 64 * q.1 + q.2) = false := by
  induction rel generalizing r f l with
  | nil => exact ⟨set, by simp⟩
  | cons q rel ih =>
      obtain ⟨shift, shifts⟩ := List.forall_mem_cons.mp shifts
      rw [narrowWord] at set
      split at set
      · rename_i zero
        rw [zero] at set
        simp at set
      · obtain ⟨both, rest⟩ := ih shifts set
        rw [BitVec.getLsbD_and, BitVec.getLsbD_not, window_getLsbD shift small,
          Bool.and_eq_true, Bool.and_eq_true, Bool.not_eq_true'] at both
        refine ⟨both.1, List.forall_mem_cons.mpr ⟨?_, rest⟩⟩
        have at_ : 64 * w + t + 64 * q.1 + q.2 = 64 * (w + q.1) + q.2 + t := by omega
        rw [at_]
        exact both.2.2

theorem candidates_eq {w0 j : Nat} (room : c0 ≤ 64 * o.pad) :
    o.candidates (w0 + j) c0 = ~~~(o.used.getD (w0 + j) 0#64) &&&
      ~~~(window o.taken ((o.baseAt w0 c0).1 + j) (o.baseAt w0 c0).2) := by
  have offset : (o.baseAt (w0 + j) c0) = ((o.baseAt w0 c0).1 + j, (o.baseAt w0 c0).2) := by
    simp only [Occupancy.baseAt, Prod.mk.injEq]
    omega
  simp only [Occupancy.candidates, offset]

section Round

/-- A round from word `w0` on, of a search from slot `from_`, whose bits before it are masked. -/
structure Round (o : Occupancy) (c0 : Nat) (rel : List (Nat × Nat)) (from_ w0 : Nat)
    (mask0 : Word) : Prop where
  room : c0 ≤ 64 * o.pad
  started : c0 ≤ from_
  above : from_ / 64 ≤ w0
  mask : mask0 = if w0 = from_ / 64 then BitVec.allOnes 64 <<< (from_ % 64) else BitVec.allOnes 64
  shifts : ∀ q ∈ rel, q.2 < 64

variable {w0 from_ : Nat} {mask0 : Word} {l : Learning}

/-- A bit of a word of candidates stands for a slot that could be the first child's. -/
theorem Round.candidate (round : Round o c0 rel from_ w0 mask0) {j t : Nat} (small : t < 64)
    {f : Word} (word : f = ~~~(o.used.getD (w0 + j) 0#64) &&&
      ~~~(window o.taken ((o.baseAt w0 c0).1 + j) (o.baseAt w0 c0).2))
    (set : (if j = 0 then f &&& mask0 else f).getLsbD t = true) :
    c0 ≤ 64 * (w0 + j) + t ∧ o.isUsed (64 * (w0 + j) + t) = false ∧
      o.isTaken (64 * (w0 + j) + t - c0) = false := by
  have started := round.started
  have above := round.above
  have late : from_ ≤ 64 * (w0 + j) + t ∧ f.getLsbD t = true := by
    by_cases first : j = 0
    · subst first
      rw [if_pos rfl, BitVec.getLsbD_and, Bool.and_eq_true] at set
      refine ⟨?_, set.1⟩
      by_cases here : w0 = from_ / 64
      · have unmasked := set.2
        rw [round.mask, if_pos here, BitVec.getLsbD_shiftLeft] at unmasked
        simp only [Bool.and_eq_true, Bool.not_eq_true', decide_eq_false_iff_not] at unmasked
        omega
      · omega
    · rw [if_neg first] at set
      exact ⟨by omega, set⟩
  obtain ⟨late, set⟩ := late
  have slotAbove : c0 ≤ 64 * (w0 + j) + t := by omega
  rw [word, Occupancy.candidate_getLsbD round.room small slotAbove, Bool.and_eq_true,
    Bool.not_eq_true', Bool.not_eq_true'] at set
  exact ⟨slotAbove, set.1, set.2⟩

/-- What a round has to show for itself: floors as sound as before, and a slot that fits, if any. -/
structure RoundSound (o : Occupancy) (maxLabel c0 : Nat) (rel : List (Nat × Nat))
    (found : Option Nat × Learning) : Prop where
  floors : found.2.floors.Sound maxLabel
  fits : ∀ s, found.1 = some s → Fits o c0 rel s

theorem Round.sparseSearch (round : Round o c0 rel from_ w0 mask0) (bits : List Nat)
    (sound : l.floors.Sound maxLabel) :
    RoundSound o maxLabel c0 rel (sparseSearch o labels rel c0 w0 mask0 bits l) := by
  induction bits generalizing l with
  | nil => exact ⟨sound, by simp [DoubleArray.sparseSearch]⟩
  | cons j bits ih =>
      simp only [DoubleArray.sparseSearch]
      have fits := fun t small => @Round.candidate o c0 rel w0 from_ mask0 round j t small _
        (candidates_eq round.room)
      generalize (if j = 0 then o.candidates (w0 + j) c0 &&& mask0 else o.candidates (w0 + j) c0) =
        f at fits ⊢
      by_cases zero : f = 0#64
      · rw [if_pos zero]
        exact ih sound
      · rw [if_neg zero]
        have seen := (fits _ (ctz_lt zero) (BitVec.getLsbD_true_ctz_of_ne_zero zero)).1
        have learned := Learning.sawFirst_sound sound seen
        generalize l.sawFirst c0 (64 * (w0 + j) + f.ctz.toNat) = l' at learned ⊢
        have floors : (narrowWord o labels (w0 + j) 0 rel f l').2.floors.Sound maxLabel :=
          narrowWord_floors learned
        have narrowed : ∀ t, t < 64 →
            (narrowWord o labels (w0 + j) 0 rel f l').1.getLsbD t = true → f.getLsbD t = true ∧
            ∀ q ∈ rel, o.isUsed (64 * (w0 + j) + t + 64 * q.1 + q.2) = false :=
          fun t small => narrowWord_getLsbD round.shifts small
        generalize narrowWord o labels (w0 + j) 0 rel f l' = found at floors narrowed ⊢
        by_cases some_left : found.1 ≠ 0#64
        · rw [if_pos some_left]
          refine ⟨floors, fun s same => ?_⟩
          rw [Option.some.injEq] at same
          subst same
          have small := ctz_lt some_left
          obtain ⟨set, others⟩ :=
            narrowed _ small (BitVec.getLsbD_true_ctz_of_ne_zero some_left)
          obtain ⟨slotAbove, free, base⟩ := fits _ small set
          exact ⟨slotAbove, free, base, others⟩
        · rw [if_neg some_left]
          exact ih floors

theorem narrowChunk_floors {r : Nat} {fit : List Word} (sound : l.floors.Sound maxLabel) :
    (narrowChunk o labels w0 r rel fit l).2.floors.Sound maxLabel := by
  induction rel generalizing r fit l with
  | nil => exact sound
  | cons q rel ih =>
      simp only [narrowChunk]
      split
      · exact sound
      · refine ih ?_
        split
        · exact Learning.sawPair_sound sound
        · exact sound

theorem getD_mapIdx_and {fit : List Word} (change : Nat → Word) {j : Nat} :
    (fit.mapIdx fun j f => f &&& change j).getD j 0#64 = fit.getD j 0#64 &&& change j := by
  rw [List.getD_eq_getElem?_getD, List.getD_eq_getElem?_getD, List.getElem?_mapIdx]
  cases fit[j]? with
  | none => simp
  | some f => rfl

theorem narrowChunk_getLsbD {r : Nat} {fit : List Word} (shifts : ∀ q ∈ rel, q.2 < 64)
    {j t : Nat} (small : t < 64)
    (set : ((narrowChunk o labels w0 r rel fit l).1.getD j 0#64).getLsbD t = true) :
    (fit.getD j 0#64).getLsbD t = true ∧
      ∀ q ∈ rel, o.isUsed (64 * (w0 + j) + t + 64 * q.1 + q.2) = false := by
  induction rel generalizing r fit l with
  | nil => exact ⟨set, by simp⟩
  | cons q rel ih =>
      obtain ⟨shift, shifts⟩ := List.forall_mem_cons.mp shifts
      simp only [narrowChunk] at set
      have narrowed : ((fit.mapIdx fun j f => f &&& ~~~(window o.used (w0 + q.1 + j) q.2)).getD j
          0#64).getLsbD t = true → (fit.getD j 0#64).getLsbD t = true ∧
          o.isUsed (64 * (w0 + j) + t + 64 * q.1 + q.2) = false := by
        intro both
        rw [getD_mapIdx_and (fun j => ~~~(window o.used (w0 + q.1 + j) q.2)),
          BitVec.getLsbD_and, BitVec.getLsbD_not, window_getLsbD shift small, Bool.and_eq_true,
          Bool.and_eq_true, Bool.not_eq_true'] at both
        refine ⟨both.1, ?_⟩
        have at_ : 64 * (w0 + j) + t + 64 * q.1 + q.2 = 64 * (w0 + q.1 + j) + q.2 + t := by omega
        rw [at_]
        exact both.2.2
      split at set
      · -- No base is left, and none is answered.
        rename_i none_left
        have zero : (fit.mapIdx fun j f => f &&& ~~~(window o.used (w0 + q.1 + j) q.2)).getD j
            0#64 = 0#64 := by
          rw [List.getD_eq_getElem?_getD]
          cases read : (fit.mapIdx fun j f => f &&& ~~~(window o.used (w0 + q.1 + j) q.2))[j]? with
          | none => rfl
          | some f =>
              have each := List.all_eq_true.mp none_left f (List.mem_of_getElem? read)
              simpa using each
        rw [zero] at set
        simp at set
      · obtain ⟨both, rest⟩ := ih shifts set
        obtain ⟨before, free⟩ := narrowed both
        exact ⟨before, List.forall_mem_cons.mpr ⟨free, rest⟩⟩

theorem Round.chunkSearch (round : Round o c0 rel from_ w0 mask0)
    (sound : l.floors.Sound maxLabel) :
    RoundSound o maxLabel c0 rel (chunkSearch o labels rel c0 w0 mask0 l) := by
  have fits : ∀ j t, t < 64 →
      ((((o.candidatesChunk w0 c0).modify 0 (· &&& mask0)).getD j 0#64).getLsbD t = true) →
      c0 ≤ 64 * (w0 + j) + t ∧ o.isUsed (64 * (w0 + j) + t) = false ∧
        o.isTaken (64 * (w0 + j) + t - c0) = false := by
    intro j t small set
    by_cases inside : j < CHUNK
    · refine round.candidate small rfl ?_
      have read : (o.candidatesChunk w0 c0).getD j 0#64 = ~~~(o.used.getD (w0 + j) 0#64) &&&
          ~~~(window o.taken ((o.baseAt w0 c0).1 + j) (o.baseAt w0 c0).2) := by
        rw [Occupancy.candidatesChunk, List.getD_eq_getElem _ _ (by simpa using inside),
          List.getElem_map, List.getElem_range]
      rw [getD_modify (by simp [Occupancy.candidatesChunk, CHUNK]), read] at set
      exact set
    · rw [List.getD_eq_getElem?_getD, List.getElem?_eq_none] at set
      · simp at set
      · rw [List.length_modify, Occupancy.candidatesChunk, List.length_map, List.length_range]
        omega
  simp only [DoubleArray.chunkSearch]
  generalize (o.candidatesChunk w0 c0).modify 0 (· &&& mask0) = fit at fits ⊢
  have learned : (l.sawLowest c0 (lowest fit w0)).floors.Sound maxLabel := by
    cases found : lowest fit w0 with
    | none => exact sound
    | some s =>
        obtain ⟨j, t, small, exact, set⟩ := lowest_some found
        exact Learning.sawFirst_sound sound (exact ▸ (fits j t small set).1)
  refine ⟨narrowChunk_floors learned, fun s found => ?_⟩
  obtain ⟨j, t, small, rfl, set⟩ := lowest_some found
  obtain ⟨before, others⟩ := narrowChunk_getLsbD round.shifts small set
  obtain ⟨slotAbove, free, base⟩ := fits j t small before
  exact ⟨slotAbove, free, base, others⟩

theorem Round.searchRound (round : Round o c0 rel from_ w0 mask0)
    (sound : l.floors.Sound maxLabel) :
    RoundSound o maxLabel c0 rel (searchRound o labels rel c0 w0 mask0 l) := by
  simp only [DoubleArray.searchRound]
  split
  · exact round.sparseSearch _ sound
  · exact round.chunkSearch sound

end Round

theorem search_sound {lastWord reach start e : Nat} {wide : Bool} {l : Learning}
    (room : c0 ≤ 64 * o.pad) (shifts : ∀ q ∈ rel, q.2 < 64) (started : c0 ≤ e)
    (sound : l.floors.Sound maxLabel) {s : Nat} {floors : Floors}
    (found : search o labels rel c0 lastWord reach start wide e l = some (.ok (s, floors))) :
    Fits o c0 rel s ∧ floors.Sound maxLabel := by
  -- Every round from here starts at or above the first child's label.
  have rounds : ∀ {e w0 : Nat} {mask0 : Word} {l l' : Learning}, c0 ≤ e →
      o.openFrom (roundStart reach start wide e / 64) = some w0 → l.floors.Sound maxLabel →
      l' = (if restarts reach start wide e then { l with first := false, pair := false } else l) →
      mask0 = (if w0 = roundStart reach start wide e / 64 then
        BitVec.allOnes 64 <<< (roundStart reach start wide e % 64) else BitVec.allOnes 64) →
      RoundSound o maxLabel c0 rel (searchRound o labels rel c0 w0 mask0 l') := by
    intro e w0 mask0 l l' started opened sound again mask
    have above := le_roundStart reach start wide e
    refine Round.searchRound ⟨room, Nat.le_trans started above, openFrom_ge opened, mask,
      shifts⟩ ?_
    rw [again]
    split
    · exact sound
    · exact sound
  fun_induction search o labels rel c0 lastWord reach start wide e l with
  | case1 e l from_ past => cases found
  | case2 e l from_ w0 opened within l' mask0 round slot answered =>
      have held := rounds started opened sound (dite_eq_ite ..) (dite_eq_ite ..)
      rw [Option.some.injEq, Except.ok.injEq, Prod.mk.injEq] at found
      obtain ⟨rfl, rfl⟩ := found
      exact ⟨held.fits slot answered, held.floors⟩
  | case3 e l from_ w0 opened within l' mask0 round answered ih =>
      have held := rounds started opened sound (dite_eq_ite ..) (dite_eq_ite ..)
      have above := openFrom_ge opened
      have later := le_roundStart reach start wide e
      refine ih ?_ held.floors found
      rw [CHUNK]
      omega
  | case4 e l from_ w0 opened past =>
      rw [Option.some.injEq] at found
      cases found

end Search

end Lexindex.DoubleArray
