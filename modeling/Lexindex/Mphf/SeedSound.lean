import Mathlib
import Lexindex.Mphf.Lanes
import Lexindex.Mphf.BatchExact

/-!
# What the words of a search say

A key's word of a mode has bit `t` set exactly when shift `t` puts the key on a
taken value, whichever way the word is read.  A shift is ruled out for a bucket
when it is no seed, when some key's value is taken, or when two keys meet; what a
search skips beyond that is a mode in which two keys start on one value.
-/

set_option autoImplicit false

namespace Lexindex.Mphf

/-- A level of two mode bits, with sixty-four shifts a mode. -/
structure Level.Strided (l : Level) : Prop where
  modes : l.modeBits = shippedModeBits
  slice : l.slice = 2 ^ (l.shift + 6)

theorem Level.Shaped.strided {l : Level} (shape : l.Shaped)
    (modes : l.modeBits = shippedModeBits) : l.Strided where
  modes := modes
  slice := (shape.slice_eq modes).1

section Strided

variable {l : Level} (strided : l.Strided)
include strided

theorem Level.Strided.slice_split : l.slice = 64 * 2 ^ l.shift := by
  rw [strided.slice, Nat.pow_add, Nat.mul_comm]

theorem Level.Strided.period : l.slice >>> l.shift = 64 := by
  rw [strided.slice_split, Nat.shiftRight_eq_div_pow, Nat.mul_div_cancel _ (Nat.two_pow_pos _)]

theorem Level.Strided.shifts : l.shifts = 64 := by
  rw [Level.shifts, strided.modes]
  rfl

theorem Level.Strided.offset_eq (h mode : Nat) :
    l.offset h mode = h / 2 ^ (8 * mode) % l.slice := by
  rw [Level.offset, strided.slice, and_mask, Nat.shiftRight_eq_div_pow]

theorem Level.Strided.offset_lt (h mode : Nat) : l.offset h mode < l.slice := by
  rw [strided.offset_eq]
  apply Nat.mod_lt
  rw [strided.slice]
  exact Nat.two_pow_pos _

/-- An offset is some strides and a remainder; shifting it turns the strides. -/
theorem Level.Strided.turned (h mode t : Nat) :
    (l.offset h mode + (t <<< l.shift)) &&& (l.slice - 1) =
      (l.offset h mode / 2 ^ l.shift + t) % 64 * 2 ^ l.shift + l.offset h mode % 2 ^ l.shift := by
  have whole : l.offset h mode + t <<< l.shift =
      2 ^ l.shift * (l.offset h mode / 2 ^ l.shift + t) + l.offset h mode % 2 ^ l.shift := by
    rw [Nat.shiftLeft_eq, Nat.mul_add, Nat.mul_comm t]
    have split := Nat.div_add_mod (l.offset h mode) (2 ^ l.shift)
    omega
  have small : l.offset h mode % 2 ^ l.shift < 2 ^ l.shift := Nat.mod_lt _ (Nat.two_pow_pos _)
  rw [strided.slice, and_mask, whole, Nat.pow_add, Nat.mod_mul, Nat.mul_add_mod,
    Nat.mod_eq_of_lt small, Nat.mul_add_div (Nat.two_pow_pos _), Nat.div_eq_of_lt small]
  rw [Nat.add_zero, Nat.mul_comm, Nat.add_comm]

theorem Level.Strided.cut_eq (mode h : Nat) :
    l.cutOf mode h = 64 - l.offset h mode / 2 ^ l.shift := by
  have positive : 0 < 2 ^ l.shift := Nat.two_pow_pos _
  have inside := strided.offset_lt h mode
  rw [strided.slice_split] at inside
  have strides : l.offset h mode / 2 ^ l.shift < 64 := by
    rw [Nat.div_lt_iff_lt_mul positive]
    exact inside
  have remainder : l.offset h mode % 2 ^ l.shift < 2 ^ l.shift := Nat.mod_lt _ positive
  have split := Nat.div_add_mod (l.offset h mode) (2 ^ l.shift)
  rw [Level.cutOf, strided.slice_split, Nat.shiftRight_eq_div_pow]
  generalize l.offset h mode / 2 ^ l.shift = q at *
  generalize l.offset h mode % 2 ^ l.shift = r at *
  rw [← split, Nat.div_eq_iff positive]
  have product : 2 ^ l.shift * q + (64 - q) * 2 ^ l.shift = 64 * 2 ^ l.shift := by
    rw [Nat.mul_comm, ← Nat.add_mul]
    congr 1
    omega
  omega

end Strided

theorem rotated_getLsbD (x : Word) {q t : Nat} (qLt : q < 64) (tLt : t < 64) :
    (x.rotateLeft (64 - q)).getLsbD t = x.getLsbD ((q + t) % 64) := by
  rw [BitVec.getLsbD_rotateLeft]
  by_cases whole : q = 0
  · subst whole
    simp [tLt, Nat.mod_eq_of_lt tLt]
  · rw [Nat.mod_eq_of_lt (show 64 - q < 64 by omega)]
    by_cases turned : t < 64 - q
    · have index : 64 - (64 - q) + t = (q + t) % 64 := by omega
      simp [turned, index]
    · have index : t - (64 - q) = (q + t) % 64 := by omega
      simp [turned, tLt, index]

/-- A word gathered bit by bit. -/
theorem gathered_getLsbD (set : Nat → Bool) {t : Nat} :
    ∀ (js : List Nat) (w : Word), (∀ j ∈ js, j < 64) →
      (js.foldl (fun w j => w ||| (if set j then 1#64 <<< j else 0#64)) w).getLsbD t =
        (w.getLsbD t || (decide (t ∈ js) && set t)) := by
  intro js
  induction js with
  | nil => simp
  | cons j rest ih =>
      intro w small
      rw [List.foldl_cons, ih _ fun i member => small i (List.mem_cons_of_mem _ member),
        BitVec.getLsbD_or]
      have jLt : j < 64 := small j List.mem_cons_self
      by_cases here : t = j
      · subst here
        cases set t <;> simp [one_shift_getLsbD jLt]
      · have apart : (if set j then 1#64 <<< j else 0#64).getLsbD t = false := by
          split
          · rw [one_shift_getLsbD jLt]
            simp [here]
          · simp
        simp [apart, here]

section Words

variable {l : Level} (strided : l.Strided) {origin : Nat} {taken : Map}
  (shifts : taken.shift = l.shift)
include strided shifts

theorem Level.Strided.keyWord_getLsbD (mode h : Nat) {t : Nat} (tLt : t < 64) :
    (l.keyWord origin taken mode h).getLsbD t = taken.get (l.placeOn origin mode h t) := by
  unfold Level.keyWord
  by_cases slow : l.slowOn origin h
  · simp only [if_pos slow]
    rw [strided.shifts, gathered_getLsbD _ _ _ (by simp)]
    simp [tLt]
  · simp only [if_neg slow, if_pos strided.period]
    have inside : l.startOn origin h + l.slice ≤ l.n - origin := by
      rw [Level.slowOn] at slow
      omega
    have offsetLt := strided.offset_lt h mode
    have strides : l.offset h mode / 2 ^ l.shift < 64 := by
      rw [Nat.div_lt_iff_lt_mul (Nat.two_pow_pos _), ← strided.slice_split]
      exact offsetLt
    have unfolded : ∀ {x : Nat}, x < l.slice →
        l.foldOn origin (l.startOn origin h + x) = l.startOn origin h + x := by
      intro x xLt
      rw [Level.foldOn, wrapped, if_neg (by omega)]
    have turnedLt : (l.offset h mode + (t <<< l.shift)) &&& (l.slice - 1) < l.slice :=
      and_pred_lt (by omega)
    rw [Level.placeOn, unfolded offsetLt, unfolded turnedLt, strided.turned, strided.cut_eq]
    -- the key's run starts at its remainder; its offset is so many strides on
    have split := Nat.div_add_mod (l.offset h mode) (2 ^ l.shift)
    generalize l.offset h mode / 2 ^ l.shift = q at *
    generalize l.offset h mode % 2 ^ l.shift = r at *
    have startsAt : l.startOn origin h + l.offset h mode =
        l.startOn origin h + r + q * 2 ^ taken.shift := by
      rw [shifts, ← split, Nat.mul_comm]
      omega
    have landsAt : l.startOn origin h + ((q + t) % 64 * 2 ^ l.shift + r) =
        l.startOn origin h + r + (q + t) % 64 * 2 ^ taken.shift := by
      rw [shifts]
      omega
    rw [startsAt, landsAt, Map.get, Map.planeOf_add, Map.planeOf_add, Map.bitOf_add, Map.bitOf_add]
    have from_ : taken.bitOf (l.startOn origin h + r) + q + (64 - q) - 64 =
        taken.bitOf (l.startOn origin h + r) := by omega
    rw [rotated_getLsbD _ strides tLt, Map.window_getLsbD _ _ _ _ (Nat.mod_lt _ (by decide)), from_]

theorem Level.Strided.orKeys_getLsbD (mode : Nat) {t : Nat} (tLt : t < 64) (u : Word)
    (ks : List Nat) :
    (l.orKeys origin taken mode u ks).getLsbD t =
      (u.getLsbD t || ks.any fun h => taken.get (l.placeOn origin mode h t)) := by
  induction ks generalizing u with
  | nil => simp [Level.orKeys]
  | cons h rest ih =>
      rw [Level.orKeys, List.any_cons, ← strided.keyWord_getLsbD shifts mode h tLt,
        ← Bool.or_assoc, ← BitVec.getLsbD_or]
      by_cases full : u ||| l.keyWord origin taken mode h = BitVec.allOnes 64
      · rw [if_pos full, full, BitVec.getLsbD_allOnes]
        simp only [tLt, decide_true, Bool.true_or]
      · simp only [if_neg full]
        exact ih _

theorem Level.Strided.modeWord_getLsbD (mode : Nat) {t : Nat} (tLt : t < 64) (ks : List Nat) :
    (l.modeWord origin taken mode ks).getLsbD t =
      (decide (mode = 0 ∧ t = 0) || ks.any fun h => taken.get (l.placeOn origin mode h t)) := by
  unfold Level.modeWord
  simp only [strided.shifts, Nat.lt_irrefl, if_false]
  rw [strided.orKeys_getLsbD shifts mode tLt]
  congr 1
  by_cases first : mode = 0
  · simp only [first, if_true, true_and]
    rw [BitVec.getLsbD_one]
    simp
  · simp [first]

end Words

/-! ## Seeds that place a bucket -/

/-- Shift `t` of `mode` puts every key of the bucket on a free value of its own. -/
structure Level.Places (l : Level) (origin : Nat) (taken : Map) (ks : List Nat) (mode t : Nat) :
    Prop where
  modeLt : mode < 4
  shiftLt : t < 64
  seed : ¬ (mode = 0 ∧ t = 0)
  free : ∀ h ∈ ks, taken.get (l.placeOn origin mode h t) = false
  apart : (l.placesOn origin mode t ks).Nodup

/-- The best seed of a search that has seen only seeds that place the bucket. -/
def Level.PlacesBest (l : Level) (origin : Nat) (taken : Map) (ks : List Nat)
    (best : Option Best) : Prop :=
  ∀ b, best = some b → l.Places origin taken ks b.mode b.shift

theorem ctz_of_free {u wraps : Word} (free : ~~~u &&& (BitVec.allOnes 64 <<< wraps.ctz.toNat) ≠ 0#64) :
    (~~~u &&& (BitVec.allOnes 64 <<< wraps.ctz.toNat)).ctz.toNat < 64 ∧
      u.getLsbD (~~~u &&& (BitVec.allOnes 64 <<< wraps.ctz.toNat)).ctz.toNat = false := by
  have set := BitVec.getLsbD_true_ctz_of_ne_zero free
  have small := BitVec.lt_of_getLsbD set
  rw [BitVec.getLsbD_and, BitVec.getLsbD_not, Bool.and_eq_true, Bool.and_eq_true] at set
  refine ⟨small, ?_⟩
  simpa using set.1.2

/-- A scan that rules out enough only ever keeps seeds that place the bucket. -/
theorem scanFrom_places {l : Level} {origin : Nat} {taken : Map} {ks : List Nat} {mode : Nat}
    {scoreAt : Nat → Nat} {ruledOut : Word}
    (sound : ∀ t, t < 64 → ruledOut.getLsbD t = false →
      (l.placesOn origin mode t ks).Nodup → l.Places origin taken ks mode t) :
    ∀ (fuel : Nat) (u wraps : Word) (best : Option Best),
      (∀ t, ruledOut.getLsbD t = true → u.getLsbD t = true) →
      l.PlacesBest origin taken ks best →
      l.PlacesBest origin taken ks
        (scanFrom scoreAt (fun t => decide (¬ (l.placesOn origin mode t ks).Nodup)) mode
          fuel u wraps best) := by
  intro fuel
  induction fuel with
  | zero =>
      intro u wraps best _ places
      exact places
  | succ fuel ih =>
      intro u wraps best within places
      rw [scanFrom]
      split
      · exact places
      · simp only
        split
        · exact places
        · next free =>
          split
          · exact ih _ _ _ within places
          · split
            · apply ih _ _ _ _ places
              intro t set
              rw [BitVec.getLsbD_or, within t set, Bool.true_or]
            · next apart =>
              apply ih _ _ _ within
              rintro b ⟨⟩
              obtain ⟨small, unset⟩ := ctz_of_free free
              apply sound _ small
              · cases ruled : ruledOut.getLsbD _ with
                | false => rfl
                | true => rw [within _ ruled] at unset; cases unset
              · simpa using apart

end Lexindex.Mphf

/-!
## What seeding a bucket does

A bucket is bumped with the map as it was, or gets a seed that puts each of its
keys on a free value of its own, and exactly those values are marked.  The order
the keys are listed in does not reach the seed.
-/

namespace Lexindex.Mphf

/-- What seeding a bucket may return. -/
def Level.Seeded (l : Level) (origin : Nat) (taken : Map) (ks : List Nat) (out : Nat × Map) :
    Prop :=
  out = (0, taken) ∨
    ∃ mode t, l.Places origin taken ks mode t ∧
      out = (mode * 64 + t, taken.setAll (l.placesOn origin mode t ks))

section Plain

variable {l : Level} (strided : l.Strided) {origin : Nat} {taken : Map}
  (shifts : taken.shift = l.shift) (log2 : Nat → Nat)
include strided shifts

theorem Level.Strided.searchMode_places {ks : List Nat} {best : Option Best} {mode : Nat}
    (modeLt : mode < 4) (places : l.PlacesBest origin taken ks best) :
    l.PlacesBest origin taken ks (l.searchMode log2 origin taken ks best mode) := by
  unfold Level.searchMode
  split
  · exact places
  · apply scanFrom_places _ _ _ _ _ (fun t set => set) places
    intro t tLt unruled apart
    rw [strided.modeWord_getLsbD shifts mode tLt, Bool.or_eq_false_iff, decide_eq_false_iff_not,
      List.any_eq_false] at unruled
    exact {
      modeLt, shiftLt := tLt, seed := unruled.1, apart
      free := fun h member => by simpa using unruled.2 h member }

theorem Level.Strided.seedBucket_seeded (ks : List Nat) :
    l.Seeded origin taken ks (l.seedBucket log2 ks taken origin) := by
  have searched : ∀ (modes : List Nat) (best : Option Best), (∀ mode ∈ modes, mode < 4) →
      l.PlacesBest origin taken ks best →
      l.PlacesBest origin taken ks (modes.foldl (l.searchMode log2 origin taken ks) best) := by
    intro modes
    induction modes with
    | nil =>
        intro best _ places
        exact places
    | cons mode rest ih =>
        intro best small places
        rw [List.foldl_cons]
        apply ih _ fun other member => small other (List.mem_cons_of_mem _ member)
        exact strided.searchMode_places shifts log2 (small mode List.mem_cons_self) places
  have start : l.PlacesBest origin taken ks none := by
    intro b found
    cases found
  have places := searched (List.range (2 ^ l.modeBits)) none
    (by simp [strided.modes, shippedModeBits]) start
  unfold Level.seedBucket
  split
  · exact Or.inl rfl
  · cases found : (List.range (2 ^ l.modeBits)).foldl (l.searchMode log2 origin taken ks) none with
    | none => exact Or.inl rfl
    | some best =>
        have placed := places best found
        refine Or.inr ⟨best.mode, best.shift, placed, ?_⟩
        have bits : 8 - l.modeBits = 6 := by
          rw [strided.modes]
          rfl
        simp only [bits]
        rw [← Nat.shiftLeft_add_eq_or_of_lt placed.shiftLt, Nat.shiftLeft_eq]

end Plain

/-! ### The order of a bucket's keys -/

theorem Map.set_comm (m : Map) (v w : Nat) : (m.set v).set w = (m.set w).set v := by
  have words : (m.words.modify (m.planeOf v + m.bitOf v / 64) (· ||| 1#64 <<< (m.bitOf v % 64))).modify
        (m.planeOf w + m.bitOf w / 64) (· ||| 1#64 <<< (m.bitOf w % 64)) =
      (m.words.modify (m.planeOf w + m.bitOf w / 64) (· ||| 1#64 <<< (m.bitOf w % 64))).modify
        (m.planeOf v + m.bitOf v / 64) (· ||| 1#64 <<< (m.bitOf v % 64)) := by
    apply List.ext_getElem?
    intro i
    simp only [List.getElem?_modify]
    cases m.words[i]? with
    | none => rfl
    | some word =>
        by_cases atV : m.planeOf v + m.bitOf v / 64 = i <;>
          by_cases atW : m.planeOf w + m.bitOf w / 64 = i <;>
            simp [atV, atW]
        rw [BitVec.or_assoc, BitVec.or_assoc, BitVec.or_comm (1#64 <<< _)]
  exact Map.mk.injEq .. ▸ ⟨rfl, rfl, words⟩

theorem Map.setAll_perm (m : Map) {vs ws : List Nat} (perm : vs.Perm ws) :
    m.setAll vs = m.setAll ws := by
  apply perm.foldl_eq' _
  intro x _ y _ z
  exact Map.set_comm z x y

section Perm

variable {l : Level} (strided : l.Strided) {origin : Nat} {taken : Map}
  (shifts : taken.shift = l.shift) (log2 : Nat → Nat) {ks ks' : List Nat} (perm : ks.Perm ks')

include perm in
theorem Level.score_perm (mode : Nat) : l.score log2 mode ks = l.score log2 mode ks' := by
  funext t
  exact (perm.map _).sum_eq

include perm in
theorem Level.placesOn_nodup_perm (mode t : Nat) :
    (l.placesOn origin mode t ks).Nodup ↔ (l.placesOn origin mode t ks').Nodup :=
  (perm.map _).nodup_iff

include perm in
theorem Level.wraps_perm (mode : Nat) : l.wraps mode ks = l.wraps mode ks' := by
  apply perm.foldl_eq' _
  intro x _ y _ z
  split <;> split <;> try rfl
  rw [BitVec.or_assoc, BitVec.or_assoc, BitVec.or_comm (1#64 <<< _)]

include perm strided shifts in
theorem Level.Strided.modeWord_perm (mode : Nat) :
    l.modeWord origin taken mode ks = l.modeWord origin taken mode ks' := by
  apply BitVec.eq_of_getLsbD_eq
  intro t tLt
  rw [strided.modeWord_getLsbD shifts mode tLt, strided.modeWord_getLsbD shifts mode tLt,
    perm.any_eq]

include perm strided shifts in
theorem Level.Strided.searchMode_perm :
    l.searchMode log2 origin taken ks = l.searchMode log2 origin taken ks' := by
  funext best mode
  unfold Level.searchMode
  simp only [(perm.map _).nodup_iff, Level.score_perm log2 perm, Level.placesOn_nodup_perm perm,
    Level.wraps_perm perm, strided.modeWord_perm shifts perm]

include perm strided shifts in
theorem Level.Strided.seedBucket_perm :
    l.seedBucket log2 ks taken origin = l.seedBucket log2 ks' taken origin := by
  unfold Level.seedBucket
  rw [strided.searchMode_perm shifts log2 perm, perm.length_eq]
  split
  · rfl
  · split
    · rfl
    · next best _ =>
      have places : (l.placesOn origin best.mode best.shift ks).Perm
          (l.placesOn origin best.mode best.shift ks') := perm.map _
      rw [Map.setAll_perm taken places]

end Perm

end Lexindex.Mphf
