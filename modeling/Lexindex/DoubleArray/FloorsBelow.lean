import Mathlib
import Lexindex.DoubleArray.Occupancy
import Lexindex.DoubleArray.Placed

/-!
# Words with a free slot

The bitmaps run past the last slot there can be, so a search for an open word always finds one.
-/

set_option autoImplicit false

namespace Lexindex.DoubleArray

/-- The word past the last one a slot can lie in. -/
def LAST : Nat := MAX_SLOTS / 64

theorem streamBit_drop (words : List Word) (k p : Nat) :
    streamBit (words.drop k) p = streamBit words (64 * k + p) := by
  have word : (64 * k + p) / 64 = k + p / 64 := by omega
  have bit : (64 * k + p) % 64 = p % 64 := by omega
  rw [streamBit, streamBit, word, bit, List.getD_eq_getElem?_getD, List.getD_eq_getElem?_getD,
    List.getElem?_drop]

theorem inside_of_streamBit {words : List Word} {p : Nat} (set : streamBit words p = true) :
    p / 64 < words.length := by
  by_contra past
  rw [streamBit, List.getD_eq_default _ _ (Nat.not_lt.mp past), BitVec.getLsbD_zero] at set
  cases set

namespace Occupancy

/-- The first bit set lies at or below any bit that is set. -/
theorem firstFree_some {words : List Word} {p : Nat} (set : streamBit words p = true) (j : Nat) :
    ∃ found, firstFree j words = some found ∧ found ≤ 64 * j + p := by
  induction words generalizing p j with
  | nil => exact absurd (inside_of_streamBit set) (Nat.not_lt_zero _)
  | cons m words ih =>
      rw [firstFree]
      by_cases none_set : m = 0#64
      · have later : 64 ≤ p := by
          by_contra here
          have word : p / 64 = 0 := by omega
          rw [streamBit, word, List.getD_cons_zero, none_set, BitVec.getLsbD_zero] at set
          cases set
        have rest : streamBit words (p - 64) = true := by
          have shifted := streamBit_drop (m :: words) 1 (p - 64)
          rw [List.drop_one, List.tail_cons] at shifted
          rw [shifted, show 64 * 1 + (p - 64) = p by omega]
          exact set
        obtain ⟨found, search, le⟩ := ih rest (j + 1)
        rw [if_pos none_set]
        exact ⟨found, search, by omega⟩
      · rw [if_neg none_set]
        refine ⟨_, rfl, ?_⟩
        have small := ctz_lt none_set
        by_contra above
        have word : p / 64 = 0 := by omega
        have bit : p % 64 = p := by omega
        rw [streamBit, word, bit, List.getD_cons_zero] at set
        have clear := BitVec.getLsbD_false_of_lt_ctz (x := m) (i := p) (by omega)
        rw [clear] at set
        cases set

/-- Where some word at or after `w` has a free slot, one is found no later. -/
theorem openFrom_some {o : Occupancy} {w p : Nat} (le : w ≤ p) (set : streamBit o.free p = true) :
    ∃ found, o.openFrom w = some found ∧ found ≤ p := by
  have inside := inside_of_streamBit set
  have first : w / 64 < o.free.length := by omega
  rw [openFrom, List.drop_eq_getElem_cons first]
  have shifted := streamBit_drop o.free (w / 64) (p - 64 * (w / 64))
  rw [show 64 * (w / 64) + (p - 64 * (w / 64)) = p by omega, set,
    List.drop_eq_getElem_cons first] at shifted
  have masked : streamBit ((o.free[w / 64] &&& BitVec.allOnes 64 <<< (w % 64)) ::
      o.free.drop (w / 64 + 1)) (p - 64 * (w / 64)) = true := by
    by_cases same : p / 64 = w / 64
    · have word : (p - 64 * (w / 64)) / 64 = 0 := by omega
      have bit : (p - 64 * (w / 64)) % 64 = p % 64 := by omega
      rw [streamBit, word, bit, List.getD_cons_zero] at shifted ⊢
      have small : p % 64 < 64 := Nat.mod_lt _ (by decide)
      have above : ¬ p % 64 < w % 64 := by omega
      rw [BitVec.getLsbD_and, shifted, BitVec.getLsbD_shiftLeft, BitVec.getLsbD_allOnes]
      simp [small, above]
      omega
    · obtain ⟨k, word⟩ : ∃ k, (p - 64 * (w / 64)) / 64 = k + 1 :=
        ⟨(p - 64 * (w / 64)) / 64 - 1, by omega⟩
      rw [streamBit, word, List.getD_cons_succ] at shifted ⊢
      exact shifted
  obtain ⟨found, search, le'⟩ := firstFree_some masked (w / 64)
  exact ⟨found, search, by omega⟩

/-- The bitmaps of slots and of open words agree, and no slot past the last is in use. -/
structure Open (o : Occupancy) (maxLabel : Nat) : Prop where
  sized : o.Sized maxLabel
  words : o.free.length = ((MAX_SLOTS + maxLabel) / 64 + CHUNK + 4) / 64 + 2
  high : ∀ s, MAX_SLOTS ≤ s → o.isUsed s = false
  full : ∀ w, w < 64 * o.free.length → streamBit o.free w = false →
    o.used.getD w 0#64 = BitVec.allOnes 64

theorem open_new (maxLabel : Nat) : (new maxLabel).Open maxLabel := by
  refine ⟨sized_new maxLabel, List.length_replicate, fun s _ => ?_, fun w inside clear => ?_⟩
  · rw [isUsed, streamBit, new, List.getD_eq_getElem?_getD, List.getElem?_replicate]
    split <;> simp
  · have within : w / 64 < (new maxLabel).free.length := by omega
    rw [streamBit, List.getD_eq_getElem _ _ within] at clear
    simp only [new, List.getElem_replicate, BitVec.getLsbD_allOnes] at clear
    have small : w % 64 < 64 := Nat.mod_lt _ (by decide)
    simp [small] at clear

variable {o : Occupancy} {maxLabel : Nat}

theorem Open.takeBase (opened : o.Open maxLabel) (b : Nat) : (o.takeBase b).Open maxLabel :=
  ⟨opened.sized.takeBase b, opened.words, opened.high, opened.full⟩

theorem Open.take (opened : o.Open maxLabel) {s : Nat} (small : s < MAX_SLOTS) :
    (o.take s).Open maxLabel := by
  have used := opened.sized.isUsed_take small
  have length : (o.take s).free.length = o.free.length := by
    rw [Occupancy.take]
    simp only
    split
    · exact clearBit_length ..
    · rfl
  -- A word that was full stays full.
  have kept : ∀ w, o.used.getD w 0#64 = BitVec.allOnes 64 →
      (o.take s).used.getD w 0#64 = BitVec.allOnes 64 := by
    intro w whole
    refine BitVec.eq_of_getLsbD_eq fun t less => ?_
    have full : (BitVec.allOnes 64).getLsbD t = true := by
      rw [BitVec.getLsbD_allOnes, decide_eq_true less]
    rw [used_getLsbD w t less, used, ← used_getLsbD w t less, whole, full, Bool.or_true]
  refine ⟨opened.sized.take s, length.trans opened.words, fun i above => ?_, fun w inside clear => ?_⟩
  · rw [used, opened.high i above, Bool.or_false, decide_eq_false_iff_not]
    omega
  · rw [length] at inside
    by_cases now : (setBit o.used s).getD (s / 64) 0#64 = BitVec.allOnes 64
    · have free : (o.take s).free = clearBit o.free (s / 64) := if_pos now
      rw [free, streamBit_clearBit, Bool.and_eq_false_iff] at clear
      rcases clear with here | before
      · rw [Bool.not_eq_false', decide_eq_true_iff] at here
        rw [here]
        exact now
      · exact kept w (opened.full w inside before)
    · have free : (o.take s).free = o.free := if_neg now
      rw [free] at clear
      exact kept w (opened.full w inside clear)

theorem Open.takes (opened : o.Open maxLabel) (b : Nat) {labels : List Nat}
    (inside : ∀ c ∈ labels, b + c < MAX_SLOTS) :
    (labels.foldl (fun o c => o.take (b + c)) o).Open maxLabel := by
  induction labels generalizing o with
  | nil => exact opened
  | cons c labels ih =>
      obtain ⟨cInside, inside⟩ := List.forall_mem_cons.mp inside
      exact ih (opened.take cInside) inside

/-- A word past the last slot there can be is open. -/
theorem Open.isOpen (opened : o.Open maxLabel) {w : Nat} (past : LAST ≤ w)
    (inside : w < 64 * o.free.length) : streamBit o.free w = true := by
  have above : MAX_SLOTS ≤ 64 * w + 0 := by
    rw [show LAST = 2 ^ 17 by decide] at past
    rw [show MAX_SLOTS = 2 ^ 23 by decide]
    omega
  rw [← Bool.not_eq_false]
  intro clear
  have whole := opened.full w inside clear
  have bit := used_getLsbD (o := o) w 0 (by decide)
  rw [whole, BitVec.getLsbD_allOnes, opened.high (64 * w + 0) above] at bit
  cases bit

/-- The search for an open word, from any word a round may start at. -/
theorem Open.openFrom (opened : o.Open maxLabel) {w : Nat} (low : w ≤ LAST + CHUNK) :
    ∃ found, o.openFrom w = some found ∧ w ≤ found ∧ found ≤ max w LAST := by
  have words := opened.words
  have room : max w LAST < 64 * o.free.length := by
    rw [words]
    rw [LAST, CHUNK] at *
    omega
  obtain ⟨found, search, le⟩ := openFrom_some (Nat.le_max_left w LAST)
    (opened.isOpen (Nat.le_max_right ..) room)
  exact ⟨found, search, openFrom_ge search, le⟩

end Occupancy

end Lexindex.DoubleArray

/-!
## How high the floors go

A floor is the slot some round found, so no search starts past the words a round may test.
-/

namespace Lexindex.DoubleArray

open Mphf (IndexError)

/-! ### The floors -/

/-- Every floor is a slot a round can find. -/
structure Floors.Below (f : Floors) (maxLabel : Nat) : Prop where
  length : f.first.length = maxLabel + 1
  first : ∀ c, f.first.getD c 0 < 64 * (LAST + CHUNK)
  pair : ∀ k s, f.pair k = some s → s < 64 * (LAST + CHUNK)
  all : ∀ k s, f.all k = some s → s < 64 * (LAST + CHUNK)

section Floors

variable {f : Floors} {l : Learning} {maxLabel slot : Nat} {labels : List Nat}

theorem below_new (small : maxLabel ≤ MAX_ALPHABET) : (Floors.new maxLabel).Below maxLabel := by
  refine ⟨List.length_range, fun c => ?_, fun k s held => ?_, fun k s held => ?_⟩
  rotate_left
  · cases held
  · cases held
  have bound : (Floors.new maxLabel).first.getD c 0 ≤ maxLabel := by
    rw [Floors.new, List.getD_eq_getElem?_getD]
    by_cases inside : c < maxLabel + 1
    · rw [List.getElem?_range inside, Option.getD_some]
      omega
    · rw [List.getElem?_eq_none (by rw [List.length_range]; omega)]
      exact Nat.zero_le _
  have wide : MAX_ALPHABET < 64 * (LAST + CHUNK) := by decide
  omega

theorem Floors.Below.setFirst (below : f.Below maxLabel) (small : slot < 64 * (LAST + CHUNK))
    (c0 : Nat) : (f.setFirst c0 slot).Below maxLabel := by
  refine ⟨List.length_set.trans below.length, fun c => ?_, below.pair, below.all⟩
  have before := below.first c
  rw [Floors.setFirst, List.getD_eq_getElem?_getD, List.getElem?_set]
  split
  · split
    · exact small
    · rw [Option.getD_none]
      omega
  · rwa [List.getD_eq_getElem?_getD] at before

theorem Floors.Below.setPair (below : f.Below maxLabel) (small : slot < 64 * (LAST + CHUNK)) :
    (f.setPair labels slot).Below maxLabel := by
  refine ⟨below.length, below.first, fun k s held => ?_, below.all⟩
  rw [Floors.setPair] at held
  simp only at held
  split at held
  · exact Option.some.inj held ▸ small
  · exact below.pair k s held

theorem Floors.Below.setAll (below : f.Below maxLabel) (small : slot < 64 * (LAST + CHUNK)) :
    (f.setAll labels slot).Below maxLabel := by
  refine ⟨below.length, below.first, below.pair, fun k s held => ?_⟩
  rw [Floors.setAll] at held
  simp only at held
  split at held
  · exact Option.some.inj held ▸ small
  · exact below.all k s held

theorem Floors.Below.get (below : f.Below maxLabel) :
    (f.get labels).1 < 64 * (LAST + CHUNK) ∧ (f.get labels).2.1 < 64 * (LAST + CHUNK) ∧
      (f.get labels).2.2 < 64 * (LAST + CHUNK) := by
  have positive : 0 < 64 * (LAST + CHUNK) := by decide
  have pair : ∀ k, (f.pair k).getD 0 < 64 * (LAST + CHUNK) := by
    intro k
    cases held : f.pair k with
    | none => exact positive
    | some s => exact below.pair k s held
  have all : (f.all labels).getD 0 < 64 * (LAST + CHUNK) := by
    cases held : f.all labels with
    | none => exact positive
    | some s => exact below.all labels s held
  refine ⟨below.first _, ?_, ?_⟩
  · cases labels with
    | nil => exact positive
    | cons a rest =>
        cases rest with
        | nil => exact positive
        | cons b rest => exact pair _
  · change (if 2 < labels.length then (f.all labels).getD 0 else 0) < _
    split
    · exact all
    · exact positive

theorem Floors.Below.sawFirst (below : l.floors.Below maxLabel) (small : slot < 64 * (LAST + CHUNK))
    (c0 : Nat) : (l.sawFirst c0 slot).floors.Below maxLabel := by
  rw [Learning.sawFirst]
  split
  · exact below.setFirst small c0
  · exact below

theorem Floors.Below.sawPair (below : l.floors.Below maxLabel) (small : slot < 64 * (LAST + CHUNK)) :
    (l.sawPair labels slot).floors.Below maxLabel := by
  rw [Learning.sawPair]
  split
  · exact below.setPair small
  · exact below

end Floors

/-! ### A round -/

theorem lowest_lt {fit : List Word} {w0 s : Nat} (found : lowest fit w0 = some s) :
    s < 64 * (w0 + fit.length) := by
  obtain ⟨j, t, small, rfl, set⟩ := lowest_some found
  have inside : j < fit.length := by
    by_contra past
    rw [List.getD_eq_default _ _ (Nat.not_lt.mp past), BitVec.getLsbD_zero] at set
    cases set
  omega

/-- What a round says lies among the words it tests. -/
structure RoundBelow (maxLabel w0 : Nat) (found : Option Nat × Learning) : Prop where
  floors : found.2.floors.Below maxLabel
  slot : ∀ s, found.1 = some s → s < 64 * (w0 + CHUNK)

section Round

variable {o : Occupancy} {labels : List Nat} {rel : List (Nat × Nat)} {c0 w0 maxLabel : Nat}
  {mask0 : Word} {l : Learning}

theorem narrowWord_below {w r : Nat} {f : Word} (below : l.floors.Below maxLabel)
    (low : w < LAST + CHUNK) : (narrowWord o labels w r rel f l).2.floors.Below maxLabel := by
  induction rel generalizing r f l with
  | nil => exact below
  | cons q rel ih =>
      simp only [narrowWord]
      split
      · exact below
      · rename_i some_left
        have small := ctz_lt some_left
        refine ih ?_
        split
        · exact below.sawPair (by omega)
        · exact below

theorem sparseSearch_below {bits : List Nat} (low : w0 ≤ LAST) (few : ∀ j ∈ bits, j < CHUNK)
    (below : l.floors.Below maxLabel) :
    RoundBelow maxLabel w0 (sparseSearch o labels rel c0 w0 mask0 bits l) := by
  induction bits generalizing l with
  | nil => exact ⟨below, fun s found => by cases found⟩
  | cons j bits ih =>
      obtain ⟨jLow, few⟩ := List.forall_mem_cons.mp few
      simp only [sparseSearch]
      generalize (if j = 0 then o.candidates (w0 + j) c0 &&& mask0 else o.candidates (w0 + j) c0) = f
      split
      · exact ih few below
      · rename_i some_left
        have small := ctz_lt some_left
        have first : (l.sawFirst c0 (64 * (w0 + j) + f.ctz.toNat)).floors.Below maxLabel :=
          below.sawFirst (by omega) c0
        have narrowed : (narrowWord o labels (w0 + j) 0 rel f
            (l.sawFirst c0 (64 * (w0 + j) + f.ctz.toNat))).2.floors.Below maxLabel :=
          narrowWord_below first (by omega)
        split
        · rename_i some_fit
          have last := ctz_lt some_fit
          refine ⟨narrowed, fun s found => ?_⟩
          rw [← Option.some.inj found]
          omega
        · exact ih few narrowed

theorem narrowChunk_length {r : Nat} {fit : List Word} :
    (narrowChunk o labels w0 r rel fit l).1.length = fit.length := by
  induction rel generalizing r fit l with
  | nil => rfl
  | cons q rel ih =>
      simp only [narrowChunk]
      split
      · exact List.length_mapIdx
      · exact ih.trans List.length_mapIdx

theorem narrowChunk_below {r : Nat} {fit : List Word} (low : w0 ≤ LAST) (length : fit.length = CHUNK)
    (below : l.floors.Below maxLabel) :
    (narrowChunk o labels w0 r rel fit l).2.floors.Below maxLabel := by
  induction rel generalizing r fit l with
  | nil => exact below
  | cons q rel ih =>
      simp only [narrowChunk]
      split
      · exact below
      · refine ih (List.length_mapIdx.trans length) ?_
        split
        · refine below.sawPair ?_
          generalize mapped : fit.mapIdx _ = narrowed
          have size : narrowed.length = CHUNK := by rw [← mapped, List.length_mapIdx, length]
          cases found : lowest narrowed w0 with
          | none => exact show 0 < 64 * (LAST + CHUNK) by decide
          | some s =>
              have less := lowest_lt found
              rw [Option.getD_some]
              omega
        · exact below

theorem chunkSearch_below (low : w0 ≤ LAST) (below : l.floors.Below maxLabel) :
    RoundBelow maxLabel w0 (chunkSearch o labels rel c0 w0 mask0 l) := by
  have length : ((o.candidatesChunk w0 c0).modify 0 (· &&& mask0)).length = CHUNK := by
    rw [List.length_modify, Occupancy.candidatesChunk, List.length_map, List.length_range]
  rw [chunkSearch]
  generalize (o.candidatesChunk w0 c0).modify 0 (· &&& mask0) = fit at length
  have first : (l.sawLowest c0 (lowest fit w0)).floors.Below maxLabel := by
    cases found : lowest fit w0 with
    | none => exact below
    | some s =>
        have less := lowest_lt found
        exact below.sawFirst (by omega) c0
  refine ⟨narrowChunk_below low length first, fun s found => ?_⟩
  have less := lowest_lt found
  rwa [narrowChunk_length, length] at less

theorem openWords_lt {j : Nat} (member : j ∈ (o.openWords w0).ones) : j < CHUNK := by
  rw [Word.mem_ones, Occupancy.openWords, BitVec.getLsbD_and, BitVec.getLsbD_ushiftRight,
    BitVec.getLsbD_allOnes, Bool.and_eq_true, decide_eq_true_iff] at member
  rw [CHUNK] at *
  omega

theorem searchRound_below (low : w0 ≤ LAST) (below : l.floors.Below maxLabel) :
    RoundBelow maxLabel w0 (searchRound o labels rel c0 w0 mask0 l) := by
  simp only [searchRound]
  split
  · exact sparseSearch_below low (fun j member => openWords_lt member) below
  · exact chunkSearch_below low below

end Round

end Lexindex.DoubleArray
