import Mathlib
import Lexindex.Mphf.Remap

/-!
# What a validated remap answers

The unchecked reads of `get` stand on the lengths and the samples alone: a
block's sample is the position of one of the stored stream's ones, and the
stream is held with a whole window of words after its last.
-/

set_option autoImplicit false

namespace Lexindex.Mphf.Remap

/-- The lengths and the samples `validate` checks before it reads an entry. -/
structure Laid (r : Remap) (u : Nat) : Prop where
  lengths : r.lengthsAgree u
  pass : r.passOver 0 (streamOnes r.storedHigh) = some r.len

theorem passOver_some {r : Remap} : ∀ {ones : List Nat} {first last : Nat},
    r.passOver first ones = some last →
      last = first + ones.length ∧
        ∀ i (inside : i < ones.length), r.oneAgrees (first + i) ones[i] := by
  intro ones
  induction ones with
  | nil =>
      intro first last passed
      simp only [passOver, Option.some.injEq] at passed
      exact ⟨by simpa using passed.symm, by intro i inside; simp at inside⟩
  | cons p rest ih =>
      intro first last passed
      rw [passOver] at passed
      split at passed
      · rename_i agrees
        obtain ⟨lastExact, later⟩ := ih passed
        refine ⟨by simp only [List.length_cons]; omega, ?_⟩
        intro i inside
        cases i with
        | zero => simpa using agrees
        | succ i =>
            have shifted := later i (by simpa using inside)
            simpa [Nat.add_assoc, Nat.add_comm 1 i] using shifted
      · simp at passed

theorem Laid.ones_length {r : Remap} {u : Nat} (laid : r.Laid u) :
    (streamOnes r.storedHigh).length = r.len := by
  have exact := (passOver_some laid.pass).1
  omega

theorem Laid.sample_exact {r : Remap} {u : Nat} (laid : r.Laid u) {j : Nat} (inside : j < r.len) :
    ∃ first, (streamOnes r.storedHigh)[j - j % block]? = some first ∧
      r.supers.getD (j / super) 0 + r.subs.getD (j / block) 0 = first := by
  have onesLength := laid.ones_length
  have headInside : j - j % block < (streamOnes r.storedHigh).length := by omega
  refine ⟨_, List.getElem?_eq_getElem headInside, ?_⟩
  obtain ⟨_, _, sampled⟩ := (passOver_some laid.pass).2 _ headInside
  have blockHead : (0 + (j - j % block)) % block = 0 := by
    simp only [block]
    omega
  have exact := (sampled blockHead).2
  have sameSuper : (0 + (j - j % block)) / super = j / super := by
    simp only [block, super]
    omega
  have sameBlock : (0 + (j - j % block)) / block = j / block := by
    simp only [block]
    omega
  rwa [sameSuper, sameBlock] at exact

theorem div_lt_divCeil {j len b : Nat} (positive : 0 < b) (inside : j < len) :
    j / b < divCeil len b :=
  lt_divCeil_of_mul_lt positive (Nat.lt_of_le_of_lt (Nat.mul_div_le j b) inside)

theorem Laid.supers_some {r : Remap} {u : Nat} (laid : r.Laid u) {j : Nat} (inside : j < r.len) :
    r.supers[j / super]? = some (r.supers.getD (j / super) 0) := by
  have counted := laid.lengths.2.2.2.1
  have bounded : j / super < r.supers.length := by
    rw [counted]
    exact div_lt_divCeil (by decide) inside
  rw [List.getD_eq_getElem _ _ bounded]
  exact List.getElem?_eq_getElem bounded

theorem Laid.subs_some {r : Remap} {u : Nat} (laid : r.Laid u) {j : Nat} (inside : j < r.len) :
    r.subs[j / block]? = some (r.subs.getD (j / block) 0) := by
  have counted := laid.lengths.2.2.2.2.1
  have bounded : j / block < r.subs.length := by
    rw [counted]
    exact div_lt_divCeil (by decide) inside
  rw [List.getD_eq_getElem _ _ bounded]
  exact List.getElem?_eq_getElem bounded

/-- The stream is held with a window of words after its stored part. -/
theorem Laid.held {r : Remap} {u : Nat} (laid : r.Laid u) (nonempty : 0 < r.len) :
    r.storedHigh.length + selectWords = r.high.length := by
  have agreed := laid.lengths.2.2.1
  rw [eq_comm, Option.bind_eq_some_iff] at agreed
  obtain ⟨stored, _, held⟩ := agreed
  rw [heldWords, if_neg (by omega), checkedAdd_eq_some] at held
  rw [storedHigh, List.length_take]
  omega

theorem window_some {r : Remap} {w : Nat} (inside : w + selectWords ≤ r.high.length) :
    r.window w = some ((r.high.drop w).take selectWords) := by
  rw [window, if_pos inside]

theorem window_length {r : Remap} {w : Nat} {words : List Word} (read : r.window w = some words) :
    words.length = selectWords := by
  rw [window] at read
  split at read
  · rename_i inside
    simp only [Option.some.injEq] at read
    rw [← read, List.length_take, List.length_drop]
    omega
  · simp at read

theorem selectFrom_some {r : Remap} {s : Nat} (inside : s / 64 + selectWords ≤ r.high.length)
    (skip : Nat) : ∃ p, r.selectFrom s skip = some p := by
  have read := window_some inside
  rw [selectFrom, read]
  simp only [Option.bind_eq_bind, Option.bind_some]
  split
  · generalize listed : (r.high.drop (s / 64)).take selectWords = words at read
    have wordsLength := window_length read
    have counted : ((List.range' 1 (selectWords - 1)).filter fun w =>
        decide (onesBefore (words.modify 0 (· &&& (BitVec.allOnes 64 <<< (s % 64)))) w ≤ skip)).length
          < (words.modify 0 (· &&& (BitVec.allOnes 64 <<< (s % 64)))).length := by
      rw [List.length_modify, wordsLength]
      refine Nat.lt_of_le_of_lt (List.length_filter_le _ _) ?_
      simp [selectWords]
    rw [List.getElem?_eq_getElem counted]
    exact ⟨_, rfl⟩
  · exact ⟨_, rfl⟩

theorem Laid.lowPart_some {r : Remap} {u : Nat} (laid : r.Laid u) {j : Nat} (inside : j < r.len) :
    ∃ low, r.lowPart j = some low := by
  rw [lowPart]
  split
  · exact ⟨0, rfl⟩
  · rename_i someBits
    have counted := laid.lengths.2.1
    rw [lowWords, eq_comm, Option.map_eq_some_iff] at counted
    obtain ⟨bits, product, wordsExact⟩ := counted
    obtain ⟨_, bitsExact⟩ := checkedMul_eq_some.mp product
    have lastBit : j * r.lowBits + r.lowBits ≤ bits := by
      rw [← bitsExact, ← Nat.succ_mul]
      exact Nat.mul_le_mul_right _ inside
    have firstWord : j * r.lowBits / 64 < r.low.length := by
      rw [← wordsExact]
      exact div_lt_divCeil (by decide) (by omega)
    simp only [List.getElem?_eq_getElem firstWord, Option.bind_eq_bind, Option.bind_some]
    split
    · rename_i straddles
      have nextWord : j * r.lowBits / 64 + 1 < r.low.length := by
        rw [← wordsExact]
        apply lt_divCeil_of_mul_lt (by decide)
        omega
      simp only [List.getElem?_eq_getElem nextWord, Option.bind_some, Option.pure_def]
      exact ⟨_, rfl⟩
    · exact ⟨_, rfl⟩

/-- Every read of an entry is inside its table. -/
theorem Laid.get_some {r : Remap} {u : Nat} (laid : r.Laid u) {j : Nat} (inside : j < r.len) :
    ∃ value, r.get j = some value := by
  obtain ⟨first, listed, sampled⟩ := laid.sample_exact inside
  have stored := streamOnes_lt (List.mem_of_getElem? listed)
  have held := laid.held (by omega)
  have windowInside : first / 64 + selectWords ≤ r.high.length := by omega
  obtain ⟨p, selected⟩ := selectFrom_some windowInside (j % block)
  obtain ⟨low, lowRead⟩ := laid.lowPart_some inside
  rw [get, if_neg (by omega), laid.supers_some inside, laid.subs_some inside]
  simp only [Option.bind_eq_bind, Option.bind_some, sampled, selected, lowRead, Option.pure_def]
  exact ⟨_, rfl⟩

theorem validate_laid {r : Remap} {u : Nat} (valid : r.validate u = true) : r.Laid u := by
  simp only [validate, Bool.and_eq_true, decide_eq_true_eq] at valid
  exact ⟨valid.1.1, valid.1.2⟩

/-- A validated remap answers every entry, unchecked reads and all, with a value
below `u`. -/
theorem validate_get {r : Remap} {u : Nat} (valid : r.validate u = true) {j : Nat}
    (inside : j < r.len) : ∃ value, r.get j = some value ∧ value < u := by
  obtain ⟨value, read⟩ := (validate_laid valid).get_some inside
  refine ⟨value, read, ?_⟩
  simp only [validate, Bool.and_eq_true, List.all_eq_true, List.mem_range] at valid
  have bounded := valid.2 j inside
  simpa [read] using bounded

end Lexindex.Mphf.Remap
