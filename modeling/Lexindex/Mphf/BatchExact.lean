import Mathlib
import Lexindex.Mphf.BatchAgrees
import Lexindex.Mphf.Sound

/-!
# When the tabulated step is exact

`laterValue` moves a tabulated step from the shipped stride to the level's in a
64-bit word and adds it to the hash before the offset field is cut out;
`valueIn` cuts the field out first.  The word loses the top of the step on a long
enough slice, and the carry of the sum.  The two agree exactly when what is lost
is a multiple of the slice at the offset field.
-/

set_option autoImplicit false

namespace Lexindex.Mphf

/-- A seed's shift, moved up to its offset field at the level's stride, in full. -/
def Level.fullStep (l : Level) (seed : Nat) : Nat :=
  seed % 64 * 2 ^ (seedReadsField seed + l.shift)

/-- What the 64-bit word loses of the step and of its sum with the hash. -/
def Level.lostStep (l : Level) (h seed : Nat) : Nat :=
  let lost := l.fullStep seed / 2 ^ 62
  let kept := l.fullStep seed % 2 ^ 62
  (lost + if h + kept < 2 ^ 64 then 0 else 4) * 2 ^ 62

/-- The word keeps everything of a seed's step that a slice reads. -/
def Level.StepExact (l : Level) (h seed : Nat) : Prop :=
  l.slice * 2 ^ seedReadsField seed ∣ l.lostStep h seed

instance (l : Level) (h seed : Nat) : Decidable (l.StepExact h seed) := by
  unfold Level.StepExact
  infer_instance

theorem isPowerOfTwo_iff {x : Nat} : isPowerOfTwo x ↔ ∃ k, x = 2 ^ k := by
  constructor
  · rintro ⟨nonzero, masked⟩
    exact (Nat.and_sub_one_eq_zero_iff_isPowerOfTwo nonzero).mp masked
  · rintro ⟨k, rfl⟩
    refine ⟨(Nat.two_pow_pos k).ne', ?_⟩
    exact (Nat.and_sub_one_eq_zero_iff_isPowerOfTwo (Nat.two_pow_pos k).ne').mpr ⟨k, rfl⟩

theorem trailingZeros_two_pow {k : Nat} (small : k < 64) : trailingZeros (2 ^ k) = k := by
  have isolated : 2 ^ k &&& (2 ^ 64 - 2 ^ k) = 2 ^ k := by
    apply Nat.eq_of_testBit_eq
    intro i
    have split : 2 ^ 64 - 2 ^ k = 2 ^ k * (2 ^ (64 - k) - 1) := by
      rw [Nat.mul_sub, ← Nat.pow_add, Nat.add_sub_cancel' (Nat.le_of_lt small), Nat.mul_one]
    rw [Nat.testBit_and, Nat.testBit_two_pow, split, Nat.testBit_two_pow_mul,
      Nat.testBit_two_pow_sub_one]
    by_cases here : k = i
    · subst here
      simp
      omega
    · simp [here]
  rw [trailingZeros, isolated, Nat.log2_two_pow]

/-- The slice of a level under mode bits: as many strides as a mode has shifts. -/
theorem Level.Shaped.slice_eq {l : Level} (shape : l.Shaped) (modes : l.modeBits = shippedModeBits) :
    l.slice = 2 ^ (l.shift + 6) ∧ l.shift + 6 ≤ 62 := by
  obtain ⟨k, power⟩ := isPowerOfTwo_iff.mp shape.power
  have wide : l.slice >>> 6 ≠ 0 := by
    rcases shape.modeBits with none | ⟨_, wide⟩
    · rw [modes] at none
      cases none
    · exact wide
  have kLarge : 6 ≤ k := by
    by_contra narrow
    apply wide
    rw [power, Nat.shiftRight_eq_div_pow]
    apply Nat.div_eq_of_lt
    exact Nat.pow_lt_pow_right (by decide) (by omega)
  have kSmall : k ≤ 62 := by
    by_contra long
    have room := shape.room
    have sliceLe := shape.fits.sliceLe
    have big : 2 ^ 63 ≤ 2 ^ k := Nat.pow_le_pow_right (by decide) (by omega)
    rw [← power] at big
    omega
  have stride : strideFor l.slice l.modeBits = 2 ^ (k - 6) := by
    rw [strideFor, modes, if_neg (by decide), power, Nat.shiftRight_eq_div_pow]
    exact Nat.pow_div kLarge (by decide)
  have shift : l.shift = k - 6 := by
    rw [shape.shift, stride]
    exact trailingZeros_two_pow (by omega)
  rw [shift, power]
  exact ⟨by rw [Nat.sub_add_cancel kLarge], by omega⟩

theorem and_mask {x k : Nat} : x &&& (2 ^ k - 1) = x % 2 ^ k :=
  Nat.and_two_pow_sub_one_eq_mod x k

theorem seedReadsField_le {seed : Nat} (byte : seed < 256) : seedReadsField seed ≤ 24 := by
  have small : seed / 2 ^ 6 ≤ 3 := by omega
  rw [seedReadsField, Nat.shiftRight_eq_div_pow]
  simp only [shippedModeBits] at *
  omega

theorem seedReadsStep_eq (seed : Nat) :
    seedReadsStep seed = seed % 64 * 2 ^ (seedReadsField seed + 2) := by
  have shipped : Level.shippedForm.shift = 4 := by decide
  rw [seedReadsStep, and_mask, Nat.shiftLeft_eq, shipped]
  congr 2
  omega

theorem laterStep_eq {l : Level} (seed : Nat) :
    ((seedReadsStep seed <<< l.shift) % 2 ^ 64) >>> (Level.shippedForm.shift - 2) =
      l.fullStep seed % 2 ^ 62 := by
  have moved : seedReadsStep seed <<< l.shift = l.fullStep seed * 4 := by
    rw [seedReadsStep_eq, Nat.shiftLeft_eq, Level.fullStep, Nat.pow_add, Nat.pow_add]
    ring
  have down : Level.shippedForm.shift - 2 = 2 := by decide
  rw [moved, down, Nat.shiftRight_eq_div_pow]
  omega

theorem wrapped_add_inj {start n slice a b : Nat} (sliceLe : slice ≤ n)
    (aLt : a < slice) (bLt : b < slice) :
    wrapped (start + a) n = wrapped (start + b) n ↔ a = b := by
  unfold wrapped
  constructor
  · intro same
    split at same <;> split at same <;> omega
  · rintro rfl
    rfl

theorem add_mod_eq_self_iff {a d m : Nat} : (a + d) % m = a % m ↔ m ∣ d := by
  constructor
  · intro same
    have congruent : a + d ≡ a + 0 [MOD m] := same
    exact (Nat.modEq_zero_iff_dvd).mp (Nat.ModEq.add_left_cancel' a congruent)
  · rintro ⟨k, rfl⟩
    exact Nat.add_mul_mod_self_left a m k

/-- The two offsets of a key, cut out after the sum and before it, agree exactly
when what the word loses is a multiple of the slice at the field. -/
theorem offsets_agree_iff {h full field sliceBits : Nat} (word : h < 2 ^ 64) (fieldLe : field ≤ 62) :
    (h + full % 2 ^ 62) % 2 ^ 64 / 2 ^ field % 2 ^ sliceBits =
        (h + full) / 2 ^ field % 2 ^ sliceBits ↔
      2 ^ sliceBits * 2 ^ field ∣
        (full / 2 ^ 62 + if h + full % 2 ^ 62 < 2 ^ 64 then 0 else 4) * 2 ^ 62 := by
  generalize lostIs : (full / 2 ^ 62 + if h + full % 2 ^ 62 < 2 ^ 64 then 0 else 4) * 2 ^ 62 = lost
  have whole : h + full = (h + full % 2 ^ 62) % 2 ^ 64 + lost := by
    rw [← lostIs]
    split <;> omega
  obtain ⟨upper, lostField⟩ : 2 ^ field ∣ lost := by
    rw [← lostIs]
    exact Dvd.dvd.mul_left (Nat.pow_dvd_pow 2 fieldLe) _
  rw [whole, lostField, Nat.add_mul_div_left _ _ (Nat.two_pow_pos field), eq_comm,
    add_mod_eq_self_iff, Nat.mul_comm (2 ^ sliceBits)]
  exact (Nat.mul_dvd_mul_iff_left (Nat.two_pow_pos field)).symm

section Modes

variable {l : Level} (shape : l.Shaped) (modes : l.modeBits = shippedModeBits)
include shape modes

theorem Level.value_offset (h seed : Nat) :
    l.value h seed =
      wrapped (scale h l.n + (h + l.fullStep seed) / 2 ^ seedReadsField seed % l.slice) l.n := by
  obtain ⟨sliceEq, sliceSmall⟩ := shape.slice_eq modes
  have field : (if l.form.modeBits = shippedModeBits then seedReadsField seed
      else 8 * (seed >>> 6)) = seedReadsField seed := if_pos modes
  have bits : 8 - l.form.modeBits = 6 := by
    change 8 - l.modeBits = 6
    rw [modes]
    rfl
  have stepSmall : seed % 2 ^ 6 * 2 ^ l.shift < 2 ^ 62 := by
    calc
      seed % 2 ^ 6 * 2 ^ l.shift < 2 ^ 6 * 2 ^ l.shift :=
        Nat.mul_lt_mul_of_pos_right (Nat.mod_lt _ (by decide)) (Nat.two_pow_pos _)
      _ = 2 ^ (l.shift + 6) := by rw [Nat.pow_add, Nat.mul_comm]
      _ ≤ 2 ^ 62 := Nat.pow_le_pow_right (by decide) sliceSmall
  rw [Level.value, Level.valueIn]
  simp only [bits, field, and_mask]
  congr 2
  have shiftEq : l.form.shift = l.shift := rfl
  have maskEq : l.form.mask = 2 ^ (l.shift + 6) - 1 := by
    change l.slice - 1 = _
    rw [sliceEq]
  rw [maskEq, and_mask, shiftEq, Nat.shiftLeft_eq, Nat.shiftRight_eq_div_pow, sliceEq,
    Nat.mod_eq_of_lt (Nat.lt_trans stepSmall (by decide)),
    Nat.mod_mod_of_dvd _ (Nat.pow_dvd_pow 2 (by omega))]
  have atField : l.fullStep seed = 2 ^ seedReadsField seed * (seed % 64 * 2 ^ l.shift) := by
    rw [Level.fullStep, Nat.pow_add]
    ring
  rw [atField, Nat.add_mul_div_left _ _ (Nat.two_pow_pos _)]
  rfl

theorem Level.laterValue_offset (h seed : Nat) :
    l.laterValue h seed =
      wrapped (scale h l.n +
        (h + l.fullStep seed % 2 ^ 62) % 2 ^ 64 / 2 ^ seedReadsField seed % l.slice) l.n := by
  obtain ⟨sliceEq, _⟩ := shape.slice_eq modes
  rw [Level.laterValue, if_neg (by simp [modes])]
  rw [laterStep_eq, sliceEq]
  simp only [Nat.shiftRight_eq_div_pow, and_mask]

/-- The two spellings of a key's value agree exactly where the step is exact. -/
theorem Level.laterValue_eq_value_iff {h seed : Nat} (word : h < 2 ^ 64) (byte : seed < 256) :
    l.laterValue h seed = l.value h seed ↔ l.StepExact h seed := by
  obtain ⟨sliceEq, _⟩ := shape.slice_eq modes
  have fieldLe := seedReadsField_le byte
  rw [Level.laterValue_offset shape modes, Level.value_offset shape modes,
    wrapped_add_inj shape.fits.sliceLe
      (Nat.mod_lt _ shape.fits.slicePositive) (Nat.mod_lt _ shape.fits.slicePositive),
    sliceEq, offsets_agree_iff word (by omega), Level.StepExact, Level.lostStep, sliceEq]

end Modes

/-- On the slices a build lays out nothing is lost. -/
theorem Level.stepExact_of_short {l : Level} (shape : l.Shaped)
    (modes : l.modeBits = shippedModeBits) (short : l.shift ≤ 32) {h seed : Nat}
    (byte : seed < 256) : l.StepExact h seed := by
  obtain ⟨sliceEq, _⟩ := shape.slice_eq modes
  have fieldLe := seedReadsField_le byte
  have fullSmall : l.fullStep seed < 2 ^ 62 := by
    calc
      l.fullStep seed < 64 * 2 ^ (seedReadsField seed + l.shift) :=
        Nat.mul_lt_mul_of_pos_right (Nat.mod_lt _ (by decide)) (Nat.two_pow_pos _)
      _ = 2 ^ (seedReadsField seed + l.shift + 6) := by rw [Nat.pow_add _ _ 6, Nat.mul_comm]
      _ ≤ 2 ^ 62 := Nat.pow_le_pow_right (by decide) (by omega)
  have nothingLost : l.fullStep seed / 2 ^ 62 = 0 := Nat.div_eq_of_lt fullSmall
  rw [Level.StepExact, Level.lostStep, nothingLost, sliceEq, ← Nat.pow_add]
  apply Dvd.dvd.mul_left
  exact Nat.pow_dvd_pow 2 (by omega)

/-- On the shipped geometry the folded value is `laterValue`. -/
theorem Level.shippedValue_eq {l : Level} (shape : l.Shaped) (shipped : l.shipped = true)
    (h : Nat) {seed : Nat} (byte : seed < 256) : l.shippedValue h seed = l.laterValue h seed := by
  obtain ⟨modes, slice, shift⟩ := shape.shipped.mp shipped
  have shiftIs : Level.shippedForm.shift = 4 := by decide
  have stepSmall : seedReadsStep seed < 2 ^ 32 := by
    have fieldLe := seedReadsField_le byte
    calc
      seedReadsStep seed = seed % 64 * 2 ^ (seedReadsField seed + 2) := seedReadsStep_eq seed
      _ < 64 * 2 ^ (seedReadsField seed + 2) :=
        Nat.mul_lt_mul_of_pos_right (Nat.mod_lt _ (by decide)) (Nat.two_pow_pos _)
      _ = 2 ^ (seedReadsField seed + 2 + 6) := by rw [Nat.pow_add _ _ 6, Nat.mul_comm]
      _ ≤ 2 ^ 32 := Nat.pow_le_pow_right (by decide) (by omega)
  have moved : ((seedReadsStep seed <<< 4) % 2 ^ 64) >>> 2 = (seedReadsStep seed <<< 2) % 2 ^ 64 := by
    rw [Nat.shiftRight_eq_div_pow, Nat.shiftLeft_eq, Nat.shiftLeft_eq]
    omega
  rw [Level.shippedValue, Level.laterValue, if_neg (by simp [modes]), shift, shiftIs, slice]
  simp only [moved, Nat.reduceSub]

end Lexindex.Mphf

/-!
## When a batch is the single lookup

A batch reads the first level's value before the fold, the single lookup after
it.  They part only on a first level of another geometry than the shipped one,
long enough for the batch to leave the single lookup's loop, whose slices are too
long for the tabulated step.
-/

namespace Lexindex.Mphf

/-- Where a table's batch leaves the single lookup's loop on a level of another
geometry, the tabulated step of every key that level places is exact. -/
def V2.StepsExact (t : V2) : Prop :=
  ∀ l, t.otherFirst = some l → l.modeBits = shippedModeBits → prefetchSeeds ≤ l.seeds.length →
    ∀ h < 2 ^ 64, l.seedFor h ≠ 0 → l.StepExact h (l.seedFor h)

theorem Level.seedFor_lt (l : Level) (h : Nat) : l.seedFor h < 256 := by
  rw [Level.seedFor, Level.seedOf, Level.seedAt]
  cases l.seeds[bucketOf h l.buckets]? with
  | none => decide
  | some byte => exact byte.toNat_lt

/-- The single lookup of a sound table, read off its first level. -/
def V2.singleAnswer (t : V2) (l : Level) (h : Nat) : Nat :=
  if l.seedFor h = 0 then t.holeOf h else l.laterValue h (l.seedFor h)

theorem V2.Sound.first_cases {t : V2} (sound : t.Sound) :
    (t.first = none ∧ t.otherFirst = none) ∨
    (∃ l, t.first = some l ∧ t.placing = l ∧ l.Sound ∧ l.shipped = true ∧ t.otherFirst = none) ∨
    ∃ l, t.first = some l ∧ t.placing = Level.bumpingAll ∧ t.otherFirst = some l ∧ l.Sound ∧
      l.shipped = false := by
  rcases sound.placing with bumping | ⟨levelSound, covers, shipped, alone⟩
  · have first : t.first = t.otherFirst := by
      rw [V2.first, bumping]
      rfl
    cases other : t.otherFirst with
    | none => exact Or.inl ⟨first.trans other, rfl⟩
    | some l =>
        obtain ⟨levelSound, _, notShipped⟩ := sound.otherFirst l other
        exact Or.inr (Or.inr ⟨l, first.trans other, bumping, rfl, levelSound, notShipped⟩)
  · have positive := sound.positive
    have first : t.first = some t.placing := by
      rw [V2.first, if_neg (by omega)]
    exact Or.inr (Or.inl ⟨_, first, rfl, levelSound, shipped, alone⟩)

theorem V2.Sound.indexBumped_alone {t : V2} (sound : t.Sound) (alone : t.otherFirst = none)
    (h : Nat) : t.indexBumped h = some (t.holeOf h) := by
  rw [V2.indexBumped, alone, sound.current]
  exact sound.bumpedHole_eq h

theorem V2.Sound.index_placing {t : V2} (sound : t.Sound) {l : Level} (placing : t.placing = l)
    (levelSound : l.Sound) (shipped : l.shipped = true) (alone : t.otherFirst = none) {h : Nat}
    (word : h < 2 ^ 64) : t.index h = some (t.singleAnswer l h) := by
  rw [V2.index, placing, levelSound.seedOf_eq word, Option.bind_eq_bind, Option.bind_some,
    V2.singleAnswer]
  by_cases bumped : l.seedFor h = 0
  · rw [if_neg (not_not.mpr bumped), if_pos bumped]
    exact sound.indexBumped_alone alone h
  · rw [if_pos bumped, if_neg bumped, Option.pure_def,
      Level.shippedValue_eq levelSound.shape shipped h (l.seedFor_lt h)]

theorem V2.Sound.index_otherFirst {t : V2} (sound : t.Sound) {l : Level}
    (placing : t.placing = Level.bumpingAll) (other : t.otherFirst = some l) (levelSound : l.Sound)
    {h : Nat} (word : h < 2 ^ 64) : t.index h = some (t.singleAnswer l h) := by
  rw [V2.index, placing, Level.bumpingAll_seedOf word, Option.bind_eq_bind, Option.bind_some,
    if_neg (by decide), V2.indexBumped, other, V2.singleAnswer]
  simp only [levelSound.seedOf_eq word, Option.bind_eq_bind, Option.bind_some]
  by_cases bumped : l.seedFor h = 0
  · rw [if_neg (not_not.mpr bumped), if_pos bumped]
    exact sound.bumpedHole_eq h
  · rw [if_pos bumped, if_neg bumped]
    rfl

/-- On the shipped geometry a batch reads the shipped value by another spelling. -/
theorem batchAnswer_shipped (t : V2) {l : Level} (shape : l.Shaped) (shipped : l.shipped = true)
    {h : Nat} (word : h < 2 ^ 64) :
    batchAnswer t l Level.shippedForm h = t.singleAnswer l h := by
  obtain ⟨modes, slice, shift⟩ := shape.shipped.mp shipped
  have sameForm : Level.shippedForm = l.form := by
    rw [Level.form, modes, shift, slice]
    decide
  have short : l.shift ≤ 32 := by
    rw [shift]
    decide
  rw [batchAnswer, V2.singleAnswer, Level.answer, sameForm]
  by_cases bumped : l.seedFor h = 0
  · rw [if_pos bumped, if_pos bumped]
  · rw [if_neg bumped, if_neg bumped]
    exact ((Level.laterValue_eq_value_iff shape modes word (l.seedFor_lt h)).mpr
      (Level.stepExact_of_short shape modes short (l.seedFor_lt h))).symm

/-- On another geometry a batch agrees with the single lookup of a key exactly when
the level bumps it, has no mode bits, or the key's step is exact. -/
theorem batchAnswer_other_iff (t : V2) {l : Level} (shape : l.Shaped) {h : Nat}
    (word : h < 2 ^ 64) :
    batchAnswer t l l.form h = t.singleAnswer l h ↔
      (l.modeBits = shippedModeBits → l.seedFor h ≠ 0 → l.StepExact h (l.seedFor h)) := by
  rw [batchAnswer, V2.singleAnswer, Level.answer]
  by_cases bumped : l.seedFor h = 0
  · simp [bumped]
  · rw [if_neg bumped, if_neg bumped]
    by_cases modes : l.modeBits = shippedModeBits
    · rw [eq_comm]
      change l.laterValue h _ = l.value h _ ↔ _
      rw [Level.laterValue_eq_value_iff shape modes word (l.seedFor_lt h)]
      simp [modes, bumped]
    · have same : l.laterValue h (l.seedFor h) = l.value h (l.seedFor h) := by
        rw [Level.laterValue, if_pos modes]
      rw [same]
      simp [modes, Level.value]

/-- A batch is the single lookup in a loop, on every list of hashes, exactly when
the table's steps are exact. -/
theorem V2.Sound.indexAll_iff {t : V2} (sound : t.Sound) :
    (∀ hashes : List Nat, (∀ h ∈ hashes, h < 2 ^ 64) →
      t.indexAll hashes = hashes.mapM t.index) ↔ t.StepsExact := by
  rcases sound.first_cases with ⟨first, alone⟩ | ⟨l, first, placing, levelSound, shipped, alone⟩ |
    ⟨l, first, placing, other, levelSound, notShipped⟩
  · constructor
    · intro _ l other
      rw [alone] at other
      cases other
    · intro _ hashes _
      rw [V2.indexAll, V2.indexAllFrom, first]
  · constructor
    · intro _ l other
      rw [alone] at other
      cases other
    · intro _ hashes words
      have single : hashes.mapM t.index = some (hashes.map (t.singleAnswer l)) :=
        mapM_some fun h member =>
          sound.index_placing placing levelSound shipped alone (words h member)
      rw [V2.indexAll, V2.indexAllFrom, first, single]
      simp only [shipped, if_true]
      split
      · refine mapM_some fun h member => ?_
        rw [V2.shippedIndex, levelSound.seedOf_eq (words h member), Option.bind_eq_bind,
          Option.bind_some, V2.singleAnswer, sound.indexBumped_alone alone,
          Level.shippedValue_eq levelSound.shape shipped h (l.seedFor_lt h)]
        split <;> rfl
      · rw [batch_eq sound levelSound _ _ words]
        simp only [if_true]
        congr 1
        exact List.map_congr_left fun h member =>
          batchAnswer_shipped t levelSound.shape shipped (words h member)
  · have single : ∀ hashes : List Nat, (∀ h ∈ hashes, h < 2 ^ 64) →
        hashes.mapM t.index = some (hashes.map (t.singleAnswer l)) := fun hashes words =>
      mapM_some fun h member => sound.index_otherFirst placing other levelSound (words h member)
    have batched : prefetchSeeds ≤ l.seeds.length → ∀ hashes : List Nat,
        (∀ h ∈ hashes, h < 2 ^ 64) →
        t.indexAll hashes = some (hashes.map (batchAnswer t l l.form)) := by
      intro long hashes words
      rw [V2.indexAll, V2.indexAllFrom, first]
      simp only [if_neg (Nat.not_lt.mpr long)]
      rw [batch_eq sound levelSound _ _ words, notShipped]
      rfl
    constructor
    · intro agrees level otherLevel modes long h word placed
      rw [other] at otherLevel
      obtain rfl := Option.some.inj otherLevel
      have oneWord : ∀ key ∈ [h], key < 2 ^ 64 := by simpa using word
      have same := agrees [h] oneWord
      rw [batched long [h] oneWord, single [h] oneWord] at same
      have answers : batchAnswer t l l.form h = t.singleAnswer l h := by simpa using same
      exact (batchAnswer_other_iff t levelSound.shape word).mp answers modes placed
    · intro exact hashes words
      by_cases long : prefetchSeeds ≤ l.seeds.length
      · rw [batched long hashes words, single hashes words]
        congr 1
        refine List.map_congr_left fun h member => ?_
        refine (batchAnswer_other_iff t levelSound.shape (words h member)).mpr ?_
        intro modes placed
        exact exact l other modes long h (words h member) placed
      · rw [V2.indexAll, V2.indexAllFrom, first]
        simp only [if_pos (Nat.lt_of_not_le long), notShipped, Bool.false_eq_true, if_false]

end Lexindex.Mphf
