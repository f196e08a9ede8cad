import Mathlib
import Lexindex.Mphf.Feed
import Lexindex.Mphf.BatchExact

/-!
# The chunks of a level

The chunks tile the level: each starts where the one before it ends, and where there
are two or more, each holds at least as many buckets as the smallest.  The table of
a level's chunks names the one chunk a bucket is in.
-/

set_option autoImplicit false

namespace Lexindex.Mphf

/-- Starts that follow `at_`, each a floor past the one before, and the level's end too. -/
def Spaced (floor buckets : Nat) : Nat → List Nat → Prop
  | at_, [] => at_ + floor ≤ buckets
  | at_, s :: rest => at_ + floor ≤ s ∧ Spaced floor buckets s rest

theorem Spaced.append {floor buckets : Nat} {later : List Nat} :
    ∀ {earlier : List Nat} {at_ : Nat}, Spaced floor buckets at_ earlier →
      (later ≠ [] → Spaced floor buckets (earlier.getLastD at_) later) →
      Spaced floor buckets at_ (earlier ++ later) := by
  intro earlier
  induction earlier with
  | nil =>
      intro at_ spaced more
      cases later with
      | nil => exact spaced
      | cons s rest => exact more (by simp)
  | cons s rest ih =>
      intro at_ spaced more
      refine ⟨spaced.1, ih spaced.2 ?_⟩
      intro nonempty
      have continued := more nonempty
      rwa [List.getLastD_cons] at continued

theorem cutWhile_spaced {buckets room size floor : Nat} (floorLe : floor ≤ size)
    (roomIs : size + floor ≤ room) :
    ∀ at_, cutWhile buckets room size at_ = [] ∨
      Spaced floor buckets at_ (cutWhile buckets room size at_) := by
  intro at_
  induction at_ using cutWhile.induct buckets room size with
  | case1 at_ more ih =>
      right
      rw [cutWhile, if_pos more]
      refine ⟨by omega, ?_⟩
      rcases ih with none | spaced
      · rw [none]
        change at_ + size + floor ≤ buckets
        omega
      · exact spaced
  | case2 at_ stop =>
      left
      rw [cutWhile, if_neg stop]

theorem chunkStarts_cons (buckets : Nat) (deep : Bool) :
    ∃ rest, chunkStarts buckets deep = 0 :: rest ∧
      (rest = [] ∨ Spaced minChunk buckets 0 rest) := by
  unfold chunkStarts
  split
  · refine ⟨_, rfl, cutWhile_spaced ?_ ?_ 0⟩ <;>
      split <;> simp only [minChunk, pieceFloor, chunkLength, pieces] <;> omega
  · next large =>
    refine ⟨_, rfl, ?_⟩
    have whole := @cutWhile_spaced buckets (3 * chunkLength) chunkLength minChunk (by decide)
      (by decide) 0
    have tail := @cutWhile_spaced buckets (2 * (2 * chunkLength / pieces)) (2 * chunkLength / pieces)
      minChunk (by decide) (by decide)
      ((0 :: cutWhile buckets (3 * chunkLength) chunkLength 0).getLastD 0)
    right
    rcases whole with none | spaced
    · exfalso
      rw [cutWhile] at none
      rw [not_or, Nat.not_lt] at large
      have more : 0 < chunkLength ∧ 3 * chunkLength ≤ buckets - 0 ∧ 0 < buckets := by
        simp only [chunkLength] at *
        omega
      rw [if_pos more] at none
      cases none
    · apply spaced.append
      intro nonempty
      rw [List.getLastD_cons] at tail nonempty ⊢
      rcases tail with none | tailSpaced
      · exact absurd none nonempty
      · exact tailSpaced

/-! ## Reading the chunks -/

/-- The first bucket of chunk `k`. -/
def firstOf (starts : List Nat) (k : Nat) : Nat :=
  starts.getD k 0

/-- The bucket after the last of chunk `k`. -/
def endOf (starts : List Nat) (buckets k : Nat) : Nat :=
  starts.getD (k + 1) buckets

/-- Chunks that tile a level. -/
structure Tiled (starts : List Nat) (buckets : Nat) : Prop where
  some_ : 0 < starts.length
  first : firstOf starts 0 = 0
  meets : ∀ k, k + 1 < starts.length → endOf starts buckets k = firstOf starts (k + 1)
  last : endOf starts buckets (starts.length - 1) = buckets
  least : ∀ k < starts.length, 1 < starts.length →
    firstOf starts k + minChunk ≤ endOf starts buckets k
  nonempty : ∀ k < starts.length, firstOf starts k < endOf starts buckets k
  inside : ∀ k < starts.length, endOf starts buckets k ≤ buckets

theorem Spaced.read {floor buckets : Nat} :
    ∀ {rest : List Nat} {at_ : Nat}, Spaced floor buckets at_ rest →
      ∀ k ≤ rest.length, firstOf (at_ :: rest) k + floor ≤ endOf (at_ :: rest) buckets k ∧
        endOf (at_ :: rest) buckets k ≤ buckets := by
  intro rest
  induction rest with
  | nil =>
      intro at_ spaced k le
      obtain rfl : k = 0 := by simpa using le
      exact ⟨spaced, Nat.le_refl _⟩
  | cons s rest ih =>
      intro at_ spaced k le
      cases k with
      | zero =>
          refine ⟨spaced.1, ?_⟩
          have next := ih spaced.2 0 (Nat.zero_le _)
          have sIs : firstOf (s :: rest) 0 = s := rfl
          change s ≤ buckets
          omega
      | succ k => exact ih spaced.2 k (by simpa using le)

theorem chunkStarts_tiled {buckets : Nat} (positive : 0 < buckets) (deep : Bool) :
    Tiled (chunkStarts buckets deep) buckets := by
  obtain ⟨rest, startsAre, spaced⟩ := chunkStarts_cons buckets deep
  rw [startsAre]
  have lastIs : endOf (0 :: rest) buckets ((0 :: rest).length - 1) = buckets := by
    rw [endOf, List.getD_eq_getElem?_getD, List.getElem?_eq_none (by simp)]
    rfl
  have meets : ∀ k, k + 1 < (0 :: rest).length →
      endOf (0 :: rest) buckets k = firstOf (0 :: rest) (k + 1) := by
    intro k inside
    rw [endOf, firstOf, List.getD_eq_getElem?_getD, List.getD_eq_getElem?_getD,
      List.getElem?_eq_getElem inside]
    rfl
  rcases spaced with none | spaced
  · subst none
    refine ⟨by simp, rfl, meets, lastIs, ?_, ?_, ?_⟩
    · intro k _ two
      simp at two
    · intro k kLt
      obtain rfl : k = 0 := by simpa using kLt
      exact positive
    · intro k kLt
      obtain rfl : k = 0 := by simpa using kLt
      exact Nat.le_refl _
  · have read := fun k (kLt : k < (0 :: rest).length) =>
      spaced.read k (by simp only [List.length_cons] at kLt; omega)
    refine ⟨by simp, rfl, meets, lastIs, ?_, ?_, ?_⟩
    · intro k kLt _
      exact (read k kLt).1
    · intro k kLt
      have spacing := (read k kLt).1
      simp only [minChunk] at spacing
      omega
    · intro k kLt
      exact (read k kLt).2

namespace Tiled

variable {starts : List Nat} {buckets : Nat} (tiled : Tiled starts buckets)
include tiled

theorem first_mono {j k : Nat} (le : j ≤ k) (kLt : k < starts.length) :
    firstOf starts j ≤ firstOf starts k := by
  induction k with
  | zero =>
      obtain rfl : j = 0 := by omega
      exact Nat.le_refl _
  | succ k ih =>
      by_cases here : j = k + 1
      · rw [here]
      · have earlier := ih (by omega) (by omega)
        have spacing := tiled.nonempty k (by omega)
        rw [tiled.meets k kLt] at spacing
        omega

theorem end_le_first {j k : Nat} (lt : j < k) (kLt : k < starts.length) :
    endOf starts buckets j ≤ firstOf starts k := by
  rw [tiled.meets j (by omega)]
  exact tiled.first_mono lt kLt

/-- Every bucket is in a chunk. -/
theorem covers {b : Nat} (bLt : b < buckets) :
    ∃ k < starts.length, firstOf starts k ≤ b ∧ b < endOf starts buckets k := by
  have upTo : ∀ count, 0 < count → count ≤ starts.length →
      b < endOf starts buckets (count - 1) →
      ∃ k < starts.length, firstOf starts k ≤ b ∧ b < endOf starts buckets k := by
    intro count
    induction count with
    | zero =>
        intro positive
        exact absurd positive (Nat.lt_irrefl 0)
    | succ count ih =>
        intro _ le below
        rw [Nat.add_sub_cancel] at below
        by_cases here : firstOf starts count ≤ b
        · exact ⟨count, by omega, here, below⟩
        · have earlier : 0 < count := by
            by_contra zero
            obtain rfl : count = 0 := by omega
            rw [tiled.first] at here
            omega
          apply ih earlier (by omega)
          have meets := tiled.meets (count - 1) (by omega)
          rw [Nat.sub_add_cancel earlier] at meets
          omega
  apply upTo starts.length tiled.some_ (Nat.le_refl _)
  rw [tiled.last]
  exact bLt

theorem chunk_unique {b j k : Nat} (jLt : j < starts.length) (kLt : k < starts.length)
    (inJ : firstOf starts j ≤ b ∧ b < endOf starts buckets j)
    (inK : firstOf starts k ≤ b ∧ b < endOf starts buckets k) : j = k := by
  by_contra apart
  rcases Nat.lt_or_gt_of_ne apart with lt | gt
  · have le := tiled.end_le_first lt kLt
    omega
  · have le := tiled.end_le_first gt jLt
    omega

end Tiled

theorem chunkBuckets_eq (starts : List Nat) (buckets k : Nat) :
    chunkBuckets starts buckets k = endOf starts buckets k - firstOf starts k := rfl

/-! ## The table of a level's chunks -/

theorem trailingZeros_dvd {x : Nat} (positive : 0 < x) (word : x < 2 ^ 64) :
    2 ^ trailingZeros x ∣ x := by
  obtain ⟨k, m, odd, xIs⟩ := Nat.exists_eq_two_pow_mul_odd positive.ne'
  obtain ⟨half, rfl⟩ := odd
  have powPositive : 0 < 2 ^ k := Nat.two_pow_pos k
  have lowest : x &&& (2 ^ 64 - x) = 2 ^ k := by
    apply Nat.eq_of_testBit_eq
    intro i
    have whole : x = 2 ^ k * (2 * half + 1) + 0 := xIs
    have less : x - 1 = 2 ^ k * (2 * half) + (2 ^ k - 1) := by
      rw [xIs, Nat.mul_add]
      omega
    have complement : 2 ^ 64 - x = 2 ^ 64 - (x - 1 + 1) := by rw [Nat.sub_add_cancel positive]
    rw [Nat.testBit_and, complement, Nat.testBit_two_pow_sub_succ (by omega), less,
      Nat.testBit_two_pow_mul_add _ (Nat.sub_lt powPositive Nat.one_pos), whole,
      Nat.testBit_two_pow_mul_add _ powPositive, Nat.testBit_two_pow]
    by_cases under : i < k
    · have apart : ¬ k = i := by omega
      simp [under, apart]
    · rw [if_neg under, if_neg under]
      by_cases here : i = k
      · subst here
        have inWord : i < 64 := by
          by_contra large
          have big : 2 ^ 64 ≤ 2 ^ i := Nat.pow_le_pow_right (by decide) (by omega)
          have least : 2 ^ i ≤ x := by
            rw [xIs]
            exact Nat.le_mul_of_pos_right _ (by omega)
          omega
        simp [inWord]
      · obtain ⟨d, rfl⟩ : ∃ d, i = k + (d + 1) := ⟨i - k - 1, by omega⟩
        have index : k + (d + 1) - k = d + 1 := by omega
        have halves : (2 * half + 1) / 2 = 2 * half / 2 := by omega
        rw [index, Nat.testBit_succ, Nat.testBit_succ, halves]
        cases (2 * half / 2).testBit d <;> simp
  rw [trailingZeros, lowest, Nat.log2_two_pow, xIs]
  exact Nat.dvd_mul_right ..

namespace ChunkOf

theorem skipTo_spec (starts : List Nat) (bucket : Nat) :
    ∀ k, k < starts.length → starts.getD k 0 ≤ bucket →
      skipTo starts bucket k < starts.length ∧ k ≤ skipTo starts bucket k ∧
        starts.getD (skipTo starts bucket k) 0 ≤ bucket ∧
        ∀ s, starts[skipTo starts bucket k + 1]? = some s → bucket < s := by
  intro k
  induction k using skipTo.induct starts bucket with
  | case1 k more ih =>
      intro _ _
      rw [skipTo, if_pos more]
      cases listed : starts[k + 1]? with
      | none => simp [listed] at more
      | some s =>
          rw [listed, Option.any_some, decide_eq_true_eq] at more
          have inside := (List.getElem?_eq_some_iff.mp listed).1
          have read : starts.getD (k + 1) 0 ≤ bucket := by
            rw [List.getD_eq_getElem?_getD, listed]
            exact more
          obtain ⟨small, above, below, next⟩ := ih inside read
          exact ⟨small, by omega, below, next⟩
  | case2 k stop =>
      intro kLt read
      rw [skipTo, if_neg stop]
      refine ⟨kLt, Nat.le_refl _, read, ?_⟩
      intro s listed
      rw [listed, Option.any_some, decide_eq_true_eq] at stop
      omega

theorem fill_spec {starts : List Nat} {shift : Nat} :
    ∀ (count i k : Nat), k < starts.length → starts.getD k 0 ≤ i <<< shift →
      ∀ j < count, ∃ c, (fill starts shift count i k)[j]? = some c ∧ c < starts.length ∧
        starts.getD c 0 ≤ (i + j) <<< shift ∧
        ∀ s, starts[c + 1]? = some s → (i + j) <<< shift < s := by
  intro count
  induction count with
  | zero =>
      intro i k _ _ j jLt
      exact absurd jLt (Nat.not_lt_zero j)
  | succ count ih =>
      intro i k kLt read j jLt
      obtain ⟨small, _, below, next⟩ := skipTo_spec starts (i <<< shift) k kLt read
      rw [fill]
      cases j with
      | zero => exact ⟨_, rfl, small, below, next⟩
      | succ j =>
          have stepUp : i <<< shift ≤ (i + 1) <<< shift := by
            rw [Nat.shiftLeft_eq, Nat.shiftLeft_eq]
            exact Nat.mul_le_mul_right _ (Nat.le_succ i)
          obtain ⟨c, listed, cLt, cBelow, cNext⟩ :=
            ih (i + 1) _ small (Nat.le_trans below stepUp) j (by omega)
          have index : i + 1 + j = i + (j + 1) := by omega
          rw [index] at cBelow cNext
          exact ⟨c, listed, cLt, cBelow, cNext⟩

theorem new_dvd {starts : List Nat} {buckets k : Nat} (tiled : Tiled starts buckets)
    (word : buckets < 2 ^ 64) (kLt : k < starts.length) :
    2 ^ (new starts buckets).shift ∣ firstOf starts k := by
  cases k with
  | zero =>
      rw [tiled.first]
      exact Nat.dvd_zero _
  | succ k =>
      have positive : 0 < firstOf starts (k + 1) := by
        have spacing := tiled.nonempty k (by omega)
        rw [tiled.meets k kLt] at spacing
        omega
      have small : firstOf starts (k + 1) < 2 ^ 64 := by
        have spacing := tiled.nonempty (k + 1) kLt
        have inside := tiled.inside (k + 1) kLt
        omega
      have member : trailingZeros (firstOf starts (k + 1)) ∈
          (starts.drop 1).map trailingZeros := by
        apply List.mem_map_of_mem
        rw [firstOf, List.getD_eq_getElem?_getD, List.getElem?_eq_getElem kLt, Option.getD_some]
        refine @List.mem_of_getElem? _ _ k _ ?_
        rw [List.getElem?_drop, Nat.add_comm, List.getElem?_eq_getElem kLt]
      have shiftLe : (new starts buckets).shift ≤ trailingZeros (firstOf starts (k + 1)) := by
        change min (((starts.drop 1).map trailingZeros).min?.getD 16) 16 ≤ _
        refine Nat.le_trans (Nat.min_le_left _ _) ?_
        cases least : ((starts.drop 1).map trailingZeros).min? with
        | none =>
            rw [List.min?_eq_none_iff] at least
            rw [least] at member
            cases member
        | some m => exact (List.min?_eq_some_iff.mp least).2 _ member
      exact Nat.dvd_trans (Nat.pow_dvd_pow 2 shiftLe) (trailingZeros_dvd positive small)

/-- The table names the chunk a bucket is in. -/
theorem of_spec {starts : List Nat} {buckets b : Nat} (tiled : Tiled starts buckets)
    (word : buckets < 2 ^ 64) (bLt : b < buckets) :
    (new starts buckets).of b < starts.length ∧
      firstOf starts ((new starts buckets).of b) ≤ b ∧
      b < endOf starts buckets ((new starts buckets).of b) := by
  let shift := (new starts buckets).shift
  have powPositive : 0 < 2 ^ shift := Nat.two_pow_pos _
  have entry : b >>> shift < divCeil buckets (2 ^ shift) := by
    apply lt_divCeil_of_mul_lt powPositive
    rw [Nat.shiftRight_eq_div_pow]
    exact Nat.lt_of_le_of_lt (Nat.mul_div_le b _) bLt
  have zeroRead : starts.getD 0 0 ≤ 0 <<< shift := by
    have first := tiled.first
    rw [firstOf] at first
    rw [first]
    exact Nat.zero_le _
  obtain ⟨c, listed, cLt, below, next⟩ :=
    fill_spec (divCeil buckets (2 ^ shift)) 0 0 tiled.some_ zeroRead (b >>> shift) entry
  have ofIs : (new starts buckets).of b = c := by
    change (fill starts shift (divCeil buckets (2 ^ shift)) 0 0).getD (b >>> shift) 0 = c
    rw [List.getD_eq_getElem?_getD, listed]
    rfl
  rw [Nat.zero_add, Nat.shiftLeft_eq, Nat.shiftRight_eq_div_pow] at below next
  rw [ofIs]
  have round : b / 2 ^ shift * 2 ^ shift ≤ b := Nat.div_mul_le_self b _
  refine ⟨cLt, Nat.le_trans below round, ?_⟩
  by_cases last : c + 1 < starts.length
  · rw [tiled.meets c last]
    have above := next _ (List.getElem?_eq_getElem last)
    have firstIs : starts[c + 1] = firstOf starts (c + 1) := by
      rw [firstOf, List.getD_eq_getElem?_getD, List.getElem?_eq_getElem last]
      rfl
    rw [firstIs] at above
    obtain ⟨q, whole⟩ := new_dvd tiled word last
    change firstOf starts (c + 1) = 2 ^ shift * q at whole
    rw [whole, Nat.mul_comm] at above ⊢
    rw [Nat.mul_lt_mul_left powPositive] at above
    rw [← Nat.div_lt_iff_lt_mul powPositive]
    exact above
  · have lastIs : c = starts.length - 1 := by omega
    rw [lastIs, tiled.last]
    exact bLt

/-- A bucket of a chunk is in it by the table too. -/
theorem of_eq_iff {starts : List Nat} {buckets b k : Nat} (tiled : Tiled starts buckets)
    (word : buckets < 2 ^ 64) (bLt : b < buckets) (kLt : k < starts.length) :
    (new starts buckets).of b = k ↔ firstOf starts k ≤ b ∧ b < endOf starts buckets k := by
  obtain ⟨small, below, above⟩ := of_spec tiled word bLt
  constructor
  · rintro rfl
    exact ⟨below, above⟩
  · intro inK
    exact tiled.chunk_unique small kLt ⟨below, above⟩ inK

end ChunkOf

end Lexindex.Mphf
