import Mathlib
import Lexindex.Mphf.SeedSound
import Lexindex.Mphf.Lanes

/-!
# The least candidate

Both searches keep the lowest of the same keys: a candidate is the first shift a mode leaves open at or
after a wrap, and its key is its score with its mode and shift below.  The scan skips a shift whose score
is no lower than the best without asking whether its values meet, which loses nothing: scores only grow
up to the next wrap.  The lanes mark every candidate of a mode by one addition.
-/

set_option autoImplicit false

namespace Lexindex.Mphf

/-- The least number of a set, none of an empty one. -/
structure LeastOf (s : Nat → Prop) (o : Option Nat) : Prop where
  held : ∀ k, o = some k → s k
  least : ∀ k, s k → ∃ k', o = some k' ∧ k' ≤ k

namespace LeastOf

variable {s t : Nat → Prop} {o o' : Option Nat}

theorem unique (one : LeastOf s o) (other : LeastOf s o') : o = o' := by
  cases o with
  | none =>
      cases o' with
      | none => rfl
      | some k =>
          obtain ⟨k', found, -⟩ := one.least k (other.held k rfl)
          cases found
  | some k =>
      obtain ⟨k', rfl, below⟩ := other.least k (one.held k rfl)
      obtain ⟨k'', same, above⟩ := one.least k' (other.held k' rfl)
      rw [Option.some.injEq] at same ⊢
      omega

/-- Numbers that are no less than one of the set add nothing. -/
theorem widen (one : LeastOf s o) (more : ∀ k, s k → t k)
    (covered : ∀ k, t k → ∃ k', s k' ∧ k' ≤ k) : LeastOf t o := by
  refine ⟨fun k found => more k (one.held k found), ?_⟩
  intro k held
  obtain ⟨k', member, below⟩ := covered k held
  obtain ⟨k'', found, lower⟩ := one.least k' member
  exact ⟨k'', found, Nat.le_trans lower below⟩

theorem congr (one : LeastOf s o) (same : ∀ k, s k ↔ t k) : LeastOf t o :=
  one.widen (fun k => (same k).mp) fun k held => ⟨k, (same k).mpr held, Nat.le_refl k⟩

end LeastOf

/-- The first shift a mode leaves open at or after `c`. -/
structure FirstFrom (isOpen : Nat → Prop) (c t : Nat) : Prop where
  after : c ≤ t
  small : t < 64
  here : isOpen t
  first : ∀ s, c ≤ s → s < t → ¬ isOpen s

theorem FirstFrom.unique {isOpen : Nat → Prop} {c t t' : Nat} (one : FirstFrom isOpen c t)
    (other : FirstFrom isOpen c t') : t = t' := by
  rcases Nat.lt_trichotomy t t' with below | same | above
  · exact absurd one.here (other.first t one.after below)
  · exact same
  · exact absurd other.here (one.first t' other.after above)

/-! ## The candidates the lanes mark -/

/-- A seed's score, mode and shift as one number. -/
def Best.key (b : Best) : Nat :=
  b.score * 2 ^ 8 + b.mode * 2 ^ 6 + b.shift

theorem countOnes_mono {x y : Word} (less : ∀ i, y.getLsbD i = true → x.getLsbD i = true) :
    y.countOnes ≤ x.countOnes := by
  have distinct : y.ones.Nodup := y.ones_sorted.imp Nat.ne_of_lt
  refine (distinct.subperm ?_).length_le
  intro j member
  exact Word.mem_ones.mpr (less j (Word.mem_ones.mp member))

theorem countOnes_lt {x y : Word} (less : ∀ i, y.getLsbD i = true → x.getLsbD i = true) {i : Nat}
    (set : x.getLsbD i = true) (unset : y.getLsbD i = false) : y.countOnes < x.countOnes := by
  have distinct : (i :: y.ones).Nodup := by
    rw [List.nodup_cons, Word.mem_ones, unset]
    exact ⟨Bool.false_ne_true, y.ones_sorted.imp Nat.ne_of_lt⟩
  have within : i :: y.ones ⊆ x.ones := by
    intro j member
    rw [Word.mem_ones]
    rcases List.mem_cons.mp member with rfl | later
    · exact set
    · exact less j (Word.mem_ones.mp later)
  exact (distinct.subperm within).length_le

section Scan

variable {scoreAt : Nat → Nat} {meet : Nat → Bool} {mode : Nat} {ruled marks : Word}

/-- The shifts a mode leaves open: not ruled out, and no two values meet. -/
def OpenAt (ruled : Word) (meet : Nat → Bool) (t : Nat) : Prop :=
  ruled.getLsbD t = false ∧ meet t = false

/-- The keys left to a scan: the best so far, and the candidates of the wraps from `a` on. -/
def Remaining (scoreAt : Nat → Nat) (meet : Nat → Bool) (mode : Nat) (ruled marks : Word) (a : Nat)
    (best : Option Best) (k : Nat) : Prop :=
  (∃ b, best = some b ∧ k = b.key) ∨ ∃ c t, a ≤ c ∧ marks.getLsbD c = true ∧
    FirstFrom (OpenAt ruled meet) c t ∧ k = scoreAt t * 2 ^ 8 + mode * 2 ^ 6 + t

/-- Where a scan is: the wraps from `a` on are left, and nothing open is struck out. -/
structure Scanning (meet : Nat → Bool) (mode : Nat) (ruled marks : Word) (a : Nat) (u wraps : Word)
    (best : Option Best) : Prop where
  left : ∀ c, wraps.getLsbD c = true ↔ marks.getLsbD c = true ∧ a ≤ c
  struck : ∀ t, u.getLsbD t = true → ¬ OpenAt ruled meet t
  within : ∀ t, ruled.getLsbD t = true → u.getLsbD t = true
  before : ∀ b, best = some b → b.shift < 64 ∧ (b.mode < mode ∨
    b.mode = mode ∧ ∀ t, a ≤ t → u.getLsbD t = false → b.shift ≤ t)

theorem leastOf_best (best : Option Best) {a : Nat}
    (none_ : ∀ c t, a ≤ c → marks.getLsbD c = true → ¬ FirstFrom (OpenAt ruled meet) c t) :
    LeastOf (Remaining scoreAt meet mode ruled marks a best) (best.map Best.key) := by
  constructor
  · intro k found
    rw [Option.map_eq_some_iff] at found
    obtain ⟨b, isBest, same⟩ := found
    exact .inl ⟨b, isBest, same.symm⟩
  · rintro k (⟨b, rfl, rfl⟩ | ⟨c, t, above, mark, first, -⟩)
    · exact ⟨b.key, rfl, Nat.le_refl _⟩
    · exact absurd first (none_ c t above mark)

namespace Scanning

variable {a : Nat} {u wraps : Word} {best : Option Best}

/-- No candidate is left once no wrap is. -/
theorem none_left (scanning : Scanning meet mode ruled marks a u wraps best)
    (empty : ∀ c, wraps.getLsbD c = false) :
    LeastOf (Remaining scoreAt meet mode ruled marks a best) (best.map Best.key) := by
  apply leastOf_best
  intro c t above mark _
  have bit := (scanning.left c).mpr ⟨mark, above⟩
  rw [empty c] at bit
  cases bit

/-- The shifts that are not struck out at or after the lowest wrap. -/
theorem free_bit (u wraps : Word) (t : Nat) :
    (~~~u &&& (BitVec.allOnes 64 <<< wraps.ctz.toNat)).getLsbD t = true ↔
      t < 64 ∧ u.getLsbD t = false ∧ wraps.ctz.toNat ≤ t := by
  rw [BitVec.getLsbD_and, BitVec.getLsbD_not, BitVec.getLsbD_shiftLeft, BitVec.getLsbD_allOnes]
  by_cases small : t < 64
  · by_cases above : wraps.ctz.toNat ≤ t
    · have less : t - wraps.ctz.toNat < 64 := by omega
      simp [small, above, less]
    · simp [small, above]
  · simp [small]

/-- The shift a scan comes to at its lowest wrap: everything open before it is struck out. -/
theorem reached (some_ : ~~~u &&& (BitVec.allOnes 64 <<< wraps.ctz.toNat) ≠ 0#64) :
    FirstFrom (fun t => u.getLsbD t = false) wraps.ctz.toNat
      (~~~u &&& (BitVec.allOnes 64 <<< wraps.ctz.toNat)).ctz.toNat := by
  obtain ⟨small, unset, above⟩ := (free_bit u wraps _).mp (BitVec.getLsbD_true_ctz_of_ne_zero some_)
  refine ⟨above, small, unset, ?_⟩
  intro s after less open_
  have skipped : (~~~u &&& (BitVec.allOnes 64 <<< wraps.ctz.toNat)).getLsbD s = false :=
    BitVec.getLsbD_false_of_lt_ctz less
  rw [(free_bit u wraps s).mpr ⟨by omega, open_, after⟩] at skipped
  cases skipped

theorem none_free (scanning : Scanning meet mode ruled marks a u wraps best)
    (full : ~~~u &&& (BitVec.allOnes 64 <<< wraps.ctz.toNat) = 0#64) :
    LeastOf (Remaining scoreAt meet mode ruled marks a best) (best.map Best.key) := by
  apply leastOf_best
  intro c t above mark first
  have bit := (scanning.left c).mpr ⟨mark, above⟩
  have least : wraps.ctz.toNat ≤ c := by
    by_contra below
    rw [BitVec.getLsbD_false_of_lt_ctz (by omega)] at bit
    cases bit
  have after := first.after
  cases set : u.getLsbD t with
  | true => exact scanning.struck t set first.here
  | false =>
      have free := (free_bit u wraps t).mpr ⟨first.small, set, by omega⟩
      rw [full, BitVec.getLsbD_zero] at free
      cases free

/-- The wraps left once the lowest is done. -/
theorem left_rest (scanning : Scanning meet mode ruled marks a u wraps best)
    (nonzero : wraps ≠ 0#64) (c : Nat) : (wraps &&& (wraps - 1#64)).getLsbD c = true ↔
      marks.getLsbD c = true ∧ wraps.ctz.toNat + 1 ≤ c := by
  have lowest := (scanning.left _).mp (BitVec.getLsbD_true_ctz_of_ne_zero nonzero)
  rw [clearLowest_getLsbD nonzero, Bool.and_eq_true, scanning.left c]
  constructor
  · rintro ⟨other, mark, above⟩
    refine ⟨mark, ?_⟩
    have apart : c ≠ wraps.ctz.toNat := by simpa using other
    by_contra below
    have bit := (scanning.left c).mpr ⟨mark, above⟩
    rw [BitVec.getLsbD_false_of_lt_ctz (by omega)] at bit
    cases bit
  · rintro ⟨mark, above⟩
    have apart : c ≠ wraps.ctz.toNat := by omega
    exact ⟨by simpa using apart, mark, by omega⟩

/-- A candidate of the wraps from `a` on is the lowest wrap's, or one of a wrap above it. -/
theorem candidate_cases (scanning : Scanning meet mode ruled marks a u wraps best) {c : Nat}
    (above : a ≤ c) (mark : marks.getLsbD c = true) :
    c = wraps.ctz.toNat ∨ wraps.ctz.toNat + 1 ≤ c := by
  have bit := (scanning.left c).mpr ⟨mark, above⟩
  by_contra other
  rw [BitVec.getLsbD_false_of_lt_ctz (by omega)] at bit
  cases bit

theorem fewer_wraps (nonzero : wraps ≠ 0#64) :
    (wraps &&& (wraps - 1#64)).countOnes < wraps.countOnes := by
  refine countOnes_lt ?_ (BitVec.getLsbD_true_ctz_of_ne_zero nonzero) ?_
  · intro i set
    rw [BitVec.getLsbD_and, Bool.and_eq_true] at set
    exact set.1
  · rw [clearLowest_getLsbD nonzero]
    simp

/-- What a scan keeps is the least of the best it came with and the candidates left to it. -/
theorem least (modeLt : mode < 4) (rises : ∀ t t', t ≤ t' → t' < 64 →
      (∀ c, t < c → c ≤ t' → marks.getLsbD c = false) → scoreAt t ≤ scoreAt t') :
    ∀ (fuel : Nat) {a : Nat} {u wraps : Word} {best : Option Best},
      Scanning meet mode ruled marks a u wraps best →
      wraps.countOnes + (~~~u).countOnes ≤ fuel →
      LeastOf (Remaining scoreAt meet mode ruled marks a best)
        ((scanFrom scoreAt meet mode fuel u wraps best).map Best.key) := by
  intro fuel
  induction fuel with
  | zero =>
      intro a u wraps best scanning enough
      apply scanning.none_left
      intro c
      rw [← Bool.not_eq_true, ← Word.mem_ones, List.eq_nil_of_length_eq_zero
        (show wraps.ones.length = 0 from Nat.eq_zero_of_add_eq_zero_right (Nat.le_zero.mp enough))]
      exact List.not_mem_nil
  | succ fuel ih =>
      intro a u wraps best scanning enough
      rw [scanFrom]
      split
      · next empty =>
        apply scanning.none_left
        intro c
        rw [empty, BitVec.getLsbD_zero]
      · next nonzero =>
        simp only
        split
        · next full => exact scanning.none_free full
        · next some_ =>
          have lowest := (scanning.left _).mp (BitVec.getLsbD_true_ctz_of_ne_zero nonzero)
          have first := reached some_
          have left := scanning.left_rest nonzero
          have fewer := fewer_wraps nonzero
          have passed : ∀ {t}, FirstFrom (OpenAt ruled meet) wraps.ctz.toNat t →
              (~~~u &&& (BitVec.allOnes 64 <<< wraps.ctz.toNat)).ctz.toNat ≤ t := by
            intro t here
            by_contra less
            have unset : u.getLsbD t = false := by
              cases set : u.getLsbD t with
              | false => rfl
              | true => exact absurd here.here (scanning.struck t set)
            exact first.first t here.after (by omega) unset
          generalize isFirst : (~~~u &&& (BitVec.allOnes 64 <<< wraps.ctz.toNat)).ctz.toNat = t at *
          split
          · next skip =>
            -- No lower than the best: its wrap's candidate is none the lower, and not before it.
            rw [Option.any_eq_true] at skip
            obtain ⟨b, isBest, lower⟩ := skip
            rw [decide_eq_true_eq] at lower
            obtain ⟨shift, order⟩ := scanning.before b isBest
            have next : Scanning meet mode ruled marks (wraps.ctz.toNat + 1) u
                (wraps &&& (wraps - 1#64)) best := by
              refine ⟨left, scanning.struck, scanning.within, ?_⟩
              intro b' isBest'
              obtain ⟨shift', order'⟩ := scanning.before b' isBest'
              refine ⟨shift', order'.imp_right fun same => ⟨same.1, ?_⟩⟩
              intro s above
              exact same.2 s (by omega)
            apply (ih next (by omega)).widen
            · rintro k (held | ⟨c, s, above, found⟩)
              · exact .inl held
              · exact .inr ⟨c, s, by omega, found⟩
            · rintro k (held | ⟨c, s, above, mark, here, rfl⟩)
              · exact ⟨k, .inl held, Nat.le_refl k⟩
              · rcases scanning.candidate_cases above mark with rfl | later
                · have least := passed here
                  by_cases between : ∃ c', t < c' ∧ c' ≤ s ∧ marks.getLsbD c' = true
                  · obtain ⟨c', after, upTo, mark'⟩ := between
                    refine ⟨_, .inr ⟨c', s, ?_, mark', ⟨upTo, here.small, here.here, ?_⟩, rfl⟩,
                      Nat.le_refl _⟩
                    · have beyond := first.after
                      omega
                    · intro r over_ less
                      have beyond := first.after
                      exact here.first r (by omega) less
                  · have grown : scoreAt t ≤ scoreAt s := by
                      apply rises t s least here.small
                      intro c' after upTo
                      rw [← Bool.not_eq_true]
                      exact fun mark' => between ⟨c', after, upTo, mark'⟩
                    refine ⟨b.key, .inl ⟨b, isBest, rfl⟩, ?_⟩
                    have unset : u.getLsbD s = false := by
                      cases set : u.getLsbD s with
                      | false => rfl
                      | true => exact absurd here.here (scanning.struck s set)
                    have later : b.mode < mode ∨ b.mode = mode ∧ b.shift ≤ s := by
                      refine order.imp_right fun same => ⟨same.1, same.2 s ?_ unset⟩
                      have beyond := here.after
                      omega
                    rw [Best.key]
                    omega
                · exact ⟨_, .inr ⟨c, s, later, mark, here, rfl⟩, Nat.le_refl _⟩
          · next lower =>
            split
            · next met =>
              -- Its values meet: struck out, and the wrap retried.
              have bits : ∀ s, (u ||| 1#64 <<< t).getLsbD s = true ↔ u.getLsbD s = true ∨ s = t := by
                intro s
                rw [BitVec.getLsbD_or, one_shift_getLsbD first.small, Bool.or_eq_true,
                  decide_eq_true_eq]
              apply ih
              · refine ⟨?_, ?_, ?_, ?_⟩
                · intro c
                  rw [BitVec.getLsbD_or, Bool.or_eq_true, left,
                    one_shift_getLsbD (BitVec.lt_of_getLsbD
                      (BitVec.getLsbD_true_ctz_of_ne_zero nonzero)), decide_eq_true_eq]
                  constructor
                  · rintro (⟨mark, above⟩ | rfl)
                    · exact ⟨mark, by omega⟩
                    · exact lowest
                  · rintro ⟨mark, above⟩
                    rcases scanning.candidate_cases above mark with same | later
                    · exact .inr same
                    · exact .inl ⟨mark, later⟩
                · intro s set isOpen
                  rcases (bits s).mp set with old | rfl
                  · exact scanning.struck s old isOpen
                  · rw [isOpen.2] at met
                    cases met
                · intro s set
                  exact (bits s).mpr (.inl (scanning.within s set))
                · intro b isBest
                  obtain ⟨shift, order⟩ := scanning.before b isBest
                  refine ⟨shift, order.imp_right fun same => ⟨same.1, ?_⟩⟩
                  intro s above unset
                  apply same.2 s above
                  cases set : u.getLsbD s with
                  | false => rfl
                  | true =>
                      rw [(bits s).mpr (.inl set)] at unset
                      cases unset
              · have same : (wraps &&& (wraps - 1#64) ||| 1#64 <<< wraps.ctz.toNat).countOnes ≤
                    wraps.countOnes := by
                  apply countOnes_mono
                  intro c set
                  rw [BitVec.getLsbD_or, Bool.or_eq_true, left,
                    one_shift_getLsbD (BitVec.lt_of_getLsbD
                      (BitVec.getLsbD_true_ctz_of_ne_zero nonzero)), decide_eq_true_eq] at set
                  rw [scanning.left]
                  rcases set with ⟨mark, above⟩ | rfl
                  · exact ⟨mark, by omega⟩
                  · exact lowest
                have struck : (~~~(u ||| 1#64 <<< t)).countOnes < (~~~u).countOnes := by
                  refine countOnes_lt ?_ (i := t) ?_ ?_
                  · intro i set
                    rw [BitVec.getLsbD_not, BitVec.getLsbD_or] at set
                    rw [BitVec.getLsbD_not]
                    simp only [Bool.not_or, Bool.and_eq_true] at set
                    simp [set]
                  · rw [BitVec.getLsbD_not, first.here]
                    simp [first.small]
                  · rw [BitVec.getLsbD_not, (bits t).mpr (.inr rfl)]
                    simp
                omega
            · next apart =>
              have isOpen : OpenAt ruled meet t := by
                refine ⟨?_, by simpa using apart⟩
                cases set : ruled.getLsbD t with
                | false => rfl
                | true =>
                    have unset := first.here
                    rw [scanning.within t set] at unset
                    cases unset
              have next : Scanning meet mode ruled marks (wraps.ctz.toNat + 1) u
                  (wraps &&& (wraps - 1#64)) (some ⟨scoreAt t, mode, t⟩) := by
                refine ⟨left, scanning.struck, scanning.within, ?_⟩
                intro b isBest
                rw [Option.some.injEq] at isBest
                subst isBest
                refine ⟨first.small, .inr ⟨rfl, ?_⟩⟩
                intro s above unset
                by_contra less
                exact first.first s (by omega) (Nat.lt_of_not_le less) unset
              have candidate : FirstFrom (OpenAt ruled meet) wraps.ctz.toNat t := by
                refine ⟨first.after, first.small, isOpen, ?_⟩
                intro s after less here
                apply first.first s after less
                cases set : u.getLsbD s with
                | false => rfl
                | true => exact absurd here (scanning.struck s set)
              apply (ih next (by omega)).widen
              · rintro k (⟨b, isBest, rfl⟩ | ⟨c, s, above, found⟩)
                · rw [Option.some.injEq] at isBest
                  subst isBest
                  exact .inr ⟨_, t, lowest.2, lowest.1, candidate, rfl⟩
                · exact .inr ⟨c, s, by omega, found⟩
              · rintro k (⟨b, isBest, rfl⟩ | ⟨c, s, above, mark, here, rfl⟩)
                · refine ⟨_, .inl ⟨_, rfl, rfl⟩, ?_⟩
                  have less : scoreAt t < b.score := by
                    rw [isBest] at lower
                    simpa using lower
                  have small := first.small
                  simp only [Best.key]
                  omega
                · rcases scanning.candidate_cases above mark with rfl | later
                  · rw [here.unique candidate]
                    exact ⟨_, .inl ⟨_, rfl, rfl⟩, Nat.le_refl _⟩
                  · exact ⟨_, .inr ⟨c, s, later, mark, here, rfl⟩, Nat.le_refl _⟩

end Scanning

end Scan

end Lexindex.Mphf
