import Mathlib
import Lexindex.Mphf.LaneWord
import Lexindex.Mphf.SeedSound

/-!
# The lanes seed as the plain search does

The shifts a mode of lanes rules out are a function of the bucket's keys and the
map: neither the order of the keys nor the scratch reaches them, and what is left
places the bucket.  So seeding a bucket, whichever search answers, returns a seed
that places it or none, the same for every order of its keys.
-/

set_option autoImplicit false

namespace Lexindex.Mphf

/-- Scratch tables of the sizes the source declares. -/
structure LaneScratch.Sized (scratch : LaneScratch) : Prop where
  mates : scratch.mates.length = 64
  seen : scratch.seen.length = fullSlice

theorem LaneScratch.new_sized : LaneScratch.new.Sized where
  mates := List.length_replicate ..
  seen := List.length_replicate ..

/-- What a mode of lanes rules out. -/
def Level.RuledOut (l : Level) (origin : Nat) (taken : Map) (ks : List Nat) (mode t : Nat) : Prop :=
  mode = 0 ∧ t = 0 ∨ (∃ h ∈ ks, taken.get (l.placeOn origin mode h t) = true) ∨
    SomeMeet l.slice t (ks.map (l.laneOf origin mode))

section Lanes

variable {l : Level} (strided : l.Strided) {origin : Nat} {taken : Map}
  (shifts : taken.shift = l.shift)
include strided

theorem Level.Strided.apart_of_unmet {ks : List Nat} (fast : ∀ h ∈ ks, ¬ l.slowOn origin h)
    {mode t : Nat} (tLt : t < 64) (unmet : ¬ SomeMeet l.slice t (ks.map (l.laneOf origin mode))) :
    (l.placesOn origin mode t ks).Nodup := by
  unfold SomeMeet at unmet
  rw [not_not, List.pairwise_map] at unmet
  rw [Level.placesOn, List.Nodup, List.pairwise_map]
  refine unmet.imp_of_mem ?_
  intro g h gMember hMember apart same
  exact apart (strided.meets_of_same_place (fast g gMember) (fast h hMember) tLt same)

theorem Level.Strided.places_of_not_ruledOut {ks : List Nat}
    (fast : ∀ h ∈ ks, ¬ l.slowOn origin h) {mode t : Nat} (modeLt : mode < 4) (tLt : t < 64)
    (unruled : ¬ l.RuledOut origin taken ks mode t) : l.Places origin taken ks mode t := by
  unfold Level.RuledOut at unruled
  rw [not_or, not_or] at unruled
  obtain ⟨seed, untaken, unmet⟩ := unruled
  refine ⟨modeLt, tLt, seed, ?_, strided.apart_of_unmet fast tLt unmet⟩
  intro h member
  cases held : taken.get (l.placeOn origin mode h t) with
  | false => rfl
  | true => exact absurd ⟨h, member, held⟩ untaken

include shifts

theorem Level.Strided.laneMode_spec {ks : List Nat} (fast : ∀ h ∈ ks, ¬ l.slowOn origin h)
    (few : ks.length ≤ 16) (mode : Nat) {scratch : LaneScratch} (sized : scratch.Sized) :
    (l.laneMode origin taken ks mode scratch).1 = l.laneWraps mode ks ∧
      (∀ t < 64, (l.laneMode origin taken ks mode scratch).2.1.getLsbD t = true ↔
        l.RuledOut origin taken ks mode t) ∧
      (l.laneMode origin taken ks mode scratch).2.2.Sized := by
  let now := (scratch.mode + 1) % 2 ^ 32
  let lanes := ks.map (l.laneOf origin mode)
  let start : Gathered :=
    { wraps := 1#64, u := if mode = 0 then 1#64 else 0#64, twice := false, seen := scratch.seen }
  let state := lanes.foldl (l.gatherLane taken now) start
  obtain ⟨wraps, words, saw⟩ :=
    @Level.Strided.gathered_spec l strided origin taken shifts mode now start sized.seen ks fast
  have cuts : ∀ lane ∈ lanes, lane.cut ≤ 64 := by
    intro lane member
    obtain ⟨h, _, rfl⟩ := List.mem_map.mp member
    exact strided.laneOf_cut_le mode h
  have first : ∀ t < 64, state.u.getLsbD t = true ↔
      mode = 0 ∧ t = 0 ∨ ∃ h ∈ ks, taken.get (l.placeOn origin mode h t) = true := by
    intro t tLt
    rw [words t tLt, Bool.or_eq_true, List.any_eq_true]
    apply or_congr_left
    change (if mode = 0 then 1#64 else 0#64).getLsbD t = true ↔ _
    by_cases zero : mode = 0
    · simp [zero, BitVec.getLsbD_one]
    · simp [zero]
  have whole : 64 ∣ l.slice := by
    rw [strided.slice_split]
    exact Nat.dvd_mul_right ..
  have slicePositive : 0 < l.slice := by
    rw [strided.slice]
    exact Nat.two_pow_pos _
  have unfolded : l.laneMode origin taken ks mode scratch =
      (state.wraps,
        (if state.twice then
          matchLanes l.slice lanes 0 lanes { u := state.u, mates := scratch.mates, written := 0#64 }
          else { u := state.u, mates := scratch.mates, written := 0#64 }).u,
        { mates := (if state.twice then
            matchLanes l.slice lanes 0 lanes
              { u := state.u, mates := scratch.mates, written := 0#64 }
            else { u := state.u, mates := scratch.mates, written := 0#64 }).mates
          seen := state.seen, mode := now }) := rfl
  have seenLength : state.seen.length = fullSlice := by
    rw [saw.length]
    exact sized.seen
  rw [unfolded]
  refine ⟨wraps, ?_⟩
  by_cases twice : state.twice = true
  · have none : ({ u := state.u, mates := scratch.mates, written := 0#64 } : Matched).Upto
        l.slice state.u [] := by
      refine ⟨sized.mates, by simp, by simp, ?_⟩
      intro t _
      simp [SomeMeet]
    have all := @matchLanes_upto l.slice whole slicePositive state.u lanes [] _ none
      (by simpa [lanes] using few) cuts
    simp only [if_pos twice]
    refine ⟨?_, all.length, seenLength⟩
    intro t tLt
    exact (all.words t tLt).trans (by rw [first t tLt, or_assoc]; rfl)
  · rw [Bool.not_eq_true] at twice
    have unmet : ∀ t, ¬ SomeMeet l.slice t lanes := by
      intro t
      unfold SomeMeet
      rw [not_not]
      refine (saw.apart twice).imp ?_
      intro i j residues meets
      rw [strided.slice] at meets residues
      exact residues meets.residue_eq
    simp only [twice, Bool.false_eq_true, if_false]
    refine ⟨?_, sized.mates, seenLength⟩
    intro t tLt
    rw [first t tLt, Level.RuledOut, ← or_assoc]
    exact (or_iff_left (unmet t)).symm

end Lanes

/-! ## The lowest key -/

/-- The key of a seed that places the bucket. -/
def Level.PlacesKey (l : Level) (origin : Nat) (taken : Map) (ks : List Nat) (best : Option Nat) :
    Prop :=
  ∀ key, best = some key →
    l.Places origin taken ks (key >>> 6 &&& 3) (key &&& 63) ∧
      key % 2 ^ 8 = (key >>> 6 &&& 3) * 64 + (key &&& 63)

theorem laneKey_parts {score mode t : Nat} (modeLt : mode < 4) (tLt : t < 64) :
    (score * 2 ^ 8 + mode * 2 ^ 6 + t) >>> 6 &&& 3 = mode ∧
      score * 2 ^ 8 + mode * 2 ^ 6 + t &&& 63 = t ∧
      (score * 2 ^ 8 + mode * 2 ^ 6 + t) % 2 ^ 8 = mode * 64 + t := by
  rw [show 3 = 2 ^ 2 - 1 from rfl, show 63 = 2 ^ 6 - 1 from rfl, and_mask, and_mask,
    Nat.shiftRight_eq_div_pow]
  omega

theorem candidates_unruled {wraps u : Word} {t : Nat}
    (marked : (candidates wraps u).getLsbD t = true) : u.getLsbD t = false := by
  rw [candidates, BitVec.getLsbD_or, BitVec.getLsbD_and, BitVec.getLsbD_and, BitVec.getLsbD_not]
    at marked
  cases set : u.getLsbD t with
  | false => rfl
  | true => simp [set] at marked

section Search

variable {l : Level} (strided : l.Strided) {origin : Nat} {taken : Map}
  (shifts : taken.shift = l.shift) (log2 : Nat → Nat) {ks : List Nat}
  (fast : ∀ h ∈ ks, ¬ l.slowOn origin h) (few : ks.length ≤ 16)

theorem Level.laneBest_places {mode : Nat} {marks : Word} {best : Option Nat} (modeLt : mode < 4)
    (feasible : ∀ t < 64, marks.getLsbD t = true → l.Places origin taken ks mode t)
    (places : l.PlacesKey origin taken ks best) :
    l.PlacesKey origin taken ks (l.laneBest log2 ks mode marks best) := by
  have each : ∀ t ∈ marks.ones, t < 64 ∧ l.Places origin taken ks mode t :=
    fun t member =>
      ⟨Word.ones_lt member, feasible t (Word.ones_lt member) (Word.mem_ones.mp member)⟩
  rw [Level.laneBest]
  generalize marks.ones = shifts at each
  induction shifts generalizing best with
  | nil => exact places
  | cons t rest ih =>
      rw [List.foldl_cons]
      refine ih ?_ fun other member => each other (List.mem_cons_of_mem _ member)
      obtain ⟨tLt, placed⟩ := each t List.mem_cons_self
      have keyPlaces : l.PlacesKey origin taken ks (some (l.laneKey log2 ks mode t)) := by
        rintro key ⟨⟩
        obtain ⟨modeIs, shiftIs, seedIs⟩ :=
          @laneKey_parts (l.score log2 mode ks t) mode t modeLt tLt
        rw [Level.laneKey, modeIs, shiftIs, seedIs]
        exact ⟨placed, rfl⟩
      cases best with
      | none => exact keyPlaces
      | some least =>
          change l.PlacesKey origin taken ks (some (min least (l.laneKey log2 ks mode t)))
          rcases min_choice least (l.laneKey log2 ks mode t) with isLeast | isKey
          · rw [isLeast]
            exact places
          · rw [isKey]
            exact keyPlaces

include strided shifts fast few

theorem Level.Strided.laneSearch_places {mode : Nat} (modeLt : mode < 4)
    {state : Option Nat × LaneScratch} (sized : state.2.Sized)
    (places : l.PlacesKey origin taken ks state.1) :
    l.PlacesKey origin taken ks (l.laneSearch log2 origin taken ks state mode).1 ∧
      (l.laneSearch log2 origin taken ks state mode).2.Sized := by
  obtain ⟨_, ruled, sizedAfter⟩ := strided.laneMode_spec shifts fast few mode sized
  refine ⟨?_, sizedAfter⟩
  apply Level.laneBest_places log2 modeLt _ places
  intro t tLt marked
  have unruled : (l.laneMode origin taken ks mode state.2).2.1.getLsbD t = false :=
    candidates_unruled marked
  apply strided.places_of_not_ruledOut fast modeLt tLt
  rw [← ruled t tLt, unruled]
  exact Bool.false_ne_true

theorem Level.Strided.laneSearches_places :
    ∀ (modes : List Nat) (state : Option Nat × LaneScratch), (∀ mode ∈ modes, mode < 4) →
      state.2.Sized → l.PlacesKey origin taken ks state.1 →
      l.PlacesKey origin taken ks (modes.foldl (l.laneSearch log2 origin taken ks) state).1 ∧
        (modes.foldl (l.laneSearch log2 origin taken ks) state).2.Sized := by
  intro modes
  induction modes with
  | nil =>
      intro state _ sized places
      exact ⟨places, sized⟩
  | cons mode rest ih =>
      intro state small sized places
      rw [List.foldl_cons]
      obtain ⟨placesAfter, sizedAfter⟩ := strided.laneSearch_places shifts log2 fast few
        (small mode List.mem_cons_self) sized places
      exact ih _ (fun other member => small other (List.mem_cons_of_mem _ member)) sizedAfter
        placesAfter

theorem Level.Strided.seedBucketLanes_seeded {scratch : LaneScratch} (sized : scratch.Sized) :
    (∀ out, (l.seedBucketLanes log2 ks taken origin scratch).1 = some out →
      l.Seeded origin taken ks out) ∧
      (l.seedBucketLanes log2 ks taken origin scratch).2.Sized := by
  have none_ : l.PlacesKey origin taken ks none := by
    intro key found
    cases found
  obtain ⟨places, sizedAfter⟩ := strided.laneSearches_places shifts log2 fast few (List.range 4)
    (none, scratch) (by simp) sized none_
  have quick : ¬ (ks.any fun h => decide (l.slowOn origin h)) = true := by
    rw [List.any_eq_true]
    rintro ⟨h, member, slow⟩
    exact fast h member (of_decide_eq_true slow)
  unfold Level.seedBucketLanes
  rw [if_neg quick]
  refine ⟨?_, sizedAfter⟩
  rintro out ⟨⟩
  cases found : ((List.range 4).foldl (l.laneSearch log2 origin taken ks) (none, scratch)).1 with
  | none => exact Or.inl rfl
  | some key =>
      obtain ⟨placed, seed⟩ := places key found
      refine Or.inr ⟨_, _, placed, ?_⟩
      rw [Level.laneOutcome, seed]
      congr 2
      apply List.map_congr_left
      intro h member
      have inside : l.startOn origin h + l.slice ≤ l.n - origin := by
        have ends := fast h member
        rw [Level.slowOn] at ends
        omega
      have slicePositive : 0 < l.slice := Nat.lt_of_le_of_lt (Nat.zero_le _) (strided.offset_lt h 0)
      have turnedLt : (l.offset h (key >>> 6 &&& 3) + ((key &&& 63) <<< l.shift)) &&&
          (l.slice - 1) < l.slice := and_pred_lt slicePositive
      rw [Level.placeOn, Level.foldOn, wrapped, if_neg (by omega)]

end Search

/-! ## The order of a bucket's keys, and the scratch -/

theorem someMeet_perm {slice t : Nat} {lanes lanes' : List Lane} (perm : lanes.Perm lanes') :
    SomeMeet slice t lanes ↔ SomeMeet slice t lanes' := by
  unfold SomeMeet
  rw [perm.pairwise_iff fun apart meets => apart meets.symm]

section Perm

variable {l : Level} (strided : l.Strided) {origin : Nat} {taken : Map}
  (shifts : taken.shift = l.shift) (log2 : Nat → Nat) {ks ks' : List Nat} (perm : ks.Perm ks')

include perm in
theorem Level.ruledOut_perm (mode t : Nat) :
    l.RuledOut origin taken ks mode t ↔ l.RuledOut origin taken ks' mode t := by
  unfold Level.RuledOut
  rw [someMeet_perm (perm.map _)]
  simp only [perm.mem_iff]

include perm in
theorem Level.laneWraps_perm (mode : Nat) : l.laneWraps mode ks = l.laneWraps mode ks' := by
  apply perm.foldl_eq' _
  intro x _ y _ z
  rw [BitVec.or_assoc, BitVec.or_assoc, BitVec.or_comm (1#64 <<< _)]

include perm in
theorem Level.laneOutcome_perm :
    l.laneOutcome ks taken origin = l.laneOutcome ks' taken origin := by
  funext best
  cases best with
  | none => rfl
  | some key =>
      rw [Level.laneOutcome, Level.laneOutcome]
      rw [Map.setAll_perm taken (perm.map _)]

variable (fast : ∀ h ∈ ks, ¬ l.slowOn origin h) (few : ks.length ≤ 16)
include strided shifts perm fast few

theorem Level.Strided.laneSearch_perm (mode : Nat) (best : Option Nat)
    {scratch scratch' : LaneScratch} (sized : scratch.Sized) (sized' : scratch'.Sized) :
    (l.laneSearch log2 origin taken ks (best, scratch) mode).1 =
        (l.laneSearch log2 origin taken ks' (best, scratch') mode).1 ∧
      (l.laneSearch log2 origin taken ks (best, scratch) mode).2.Sized ∧
      (l.laneSearch log2 origin taken ks' (best, scratch') mode).2.Sized := by
  obtain ⟨wraps, ruled, sizedAfter⟩ := strided.laneMode_spec shifts fast few mode sized
  have fast' : ∀ h ∈ ks', ¬ l.slowOn origin h := fun h member => fast h (perm.mem_iff.mpr member)
  have few' : ks'.length ≤ 16 := by rwa [← perm.length_eq]
  obtain ⟨wraps', ruled', sizedAfter'⟩ := strided.laneMode_spec shifts fast' few' mode sized'
  refine ⟨?_, sizedAfter, sizedAfter'⟩
  have words : (l.laneMode origin taken ks mode scratch).2.1 =
      (l.laneMode origin taken ks' mode scratch').2.1 := by
    apply BitVec.eq_of_getLsbD_eq
    intro t tLt
    rw [Bool.eq_iff_iff, ruled t tLt, ruled' t tLt]
    exact Level.ruledOut_perm perm mode t
  change l.laneBest log2 ks mode (candidates (l.laneMode origin taken ks mode scratch).1
      (l.laneMode origin taken ks mode scratch).2.1) best =
    l.laneBest log2 ks' mode (candidates (l.laneMode origin taken ks' mode scratch').1
      (l.laneMode origin taken ks' mode scratch').2.1) best
  rw [wraps, wraps', words, Level.laneWraps_perm perm]
  unfold Level.laneBest Level.laneKey
  rw [Level.score_perm log2 perm]

theorem Level.Strided.laneSearches_perm :
    ∀ (modes : List Nat) (best : Option Nat) (scratch scratch' : LaneScratch),
      scratch.Sized → scratch'.Sized →
      (modes.foldl (l.laneSearch log2 origin taken ks) (best, scratch)).1 =
        (modes.foldl (l.laneSearch log2 origin taken ks') (best, scratch')).1 := by
  intro modes
  induction modes with
  | nil =>
      intro best scratch scratch' _ _
      rw [List.foldl_nil, List.foldl_nil]
  | cons mode rest ih =>
      intro best scratch scratch' sized sized'
      rw [List.foldl_cons, List.foldl_cons]
      obtain ⟨same, sizedAfter, sizedAfter'⟩ :=
        strided.laneSearch_perm shifts log2 perm fast few mode best sized sized'
      have next := ih (l.laneSearch log2 origin taken ks (best, scratch) mode).1 _ _
        sizedAfter sizedAfter'
      rw [Prod.mk.eta] at next
      rw [next, same]

end Perm

section One

variable {l : Level} (strided : l.Strided) {origin : Nat} {taken : Map}
  (shifts : taken.shift = l.shift) (log2 : Nat → Nat) {ks ks' : List Nat}
include strided shifts

theorem Level.Strided.seedBucketLanes_perm (perm : ks.Perm ks') (few : ks.length ≤ 16)
    {scratch scratch' : LaneScratch} (sized : scratch.Sized) (sized' : scratch'.Sized) :
    (l.seedBucketLanes log2 ks taken origin scratch).1 =
      (l.seedBucketLanes log2 ks' taken origin scratch').1 := by
  unfold Level.seedBucketLanes
  rw [← perm.any_eq]
  by_cases slow : (ks.any fun h => decide (l.slowOn origin h)) = true
  · rw [if_pos slow, if_pos slow]
  · have fast : ∀ h ∈ ks, ¬ l.slowOn origin h := by
      intro h member held
      exact slow (List.any_eq_true.mpr ⟨h, member, decide_eq_true held⟩)
    rw [if_neg slow, if_neg slow]
    simp only
    rw [strided.laneSearches_perm shifts log2 perm fast few (List.range 4) none _ _ sized sized',
      Level.laneOutcome_perm perm]

/-- Seeding a bucket places it or bumps it. -/
theorem Level.Strided.seedOneBucket_seeded {scratch : LaneScratch} (sized : scratch.Sized) :
    l.Seeded origin taken ks (l.seedOneBucket log2 ks taken origin scratch).1 ∧
      (l.seedOneBucket log2 ks taken origin scratch).2.Sized := by
  have plain : l.Seeded origin taken ks (l.seedBucket log2 ks taken origin) :=
    strided.seedBucket_seeded shifts log2 ks
  unfold Level.seedOneBucket
  split
  · unfold Level.seedBucketLaned
    by_cases narrow : 1 ≤ ks.length ∧ ks.length ≤ 16
    · rw [if_pos narrow]
      by_cases slow : (ks.any fun h => decide (l.slowOn origin h)) = true
      · unfold Level.seedBucketLanes
        rw [if_pos slow]
        exact ⟨plain, sized⟩
      · have fast : ∀ h ∈ ks, ¬ l.slowOn origin h := by
          intro h member held
          exact slow (List.any_eq_true.mpr ⟨h, member, decide_eq_true held⟩)
        obtain ⟨seeded, sizedAfter⟩ :=
          strided.seedBucketLanes_seeded shifts log2 fast narrow.2 sized
        generalize l.seedBucketLanes log2 ks taken origin scratch = answered at *
        obtain ⟨out, after⟩ := answered
        refine ⟨?_, sizedAfter⟩
        cases out with
        | none => exact plain
        | some out => exact seeded out rfl
    · rw [if_neg narrow]
      exact ⟨plain, sized⟩
  · exact ⟨plain, sized⟩

/-- Neither the order of a bucket's keys nor the scratch reaches its seed. -/
theorem Level.Strided.seedOneBucket_perm (perm : ks.Perm ks') {scratch scratch' : LaneScratch}
    (sized : scratch.Sized) (sized' : scratch'.Sized) :
    (l.seedOneBucket log2 ks taken origin scratch).1 =
      (l.seedOneBucket log2 ks' taken origin scratch').1 := by
  have plain : l.seedBucket log2 ks taken origin = l.seedBucket log2 ks' taken origin :=
    strided.seedBucket_perm shifts log2 perm
  unfold Level.seedOneBucket
  by_cases laned : l.laned
  · rw [if_pos laned, if_pos laned]
    unfold Level.seedBucketLaned
    rw [← perm.length_eq]
    by_cases narrow : 1 ≤ ks.length ∧ ks.length ≤ 16
    · have lanes : (l.seedBucketLanes log2 ks taken origin scratch).1 =
          (l.seedBucketLanes log2 ks' taken origin scratch').1 :=
        strided.seedBucketLanes_perm shifts log2 perm narrow.2 sized sized'
      rw [if_pos narrow, if_pos narrow]
      change (l.seedBucketLanes log2 ks taken origin scratch).1.getD _ =
        (l.seedBucketLanes log2 ks' taken origin scratch').1.getD _
      rw [lanes, plain]
    · rw [if_neg narrow, if_neg narrow]
      exact plain
  · rw [if_neg laned, if_neg laned]
    exact plain

end One

end Lexindex.Mphf
