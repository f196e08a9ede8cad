import Mathlib
import Lexindex.Mphf.Run

/-!
# What a seeded run has placed

Whatever order its buckets are taken in, a run only ever adds marks, and the keys
of the buckets it did not bump are on distinct values that were free before it and
are marked after it; nothing else is marked.  Neither the order of the keys inside
a bucket nor anything carried over reaches the seeds.
-/

set_option autoImplicit false

namespace Lexindex.Mphf

theorem Map.setAll_shape (m : Map) (vs : List Nat) :
    (m.setAll vs).shift = m.shift ∧ (m.setAll vs).plane = m.plane := by
  induction vs generalizing m with
  | nil => exact ⟨rfl, rfl⟩
  | cons v rest ih => exact ih (m.set v)

theorem Map.covers_of_shape {m other : Map} (shift : other.shift = m.shift)
    (plane : other.plane = m.plane) (v : Nat) : other.Covers v ↔ m.Covers v := by
  rw [Map.Covers, Map.Covers, Map.bitOf, Map.bitOf, shift, plane]

theorem Map.setAll_get {w : Nat} :
    ∀ (vs : List Nat) {m : Map}, (∀ v ∈ vs, m.Covers v) → m.Covers w →
      (m.setAll vs).get w = (decide (w ∈ vs) || m.get w) := by
  intro vs
  induction vs with
  | nil =>
      intro m _ _
      simp [Map.setAll]
  | cons v rest ih =>
      intro m covered wCovered
      change ((m.set v).setAll rest).get w = _
      rw [@ih (m.set v) (fun u member => covered u (List.mem_cons_of_mem _ member)) wCovered,
        Map.set_get (covered v List.mem_cons_self) wCovered]
      by_cases here : w = v <;> simp [here]

namespace Run

/-- Bucket `b` has a seed that places it. -/
def Seeded (seeds : List UInt8) (b : Nat) (seed : UInt8) : Prop :=
  seeds[b]? = some seed ∧ seed ≠ 0

/-- What `seeds` have placed of a run on a map that was `before`. -/
structure Placed (run : Run) (origin : Nat) (before : Map) (seeds : List UInt8) (taken : Map) :
    Prop where
  shift : taken.shift = before.shift
  plane : taken.plane = before.plane
  kept : ∀ v, before.Covers v → before.get v = true → taken.get v = true
  marked : ∀ b seed, Seeded seeds b seed → ∀ h ∈ run.keysOf b,
    before.Covers (run.level.value h seed.toNat - origin) ∧
      taken.get (run.level.value h seed.toNat - origin) = true ∧
      before.get (run.level.value h seed.toNat - origin) = false
  apart : ∀ b seed, Seeded seeds b seed →
    ((run.keysOf b).map fun h => run.level.value h seed.toNat).Nodup
  across : ∀ b c seed other, b ≠ c → Seeded seeds b seed → Seeded seeds c other →
    ∀ h ∈ run.keysOf b, ∀ g ∈ run.keysOf c,
      run.level.value h seed.toNat ≠ run.level.value g other.toNat
  only : ∀ v, before.Covers v → taken.get v = true → before.get v = true ∨
    ∃ b seed, Seeded seeds b seed ∧ ∃ h ∈ run.keysOf b,
      v + origin = run.level.value h seed.toNat

theorem placed_start (run : Run) (origin count : Nat) (taken : Map) :
    run.Placed origin taken (List.replicate count 0) taken := by
  have none : ∀ b seed, ¬ Seeded (List.replicate count 0) b seed := by
    rintro b seed ⟨listed, nonzero⟩
    rw [List.getElem?_replicate] at listed
    split at listed
    · exact nonzero (Option.some.inj listed).symm
    · cases listed
  exact {
    shift := rfl, plane := rfl, kept := fun _ _ set => set
    marked := fun b seed seeded => absurd seeded (none b seed)
    apart := fun b seed seeded => absurd seeded (none b seed)
    across := fun b _ seed _ _ seeded => absurd seeded (none b seed)
    only := fun _ _ set => Or.inl set }

section Sound

variable {run : Run} (strided : run.level.Strided) (narrow : run.level.shift + 6 ≤ 62)
  {origin : Nat} {before : Map} (shifts : before.shift = run.level.shift) (log2 : Nat → Nat)

theorem seeded_set {seeds : List UInt8} {b c : Nat} {x seed : UInt8} (inside : b < seeds.length) :
    Seeded (seeds.set b x) c seed ↔
      c = b ∧ seed = x ∧ x ≠ 0 ∨ c ≠ b ∧ Seeded seeds c seed := by
  unfold Seeded
  rw [List.getElem?_set]
  by_cases here : b = c
  · subst here
    rw [if_pos rfl, if_pos inside]
    simp only [Option.some.injEq, true_and, ne_eq, not_true_eq_false, false_and, or_false]
    constructor
    · rintro ⟨rfl, nonzero⟩
      exact ⟨rfl, nonzero⟩
    · rintro ⟨rfl, nonzero⟩
      exact ⟨rfl, nonzero⟩
  · have apart : c ≠ b := fun same => here same.symm
    rw [if_neg here]
    simp [apart]

theorem set_fresh {seeds : List UInt8} {b : Nat} {x : UInt8} (listed : seeds[b]? = some x) :
    seeds.set b x = seeds := by
  obtain ⟨inside, exact⟩ := List.getElem?_eq_some_iff.mp listed
  rw [← exact]
  exact List.set_getElem_self inside

/-- A seed byte is its mode and its shift. -/
theorem seedByte_toNat {mode t : Nat} (modeLt : mode < 4) (tLt : t < 64) :
    (UInt8.ofNat (mode * 64 + t)).toNat = mode * 64 + t := by
  rw [UInt8.toNat_ofNat']
  exact Nat.mod_eq_of_lt (by omega)

include strided narrow shifts

/-- Seeding one bucket keeps what was placed and places the bucket or bumps it. -/
theorem Placed.seedOne {s : Seeding} (placed : run.Placed origin before s.seeds s.taken)
    (sized : s.scratch.Sized) {b : Nat} (fresh : s.seeds[b]? = some 0)
    (rooms : ∀ h ∈ run.keysOf b, run.level.Room origin before h) :
    run.Placed origin before (run.seedOne log2 origin s b).seeds
        (run.seedOne log2 origin s b).taken ∧
      (run.seedOne log2 origin s b).scratch.Sized := by
  have inside : b < s.seeds.length := (List.getElem?_eq_some_iff.mp fresh).1
  have shiftsNow : s.taken.shift = run.level.shift := placed.shift.trans shifts
  obtain ⟨seeded, sizedAfter⟩ := @Level.Strided.seedOneBucket_seeded run.level strided origin s.taken
    shiftsNow log2 (run.keysOf b) s.scratch sized
  refine ⟨?_, sizedAfter⟩
  rcases seeded with bumped | ⟨mode, t, places, out⟩
  · have seedsAre : (run.seedOne log2 origin s b).seeds = s.seeds := by
      change s.seeds.set b (UInt8.ofNat (run.level.seedOneBucket log2 _ _ _ _).1.1) = _
      rw [bumped]
      exact set_fresh fresh
    have takenIs : (run.seedOne log2 origin s b).taken = s.taken := by
      change (run.level.seedOneBucket log2 _ _ _ _).1.2 = _
      rw [bumped]
    rw [seedsAre, takenIs]
    exact placed
  · have small : mode * 64 + t < 256 := by
      have modeLt := places.modeLt
      have tLt := places.shiftLt
      omega
    have byte := seedByte_toNat places.modeLt places.shiftLt
    have nonzero : UInt8.ofNat (mode * 64 + t) ≠ 0 := by
      intro zero
      rw [zero] at byte
      apply places.seed
      change 0 = mode * 64 + t at byte
      omega
    have seedsAre : (run.seedOne log2 origin s b).seeds =
        s.seeds.set b (UInt8.ofNat (mode * 64 + t)) := by
      change s.seeds.set b (UInt8.ofNat (run.level.seedOneBucket log2 _ _ _ _).1.1) = _
      rw [out]
    have takenIs : (run.seedOne log2 origin s b).taken =
        s.taken.setAll (run.level.placesOn origin mode t (run.keysOf b)) := by
      change (run.level.seedOneBucket log2 _ _ _ _).1.2 = _
      rw [out]
    have placeIs : ∀ h ∈ run.keysOf b,
        run.level.placeOn origin mode h t + origin = run.level.value h (mode * 64 + t) :=
      fun h member => strided.placeOn_eq narrow (rooms h member) places.shiftLt
    have placeSub : ∀ h ∈ run.keysOf b,
        run.level.value h (mode * 64 + t) - origin = run.level.placeOn origin mode h t := by
      intro h member
      rw [← placeIs h member, Nat.add_sub_cancel]
    have placeCovered : ∀ h ∈ run.keysOf b,
        before.Covers (run.level.placeOn origin mode h t) := by
      intro h member
      rw [← placeSub h member]
      exact strided.value_covered narrow (rooms h member) places.shiftLt
    have coversTaken : ∀ v, s.taken.Covers v ↔ before.Covers v :=
      Map.covers_of_shape placed.shift placed.plane
    have marks : ∀ w, before.Covers w → (run.seedOne log2 origin s b).taken.get w =
        (decide (w ∈ run.level.placesOn origin mode t (run.keysOf b)) || s.taken.get w) := by
      intro w covered
      rw [takenIs, Map.setAll_get _ _ ((coversTaken w).mpr covered)]
      intro v member
      obtain ⟨h, hMember, rfl⟩ := List.mem_map.mp member
      exact (coversTaken _).mpr (placeCovered h hMember)
    have stays : ∀ w, before.Covers w → s.taken.get w = true →
        (run.seedOne log2 origin s b).taken.get w = true := by
      intro w covered set
      rw [marks w covered, set, Bool.or_true]
    have notBefore : ∀ h ∈ run.keysOf b,
        before.get (run.level.placeOn origin mode h t) = false := by
      intro h member
      by_contra held
      rw [Bool.not_eq_false] at held
      have still := placed.kept _ (placeCovered h member) held
      rw [places.free h member] at still
      cases still
    have apartFrom : ∀ c other, Seeded s.seeds c other → ∀ h ∈ run.keysOf b, ∀ g ∈ run.keysOf c,
        run.level.value h (mode * 64 + t) ≠ run.level.value g other.toNat := by
      intro c other seeded h hMember g gMember same
      have marked := (placed.marked c other seeded g gMember).2.1
      rw [← same, placeSub h hMember, places.free h hMember] at marked
      cases marked
    refine ⟨?_, ?_, ?_, ?_, ?_, ?_, ?_⟩
    · rw [takenIs, (Map.setAll_shape _ _).1]
      exact placed.shift
    · rw [takenIs, (Map.setAll_shape _ _).2]
      exact placed.plane
    · intro v covered held
      exact stays v covered (placed.kept v covered held)
    · intro c seed seeded h member
      rw [seedsAre, seeded_set inside] at seeded
      rcases seeded with ⟨rfl, rfl, _⟩ | ⟨_, earlier⟩
      · rw [byte, placeSub h member]
        refine ⟨placeCovered h member, ?_, notBefore h member⟩
        rw [marks _ (placeCovered h member)]
        have listed : run.level.placeOn origin mode h t ∈
            run.level.placesOn origin mode t (run.keysOf c) := List.mem_map_of_mem member
        rw [decide_eq_true listed, Bool.true_or]
      · obtain ⟨covered, held, unheld⟩ := placed.marked c seed earlier h member
        exact ⟨covered, stays _ covered held, unheld⟩
    · intro c seed seeded
      rw [seedsAre, seeded_set inside] at seeded
      rcases seeded with ⟨rfl, rfl, _⟩ | ⟨_, earlier⟩
      · have values : ((run.keysOf c).map fun h =>
            run.level.value h (UInt8.ofNat (mode * 64 + t)).toNat) =
            (run.level.placesOn origin mode t (run.keysOf c)).map (· + origin) := by
          rw [Level.placesOn, List.map_map, byte]
          apply List.map_congr_left
          intro h member
          exact (placeIs h member).symm
        rw [values]
        exact places.apart.map (add_left_injective origin)
      · exact placed.apart c seed earlier
    · intro c d seed other apart cSeeded dSeeded h hMember g gMember
      rw [seedsAre, seeded_set inside] at cSeeded dSeeded
      rcases cSeeded with ⟨rfl, rfl, _⟩ | ⟨_, cEarlier⟩
      · rcases dSeeded with ⟨rfl, _⟩ | ⟨_, dEarlier⟩
        · exact absurd rfl apart
        · rw [byte]
          exact apartFrom d other dEarlier h hMember g gMember
      · rcases dSeeded with ⟨rfl, rfl, _⟩ | ⟨_, dEarlier⟩
        · rw [byte]
          exact (apartFrom c seed cEarlier g gMember h hMember).symm
        · exact placed.across c d seed other apart cEarlier dEarlier h hMember g gMember
    · intro v covered held
      rw [marks v covered, Bool.or_eq_true, decide_eq_true_eq] at held
      rcases held with new | old
      · right
        obtain ⟨h, member, rfl⟩ := List.mem_map.mp new
        refine ⟨b, UInt8.ofNat (mode * 64 + t), ?_, h, member, ?_⟩
        · rw [seedsAre, seeded_set inside]
          exact Or.inl ⟨rfl, rfl, nonzero⟩
        · rw [byte]
          exact placeIs h member
      · rcases placed.only v covered old with first | ⟨c, seed, seeded, h, member, valueIs⟩
        · exact Or.inl first
        · right
          refine ⟨c, seed, ?_, h, member, valueIs⟩
          rw [seedsAre, seeded_set inside]
          refine Or.inr ⟨?_, seeded⟩
          rintro rfl
          have listed := seeded.1
          rw [fresh] at listed
          exact seeded.2 (Option.some.inj listed).symm

/-- The rounds over fresh buckets. -/
theorem Placed.seedAll {last : Nat} :
    ∀ (order : List Nat) {s : Seeding}, run.Placed origin before s.seeds s.taken →
      s.scratch.Sized → s.seeds.length = last → order.Nodup →
      (∀ b ∈ order, s.seeds[b]? = some 0) →
      (∀ b ∈ order, ∀ h ∈ run.keysOf b, run.level.Room origin before h) →
      run.Placed origin before (order.foldl (run.seedOne log2 origin) s).seeds
          (order.foldl (run.seedOne log2 origin) s).taken ∧
        (order.foldl (run.seedOne log2 origin) s).seeds.length = last := by
  intro order
  induction order with
  | nil =>
      intro s placed _ length _ _ _
      exact ⟨placed, length⟩
  | cons b rest ih =>
      intro s placed sized length nodup fresh rooms
      rw [List.nodup_cons] at nodup
      obtain ⟨placedAfter, sizedAfter⟩ := placed.seedOne strided narrow shifts log2 sized
        (fresh b List.mem_cons_self) (rooms b List.mem_cons_self)
      rw [List.foldl_cons]
      apply ih placedAfter sizedAfter _ nodup.2 _
        fun c member => rooms c (List.mem_cons_of_mem _ member)
      · change (s.seeds.set b _).length = last
        rw [List.length_set, length]
      · intro c member
        change (s.seeds.set b _)[c]? = some 0
        have apart : ¬ b = c := fun same => nodup.1 (same ▸ member)
        rw [List.getElem?_set, if_neg apart]
        exact fresh c (List.mem_cons_of_mem _ member)

/-- A run of fresh buckets returns, and what it returns it has placed. -/
theorem seedRun_placed (count : Nat)
    (rooms : ∀ b < count, ∀ h ∈ run.keysOf b, run.level.Room origin before h) :
    ∃ seeds taken, run.seedRun log2 (List.replicate count 0) before origin = some (seeds, taken) ∧
      run.Placed origin before seeds taken ∧ seeds.length = count := by
  obtain ⟨order, nodup, members, _, result⟩ :=
    run.seedRun_eq log2 (List.replicate count 0) before origin
  rw [List.length_replicate] at members
  have inside : ∀ b ∈ order, b < count := fun b member => ((members b).mp member).1
  obtain ⟨placed, length⟩ :=
    @Placed.seedAll run strided narrow origin before shifts log2 count order
      { seeds := List.replicate count 0, taken := before, scratch := LaneScratch.new }
      (run.placed_start origin count before) LaneScratch.new_sized (List.length_replicate ..) nodup
      (by
        intro b member
        rw [List.getElem?_replicate, if_pos (inside b member)])
      fun b member => rooms b (inside b member)
  exact ⟨_, _, result, placed, length⟩

end Sound

/-! ## The order of the keys inside a bucket -/

section Perm

variable {run other : Run} (strided : run.level.Strided) (log2 : Nat → Nat)
  (sameLevel : other.level = run.level) (sameStart : other.start = run.start)
  (perm : ∀ b, (run.keysOf b).Perm (other.keysOf b))
include strided

theorem seedOne_shift {origin b : Nat} {s : Seeding} (shifts : s.taken.shift = run.level.shift)
    (sized : s.scratch.Sized) :
    (run.seedOne log2 origin s b).taken.shift = run.level.shift := by
  obtain ⟨seeded, _⟩ := @Level.Strided.seedOneBucket_seeded run.level strided origin s.taken
    shifts log2 (run.keysOf b) s.scratch sized
  change (run.level.seedOneBucket log2 _ _ _ _).1.2.shift = _
  rcases seeded with bumped | ⟨mode, t, _, out⟩
  · rw [bumped]
    exact shifts
  · rw [out]
    exact (Map.setAll_shape _ _).1.trans shifts

include sameLevel perm

theorem seedAll_perm {origin : Nat} :
    ∀ (order : List Nat) {s s' : Seeding}, s.seeds = s'.seeds → s.taken = s'.taken →
      s.scratch.Sized → s'.scratch.Sized → s.taken.shift = run.level.shift →
      (order.foldl (run.seedOne log2 origin) s).seeds =
          (order.foldl (other.seedOne log2 origin) s').seeds ∧
        (order.foldl (run.seedOne log2 origin) s).taken =
          (order.foldl (other.seedOne log2 origin) s').taken := by
  intro order
  induction order with
  | nil =>
      intro s s' seeds taken _ _ _
      exact ⟨seeds, taken⟩
  | cons b rest ih =>
      intro s s' seeds taken sized sized' shifts
      have same := @Level.Strided.seedOneBucket_perm run.level strided origin s.taken shifts log2 _ _
        (perm b) _ _ sized sized'
      have shiftsAfter := @seedOne_shift run strided log2 origin b s shifts sized
      rw [List.foldl_cons, List.foldl_cons]
      apply ih
      · change s.seeds.set b (UInt8.ofNat (run.level.seedOneBucket log2 _ _ _ _).1.1) =
          s'.seeds.set b (UInt8.ofNat (other.level.seedOneBucket log2 _ _ _ _).1.1)
        rw [same, seeds, taken, sameLevel]
      · change (run.level.seedOneBucket log2 _ _ _ _).1.2 =
          (other.level.seedOneBucket log2 _ _ _ _).1.2
        rw [same, taken, sameLevel]
      · exact (strided.seedOneBucket_seeded shifts log2 sized).2
      · rw [← sameLevel] at strided shifts
        rw [taken] at shifts
        exact (strided.seedOneBucket_seeded shifts log2 sized').2
      · exact shiftsAfter

include sameStart

theorem seedRun_perm {seeds : List UInt8} {taken : Map} {origin : Nat}
    (shifts : taken.shift = run.level.shift) :
    run.seedRun log2 seeds taken origin = other.seedRun log2 seeds taken origin := by
  obtain ⟨order, _, _, ordered, result⟩ := run.seedRun_eq log2 seeds taken origin
  obtain ⟨order', _, _, ordered', result'⟩ := other.seedRun_eq log2 seeds taken origin
  have sizes : other.size = run.size := by
    funext b
    rw [size, size, sameStart]
  rw [sameLevel, sizes, ordered] at ordered'
  obtain rfl := Option.some.inj ordered'
  obtain ⟨sameSeeds, sameTaken⟩ := @seedAll_perm run other strided log2 sameLevel perm origin order
    { seeds, taken, scratch := LaneScratch.new } { seeds, taken, scratch := LaneScratch.new } rfl rfl
    LaneScratch.new_sized LaneScratch.new_sized shifts
  rw [result, result', sameSeeds, sameTaken]

end Perm

end Run

end Lexindex.Mphf
