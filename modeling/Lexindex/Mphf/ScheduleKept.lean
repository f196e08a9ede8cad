import Mathlib
import Lexindex.Mphf.ScheduleSteps

/-!
# What the workers of a level keep

The flags and the counts the workers share say how far their chunks are: a chunk is done once its
program is past that write, a gap is claimed once both its chunks have looked, a chunk's readers are
the gaps that have not read its map yet.
-/

set_option autoImplicit false

namespace Lexindex.Mphf

variable {log2 : Nat → Nat} {l : Level} {starts hs : List Nat}
  (pieces : LevelPieces log2 l starts hs)

/-! ## What is given to do -/

def Worker.todo : Worker → List Instr
  | .gone => []
  | .busy _ todo => todo

/-- What all the workers are given to do besides their chunks' programs. -/
def Progress.pending (p : Progress) : List Instr :=
  p.workers.flatMap Worker.todo

theorem count_flatMap_set {α β : Type} [DecidableEq β] (f : α → List β) (x : β) {xs : List α}
    {i : Nat} {old new : α} (here : xs[i]? = some old) :
    ((xs.set i new).flatMap f).count x + (f old).count x =
      (xs.flatMap f).count x + (f new).count x := by
  induction xs generalizing i with
  | nil => cases here
  | cons a xs ih =>
      cases i with
      | zero =>
          obtain rfl : a = old := Option.some.inj here
          rw [List.set_cons_zero, List.flatMap_cons, List.flatMap_cons, List.count_append,
            List.count_append]
          omega
      | succ i =>
          have inner := ih here
          rw [List.set_cons_succ, List.flatMap_cons, List.flatMap_cons, List.count_append,
            List.count_append]
          omega

section Pending

variable {p : Progress} {w : Nat} {chunk new : Option Nat} {todo more : List Instr}

theorem pending_set (here : p.workers[w]? = some (.busy chunk todo)) (instr : Instr) :
    ((p.workers.set w (.busy new more)).flatMap Worker.todo).count instr + todo.count instr =
      p.pending.count instr + more.count instr :=
  count_flatMap_set Worker.todo instr here

theorem pending_gone (here : p.workers[w]? = some (.busy chunk [])) (instr : Instr) :
    ((p.workers.set w .gone).flatMap Worker.todo).count instr = p.pending.count instr :=
  count_flatMap_set Worker.todo instr here

end Pending

/-! ## The lists of bumped keys -/

structure Listed (p : Progress) (s : Shared) : Prop where
  length : s.bumps.length = starts.length
  drained_le : s.drained ≤ starts.length
  bumped : s.bumped = (List.range s.drained).flatMap fun k => (pieces.run k).1.bumped
  passed : ∀ k < s.drained, 2 ≤ p.at_ k
  waiting : ∀ k, s.drained ≤ k → k < starts.length →
    s.bumps[k]? = some (if 2 ≤ p.at_ k then some (pieces.run k).1.bumped else none)
  /-- Keys that wait to be listed have a worker about to look. -/
  looks : s.drained < starts.length → 2 ≤ p.at_ s.drained → ∃ k, p.at_ k = 2

variable {pieces} {p p' : Progress} {s s' : Shared}

theorem Listed.frame (listed : Listed pieces p s) (at_ : p'.at_ = p.at_) (bumps : s'.bumps = s.bumps)
    (drained : s'.drained = s.drained) (bumped : s'.bumped = s.bumped) : Listed pieces p' s' where
  length := bumps ▸ listed.length
  drained_le := drained ▸ listed.drained_le
  bumped := by rw [bumped, drained, listed.bumped]
  passed := by rw [drained, at_]; exact listed.passed
  waiting := by rw [drained, at_, bumps]; exact listed.waiting
  looks := by rw [drained, at_]; exact listed.looks

/-- An access that does not touch the lists, by a chunk that is not at them. -/
theorem Listed.elsewhere {k : Nat} (listed : Listed pieces p s) (apart : p.at_ k = 0 ∨ 3 ≤ p.at_ k)
    (at_ : p'.at_ = Function.update p.at_ k (p.at_ k + 1)) (bumps : s'.bumps = s.bumps)
    (drained : s'.drained = s.drained) (bumped : s'.bumped = s.bumped) : Listed pieces p' s' := by
  have same : ∀ j, 2 ≤ p'.at_ j ↔ 2 ≤ p.at_ j := by
    intro j
    rw [at_]
    by_cases own : j = k
    · subst own
      rw [Function.update_self]
      omega
    · rw [Function.update_of_ne own]
  refine ⟨bumps ▸ listed.length, drained ▸ listed.drained_le, ?_, ?_, ?_, ?_⟩
  · rw [bumped, drained, listed.bumped]
  · intro j below
    rw [same]
    exact listed.passed j (drained ▸ below)
  · intro j from_ below
    rw [bumps, listed.waiting j (drained ▸ from_) below]
    simp only [same]
  · intro inside waits
    rw [drained] at inside waits
    rw [same] at waits
    obtain ⟨j, turn⟩ := listed.looks inside waits
    refine ⟨j, ?_⟩
    have own : j ≠ k := by
      rintro rfl
      omega
    rw [at_, Function.update_of_ne own, turn]

theorem TryStep.frame {g : Nat} {more : List Instr} (tried : TryStep s g s' more) :
    ∃ claimed, s' = { s with claimed } := by
  cases tried with
  | won => exact ⟨_, rfl⟩
  | _ => exact ⟨s.claimed, rfl⟩

theorem GivenStep.frame {instr : Instr} {more : List Instr} {wrote : List Effect}
    (step : GivenStep log2 l starts s instr s' more wrote) :
    ∃ left pieces readers, s' = { s with left, pieces, readers } := by
  cases step with
  | write => exact ⟨_, s.pieces, s.readers, rfl⟩
  | placeGap => exact ⟨s.left, s.pieces, s.readers, rfl⟩
  | dropReader => exact ⟨s.left, s.pieces, _, rfl⟩
  | release => exact ⟨s.left, _, s.readers, rfl⟩

theorem Listed.chunk {k : Nat} {more : List Instr} {wrote : List Effect} {workers : List Worker}
    {log : List Effect} (listed : Listed pieces p s) (inside : k < starts.length)
    (step : ChunkStep pieces s k (p.at_ k) s' more wrote) :
    Listed pieces { p with workers, at_ := Function.update p.at_ k (p.at_ k + 1), log } s' := by
  generalize turn : p.at_ k = j at step
  cases step with
  | settle => exact listed.elsewhere (k := k) (.inl turn) (by rw [turn]) rfl rfl rfl
  | list =>
      have late : s.drained ≤ k := by
        by_contra early
        have past := listed.passed k (Nat.not_le.mp early)
        omega
      refine ⟨(List.length_set ..).trans listed.length, listed.drained_le, listed.bumped, ?_, ?_, ?_⟩
      · intro i below
        have apart : i ≠ k := (Nat.lt_of_lt_of_le below late).ne
        exact (listed.passed i below).trans_eq (Function.update_of_ne apart ..).symm
      · intro i from_ below
        by_cases own : i = k
        · subst own
          change (s.bumps.set i _)[i]? = some (if 2 ≤ Function.update p.at_ i (1 + 1) i then _ else _)
          rw [List.getElem?_set_self (listed.length ▸ below), Function.update_self, if_pos le_rfl]
        · change (s.bumps.set k _)[i]? = some (if 2 ≤ Function.update p.at_ k (1 + 1) i then _ else _)
          rw [List.getElem?_set_ne (Ne.symm own), Function.update_of_ne own]
          exact listed.waiting i from_ below
      · exact fun _ _ => ⟨k, Function.update_self ..⟩
  | drained through =>
      refine ⟨listed.length, listed.drained_le, listed.bumped, ?_, ?_, ?_⟩
      · intro i below
        have past := listed.passed i below
        change 2 ≤ Function.update p.at_ k (2 + 1) i
        rw [Function.update_apply]
        split <;> omega
      · intro i from_ below
        change s.bumps[i]? = some (if 2 ≤ Function.update p.at_ k (2 + 1) i then _ else _)
        rw [listed.waiting i from_ below]
        by_cases own : i = k
        · subst own
          rw [Function.update_self, turn]
          rfl
        · rw [Function.update_of_ne own]
      · intro within waits
        exfalso
        have listedNow := listed.waiting s.drained le_rfl within
        have past : 2 ≤ p.at_ s.drained := by
          change 2 ≤ Function.update p.at_ k (2 + 1) s.drained at waits
          rw [Function.update_apply] at waits
          split at waits
          · next own =>
            rw [own, turn]
          · exact waits
        rw [if_pos past] at listedNow
        rcases through with done | none_
        · exact absurd within (Nat.not_lt.mpr done)
        · rw [listedNow] at none_
          cases none_
  | keep => exact listed.elsewhere (k := k) (.inr (by omega)) (by rw [turn]) rfl rfl rfl
  | finish => exact listed.elsewhere (k := k) (.inr (by omega)) (by rw [turn]) rfl rfl rfl
  | look => exact listed.elsewhere (k := k) (.inr (by omega)) (by rw [turn]) rfl rfl rfl
  | tryLeft tried =>
      obtain ⟨claimed, rfl⟩ := tried.frame
      exact listed.elsewhere (k := k) (.inr (by omega)) (by rw [turn]) rfl rfl rfl
  | tryRight tried =>
      obtain ⟨claimed, rfl⟩ := tried.frame
      exact listed.elsewhere (k := k) (.inr (by omega)) (by rw [turn]) rfl rfl rfl

theorem Listed.advance {pool : Pool Shared Instr} (listed : Listed pieces p s)
    (tracks : Tracks pieces pool p) (step : Advance pieces p s p' s') : Listed pieces p' s' := by
  cases step with
  | leave => exact listed.frame rfl rfl rfl rfl
  | claim => exact listed.frame rfl rfl rfl rfl
  | @drain w k keys here turn inside found =>
      have waits := listed.waiting s.drained le_rfl inside
      rw [found, Option.some.injEq] at waits
      have past : 2 ≤ p.at_ s.drained := by
        by_contra early
        rw [if_neg early] at waits
        cases waits
      rw [if_pos past, Option.some.injEq] at waits
      subst waits
      refine ⟨(List.length_set ..).trans listed.length, inside, ?_, ?_, ?_, ?_⟩
      · change s.bumped ++ _ = (List.range (s.drained + 1)).flatMap _
        rw [List.range_succ, List.flatMap_append, listed.bumped]
        simp
      · intro i below
        rcases Nat.lt_succ_iff_lt_or_eq.mp below with less | rfl
        · exact listed.passed i less
        · exact past
      · intro i from_ below
        have apart : s.drained ≠ i := (Nat.lt_of_succ_le from_).ne
        change (s.bumps.set s.drained none)[i]? = _
        rw [List.getElem?_set_ne apart]
        exact listed.waiting i (Nat.le_of_succ_le from_) below
      · exact fun _ _ => ⟨k, turn⟩
  | @chunk w k _ more wrote here step =>
      exact listed.chunk (Nat.lt_of_lt_of_le (tracks.below w k [] here) tracks.next_le) step
  | given here step =>
      obtain ⟨left, held, readers, rfl⟩ := step.frame
      exact listed.frame rfl rfl rfl rfl

/-! ## The flags -/

structure Marked (starts : List Nat) (p : Progress) (s : Shared) : Prop where
  done : ∀ k < starts.length, s.done[k]? = some (decide (5 ≤ p.at_ k))
  length : s.claimed.length = starts.length - 1
  both : ∀ g, s.claimed[g]? = some true → 5 ≤ p.at_ g ∧ 5 ≤ p.at_ (g + 1)
  /-- A gap both whose chunks have looked is claimed. -/
  tried : ∀ g, g + 1 < starts.length → 8 ≤ p.at_ g → 7 ≤ p.at_ (g + 1) → s.claimed[g]? = some true

theorem Marked.frame (marked : Marked starts p s) (at_ : p'.at_ = p.at_)
    (done : s'.done = s.done) (claimed : s'.claimed = s.claimed) :
    Marked starts p' s' where
  done := by rw [at_, done]; exact marked.done
  length := claimed ▸ marked.length
  both := by rw [at_, claimed]; exact marked.both
  tried := by rw [at_, claimed]; exact marked.tried

/-- A chunk that goes on without reaching a flag. -/
theorem Marked.elsewhere {k : Nat} (marked : Marked starts p s)
    (apart : p.at_ k < 4 ∨ p.at_ k = 5) (at_ : p'.at_ = Function.update p.at_ k (p.at_ k + 1))
    (done : s'.done = s.done) (claimed : s'.claimed = s.claimed) :
    Marked starts p' s' := by
  have fifth : ∀ j, 5 ≤ p'.at_ j ↔ 5 ≤ p.at_ j := by
    intro j
    rw [at_, Function.update_apply]
    split
    · next own =>
      rw [own]
      omega
    · rfl
  have later : ∀ j bound, 7 ≤ bound → bound ≤ p'.at_ j → bound ≤ p.at_ j := by
    intro j bound large
    rw [at_, Function.update_apply]
    split
    · next own =>
      rw [own]
      omega
    · exact id
  refine ⟨fun j inside => ?_, claimed ▸ marked.length, fun g taken => ?_, fun g inside left right => ?_⟩
  · rw [done, marked.done j inside]
    simp only [fifth]
  · rw [fifth, fifth]
    exact marked.both g (claimed ▸ taken)
  · rw [claimed]
    exact marked.tried g inside (later _ _ (by omega) left) (later _ _ le_rfl right)

/-- A chunk that has looked at a gap. -/
theorem Marked.looked {k g : Nat} {more : List Instr} (marked : Marked starts p s)
    (tried : TryStep s g s' more) (large : 6 ≤ p.at_ k)
    (at_ : p'.at_ = Function.update p.at_ k (p.at_ k + 1))
    (own : ∀ i, i + 1 < starts.length → 8 ≤ p'.at_ i → 7 ≤ p'.at_ (i + 1) →
      8 ≤ p.at_ i ∧ 7 ≤ p.at_ (i + 1) ∨ i = g ∧ 5 ≤ p.at_ g ∧ 5 ≤ p.at_ (g + 1)) :
    Marked starts p' s' := by
  have fifth : ∀ j, 5 ≤ p'.at_ j ↔ 5 ≤ p.at_ j := by
    intro j
    rw [at_, Function.update_apply]
    split
    · next own =>
      rw [own]
      omega
    · rfl
  have isDone : ∀ j, j < starts.length → 5 ≤ p.at_ j → s.done[j]? ≠ some false := by
    intro j inside past
    rw [marked.done j inside, decide_eq_true past]
    simp
  cases tried with
  | won inside left right free =>
      rw [marked.length] at inside
      have both : 5 ≤ p.at_ g ∧ 5 ≤ p.at_ (g + 1) := by
        constructor
        · by_contra early
          exact left (by rw [marked.done g (by omega), decide_eq_false early])
        · by_contra early
          exact right (by rw [marked.done (g + 1) (by omega), decide_eq_false early])
      refine ⟨fun j within => ?_, (List.length_set ..).trans marked.length, fun i taken => ?_,
        fun i within leftPast rightPast => ?_⟩
      · rw [marked.done j within]
        simp only [fifth]
      · rw [fifth, fifth]
        by_cases same : i = g
        · exact same ▸ both
        · exact marked.both i ((List.getElem?_set_ne (Ne.symm same)).symm.trans taken)
      · change (s.claimed.set g true)[i]? = some true
        by_cases same : i = g
        · rw [same, List.getElem?_set_self (marked.length ▸ inside)]
        · rw [List.getElem?_set_ne (Ne.symm same)]
          rcases own i within leftPast rightPast with earlier | ⟨here, -⟩
          · exact marked.tried i within earlier.1 earlier.2
          · exact absurd here same
  | _ =>
      refine ⟨fun j within => ?_, marked.length, fun i taken => ?_,
        fun i within leftPast rightPast => ?_⟩
      · rw [marked.done j within]
        simp only [fifth]
      · rw [fifth, fifth]
        exact marked.both i taken
      · rcases own i within leftPast rightPast with earlier | ⟨rfl, leftDone, rightDone⟩
        · exact marked.tried i within earlier.1 earlier.2
        · first
          | exact absurd ‹s.claimed.length ≤ i› (by rw [marked.length]; omega)
          | exact ‹s.claimed[i]? = some true›
          | exact absurd ‹s.done[i]? = some false ∨ s.done[i + 1]? = some false›
              (not_or.mpr ⟨isDone i (by omega) leftDone, isDone (i + 1) within rightDone⟩)

theorem Marked.chunk {k : Nat} {more : List Instr} {wrote : List Effect} {workers : List Worker}
    {log : List Effect} (marked : Marked starts p s) (few : starts.length < 2 ^ 64)
    (inside : k < starts.length) (step : ChunkStep pieces s k (p.at_ k) s' more wrote) :
    Marked starts
      { p with workers, at_ := Function.update p.at_ k (p.at_ k + 1), log } s' := by
  generalize turn : p.at_ k = j at step
  cases step with
  | finish =>
      refine ⟨fun i within => ?_, marked.length, fun g taken => ?_, fun g within left right => ?_⟩
      · change (s.done.set k true)[i]? = some (decide (5 ≤ Function.update p.at_ k (4 + 1) i))
        by_cases own : i = k
        · subst own
          have length := (List.getElem?_eq_some_iff.mp (marked.done i within)).1
          rw [List.getElem?_set_self length, Function.update_self]
          rfl
        · rw [List.getElem?_set_ne (Ne.symm own), Function.update_of_ne own]
          exact marked.done i within
      · obtain ⟨left, right⟩ := marked.both g taken
        change 5 ≤ Function.update p.at_ k (4 + 1) g ∧ 5 ≤ Function.update p.at_ k (4 + 1) (g + 1)
        rw [Function.update_apply, Function.update_apply]
        constructor <;> split <;> omega
      · have earlier : ∀ i bound, 7 ≤ bound → bound ≤ Function.update p.at_ k (4 + 1) i →
            bound ≤ p.at_ i := by
          intro i bound large
          rw [Function.update_apply]
          split <;> omega
        exact marked.tried g within (earlier _ _ (by omega) left) (earlier _ _ le_rfl right)
  | tryLeft tried =>
      refine marked.looked (k := k) tried (by omega) (by rw [turn]) fun i within left right => ?_
      change 8 ≤ Function.update p.at_ k (6 + 1) i at left
      change 7 ≤ Function.update p.at_ k (6 + 1) (i + 1) at right
      rw [Function.update_apply] at left right
      split at left
      · omega
      · split at right
        · next here =>
          have before : (k + (2 ^ 64 - 1)) % 2 ^ 64 = i := by
            rw [← here]
            omega
          rw [before]
          exact .inr ⟨rfl, by omega, by rw [here]; omega⟩
        · exact .inl ⟨left, right⟩
  | tryRight tried =>
      refine marked.looked (k := k) tried (by omega) (by rw [turn]) fun i within left right => ?_
      change 8 ≤ Function.update p.at_ k (7 + 1) i at left
      change 7 ≤ Function.update p.at_ k (7 + 1) (i + 1) at right
      rw [Function.update_apply] at left right
      split at left
      · next here =>
        subst here
        rw [if_neg (by omega)] at right
        exact .inr ⟨rfl, by omega, by omega⟩
      · split at right
        · next here => exact .inl ⟨left, by rw [here]; omega⟩
        · exact .inl ⟨left, right⟩
  | look => exact marked.elsewhere (k := k) (.inr turn) (by rw [turn]) rfl rfl
  | _ => exact marked.elsewhere (k := k) (.inl (by omega)) (by rw [turn]) rfl rfl

theorem Marked.advance {pool : Pool Shared Instr} (marked : Marked starts p s)
    (tracks : Tracks pieces pool p) (few : starts.length < 2 ^ 64)
    (step : Advance pieces p s p' s') : Marked starts p' s' := by
  cases step with
  | leave => exact marked.frame rfl rfl rfl
  | claim => exact marked.frame rfl rfl rfl
  | drain => exact marked.frame rfl rfl rfl
  | @chunk w k _ more wrote here step =>
      exact marked.chunk few (Nat.lt_of_lt_of_le (tracks.below w k [] here) tracks.next_le) step
  | given here step =>
      obtain ⟨left, held, readers, rfl⟩ := step.frame
      exact marked.frame rfl rfl rfl

end Lexindex.Mphf
