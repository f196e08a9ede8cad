import Mathlib
import Lexindex.Mphf.RunSound

/-!
# The rounds of a run

Each round of a run takes one bucket off its queue.  The bucket lies in the round's window, from the
lowest bucket still unplaced on; the rounds end; and over all of them every bucket with keys is taken
once, so that each is seeded or bumped once and the other seeds stay what they were.
-/

set_option autoImplicit false

namespace Lexindex.Mphf

namespace Queue

/-- The bucket of each round, and the front of its window; `none` when they do not end in `fuel`
rounds. -/
def roundsFrom (slice : Nat) (size : Nat → Nat) (last : Nat) : Nat → Queue → Option (List (Nat × Nat))
  | 0, _ => none
  | fuel + 1, q => do
      match ← q.pop slice size last with
      | none => pure []
      | some (b, q) => do
          let rest ← roundsFrom slice size last fuel q
          pure ((b, q.front) :: rest)

def rounds (slice : Nat) (size : Nat → Nat) (last : Nat) : Option (List (Nat × Nat)) :=
  roundsFrom slice size last (last + 1) (start slice last)

/-- Inside the window of its round. -/
def Windowed (last : Nat) (round : Nat × Nat) : Prop :=
  round.2 ≤ round.1 ∧ round.1 < min last (round.2 + runWindow)

variable {slice last : Nat} {size : Nat → Nat}

theorem Valid.rounds : ∀ (fuel : Nat) {q : Queue} {taken : List Nat}, q.Valid slice last size →
    orderFrom slice size last fuel q = some taken →
    ∃ found, roundsFrom slice size last fuel q = some found ∧ found.map Prod.fst = taken ∧
      ∀ round ∈ found, Windowed last round := by
  intro fuel
  induction fuel with
  | zero =>
      intro q taken _ ordered
      cases ordered
  | succ fuel ih =>
      intro q taken valid ordered
      rcases valid.pop with ⟨popped, -⟩ | ⟨b, after, popped, validAfter, -, -, inside, -⟩
      · rw [orderFrom, popped] at ordered
        obtain rfl : [] = taken := Option.some.inj ordered
        refine ⟨[], ?_, rfl, fun round member => absurd member List.not_mem_nil⟩
        rw [roundsFrom, popped]
        rfl
      · rw [orderFrom, popped, Option.bind_eq_bind, Option.bind_some] at ordered
        obtain ⟨rest, later, ordered⟩ := Option.bind_eq_some_iff.mp ordered
        obtain rfl : b :: rest = taken := Option.some.inj ordered
        obtain ⟨found, roundsAre, same, windowed⟩ := ih validAfter later
        refine ⟨(b, after.front) :: found, ?_, ?_, List.forall_mem_cons.mpr ⟨inside, windowed⟩⟩
        · rw [roundsFrom, popped, Option.bind_eq_bind, Option.bind_some]
          simp only [roundsAre, Option.bind_eq_bind, Option.bind_some, Option.pure_def]
        · rw [List.map_cons, same]

/-- The rounds end, each takes a bucket of its window, and together they take each bucket with keys
once. -/
theorem rounds_exact (slice : Nat) (size : Nat → Nat) (last : Nat) :
    ∃ found, rounds slice size last = some found ∧ (∀ round ∈ found, Windowed last round) ∧
      (found.map Prod.fst).Nodup ∧ (∀ b, b ∈ found.map Prod.fst ↔ b < last ∧ size b ≠ 0) ∧
      order slice size last = some (found.map Prod.fst) := by
  obtain ⟨taken, ordered, nodup, members⟩ := order_exact slice size last
  obtain ⟨found, roundsAre, rfl, windowed⟩ := start_valid.rounds (last + 1) ordered
  exact ⟨found, roundsAre, windowed, nodup, members, ordered⟩

end Queue

namespace Run

variable (run : Run) (log2 : Nat → Nat) (origin : Nat)

/-- What the search answers for a bucket at its turn. -/
def answerAt (s : Seeding) (b : Nat) : Nat × Map :=
  (run.level.seedOneBucket log2 (run.keysOf b) s.taken origin s.scratch).1

theorem seedOne_seeds (s : Seeding) (b : Nat) : (run.seedOne log2 origin s b).seeds =
    s.seeds.set b (UInt8.ofNat (run.answerAt log2 origin s b).1) :=
  rfl

theorem length_foldl_seedOne (order : List Nat) : ∀ s : Seeding,
    (order.foldl (run.seedOne log2 origin) s).seeds.length = s.seeds.length := by
  induction order with
  | nil => exact fun _ => rfl
  | cons b order ih =>
      intro s
      rw [List.foldl_cons, ih, seedOne_seeds, List.length_set]

/-- Buckets that are not taken keep their seeds. -/
theorem foldl_seedOne_other {b : Nat} (order : List Nat) : ∀ s : Seeding, b ∉ order →
    (order.foldl (run.seedOne log2 origin) s).seeds[b]? = s.seeds[b]? := by
  induction order with
  | nil => exact fun _ _ => rfl
  | cons c order ih =>
      intro s absent
      rw [List.mem_cons, not_or] at absent
      rw [List.foldl_cons, ih _ absent.2, seedOne_seeds, List.getElem?_set_ne (Ne.symm absent.1)]

/-- A bucket that is taken once has the seed of its turn in the end. -/
theorem foldl_seedOne_turn {b : Nat} {earlier later : List Nat} (s : Seeding)
    (once : (earlier ++ b :: later).Nodup) (inside : b < s.seeds.length) :
    ((earlier ++ b :: later).foldl (run.seedOne log2 origin) s).seeds[b]? =
      some (UInt8.ofNat (run.answerAt log2 origin (earlier.foldl (run.seedOne log2 origin) s) b).1) := by
  have absent : b ∉ later := by
    have tail := (List.nodup_append.mp once).2.1
    exact (List.nodup_cons.mp tail).1
  rw [List.foldl_append, List.foldl_cons, foldl_seedOne_other run log2 origin later _ absent,
    seedOne_seeds, List.getElem?_set_self]
  rwa [length_foldl_seedOne]

section Strided

variable {run} (strided : run.level.Strided)
include strided

theorem foldl_seedOne_shape (order : List Nat) : ∀ {s : Seeding}, s.taken.shift = run.level.shift →
    s.scratch.Sized → (order.foldl (run.seedOne log2 origin) s).taken.shift = run.level.shift ∧
      (order.foldl (run.seedOne log2 origin) s).scratch.Sized := by
  induction order with
  | nil => exact fun shifts sized => ⟨shifts, sized⟩
  | cons b order ih =>
      intro s shifts sized
      exact ih (seedOne_shift strided log2 shifts sized)
        (strided.seedOneBucket_seeded shifts log2 sized).2

/-- At its turn a bucket is seeded where its keys have free places of their own, or bumped with the map
as it was. -/
theorem answerAt_seeded (order : List Nat) {b : Nat} {s : Seeding} (shifts : s.taken.shift = run.level.shift)
    (sized : s.scratch.Sized) :
    run.level.Seeded origin (order.foldl (run.seedOne log2 origin) s).taken (run.keysOf b)
      (run.answerAt log2 origin (order.foldl (run.seedOne log2 origin) s) b) := by
  obtain ⟨shiftsNow, sizedNow⟩ := foldl_seedOne_shape log2 origin strided order shifts sized
  exact (strided.seedOneBucket_seeded shiftsNow log2 sizedNow).1

end Strided

/-- What a run starts from. -/
def begun (seeds : List UInt8) (taken : Map) : Seeding :=
  { seeds, taken, scratch := LaneScratch.new }

/-- A run ends, every round takes a bucket of its window, every bucket with keys is seeded or bumped at
one turn, and no other seed is written. -/
theorem seedRun_exact (seeds : List UInt8) (taken : Map) :
    ∃ rounds, Queue.rounds run.level.slice run.size seeds.length = some rounds ∧
      (∀ round ∈ rounds, Queue.Windowed seeds.length round) ∧
      (rounds.map Prod.fst).Nodup ∧
      (∀ b, b ∈ rounds.map Prod.fst ↔ b < seeds.length ∧ run.size b ≠ 0) ∧
      ∃ seeds' taken', run.seedRun log2 seeds taken origin = some (seeds', taken') ∧
        seeds'.length = seeds.length ∧
        (∀ b, b ∉ rounds.map Prod.fst → seeds'[b]? = seeds[b]?) ∧
        ∀ earlier b later, rounds.map Prod.fst = earlier ++ b :: later →
          let turn := earlier.foldl (run.seedOne log2 origin) (begun seeds taken)
          seeds'[b]? = some (UInt8.ofNat (run.answerAt log2 origin turn b).1) ∧
          (run.level.Strided → taken.shift = run.level.shift →
            run.level.Seeded origin turn.taken (run.keysOf b) (run.answerAt log2 origin turn b)) := by
  obtain ⟨rounds, ended, windowed, once, members, ordered⟩ :=
    Queue.rounds_exact run.level.slice run.size seeds.length
  obtain ⟨order, -, -, ordered', result⟩ := run.seedRun_eq log2 seeds taken origin
  obtain rfl : rounds.map Prod.fst = order := Option.some.inj (ordered.symm.trans ordered')
  refine ⟨rounds, ended, windowed, once, members, _, _, result, ?_, ?_, ?_⟩
  · exact length_foldl_seedOne run log2 origin _ (begun seeds taken)
  · exact fun b absent => foldl_seedOne_other run log2 origin _ (begun seeds taken) absent
  · intro earlier b later cut
    have member : b ∈ rounds.map Prod.fst := by
      rw [cut]
      exact List.mem_append_right _ List.mem_cons_self
    rw [cut] at once
    rw [cut]
    refine ⟨foldl_seedOne_turn run log2 origin (begun seeds taken) once ((members b).mp member).1, ?_⟩
    intro strided shifts
    exact answerAt_seeded log2 origin strided earlier shifts LaneScratch.new_sized

/-- One bucket of one key. -/
def oneKeyRun : Run :=
  { level := Level.ofShape 1024 1 1024 2, keys := [5], start := [0, 1] }

theorem seedRun_exact_one_key : ∃ turn : Seeding,
    oneKeyRun.level.Seeded 0 turn.taken [5] (oneKeyRun.answerAt (fun _ => 0) 0 turn 0) := by
  obtain ⟨rounds, -, -, -, members, seeds', taken', -, -, -, turns⟩ :=
    seedRun_exact oneKeyRun (fun _ => 0) 0 [0] (Map.new 1024 4)
  obtain ⟨earlier, later, cut⟩ := List.append_of_mem ((members 0).mpr (by decide))
  exact ⟨_, (turns earlier 0 later cut).2 ⟨by decide, by decide⟩ (by decide)⟩

end Run

end Lexindex.Mphf
