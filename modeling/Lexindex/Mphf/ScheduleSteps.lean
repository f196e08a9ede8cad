import Mathlib
import Lexindex.Mphf.Schedule

/-!
# What a worker's step can be

Each worker has what it is still to do for a gap or a release, then the rest of its chunk's program,
then the next claim.  A step moves one worker on: it claims a chunk or leaves, makes the next access
of its chunk's program, or the next of what it has been given besides.
-/

set_option autoImplicit false

namespace Lexindex.Mphf

variable (log2 : Nat → Nat) (l : Level) (starts hs : List Nat)

/-- What the chunks of a level place, and the gaps between them. -/
structure LevelPieces where
  run : Nat → SeededPiece × Piece
  gap : Nat → SeededPiece × Map × Nat
  runs : ∀ k < starts.length,
    l.placeChunk log2 starts (chunkAt hs starts l.buckets k) = some (run k)
  gaps : ∀ g, g + 1 < starts.length →
    l.placeGap log2 starts g (run g).2 (run (g + 1)).2 = some (gap g)

/-- A worker: what it is to do before it goes on with its chunk, and the chunk. -/
inductive Worker
  | gone
  | busy (chunk : Option Nat) (todo : List Instr)

/-- How far the workers are. -/
structure Progress where
  workers : List Worker
  /-- How much of each chunk's program is done. -/
  at_ : Nat → Nat
  next : Nat
  /-- What has been written, in order. -/
  log : List Effect

/-- What a worker may be given to do besides its chunk's program. -/
def Instr.Given : Instr → Prop
  | .write _ | .placeGap _ | .dropReader _ | .release _ => True
  | _ => False

variable {log2 l starts hs} (pieces : LevelPieces log2 l starts hs)

namespace LevelPieces

/-- The rest of a chunk's program. -/
def rest (at_ : Nat → Nat) : Option Nat → List Instr
  | none => []
  | some k => (chunkProgram k (pieces.run k)).drop (at_ k)

def program (at_ : Nat → Nat) : Worker → List Instr
  | .gone => []
  | .busy chunk todo => todo ++ (pieces.rest at_ chunk ++ [.claim])

end LevelPieces

/-! ## One step -/

/-- Looking at gap `g`. -/
inductive TryStep (s : Shared) (g : Nat) : Shared → List Instr → Prop
  | outside (none_ : s.claimed.length ≤ g) : TryStep s g s []
  | early (undone : s.done[g]? = some false ∨ s.done[g + 1]? = some false) : TryStep s g s []
  | late (taken : s.claimed[g]? = some true) : TryStep s g s []
  | won (inside : g < s.claimed.length) (left : s.done[g]? ≠ some false)
      (right : s.done[g + 1]? ≠ some false) (free : s.claimed[g]? ≠ some true) :
      TryStep s g { s with claimed := s.claimed.set g true } [.placeGap g]

/-- The accesses of chunk `k`'s program, by how many came before, with what is given to do next and
what is written. -/
inductive ChunkStep (s : Shared) (k : Nat) : Nat → Shared → List Instr → List Effect → Prop
  | settle (allowed : s.left.Allows (.settle (pieces.run k).1)) :
      ChunkStep s k 0 { s with left := s.left.apply l (.settle (pieces.run k).1) } []
        [.settle (pieces.run k).1]
  | list : ChunkStep s k 1 { s with bumps := s.bumps.set k (some (pieces.run k).1.bumped) } [] []
  | drained (through : starts.length ≤ s.drained ∨ s.bumps[s.drained]? = some none) :
      ChunkStep s k 2 s [] []
  | keep : ChunkStep s k 3 { s with pieces := s.pieces.set k (some (pieces.run k).2) } [] []
  | finish : ChunkStep s k 4 { s with done := s.done.set k true } [] []
  | look {readers : Nat} (read : s.readers[k]? = some readers) :
      ChunkStep s k 5 s (if readers = 0 then [.release k] else []) []
  | tryLeft {s' : Shared} {more : List Instr}
      (tried : TryStep s ((k + (2 ^ 64 - 1)) % 2 ^ 64) s' more) : ChunkStep s k 6 s' more []
  | tryRight {s' : Shared} {more : List Instr} (tried : TryStep s k s' more) :
      ChunkStep s k 7 s' more []

/-- The instructions given to do besides. -/
inductive GivenStep (log2 : Nat → Nat) (l : Level) (starts : List Nat) (s : Shared) :
    Instr → Shared → List Instr → List Effect → Prop
  | write {effect : Effect} (allowed : s.left.Allows effect) :
      GivenStep log2 l starts s (.write effect) { s with left := s.left.apply l effect } [] [effect]
  | placeGap {g : Nat} {a b : Piece} {placed : SeededPiece × Map × Nat}
      (left : s.pieces[g]?.join = some a) (right : s.pieces[g + 1]?.join = some b)
      (placedIs : l.placeGap log2 starts g a b = some placed) :
      GivenStep log2 l starts s (.placeGap g) s (gapProgram g placed) []
  | dropReader {k readers : Nat} (read : s.readers[k]? = some readers) :
      GivenStep log2 l starts s (.dropReader k)
        { s with readers := s.readers.set k ((readers + (2 ^ 64 - 1)) % 2 ^ 64) }
        (if readers = 1 then [.release k] else []) []
  | release {k : Nat} {piece : Piece} (kept : s.pieces[k]?.join = some piece) :
      GivenStep log2 l starts s (.release k) { s with pieces := s.pieces.set k none }
        (releaseProgram starts.length k piece) []

/-- One worker moves on. -/
inductive Advance (p : Progress) (s : Shared) : Progress → Shared → Prop
  | leave {w : Nat} {chunk : Option Nat} {feed : Feed}
      (here : p.workers[w]? = some (.busy chunk [])) (through : pieces.rest p.at_ chunk = [])
      (all : p.next = starts.length) :
      Advance p s { p with workers := p.workers.set w .gone } { s with feed }
  | claim {w : Nat} {chunk : Option Nat} {feed : Feed}
      (here : p.workers[w]? = some (.busy chunk [])) (through : pieces.rest p.at_ chunk = [])
      (some_left : p.next < starts.length) :
      Advance p s
        { p with workers := p.workers.set w (.busy (some p.next) []), next := p.next + 1 }
        { s with feed }
  | drain {w k : Nat} {keys : List Nat} (here : p.workers[w]? = some (.busy (some k) []))
      (turn : p.at_ k = 2) (inside : s.drained < starts.length)
      (listed : s.bumps[s.drained]? = some (some keys)) :
      Advance p s p { s with bumps := s.bumps.set s.drained none, drained := s.drained + 1
                             bumped := s.bumped ++ keys }
  | chunk {w k : Nat} {s' : Shared} {more : List Instr} {wrote : List Effect}
      (here : p.workers[w]? = some (.busy (some k) []))
      (step : ChunkStep pieces s k (p.at_ k) s' more wrote) :
      Advance p s
        { p with workers := p.workers.set w (.busy (some k) more)
                 at_ := Function.update p.at_ k (p.at_ k + 1), log := p.log ++ wrote } s'
  | given {w : Nat} {chunk : Option Nat} {instr : Instr} {todo more : List Instr} {s' : Shared}
      {wrote : List Effect} (here : p.workers[w]? = some (.busy chunk (instr :: todo)))
      (step : GivenStep log2 l starts s instr s' more wrote) :
      Advance p s
        { p with workers := p.workers.set w (.busy chunk (more ++ todo)), log := p.log ++ wrote } s'

/-! ## Workers and their programs -/

/-- The programs of a pool are those of workers this far. -/
structure Tracks (pool : Pool Shared Instr) (p : Progress) : Prop where
  programs : pool.programs = p.workers.map (pieces.program p.at_)
  feed : pool.shared.feed.At hs starts l.buckets p.next
  next_le : p.next ≤ starts.length
  fresh : ∀ k, p.next ≤ k → p.at_ k = 0
  at_le : ∀ k, p.at_ k ≤ 8
  below : ∀ (w k : Nat) (todo : List Instr), p.workers[w]? = some (.busy (some k) todo) → k < p.next
  once : ∀ (w v k : Nat) (todo other : List Instr), p.workers[w]? = some (.busy (some k) todo) →
    p.workers[v]? = some (.busy (some k) other) → w = v
  held : ∀ k < p.next, p.at_ k < 8 →
    ∃ (w : Nat) (todo : List Instr), p.workers[w]? = some (.busy (some k) todo)
  gone : Worker.gone ∈ p.workers → p.next = starts.length
  given : ∀ (w : Nat) (chunk : Option Nat) (todo : List Instr),
    p.workers[w]? = some (.busy chunk todo) → ∀ instr ∈ todo, instr.Given

section Steps

variable {pieces} {pool : Pool Shared Instr} {p : Progress}

theorem TryStep.of_execute {g : Nat} {s s' : Shared} {more : List Instr}
    (ran : execute log2 l starts (.tryGap g) s = some (s', more)) : TryStep s g s' more := by
  rw [execute] at ran
  split at ran
  · next stop =>
    obtain ⟨rfl, rfl⟩ := Prod.mk.injEq .. ▸ Option.some.inj ran
    rcases stop with none_ | undone
    · exact .outside none_
    · exact .early undone
  · next ready =>
    rw [not_or, not_or, Nat.not_le] at ready
    split at ran
    · next taken =>
      obtain ⟨rfl, rfl⟩ := Prod.mk.injEq .. ▸ Option.some.inj ran
      exact .late taken
    · next free =>
      obtain ⟨rfl, rfl⟩ := Prod.mk.injEq .. ▸ Option.some.inj ran
      exact .won ready.1 ready.2.1 ready.2.2 free

theorem GivenStep.of_execute {instr : Instr} (given : instr.Given) {s s' : Shared}
    {more : List Instr} (ran : execute log2 l starts instr s = some (s', more)) :
    ∃ wrote, GivenStep log2 l starts s instr s' more wrote := by
  cases instr with
  | write effect =>
      rw [execute] at ran
      split at ran
      · next allowed =>
        obtain ⟨rfl, rfl⟩ := Prod.mk.injEq .. ▸ Option.some.inj ran
        exact ⟨_, .write allowed⟩
      · cases ran
  | placeGap g =>
      simp only [execute, Option.bind_eq_bind, Option.bind_eq_some_iff, Option.some.injEq,
        Prod.mk.injEq] at ran
      obtain ⟨a, left, b, right, placed, placedIs, rfl, rfl⟩ := ran
      exact ⟨_, .placeGap left right placedIs⟩
  | dropReader k =>
      simp only [execute, Option.bind_eq_bind, Option.bind_eq_some_iff, Option.some.injEq,
        Prod.mk.injEq] at ran
      obtain ⟨readers, read, rfl, rfl⟩ := ran
      exact ⟨_, .dropReader read⟩
  | release k =>
      simp only [execute, Option.bind_eq_bind, Option.bind_eq_some_iff, Option.some.injEq,
        Prod.mk.injEq] at ran
      obtain ⟨piece, kept, rfl, rfl⟩ := ran
      exact ⟨_, .release kept⟩
  | _ => exact absurd given (by simp [Instr.Given])

/-- An access of a chunk's program, or one more chunk's keys listed. -/
theorem ChunkStep.of_execute {k j : Nat} {instr : Instr} {s s' : Shared} {more : List Instr}
    (here : (chunkProgram k (pieces.run k))[j]? = some instr)
    (ran : execute log2 l starts instr s = some (s', more)) :
    (∃ wrote, ChunkStep pieces s k j s' more wrote) ∨
      j = 2 ∧ instr = .drain ∧ more = [.drain] ∧ s.drained < starts.length ∧
        ∃ keys, s.bumps[s.drained]? = some (some keys) ∧
          s' = { s with bumps := s.bumps.set s.drained none, drained := s.drained + 1
                        bumped := s.bumped ++ keys } := by
  have small : j < 8 := (List.getElem?_eq_some_iff.mp here).1
  interval_cases j <;> obtain rfl := Option.some.inj here
  · rw [execute] at ran
    split at ran
    · next allowed =>
      obtain ⟨rfl, rfl⟩ := Prod.mk.injEq .. ▸ Option.some.inj ran
      exact .inl ⟨_, .settle allowed⟩
    · cases ran
  · obtain ⟨rfl, rfl⟩ := Prod.mk.injEq .. ▸ Option.some.inj ran
    exact .inl ⟨_, .list⟩
  · rw [execute] at ran
    split at ran
    · next inside =>
      split at ran
      · next keys listed =>
        obtain ⟨rfl, rfl⟩ := Prod.mk.injEq .. ▸ Option.some.inj ran
        exact .inr ⟨rfl, rfl, rfl, inside, keys, listed, rfl⟩
      · next listed =>
        obtain ⟨rfl, rfl⟩ := Prod.mk.injEq .. ▸ Option.some.inj ran
        exact .inl ⟨_, .drained (.inr listed)⟩
      · cases ran
    · next through =>
      obtain ⟨rfl, rfl⟩ := Prod.mk.injEq .. ▸ Option.some.inj ran
      exact .inl ⟨_, .drained (.inl (Nat.not_lt.mp through))⟩
  · obtain ⟨rfl, rfl⟩ := Prod.mk.injEq .. ▸ Option.some.inj ran
    exact .inl ⟨_, .keep⟩
  · obtain ⟨rfl, rfl⟩ := Prod.mk.injEq .. ▸ Option.some.inj ran
    exact .inl ⟨_, .finish⟩
  · simp only [execute, Option.bind_eq_bind, Option.bind_eq_some_iff, Option.some.injEq,
      Prod.mk.injEq] at ran
    obtain ⟨readers, read, rfl, rfl⟩ := ran
    exact .inl ⟨_, .look read⟩
  · exact .inl ⟨_, .tryLeft (.of_execute ran)⟩
  · exact .inl ⟨_, .tryRight (.of_execute ran)⟩

/-! ### What a step leaves of the workers -/

theorem worker_set {w v : Nat} {old new other : Worker} (here : p.workers[w]? = some old)
    (read : (p.workers.set w new)[v]? = some other) :
    (v = w ∧ other = new) ∨ (v ≠ w ∧ p.workers[v]? = some other) := by
  have inside := (List.getElem?_eq_some_iff.mp here).1
  by_cases same : v = w
  · subst same
    rw [List.getElem?_set_self inside, Option.some.injEq] at read
    exact .inl ⟨rfl, read.symm⟩
  · rw [List.getElem?_set_ne (Ne.symm same)] at read
    exact .inr ⟨same, read⟩

/-- Moving on in one chunk's program leaves the other workers'. -/
theorem programs_update {w k : Nat} {todo more : List Instr} (tracks : Tracks pieces pool p)
    (here : p.workers[w]? = some (.busy (some k) todo)) (position : Nat) :
    (p.workers.set w (.busy (some k) more)).map
        (pieces.program (Function.update p.at_ k position)) =
      (p.workers.map (pieces.program p.at_)).set w
        (more ++ ((chunkProgram k (pieces.run k)).drop position ++ [.claim])) := by
  refine List.ext_getElem? fun v => ?_
  have inside := (List.getElem?_eq_some_iff.mp here).1
  by_cases same : v = w
  · subst same
    rw [List.getElem?_map, List.getElem?_set_self inside, List.getElem?_set_self (by simpa)]
    simp [LevelPieces.program, LevelPieces.rest]
  · rw [List.getElem?_map, List.getElem?_set_ne (Ne.symm same), List.getElem?_set_ne (Ne.symm same),
      List.getElem?_map]
    cases read : p.workers[v]? with
    | none => rfl
    | some worker =>
        cases worker with
        | gone => rfl
        | busy chunk other =>
            cases chunk with
            | none => rfl
            | some j =>
                have apart : j ≠ k := by
                  rintro rfl
                  exact same (tracks.once v w j other todo read here)
                simp [LevelPieces.program, LevelPieces.rest, apart]

theorem claimed_update {w : Nat} (tracks : Tracks pieces pool p) :
    (p.workers.set w (.busy (some p.next) [])).map (pieces.program p.at_) =
      (p.workers.map (pieces.program p.at_)).set w
        (chunkProgram p.next (pieces.run p.next) ++ [.claim]) := by
  rw [List.map_set]
  simp [LevelPieces.program, LevelPieces.rest, tracks.fresh p.next le_rfl]

theorem execute_claim_none {s : Shared} (ended : (s.feed.next starts l.buckets).1 = none) :
    execute log2 l starts .claim s =
      some ({ s with feed := (s.feed.next starts l.buckets).2 }, []) := by
  rw [execute]
  generalize s.feed.next starts l.buckets = next at ended
  obtain ⟨chunk, feed⟩ := next
  obtain rfl : chunk = none := ended
  rfl

theorem execute_claim_some {s : Shared} {chunk : Chunk} {placed : SeededPiece × Piece}
    (claimed : (s.feed.next starts l.buckets).1 = some chunk)
    (placedIs : l.placeChunk log2 starts chunk = some placed) :
    execute log2 l starts .claim s =
      some ({ s with feed := (s.feed.next starts l.buckets).2 },
        chunkProgram chunk.index placed ++ [.claim]) := by
  rw [execute]
  generalize s.feed.next starts l.buckets = next at claimed
  obtain ⟨found, feed⟩ := next
  obtain rfl : found = some chunk := claimed
  simp only [placedIs, Option.bind_eq_bind, Option.bind_some]

/-! ### The workers after a step -/

/-- A worker given more, or less, to do. -/
theorem Tracks.given_update {w : Nat} {chunk : Option Nat} {todo more : List Instr} {s : Shared}
    {log : List Effect} (tracks : Tracks pieces pool p)
    (here : p.workers[w]? = some (.busy chunk todo)) (feed : s.feed = pool.shared.feed)
    (given : ∀ instr ∈ more, instr.Given) :
    Tracks pieces
      { shared := s
        programs := pool.programs.set w (more ++ (pieces.rest p.at_ chunk ++ [.claim])) }
      { p with workers := p.workers.set w (.busy chunk more), log } where
  programs := by
    rw [List.map_set, ← tracks.programs]
    rfl
  feed := feed ▸ tracks.feed
  next_le := tracks.next_le
  fresh := tracks.fresh
  at_le := tracks.at_le
  below v k other read := by
    rcases worker_set here read with ⟨rfl, new⟩ | ⟨-, old⟩
    · cases new
      exact tracks.below _ k todo here
    · exact tracks.below v k other old
  once v u k one two oneIs twoIs := by
    rcases worker_set here oneIs with ⟨rfl, new⟩ | ⟨-, old⟩
    · cases new
      rcases worker_set here twoIs with ⟨rfl, -⟩ | ⟨-, other⟩
      · rfl
      · exact tracks.once _ u k _ _ here other
    · rcases worker_set here twoIs with ⟨rfl, new⟩ | ⟨-, other⟩
      · cases new
        exact tracks.once _ _ k _ _ old here
      · exact tracks.once v u k _ _ old other
  held k below unfinished := by
    obtain ⟨v, other, read⟩ := tracks.held k below unfinished
    by_cases same : v = w
    · subst same
      rw [here, Option.some.injEq, Worker.busy.injEq] at read
      obtain ⟨rfl, rfl⟩ := read
      exact ⟨v, more, List.getElem?_set_self (List.getElem?_eq_some_iff.mp here).1⟩
    · exact ⟨v, other, (List.getElem?_set_ne (Ne.symm same)).trans read⟩
  gone member := by
    rcases List.mem_or_eq_of_mem_set member with old | new
    · exact tracks.gone old
    · cases new
  given v c other read := by
    rcases worker_set here read with ⟨rfl, new⟩ | ⟨-, old⟩
    · cases new
      exact given
    · exact tracks.given v c other old

/-- A worker that has made an access of its chunk's program. -/
theorem Tracks.chunk_update {w k : Nat} {more : List Instr} {s : Shared} {log : List Effect}
    (tracks : Tracks pieces pool p) (here : p.workers[w]? = some (.busy (some k) []))
    (unfinished : p.at_ k < 8) (feed : s.feed = pool.shared.feed)
    (given : ∀ instr ∈ more, instr.Given) :
    Tracks pieces
      { shared := s
        programs := pool.programs.set w
          (more ++ ((chunkProgram k (pieces.run k)).drop (p.at_ k + 1) ++ [.claim])) }
      { p with workers := p.workers.set w (.busy (some k) more)
               at_ := Function.update p.at_ k (p.at_ k + 1), log } := by
  have inner := @Tracks.given_update _ _ _ _ pieces pool p w (some k) [] more s log tracks here feed given
  refine { inner with programs := ?_, fresh := ?_, at_le := ?_, held := ?_ }
  · rw [tracks.programs]
    exact (programs_update tracks here _).symm
  · intro j above
    have apart : j ≠ k := by
      rintro rfl
      exact absurd (tracks.below w j [] here) (Nat.not_lt.mpr above)
    exact (Function.update_of_ne apart ..).trans (tracks.fresh j above)
  · intro j
    by_cases same : j = k
    · subst same
      change Function.update p.at_ j (p.at_ j + 1) j ≤ 8
      rw [Function.update_self]
      exact unfinished
    · change Function.update p.at_ k (p.at_ k + 1) j ≤ 8
      rw [Function.update_of_ne same]
      exact tracks.at_le j
  · intro j below left
    by_cases same : j = k
    · subst same
      exact inner.held j below unfinished
    · change Function.update p.at_ k (p.at_ k + 1) j < 8 at left
      rw [Function.update_of_ne same] at left
      exact inner.held j below left

theorem TryStep.shape {g : Nat} {s s' : Shared} {more : List Instr} (tried : TryStep s g s' more) :
    s'.feed = s.feed ∧ ∀ instr ∈ more, instr.Given := by
  cases tried with
  | won => exact ⟨rfl, List.forall_mem_singleton.mpr trivial⟩
  | _ => exact ⟨rfl, fun _ member => absurd member List.not_mem_nil⟩

theorem given_release {readers left k : Nat} :
    ∀ instr ∈ (if readers = left then [Instr.release k] else []), instr.Given := by
  split
  · exact List.forall_mem_singleton.mpr trivial
  · exact fun _ member => absurd member List.not_mem_nil

theorem ChunkStep.shape {k j : Nat} {s s' : Shared} {more : List Instr} {wrote : List Effect}
    (step : ChunkStep pieces s k j s' more wrote) :
    j < 8 ∧ s'.feed = s.feed ∧ ∀ instr ∈ more, instr.Given := by
  have nothing : ∀ instr ∈ ([] : List Instr), instr.Given :=
    fun _ member => absurd member List.not_mem_nil
  cases step with
  | look => exact ⟨by omega, rfl, given_release⟩
  | tryLeft tried => exact ⟨by omega, tried.shape⟩
  | tryRight tried => exact ⟨by omega, tried.shape⟩
  | _ => exact ⟨by omega, rfl, nothing⟩

theorem GivenStep.shape {instr : Instr} {s s' : Shared} {more : List Instr} {wrote : List Effect}
    (step : GivenStep log2 l starts s instr s' more wrote) :
    s'.feed = s.feed ∧ ∀ instr ∈ more, instr.Given := by
  cases step with
  | write => exact ⟨rfl, fun _ member => absurd member List.not_mem_nil⟩
  | placeGap => exact ⟨rfl, by simp [gapProgram, Instr.Given]⟩
  | dropReader => exact ⟨rfl, given_release⟩
  | release =>
      refine ⟨rfl, ?_⟩
      rw [releaseProgram]
      split <;> simp [Instr.Given]

/-- A worker that leaves. -/
theorem Tracks.left_step {w : Nat} {chunk : Option Nat} {s : Shared} {more : List Instr}
    (tracks : Tracks pieces pool p) (here : p.workers[w]? = some (.busy chunk []))
    (through : pieces.rest p.at_ chunk = []) (all : p.next = starts.length)
    (ran : execute log2 l starts .claim pool.shared = some (s, more)) :
    ∃ p', Advance pieces p pool.shared p' s ∧
      Tracks pieces { shared := s, programs := pool.programs.set w (more ++ []) } p' := by
  have ended := Feed.next_end (all ▸ tracks.feed)
  rw [execute_claim_none ended.1, Option.some.injEq, Prod.mk.injEq] at ran
  obtain ⟨rfl, rfl⟩ := ran
  refine ⟨_, .leave here through all, ?_⟩
  have busy : ∀ {v : Nat} {c : Option Nat} {todo : List Instr},
      (p.workers.set w .gone)[v]? = some (.busy c todo) → p.workers[v]? = some (.busy c todo) := by
    intro v c todo read
    rcases worker_set here read with ⟨-, new⟩ | ⟨-, old⟩
    · cases new
    · exact old
  exact {
    programs := by
      rw [tracks.programs, List.map_set]
      rfl
    feed := all ▸ ended.2
    next_le := tracks.next_le
    fresh := tracks.fresh
    at_le := tracks.at_le
    below := fun v k todo read => tracks.below v k todo (busy read)
    once := fun v u k todo other one two => tracks.once v u k todo other (busy one) (busy two)
    held := fun k below unfinished => by
      obtain ⟨v, todo, read⟩ := tracks.held k below unfinished
      have apart : v ≠ w := by
        rintro rfl
        rw [here, Option.some.injEq, Worker.busy.injEq] at read
        obtain ⟨rfl, rfl⟩ := read
        rw [LevelPieces.rest, List.drop_eq_nil_iff] at through
        exact absurd unfinished (Nat.not_lt.mpr through)
      exact ⟨v, todo, (List.getElem?_set_ne (Ne.symm apart)).trans read⟩
    gone := fun _ => all
    given := fun v c todo read => tracks.given v c todo (busy read) }

section Step

variable (tiled : Tiled starts l.buckets) (word : l.buckets < 2 ^ 64) (words : ∀ h ∈ hs, h < 2 ^ 64)
  (positive : 0 < l.buckets)
include tiled word words positive

/-- A worker that claims a chunk. -/
theorem Tracks.claimed_step {w : Nat} {chunk : Option Nat} {s : Shared} {more : List Instr}
    (tracks : Tracks pieces pool p) (here : p.workers[w]? = some (.busy chunk []))
    (through : pieces.rest p.at_ chunk = []) (some_left : p.next < starts.length)
    (ran : execute log2 l starts .claim pool.shared = some (s, more)) :
    ∃ p', Advance pieces p pool.shared p' s ∧
      Tracks pieces { shared := s, programs := pool.programs.set w (more ++ []) } p' := by
  obtain ⟨handed, fed⟩ := Feed.next_at tiled word words positive some_left tracks.feed
  rw [execute_claim_some handed (pieces.runs _ some_left), Option.some.injEq, Prod.mk.injEq] at ran
  obtain ⟨rfl, rfl⟩ := ran
  refine ⟨_, .claim here through some_left, ?_⟩
  have position := tracks.fresh p.next le_rfl
  exact {
    programs := by
      rw [tracks.programs, claimed_update tracks, List.append_nil]
      rfl
    feed := fed
    next_le := some_left
    fresh := fun k above => tracks.fresh k (Nat.le_of_succ_le above)
    at_le := tracks.at_le
    below := fun v k todo read => by
      rcases worker_set here read with ⟨-, new⟩ | ⟨-, old⟩
      · cases new
        exact Nat.lt_succ_self _
      · exact Nat.lt_succ_of_lt (tracks.below v k todo old)
    once := fun v u k todo other one two => by
      rcases worker_set here one with ⟨rfl, new⟩ | ⟨-, old⟩
      · cases new
        rcases worker_set here two with ⟨rfl, -⟩ | ⟨-, old⟩
        · rfl
        · exact absurd (tracks.below u p.next other old) (lt_irrefl _)
      · rcases worker_set here two with ⟨rfl, new⟩ | ⟨-, also⟩
        · cases new
          exact absurd (tracks.below v p.next todo old) (lt_irrefl _)
        · exact tracks.once v u k todo other old also
    held := fun k below unfinished => by
      have inside := (List.getElem?_eq_some_iff.mp here).1
      by_cases new : k = p.next
      · exact ⟨w, [], by rw [new]; exact List.getElem?_set_self inside⟩
      · change k < p.next + 1 at below
        obtain ⟨v, todo, read⟩ := tracks.held k (by omega) unfinished
        have apart : v ≠ w := by
          rintro rfl
          rw [here, Option.some.injEq, Worker.busy.injEq] at read
          obtain ⟨rfl, rfl⟩ := read
          rw [LevelPieces.rest, List.drop_eq_nil_iff] at through
          exact absurd unfinished (Nat.not_lt.mpr through)
        exact ⟨v, todo, (List.getElem?_set_ne (Ne.symm apart)).trans read⟩
    gone := fun member => by
      rcases List.mem_or_eq_of_mem_set member with old | new
      · exact absurd (tracks.gone old) some_left.ne
      · cases new
    given := fun v c todo read => by
      rcases worker_set here read with ⟨-, new⟩ | ⟨-, old⟩
      · cases new
        exact fun _ member => absurd member List.not_mem_nil
      · exact tracks.given v c todo old }

omit tiled word words positive in
/-- A worker that goes on with its chunk's program. -/
theorem Tracks.program_step {w k : Nat} {instr : Instr} {rest more : List Instr} {s : Shared}
    (tracks : Tracks pieces pool p) (here : p.workers[w]? = some (.busy (some k) []))
    (programIs : pieces.rest p.at_ (some k) ++ [.claim] = instr :: rest)
    (unfinished : pieces.rest p.at_ (some k) ≠ [])
    (ran : execute log2 l starts instr pool.shared = some (s, more)) :
    ∃ p', Advance pieces p pool.shared p' s ∧
      Tracks pieces { shared := s, programs := pool.programs.set w (more ++ rest) } p' := by
  have position : p.at_ k < (chunkProgram k (pieces.run k)).length := by
    by_contra past
    exact unfinished (List.drop_eq_nil_iff.mpr (Nat.not_lt.mp past))
  rw [LevelPieces.rest, List.drop_eq_getElem_cons position, List.cons_append] at programIs
  obtain ⟨instrIs, rfl⟩ := List.cons.inj programIs
  have read : (chunkProgram k (pieces.run k))[p.at_ k]? = some instr := by
    rw [List.getElem?_eq_getElem position, instrIs]
  rcases ChunkStep.of_execute read ran with ⟨wrote, step⟩ | ⟨turn, rfl, rfl, inside, keys, listed, rfl⟩
  · have shape := step.shape
    exact ⟨_, .chunk here step, tracks.chunk_update here shape.1 shape.2.1 shape.2.2⟩
  · refine ⟨p, .drain here turn inside listed, ?_⟩
    have same : pool.programs.set w ([.drain] ++
        ((chunkProgram k (pieces.run k)).drop (p.at_ k + 1) ++ [.claim])) = pool.programs := by
      have own : pool.programs[w]? = some ([.drain] ++
          ((chunkProgram k (pieces.run k)).drop (p.at_ k + 1) ++ [.claim])) := by
        rw [tracks.programs, List.getElem?_map, here, Option.map_some, LevelPieces.program,
          LevelPieces.rest, turn]
        rfl
      obtain ⟨within, is⟩ := List.getElem?_eq_some_iff.mp own
      rw [← is]
      exact List.set_getElem_self within
    rw [same]
    exact { tracks with feed := tracks.feed }

/-- A step of the pool is one worker moving on. -/
theorem Tracks.step {pool' : Pool Shared Instr} (tracks : Tracks pieces pool p)
    (next : Pool.Step (execute log2 l starts) pool pool') :
    ∃ p', Advance pieces p pool.shared p' pool'.shared ∧ Tracks pieces pool' p' := by
  cases next with
  | @run w instr rest more s here ran =>
  rw [tracks.programs, List.getElem?_map] at here
  obtain ⟨worker, workerIs, programIs⟩ := Option.map_eq_some_iff.mp here
  cases worker with
  | gone => cases programIs
  | busy chunk todo =>
  cases todo with
  | cons given todo =>
      rw [LevelPieces.program, List.cons_append] at programIs
      obtain ⟨rfl, rfl⟩ := List.cons.inj programIs
      have allGiven := tracks.given w chunk _ workerIs
      obtain ⟨wrote, step⟩ := GivenStep.of_execute (allGiven _ List.mem_cons_self) ran
      have shape := step.shape
      refine ⟨_, .given workerIs step, ?_⟩
      rw [← List.append_assoc]
      refine tracks.given_update workerIs shape.1 fun instr member => ?_
      rcases List.mem_append.mp member with new | old
      · exact shape.2 instr new
      · exact allGiven instr (List.mem_cons_of_mem _ old)
  | nil =>
  change pieces.rest p.at_ chunk ++ [.claim] = instr :: rest at programIs
  by_cases through : pieces.rest p.at_ chunk = []
  · rw [through] at programIs
    obtain ⟨rfl, rfl⟩ := List.cons.inj programIs
    by_cases all : p.next = starts.length
    · exact tracks.left_step workerIs through all ran
    · exact tracks.claimed_step tiled word words positive workerIs through
        (Nat.lt_of_le_of_ne tracks.next_le all) ran
  · obtain ⟨k, rfl⟩ := Option.ne_none_iff_exists'.mp fun none_ : chunk = none =>
      through (by rw [none_]; rfl)
    exact tracks.program_step workerIs programIs through ran

end Step

end Steps

end Lexindex.Mphf
