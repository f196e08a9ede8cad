import Mathlib
import Lexindex.Lib.Workers
import Lexindex.Mphf.FeedSound
import Lexindex.Mphf.Pieces

/-!
# The workers of a level

Workers claim the chunks of a level in order and place them.  Whoever finishes the later of two
chunks places the gap between them, and a chunk's map goes into the level's once the gaps beside it
have read it.  Every access to what the workers share, atomic in the source or under one lock, is an
instruction here, in the order its worker makes it; what a worker computes on its own is part of the
instruction before.
-/

set_option autoImplicit false

namespace Lexindex.Mphf

/-- A write to what the level's pieces leave, which no worker reads back. -/
inductive Effect
  /-- Seeds into the level's table. -/
  | settle (piece : SeededPiece)
  /-- A map into the level's. -/
  | merge (map : Map) (origin : Nat)
  /-- The keys gap `g` bumped. -/
  | listGap (g : Nat) (keys : List Nat)
  /-- The buckets and the keys of the gap at the level's end. -/
  | endTail (tail tailKeys : List Nat)
  deriving DecidableEq

/-- What the pieces leave. -/
structure Left where
  seeds : List UInt8
  taken : Map
  gapBumps : List (Option (List Nat))
  endTail : Option (List Nat × List Nat)

/-- `settle`: the seeds of a piece, over its buckets. -/
def settle (table : List UInt8) (piece : SeededPiece) : List UInt8 :=
  table.mapIdx fun b seed =>
    if piece.first ≤ b then piece.seeds.getD (b - piece.first) seed else seed

namespace Left

def apply (l : Level) (left : Left) : Effect → Left
  | .settle piece => { left with seeds := settle left.seeds piece }
  | .merge map origin => { left with taken := left.taken.merge map (l.word origin) }
  | .listGap g keys => { left with gapBumps := left.gapBumps.set g (some keys) }
  | .endTail tail tailKeys => { left with endTail := some (tail, tailKeys) }

/-- A write that does not panic: inside the table, and the first of what is written once. -/
def Allows (left : Left) : Effect → Prop
  | .settle piece => piece.first + piece.seeds.length ≤ left.seeds.length
  | .merge _ _ => True
  | .listGap g _ => left.gapBumps[g]? = some none
  | .endTail _ _ => left.endTail = none

instance (left : Left) (effect : Effect) : Decidable (left.Allows effect) := by
  unfold Allows
  cases effect <;> infer_instance

end Left

/-- What the workers of a level share. -/
structure Shared where
  feed : Feed
  left : Left
  pieces : List (Option Piece)
  bumps : List (Option (List Nat))
  /-- The chunks whose bumped keys are listed in `bumped`. -/
  drained : Nat
  bumped : List Nat
  done : List Bool
  claimed : List Bool
  /-- Gaps yet to read each chunk's map. -/
  readers : List Nat

inductive Instr
  | claim
  | write (effect : Effect)
  /-- The keys chunk `k` bumped. -/
  | list (k : Nat) (keys : List Nat)
  | drain
  | keep (k : Nat) (piece : Piece)
  | finish (k : Nat)
  /-- Whether no gap is to read chunk `k`. -/
  | look (k : Nat)
  /-- Gap `g`, where there is one, both its chunks are done and no one has claimed it. -/
  | tryGap (g : Nat)
  | placeGap (g : Nat)
  /-- One gap fewer to read chunk `k`. -/
  | dropReader (k : Nat)
  | release (k : Nat)
  deriving DecidableEq

/-- What a worker does with a chunk it has placed. -/
def chunkProgram (k : Nat) (placed : SeededPiece × Piece) : List Instr :=
  [ .write (.settle placed.1),
    .list k placed.1.bumped,
    .drain,
    .keep k placed.2,
    .finish k,
    .look k,
    .tryGap ((k + (2 ^ 64 - 1)) % 2 ^ 64),
    .tryGap k ]

/-- What a worker does with a gap it has placed. -/
def gapProgram (g : Nat) (placed : SeededPiece × Map × Nat) : List Instr :=
  [ .write (.settle placed.1),
    .write (.listGap g placed.1.bumped),
    .write (.merge placed.2.1 placed.2.2),
    .dropReader g,
    .dropReader (g + 1) ]

/-- What a worker does with a chunk no gap is to read. -/
def releaseProgram (chunks k : Nat) (piece : Piece) : List Instr :=
  .write (.merge piece.map piece.origin) ::
    if k + 1 = chunks then [.write (.endTail piece.tail piece.tailKeys)] else []

section Level

variable (log2 : Nat → Nat) (l : Level) (starts : List Nat)

/-- The shared state after an instruction, and what its worker does next; `none` is a panic. -/
def execute : Instr → Shared → Option (Shared × List Instr)
  | .claim, s =>
      match s.feed.next starts l.buckets with
      | (none, feed) => some ({ s with feed }, [])
      | (some chunk, feed) => do
          let placed ← l.placeChunk log2 starts chunk
          some ({ s with feed }, chunkProgram chunk.index placed ++ [.claim])
  | .write effect, s =>
      if s.left.Allows effect then some ({ s with left := s.left.apply l effect }, []) else none
  | .list k keys, s => some ({ s with bumps := s.bumps.set k (some keys) }, [])
  | .drain, s =>
      if s.drained < starts.length then
        match s.bumps[s.drained]? with
        | some (some keys) =>
            some ({ s with bumps := s.bumps.set s.drained none, drained := s.drained + 1
                           bumped := s.bumped ++ keys }, [.drain])
        | some none => some (s, [])
        | none => none
      else some (s, [])
  | .keep k piece, s => some ({ s with pieces := s.pieces.set k (some piece) }, [])
  | .finish k, s => some ({ s with done := s.done.set k true }, [])
  | .look k, s => do
      let readers ← s.readers[k]?
      some (s, if readers = 0 then [.release k] else [])
  | .tryGap g, s =>
      if s.claimed.length ≤ g ∨ s.done[g]? = some false ∨ s.done[g + 1]? = some false then
        some (s, [])
      else if s.claimed[g]? = some true then some (s, [])
      else some ({ s with claimed := s.claimed.set g true }, [.placeGap g])
  | .placeGap g, s => do
      let left ← s.pieces[g]?.join
      let right ← s.pieces[g + 1]?.join
      let placed ← l.placeGap log2 starts g left right
      some (s, gapProgram g placed)
  | .dropReader k, s => do
      let readers ← s.readers[k]?
      some ({ s with readers := s.readers.set k ((readers + (2 ^ 64 - 1)) % 2 ^ 64) },
        if readers = 1 then [.release k] else [])
  | .release k, s => do
      let piece ← s.pieces[k]?.join
      some ({ s with pieces := s.pieces.set k none }, releaseProgram starts.length k piece)

/-- What the workers start from. -/
def Shared.start (feed : Feed) : Shared :=
  let chunks := starts.length
  { feed
    left :=
      { seeds := List.replicate l.buckets 0, taken := Map.new l.n l.shift
        gapBumps := List.replicate (chunks - 1) none, endTail := none }
    pieces := List.replicate chunks none
    bumps := List.replicate chunks none
    drained := 0
    bumped := []
    done := List.replicate chunks false
    claimed := List.replicate (chunks - 1) false
    readers := (List.range chunks).map fun k =>
      (if 0 < k then 1 else 0) + (if k + 1 < chunks then 1 else 0) }

/-- The workers of a level over the keys of a source. -/
def workers (source : Source) (threads : Nat) : Pool Shared Instr where
  shared := Shared.start l starts (Feed.new source starts l.buckets threads)
  programs := List.replicate (min (max threads 1) starts.length) [.claim]

/-- What the workers leave for the gap at the level's end; `none` where the level would panic for
want of it. -/
def Shared.pieced (s : Shared) : Option Pieced := do
  let (tail, tailKeys) ← s.left.endTail
  let gaps ← s.left.gapBumps.mapM id
  some { seeds := s.left.seeds, taken := s.left.taken, bumped := s.bumped ++ gaps.flatten
         tail, tailKeys }

end Level

end Lexindex.Mphf
