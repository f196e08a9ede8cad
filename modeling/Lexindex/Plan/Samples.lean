import Mathlib
import Lexindex.Lib.Checked
import Lexindex.Lib.Utf8
import Lexindex.Lib.Smallest

/-!
# The online samples

A key is kept while its hash is under a cutoff; when twice the wanted count has gathered, the cutoff
drops to the median and the half above it goes.  One draw keeps keys, the other runs of consecutive
keys by the hash of the first.
-/

set_option autoImplicit false

namespace Lexindex.Plan

/-- Keys a run of the sample holds. -/
def RUN : Nat := 4096

/-- The greatest hash. -/
def MAX_HASH : Nat := 2 ^ 64 - 1

section Trim

variable {α : Type} (sel : Selection (Prod.fst : Nat × α → Nat))

/-- What both draws do with what they hold: the smallest `want` hashes kept, and the greatest of them
the cutoff. -/
def trimTo (want cutoff : Nat) (kept : List (Nat × α)) : Nat × List (Nat × α) :=
  if kept.length ≤ want then (cutoff, kept)
  else
    let kept := (sel.select kept (want - 1)).take want
    (((kept.map Prod.fst).max?).getD MAX_HASH, kept)

end Trim

/-! ## The draw of keys -/

structure HashSample where
  want : Nat
  cutoff : Nat
  kept : List (Nat × String)

namespace HashSample

variable (hash : String → UInt64) (sel : Selection (Prod.fst : Nat × String → Nat))

def new (want : Nat) : HashSample :=
  { want, cutoff := MAX_HASH, kept := [] }

def trim (s : HashSample) : HashSample :=
  let trimmed := trimTo sel s.want s.cutoff s.kept
  { s with cutoff := trimmed.1, kept := trimmed.2 }

def keep (s : HashSample) (h : Nat) (key : String) : HashSample :=
  if s.cutoff < h then s
  else
    let s := { s with kept := s.kept ++ [(h, key)] }
    if 0 < s.want ∧ 2 * s.want ≤ s.kept.length then s.trim sel else s

def push (s : HashSample) (key : String) : HashSample :=
  s.keep sel (hash key).toNat key

/-- The hash of a key the draw would keep. -/
def wanted (s : HashSample) (key : String) : Option Nat :=
  if (hash key).toNat ≤ s.cutoff then some (hash key).toNat else none

/-- The sample, ascending. -/
def finish (s : HashSample) : List String :=
  ((s.trim sel).kept.map Prod.snd).mergeSort fun a b => bytesOf a ≤ bytesOf b

/-- How a caller offers a key. -/
inductive Route
  | push
  | wantedThenKeep
deriving DecidableEq, Repr

def offer (s : HashSample) (call : Route × String) : HashSample :=
  match call.1 with
  | .push => s.push hash sel call.2
  | .wantedThenKeep =>
      match s.wanted hash call.2 with
      | some h => s.keep sel h call.2
      | none => s

/-- The draw after some calls. -/
def after (want : Nat) (calls : List (Route × String)) : HashSample :=
  calls.foldl (offer hash sel) (new want)

end HashSample

/-! ## The draw of runs -/

structure RunSample where
  runs : Nat
  len : Nat
  cutoff : Nat
  /-- Keys offered so far. -/
  offered : Nat
  /-- The start hash of the run the next kept key opens. -/
  opens : Option Nat
  /-- Every run opened and not yet dropped: its start's hash and its keys. -/
  kept : List (Nat × List String)
  /-- The run still filling. -/
  open_ : Option Nat

namespace RunSample

variable (hash : String → UInt64) (sel : Selection (Prod.fst : Nat × List String → Nat))

/-- Keys a run holds where `want` keys are wanted. -/
def lenFor (want : Nat) : Nat :=
  max (min RUN want) 1

/-- Runs where `want` keys are wanted. -/
def runsFor (want : Nat) : Nat :=
  max (want / lenFor want) 1

def new (want : Nat) : RunSample :=
  { runs := runsFor want, len := lenFor want, cutoff := MAX_HASH, offered := 0, opens := none,
    kept := [], open_ := none }

/-- Whether the draw keeps the next key. -/
def wanted (s : RunSample) (key : String) : Bool × RunSample :=
  let next := { s with offered := s.offered + 1 }
  if s.offered % s.len = 0 then
    let opens := if (hash key).toNat ≤ s.cutoff then some (hash key).toNat else none
    (opens.isSome, { next with open_ := none, opens })
  else (s.open_.isSome, next)

def trim (s : RunSample) : RunSample :=
  if s.kept.length ≤ s.runs then s
  else
    let filling := s.open_.bind fun i => (s.kept[i]?).map Prod.fst
    let trimmed := trimTo sel s.runs s.cutoff s.kept
    -- The selection moved the runs about, and may have dropped the one still filling.
    { s with
      cutoff := trimmed.1
      kept := trimmed.2
      open_ := filling.bind fun h => trimmed.2.findIdx? fun run => run.1 = h }

def keep (s : RunSample) (key : String) : RunSample :=
  match s.opens with
  | some h =>
      let s := { s with opens := none, kept := s.kept ++ [(h, [key])], open_ := some s.kept.length }
      if 2 * s.runs ≤ s.kept.length then s.trim sel else s
  | none =>
      match s.open_ with
      | some i => { s with kept := s.kept.modify i fun run => (run.1, run.2 ++ [key]) }
      | none => s

def push (s : RunSample) (key : String) : RunSample :=
  let answered := s.wanted hash key
  if answered.1 then answered.2.keep sel key else answered.2

/-- The sample, ascending. -/
def finish (s : RunSample) : List String :=
  ((s.trim sel).kept.flatMap Prod.snd).mergeSort fun a b => bytesOf a ≤ bytesOf b

/-- The draw after some keys. -/
def after (want : Nat) (keys : List String) : RunSample :=
  keys.foldl (push hash sel) (new want)

end RunSample

/-! ## What the draws stand for -/

/-- The `want` keys of the smallest hashes, in byte order. -/
def smallestKeys (hash : String → UInt64) (want : Nat) (keys : List String) : List String :=
  ((keys.mergeSort fun a b => (hash a).toNat ≤ (hash b).toNat).take want).mergeSort
    fun a b => bytesOf a ≤ bytesOf b

/-- The aligned runs of a stream, the last one possibly short. -/
def aligned (len : Nat) (keys : List String) : List (List String) :=
  (List.range (divCeil keys.length len)).map fun i => (keys.drop (len * i)).take len

/-- The hash of a run's first key. -/
def startHash (hash : String → UInt64) (run : List String) : Nat :=
  (run.head?.map fun key => (hash key).toNat).getD 0

/-- The keys of the runs whose starts have the smallest hashes, in byte order. -/
def smallestRuns (hash : String → UInt64) (want : Nat) (keys : List String) : List String :=
  (((aligned (RunSample.lenFor want) keys).mergeSort fun a b =>
    startHash hash a ≤ startHash hash b).take (want / RunSample.lenFor want)).flatten.mergeSort
      fun a b => bytesOf a ≤ bytesOf b

end Lexindex.Plan
