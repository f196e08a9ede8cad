import Mathlib
import Lexindex.Extsort.Sorts
import Lexindex.Lib.Publish
import Lexindex.StringIndex.Build

/-!
# Building an index straight to a file

The keys are spilled in sorted runs and merged into a sorted builder, inside the atomic write.
The file is the one a build in memory would save.  A key is held to the run budget only while
the run is empty, which it is for the first key alone.
-/

set_option autoImplicit false

namespace Lexindex.StringIndex

open Extsort

inductive FileFailure
  | sort (failure : Failure)
  | fst (error : FstError)
  deriving DecidableEq, Repr

/-- What is outside a build: how far the run files can be read, the caller's check, asked once the
input has ended and again inside the atomic write, and the disk. -/
structure Around where
  faults : Faults
  afterInput : Except FileFailure Unit
  atEnd : Except FileFailure Unit
  disk : Except FileFailure Unit

/-- Nothing outside fails. -/
def Around.Fine (around : Around) : Prop :=
  (∀ id, around.faults id = none) ∧ around.afterInput = .ok () ∧ around.atEnd = .ok () ∧
    around.disk = .ok ()

def longKey : String :=
  "string-index: a key longer than the run budget"

variable (fst : Fst)

/-- `build_sorted_to_file_checked`, but for the write around it: the file of an ascending stream
and how many keys it holds. -/
def sortedFile (keys : List String) (check : Except FileFailure Unit) :
    Except FileFailure (List UInt8 × Nat) := do
  let inserted ← (insertSorted keys "" 0 []).mapError .fst
  check
  pure (MAGIC ++ fst.finish inserted.1, inserted.2)

/-- The file of a merge.  A read error ended the stream, and is found by the check. -/
def mergedFile (atEnd : Except FileFailure Unit) :
    Except Failure ((List String × Bool) × Runs) → Except FileFailure (List UInt8 × Nat)
  | .error failure => .error (.sort failure)
  | .ok merge => sortedFile fst merge.1.1 (if merge.1.2 then .error (.sort .io) else atEnd)

/-- The file of a stream of keys in any order; `none` where the source panics. -/
def fileOfRuns (budget fanIn : Nat) (around : Around) (keys : List String) :
    Option (Except FileFailure (List UInt8 × Nat)) :=
  match pushKeys longKey keys (Run.withBudget budget) Runs.beside with
  | none => none
  | some (.error failure) => some (.error (.sort failure))
  | some (.ok (run, runs)) =>
      match around.afterInput with
      | .error failure => some (.error failure)
      | .ok () =>
          if runs.live = [] then
            run.sorted.map fun sorted => sortedFile fst sorted.1 around.atEnd
          else
            match (if run.isEmpty then some (.ok runs)
              else run.sorted.map fun sorted => runs.spill sorted.1 :
                Option (Except Failure Runs)) with
            | none => none
            | some (.error failure) => some (.error (.sort failure))
            | some (.ok runs) =>
                (runs.merge around.faults fanIn).map (mergedFile fst around.atEnd)

/-- `build_to_file_runs`: what it returns, and what is at the path then. -/
def buildToFileRuns (budget fanIn : Nat) (around : Around) (keys : List String)
    (target : Option (List UInt8)) : Option (Except FileFailure Nat × Option (List UInt8)) :=
  (fileOfRuns fst budget fanIn around keys).map fun written =>
    let published := writeAtomically (written.map Prod.fst) around.disk target
    ((do let file ← written; published.1; pure file.2), published.2)

/-- What a file build is to do on some keys at a run budget. -/
structure FilesLikeBuild (budget : Nat) (keys : List String) : Prop where
  /-- It ends, in an error that leaves the target, or with the file of a build in memory. -/
  ends : ∀ fanIn, 2 ≤ fanIn → ∀ (around : Around) (target : Option (List UInt8)),
    (∃ e, buildToFileRuns fst budget fanIn around keys target = some (.error e, target)) ∨
      ∃ idx : StringIndex fst, build keys = .ok idx ∧
        buildToFileRuns fst budget fanIn around keys target = some (.ok idx.len, some idx.toBytes)
  /-- With keys the budget admits and nothing failing, it is that file. -/
  builds : ∀ fanIn, 2 ≤ fanIn → ∀ (around : Around) (target : Option (List UInt8)),
    (∀ key ∈ keys, (Run.withBudget budget).fits key) → around.Fine →
      ∃ idx : StringIndex fst, build keys = .ok idx ∧
        buildToFileRuns fst budget fanIn around keys target = some (.ok idx.len, some idx.toBytes)
  /-- A key past the budget, a check that fails and a run that is cut short are errors. -/
  refuses : ∀ fanIn, 2 ≤ fanIn → ∀ (around : Around) (target : Option (List UInt8)),
    ((∃ key ∈ keys, ¬ (Run.withBudget budget).fits key) ∨ around.afterInput ≠ .ok () ∨
      around.atEnd ≠ .ok () ∨ ∃ runs, collect longKey budget keys = some (.ok (.spilled runs)) ∧
        (Replay.spilled runs).cutShort around.faults) →
      ∃ e, buildToFileRuns fst budget fanIn around keys target = some (.error e, target)

/-! ## What is written -/

section Written

variable {fst} {budget fanIn : Nat} {around : Around} {keys : List String}

/-- The file of a replay. -/
def fileOfReplay (fst : Fst) (fanIn : Nat) (around : Around) :
    Replay → Option (Except FileFailure (List UInt8 × Nat))
  | .inMemory run => run.sorted.map fun sorted => sortedFile fst sorted.1 around.atEnd
  | .spilled runs => (runs.merge around.faults fanIn).map (mergedFile fst around.atEnd)

/-- Past the first check, the file is that of what a builder collects. -/
theorem fileOfRuns_collected (passed : around.afterInput = .ok ()) :
    fileOfRuns fst budget fanIn around keys =
      match collect longKey budget keys with
      | none => none
      | some (.error failure) => some (.error (.sort failure))
      | some (.ok replay) => fileOfReplay fst fanIn around replay := by
  rw [fileOfRuns, collect]
  cases pushKeys longKey keys (Run.withBudget budget) Runs.beside with
  | none => rfl
  | some result =>
      cases result with
      | error failure => rfl
      | ok pair =>
          obtain ⟨run, runs⟩ := pair
          simp only [passed]
          by_cases none_spilled : runs.live = []
          · rw [if_pos none_spilled, if_pos none_spilled]
            rfl
          · rw [if_neg none_spilled, if_neg none_spilled]
            by_cases empty : run.isEmpty
            · rw [if_pos empty, if_pos empty]
              rfl
            · rw [if_neg empty, if_neg empty]
              cases run.sorted with
              | none => rfl
              | some sorted =>
                  simp only [Option.map_some]
                  cases runs.spill sorted.1 with
                  | error failure => rfl
                  | ok after => rfl

/-- A sorted stream is inserted as its distinct keys with their ranks. -/
theorem sortedFile_sorted {others : List String} (sorted : Sorted bytesOf keys)
    (same : ∀ key, key ∈ keys ↔ key ∈ others) (check : Except FileFailure Unit) :
    sortedFile fst keys check = check.map fun _ =>
      (MAGIC ++ fst.finish (rankedFrom (sortDedup bytesOf others) 0),
        (sortDedup bytesOf others).length) := by
  obtain ⟨ascending, members⟩ := mem_destutter_of_sorted (fun _ _ => bytesOf_inj) sorted
  have all : keys.destutter (· ≠ ·) = sortDedup bytesOf others :=
    eq_sortDedup (fun _ _ => bytesOf_inj) others ascending fun key =>
      (members key).trans (same key)
  rw [sortedFile, insertSorted_sorted sorted, all]
  cases check <;> rfl

/-- A check that fails is an error, whatever the stream was. -/
theorem sortedFile_failed {check : Except FileFailure Unit} (failed : check ≠ .ok ()) :
    ∃ e, sortedFile fst keys check = .error e := by
  rw [sortedFile]
  cases insertSorted keys "" 0 [] with
  | error error => exact ⟨_, rfl⟩
  | ok inserted =>
      cases check with
      | error e => exact ⟨e, rfl⟩
      | ok done => exact absurd rfl failed

/-- The file of what keeps the keys is an error, or that of the sorted distinct keys; an error
where a run is cut short or the check fails, and none where nothing fails. -/
theorem fileOfReplay_keeps (two : 2 ≤ fanIn) {replay : Replay} (keeps : replay.Keeps keys) :
    (∃ e, fileOfReplay fst fanIn around replay = some (.error e)) ∧
        (around.atEnd ≠ .ok () ∨ ∃ id, around.faults id ≠ none) ∨
      fileOfReplay fst fanIn around replay =
          some (.ok (MAGIC ++ fst.finish (rankedFrom (sortDedup bytesOf keys) 0),
            (sortDedup bytesOf keys).length)) ∧
        around.atEnd = .ok () ∧ ¬ replay.cutShort around.faults := by
  have checked : ∀ {stream : List String}, Sorted bytesOf stream →
      (∀ key, key ∈ stream ↔ key ∈ keys) →
      (∃ e, sortedFile fst stream around.atEnd = .error e) ∧ around.atEnd ≠ .ok () ∨
        sortedFile fst stream around.atEnd =
            .ok (MAGIC ++ fst.finish (rankedFrom (sortDedup bytesOf keys) 0),
              (sortDedup bytesOf keys).length) ∧ around.atEnd = .ok () := by
    intro stream sorted same
    rw [sortedFile_sorted sorted same]
    cases around.atEnd with
    | error e => exact .inl ⟨⟨e, rfl⟩, fun ok => by cases ok⟩
    | ok done => exact .inr ⟨rfl, rfl⟩
  cases replay with
  | inMemory run =>
      obtain ⟨pushed, holds, members⟩ := keeps
      obtain ⟨after, sorted, -⟩ := holds.sorted
      rw [fileOfReplay, sorted, Option.map_some]
      rcases checked (sortDedup_ascending bytesOf_injective pushed).sorted fun key =>
          (mem_sortDedup bytesOf_injective pushed key).trans (members key) with
        ⟨⟨e, failed⟩, late⟩ | ⟨made, late⟩
      · exact .inl ⟨⟨e, congrArg some failed⟩, .inl late⟩
      · exact .inr ⟨congrArg some made, late, fun cut => cut⟩
  | spilled runs =>
      rw [fileOfReplay]
      rcases @merge_keeps keys around.faults fanIn two runs keeps with
        ⟨⟨failure, failed⟩ | ⟨out, after, ended⟩, faulty⟩ | ⟨whole, out, after, -, merged, sorted, all⟩
      · rw [failed]
        exact .inl ⟨⟨_, rfl⟩, .inr faulty⟩
      · rw [ended]
        obtain ⟨e, failed⟩ := @sortedFile_failed fst out (.error (.sort .io)) fun ok => by cases ok
        exact .inl ⟨⟨e, congrArg some failed⟩, .inr faulty⟩
      · rw [merged]
        rcases checked sorted all with ⟨⟨e, failed⟩, late⟩ | ⟨made, late⟩
        · exact .inl ⟨⟨e, congrArg some failed⟩, .inl late⟩
        · exact .inr ⟨congrArg some made, late, whole⟩

/-- Where nothing outside fails, a replay's file is no error, whatever its keys. -/
theorem fileOfReplay_fine (two : 2 ≤ fanIn) (fine : around.Fine) {replay : Replay}
    (tame : ∀ runs, replay = .spilled runs → ∃ held, (Replay.spilled runs).Keeps held)
    {result : Except FileFailure (List UInt8 × Nat)}
    (made : fileOfReplay fst fanIn around replay = some result) : ∃ file, result = .ok file := by
  obtain ⟨none_faulty, -, passes, -⟩ := fine
  cases replay with
  | inMemory run =>
      obtain ⟨sorted, sortedIs, rfl⟩ := Option.map_eq_some_iff.mp made
      rw [passes, sortedFile_sorted (sorted_ordered sortedIs).1 fun _ => Iff.rfl]
      exact ⟨_, rfl⟩
  | spilled runs =>
      obtain ⟨held, keeps⟩ := tame runs rfl
      rcases @fileOfReplay_keeps fst fanIn around held two _ keeps with
        ⟨-, failed | ⟨id, faulty⟩⟩ | ⟨whole, -⟩
      · exact absurd passes failed
      · exact absurd (none_faulty id) faulty
      · rw [made, Option.some.injEq] at whole
        exact ⟨_, whole⟩

end Written

/-! ## What is published -/

section Published

variable {fst} {budget fanIn : Nat} {around : Around} {keys : List String}
  {target : Option (List UInt8)}

theorem published_error {e : FileFailure}
    (failed : fileOfRuns fst budget fanIn around keys = some (.error e)) :
    buildToFileRuns fst budget fanIn around keys target = some (.error e, target) := by
  rw [buildToFileRuns, failed]
  rfl

/-- A file is published, or the disk fails and leaves the target. -/
theorem published_ok {file : List UInt8} {n : Nat}
    (made : fileOfRuns fst budget fanIn around keys = some (.ok (file, n))) :
    (around.disk ≠ .ok () ∧
        ∃ e, buildToFileRuns fst budget fanIn around keys target = some (.error e, target)) ∨
      buildToFileRuns fst budget fanIn around keys target = some (.ok n, some file) := by
  rw [buildToFileRuns, made, Option.map_some]
  cases around.disk with
  | error e => exact .inl ⟨fun ok => (by cases ok), e, rfl⟩
  | ok done => exact .inr rfl

/-- A first check that fails is an error, once the keys are pushed. -/
theorem fileOfRuns_checked (failed : around.afterInput ≠ .ok ())
    (pushed : pushKeys longKey keys (Run.withBudget budget) Runs.beside ≠ none) :
    ∃ e, fileOfRuns fst budget fanIn around keys = some (.error e) := by
  rw [fileOfRuns]
  cases outcome : pushKeys longKey keys (Run.withBudget budget) Runs.beside with
  | none => exact absurd outcome pushed
  | some pushing =>
      cases pushing with
      | error failure => exact ⟨_, rfl⟩
      | ok pair =>
          cases check : around.afterInput with
          | error e => exact ⟨e, rfl⟩
          | ok done => exact absurd check failed

/-- The file of the sorted distinct keys is the one a build in memory saves. -/
theorem build_saves (keys : List String) : ∃ idx : StringIndex fst, build keys = .ok idx ∧
    idx.toBytes = MAGIC ++ fst.finish (rankedFrom (sortDedup bytesOf keys) 0) ∧
    idx.len = (sortDedup bytesOf keys).length :=
  ⟨_, build_eq keys, rfl, rankedFrom_length _ 0⟩

/-- Keys that all fit an empty run are filed as a build would. -/
theorem files_fitting (small : budget < 2 ^ 32) (few : keys.length < 2 ^ 64)
    (fit : ∀ key ∈ keys, (Run.withBudget budget).fits key) : FilesLikeBuild fst budget keys := by
  have short : ∀ key ∈ keys, (bytesOf key).length < 2 ^ 32 := fun key member => by
    have room := (fit key member).1
    rw [show (Run.withBudget budget).budget = budget from rfl] at room
    omega
  obtain ⟨collected, result, keeps⟩ := collect_keeps longKey small few short
  have taken : ∃ replay, collected = .ok replay := by
    cases keys with
    | nil => exact ⟨.inMemory (Run.withBudget budget), (Option.some.inj result).symm⟩
    | cons first keys => exact collect_accepts longKey (fit first List.mem_cons_self) result
  obtain ⟨replay, rfl⟩ := taken
  have kept := keeps replay rfl
  have pushed : pushKeys longKey keys (Run.withBudget budget) Runs.beside ≠ none := by
    intro none
    rw [collect, none] at result
    cases result
  obtain ⟨idx, built, bytes, len⟩ := @build_saves fst keys
  -- Either way a check goes, the file is an error or the index.
  have whole : ∀ fanIn, 2 ≤ fanIn → ∀ (around : Around) (target : Option (List UInt8)),
      ((∃ e, buildToFileRuns fst budget fanIn around keys target = some (.error e, target)) ∧
          ¬ around.Fine) ∨
        buildToFileRuns fst budget fanIn around keys target = some (.ok idx.len, some idx.toBytes) ∧
          around.afterInput = .ok () ∧ around.atEnd = .ok () ∧
          ¬ replay.cutShort around.faults := by
    intro fanIn two around target
    by_cases passed : around.afterInput = .ok ()
    · have made := @fileOfRuns_collected fst budget fanIn around keys passed
      rw [result] at made
      rcases @fileOfReplay_keeps fst fanIn around keys two replay kept with
        ⟨⟨e, failed⟩, why⟩ | ⟨file, late, uncut⟩
      · refine .inl ⟨⟨e, published_error (made.trans failed)⟩, fun fine => ?_⟩
        rcases why with late | ⟨id, faulty⟩
        · exact late fine.2.2.1
        · exact faulty (fine.1 id)
      · rcases @published_ok fst budget fanIn around keys target _ _ (made.trans file) with
          ⟨disk, failed⟩ | done
        · exact .inl ⟨failed, fun fine => disk fine.2.2.2⟩
        · rw [bytes, len]
          exact .inr ⟨done, passed, late, uncut⟩
    · obtain ⟨e, failed⟩ := @fileOfRuns_checked fst budget fanIn around keys passed pushed
      exact .inl ⟨⟨e, published_error failed⟩, fun fine => passed fine.2.1⟩
  refine ⟨fun fanIn two around target => ?_, fun fanIn two around target _ fine => ?_,
    fun fanIn two around target why => ?_⟩
  · rcases whole fanIn two around target with ⟨failed, -⟩ | ⟨done, -⟩
    · exact .inl failed
    · exact .inr ⟨idx, built, done⟩
  · rcases whole fanIn two around target with ⟨-, other⟩ | ⟨done, -⟩
    · exact absurd fine other
    · exact ⟨idx, built, done⟩
  · rcases whole fanIn two around target with ⟨failed, -⟩ | ⟨-, input, late, uncut⟩
    · exact failed
    · rcases why with ⟨key, member, past⟩ | failed | failed | ⟨runs, spilt, cut⟩
      · exact absurd (fit key member) past
      · exact absurd input failed
      · exact absurd late failed
      · rw [result, Option.some.injEq, Except.ok.injEq] at spilt
        rw [spilt] at uncut
        exact absurd cut uncut

/-- A first key past the budget is an error. -/
theorem files_refused {first : String} (past : ¬ (Run.withBudget budget).fits first) :
    FilesLikeBuild fst budget (first :: keys) := by
  have failed : ∀ (fanIn : Nat) (around : Around) (target : Option (List UInt8)),
      ∃ e, buildToFileRuns fst budget fanIn around (first :: keys) target =
        some (.error e, target) := by
    intro fanIn around target
    refine ⟨.sort (.index (.build longKey)), published_error ?_⟩
    rw [fileOfRuns, pushKeys, pushKey, if_neg past,
      if_pos (show (Run.withBudget budget).isEmpty from rfl)]
  exact ⟨fun fanIn _ around target => .inl (failed fanIn around target),
    fun fanIn _ around target fit _ => absurd (fit first List.mem_cons_self) past,
    fun fanIn _ around target _ => failed fanIn around target⟩

/-- Once the first key is taken, no key is an error. -/
theorem files_taken (few : keys.length < 2 ^ 64) {first : String} {rest : List String}
    (keysAre : keys = first :: rest) (fits : (Run.withBudget budget).fits first)
    (files : FilesLikeBuild fst budget keys) :
    ∀ key ∈ keys, (Run.withBudget budget).fits key := by
  intro key member
  by_contra past
  have fine : Around.Fine ⟨fun _ => none, .ok (), .ok (), .ok ()⟩ :=
    ⟨fun _ => rfl, rfl, rfl, rfl⟩
  obtain ⟨e, refused⟩ := files.refuses 2 le_rfl ⟨fun _ => none, .ok (), .ok (), .ok ()⟩ none
    (.inl ⟨key, member, past⟩)
  have made := @fileOfRuns_collected fst budget 2 ⟨fun _ => none, .ok (), .ok (), .ok ()⟩ keys rfl
  cases result : collect longKey budget keys with
  | none =>
      rw [result] at made
      rw [buildToFileRuns, made] at refused
      cases refused
  | some collected =>
      obtain ⟨replay, rfl⟩ := collect_accepts longKey fits (keysAre ▸ result)
      rw [result] at made
      simp only at made
      cases file : fileOfReplay fst 2 ⟨fun _ => none, .ok (), .ok (), .ok ()⟩ replay with
      | none =>
          rw [buildToFileRuns, made.trans file] at refused
          cases refused
      | some written =>
          obtain ⟨whole, rfl⟩ := fileOfReplay_fine le_rfl fine (fun runs spilt =>
            collect_tame longKey few (spilt ▸ result)) file
          rw [buildToFileRuns, made.trans file] at refused
          cases refused

end Published

/-- A file build is as it should be just where the first key is past the budget or every key is
within it. -/
theorem files_like_build_iff {budget : Nat} (small : budget < 2 ^ 32) {keys : List String}
    (few : keys.length < 2 ^ 64) :
    FilesLikeBuild fst budget keys ↔
      ∀ first ∈ keys.head?, (Run.withBudget budget).fits first →
        ∀ key ∈ keys, (Run.withBudget budget).fits key := by
  constructor
  · intro files first isFirst fits
    cases keys with
    | nil => cases isFirst
    | cons key keys =>
        rw [List.head?_cons, Option.mem_some_iff] at isFirst
        exact files_taken few rfl (isFirst ▸ fits) files
  · intro condition
    cases keys with
    | nil => exact files_fitting small few fun key member => absurd member List.not_mem_nil
    | cons key keys =>
        by_cases fits : (Run.withBudget budget).fits key
        · exact files_fitting small few (condition key rfl fits)
        · exact files_refused fits

theorem files_like_build_two :
    FilesLikeBuild ⟨fun _ => [], fun _ => none⟩ 64 ["b", "a"] ↔
      ∀ first ∈ ["b", "a"].head?, (Run.withBudget 64).fits first →
        ∀ key ∈ ["b", "a"], (Run.withBudget 64).fits key :=
  files_like_build_iff ⟨fun _ => [], fun _ => none⟩ (by decide) (by decide)

/-- A key past the budget behind one that is not: the build takes it. -/
theorem long_key_taken :
    ¬ FilesLikeBuild ⟨fun _ => [], fun _ => none⟩ 64 ["a", String.ofList (List.replicate 65 'x')] := by
  intro files
  have fits := files_taken (by decide) rfl (by decide) files _
    (List.mem_cons_of_mem _ List.mem_cons_self)
  revert fits
  decide

end Lexindex.StringIndex
