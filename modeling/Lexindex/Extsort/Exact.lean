import Mathlib
import Lexindex.Extsort.CollapseSound

/-!
# The sort is exact

Every replay of what a builder collects is the keys it was given, ascending and distinct,
unless a read fails, which it reports.
-/

set_option autoImplicit false

namespace Lexindex.Extsort

/-- A run that is still to be merged is cut short. -/
def Replay.cutShort (replay : Replay) (faults : Faults) : Prop :=
  match replay with
  | .inMemory _ => False
  | .spilled runs =>
      ∃ dir, runs.dir = some dir ∧ ∃ id ∈ runs.live, Extsort.cutShort dir faults id

/-- Replays that all came to their ends lead from the one to the other. -/
inductive Replayed (fanIn : Nat) (first : Replay) : Replay → Prop
  | here : Replayed fanIn first first
  | again {replay after : Replay} {σ : Type} {faults : Faults} {f : σ → String → Except Failure σ}
      {s t : σ} (before : Replayed fanIn first replay)
      (walked : replay.each faults fanIn f s = some (.ok (t, after))) : Replayed fanIn first after

/-- A walk ends, has gone through the keys, ascending and distinct, if it succeeds, does not
succeed where a run is cut short, and where no read fails does what `f` does on those keys. -/
def ReplaysExactly (fanIn : Nat) (keys : List String) (replay : Replay) : Prop :=
  ∀ (faults : Faults) (σ : Type) (f : σ → String → Except Failure σ) (s : σ),
    ∃ result, replay.each faults fanIn f s = some result ∧
      (∀ t after, result = .ok (t, after) → (sortDedup bytesOf keys).foldlM f s = .ok t) ∧
      (replay.cutShort faults → ∃ failure, result = .error failure) ∧
      ((∀ id, faults id = none) → result.map Prod.fst = (sortDedup bytesOf keys).foldlM f s)

/-- What is collected replays as the keys, ascending and distinct, again and again. -/
def SortsExactly (tooLong : String) (budget : Nat) (keys : List String) : Prop :=
  Ascending bytesOf (sortDedup bytesOf keys) ∧
    ∃ collected, collect tooLong budget keys = some collected ∧
      ∀ replay, collected = .ok replay → ∀ fanIn, 2 ≤ fanIn → ∀ later,
        Replayed fanIn replay later → ReplaysExactly fanIn keys later

section Distinct

variable {σ : Type} (f : σ → String → Except Failure σ)

theorem eachDistinct_from (keys : List String) : ∀ (key : String) (s : σ),
    (f s key >>= fun s => eachDistinct f keys (some key) s) =
      (List.destutter' (· ≠ ·) key keys).foldlM f s := by
  induction keys with
  | nil =>
      intro key s
      rw [List.destutter'_nil, List.foldlM_cons]
      rfl
  | cons next keys ih =>
      intro key s
      by_cases same : key = next
      · rw [List.destutter'_cons_neg _ (by simpa using same), ← ih key s]
        refine congrArg _ (funext fun s => ?_)
        rw [eachDistinct, if_pos (congrArg some same)]
      · rw [List.destutter'_cons_pos _ same, List.foldlM_cons]
        refine congrArg _ (funext fun s => ?_)
        rw [eachDistinct, if_neg (fun held => same (Option.some.inj held))]
        exact ih next s

/-- A walk that skips keys equal to the one before walks the stream without repeats. -/
theorem eachDistinct_eq (keys : List String) (s : σ) :
    eachDistinct f keys none s = (keys.destutter (· ≠ ·)).foldlM f s := by
  cases keys with
  | nil => rfl
  | cons key keys =>
      rw [eachDistinct, if_neg (by simp), List.destutter_cons']
      exact eachDistinct_from f keys key s

end Distinct

/-- A replay whose keys are those of `keys`. -/
def Replay.Keeps (replay : Replay) (keys : List String) : Prop :=
  match replay with
  | .inMemory run => ∃ pushed, Holds run pushed ∧ ∀ key, key ∈ pushed ↔ key ∈ keys
  | .spilled runs => ∃ dir held, Stored runs dir held ∧ ∀ key, key ∈ held.flatten ↔ key ∈ keys

section Each

variable {σ : Type} {keys : List String} {faults : Faults} {fanIn : Nat}
  {f : σ → String → Except Failure σ} {s : σ}

theorem each_inMemory {run : Run} (keeps : (Replay.inMemory run).Keeps keys) :
    ∃ after : Replay, after.Keeps keys ∧ (Replay.inMemory run).each faults fanIn f s =
      some ((sortDedup bytesOf keys).foldlM f s >>= fun t => .ok (t, after)) := by
  obtain ⟨pushed, holds, members⟩ := keeps
  obtain ⟨after, sorted, still⟩ := holds.sorted
  have same : sortDedup bytesOf pushed = sortDedup bytesOf keys :=
    eq_sortDedup bytesOf_injective keys (sortDedup_ascending bytesOf_injective pushed) fun key =>
      (mem_sortDedup bytesOf_injective pushed key).trans (members key)
  rw [same] at sorted still
  refine ⟨.inMemory after, ⟨_, still, mem_sortDedup bytesOf_injective keys⟩, ?_⟩
  rw [Replay.each]
  simp only [sorted, Option.map_some]
  rfl

/-- A merge of what is kept fails, is cut short and says so, or is every key in order. -/
theorem merge_keeps (two : 2 ≤ fanIn) {runs : Runs} (keeps : (Replay.spilled runs).Keeps keys) :
    ((∃ failure, runs.merge faults fanIn = some (.error failure)) ∨
        ∃ out after, runs.merge faults fanIn = some (.ok ((out, true), after))) ∧
      (∃ id, faults id ≠ none) ∨
    ¬ (Replay.spilled runs).cutShort faults ∧ ∃ out after, (Replay.spilled after).Keeps keys ∧
      runs.merge faults fanIn = some (.ok ((out, false), after)) ∧ Sorted bytesOf out ∧
      ∀ key, key ∈ out ↔ key ∈ keys := by
  obtain ⟨dir, held, stored, members⟩ := keeps
  obtain ⟨result, collapsed, outcome⟩ := @collapse_spec faults fanIn two _ _ _ _ stored le_rfl
  rw [Runs.merge]
  simp only [collapsed]
  cases result with
  | error failure => exact .inl ⟨.inl ⟨failure, rfl⟩, outcome⟩
  | ok after =>
      obtain ⟨dir', held', now, perm, cut⟩ := outcome
      simp only [now.dirIs]
      by_cases whole : ∃ id ∈ after.live, cutShort dir' faults id
      · left
        have faulty : ∃ id, faults id ≠ none := by
          obtain ⟨id, -, _, _, -, limit, -⟩ := whole
          exact ⟨id, by rw [limit]; exact Option.some_ne_none _⟩
        refine ⟨?_, faulty⟩
        rcases mergeRuns_cut now.files whole with refused | ⟨out, ended⟩
        · exact .inl ⟨.io, by rw [refused]; rfl⟩
        · exact .inr ⟨out, after, by rw [ended]; rfl⟩
      · right
        refine ⟨?_, ?_⟩
        · rintro ⟨other, otherIs, short⟩
          rw [stored.dirIs, Option.some.injEq] at otherIs
          exact whole (cut (otherIs ▸ short))
        · obtain ⟨out, merged, sorted, all⟩ := mergeRuns_files now.files
            fun id member short => whole ⟨id, member, short⟩
          refine ⟨out, after, ⟨dir', held', now, fun key => perm.mem_iff.trans (members key)⟩,
            by rw [merged]; rfl, sorted, fun key => ?_⟩
          exact (all.trans perm).mem_iff.trans (members key)

theorem each_spilled (two : 2 ≤ fanIn) {runs : Runs} (keeps : (Replay.spilled runs).Keeps keys) :
    (∃ failure, (Replay.spilled runs).each faults fanIn f s = some (.error failure) ∧
      ∃ id, faults id ≠ none) ∨
    (¬ (Replay.spilled runs).cutShort faults ∧ ∃ after : Replay, after.Keeps keys ∧
      (Replay.spilled runs).each faults fanIn f s =
        some ((sortDedup bytesOf keys).foldlM f s >>= fun t => .ok (t, after))) := by
  rw [Replay.each]
  rcases @merge_keeps keys faults fanIn two runs keeps with
    ⟨⟨failure, failed⟩ | ⟨out, after, ended⟩, faulty⟩ | ⟨whole, out, after, still, merged, sorted, all⟩
  · rw [failed]
    exact .inl ⟨failure, rfl, faulty⟩
  · rw [ended]
    simp only [Option.map_some, bind, Except.bind]
    cases eachDistinct f out none s with
    | error failure => exact .inl ⟨failure, rfl, faulty⟩
    | ok t => exact .inl ⟨.io, rfl, faulty⟩
  · refine .inr ⟨whole, .spilled after, still, ?_⟩
    obtain ⟨ascending, distinct⟩ := mem_destutter_of_sorted bytesOf_injective sorted
    have same : out.destutter (· ≠ ·) = sortDedup bytesOf keys :=
      eq_sortDedup bytesOf_injective keys ascending fun key => (distinct key).trans (all key)
    rw [merged]
    simp only [Option.map_some, bind, Except.bind, eachDistinct_eq, same, refuse,
      Bool.false_eq_true, if_false]
    rfl

/-- A walk of what is kept is exact, and keeps it. -/
theorem Replay.Keeps.exact (two : 2 ≤ fanIn) {replay : Replay} (keeps : replay.Keeps keys) :
    ReplaysExactly fanIn keys replay := by
  intro faults σ f s
  have walked : ∀ {after : Replay} {result : Except Failure (σ × Replay)},
      result = ((sortDedup bytesOf keys).foldlM f s >>= fun t => .ok (t, after)) →
      (∀ t after, result = .ok (t, after) → (sortDedup bytesOf keys).foldlM f s = .ok t) ∧
        result.map Prod.fst = (sortDedup bytesOf keys).foldlM f s := by
    intro after result whole
    rw [whole]
    cases (sortDedup bytesOf keys).foldlM f s with
    | error failure => exact ⟨fun t after ok => (by cases ok), rfl⟩
    | ok t =>
        refine ⟨fun other after ok => ?_, rfl⟩
        cases ok
        rfl
  cases replay with
  | inMemory run =>
      obtain ⟨after, -, each⟩ := each_inMemory keeps
      obtain ⟨exact, fine⟩ := walked rfl
      exact ⟨_, each, exact, False.elim, fun _ => fine⟩
  | spilled runs =>
      rcases each_spilled two keeps with ⟨failure, each, id, faulty⟩ | ⟨whole, after, -, each⟩
      · exact ⟨_, each, fun t after ok => (by cases ok), fun _ => ⟨failure, rfl⟩,
          fun none => absurd (none id) faulty⟩
      · obtain ⟨exact, fine⟩ := walked rfl
        exact ⟨_, each, exact, fun short => absurd short whole, fun _ => fine⟩

theorem Replay.Keeps.walked (two : 2 ≤ fanIn) {replay after : Replay} {t : σ}
    (keeps : replay.Keeps keys) (each : replay.each faults fanIn f s = some (.ok (t, after))) :
    after.Keeps keys := by
  have same : ∀ {other : Replay},
      some ((sortDedup bytesOf keys).foldlM f s >>= fun t => .ok (t, other)) =
        some (Except.ok (t, after)) → other = after := by
    intro other ok
    rw [Option.some.injEq] at ok
    obtain ⟨u, -, ok⟩ := bind_eq_ok.mp ok
    rw [Except.ok.injEq, Prod.mk.injEq] at ok
    exact ok.2
  cases replay with
  | inMemory run =>
      obtain ⟨other, still, whole⟩ := each_inMemory keeps
      exact same (whole.symm.trans each) ▸ still
  | spilled runs =>
      rcases each_spilled two keeps with ⟨failure, failed, -⟩ | ⟨-, other, still, whole⟩
      · cases failed.symm.trans each
      · exact same (whole.symm.trans each) ▸ still

theorem Replayed.keeps (two : 2 ≤ fanIn) {first later : Replay}
    (replayed : Replayed fanIn first later) (keeps : first.Keeps keys) : later.Keeps keys := by
  induction replayed with
  | here => exact keeps
  | again _ walked ih => exact ih.walked two walked

end Each

end Lexindex.Extsort

/-!
## What a builder collects

Pushing keys spills runs that hold them.  What is collected keeps every key, as long as none
is four gibibytes long.
-/

namespace Lexindex.Extsort

section Spill

/-- No file has the next name or a later one. -/
def Fresh (runs : Runs) : Prop :=
  ∀ id, runs.next ≤ id → runs.dir.getD (fun _ => none) id = none

theorem spill_eq {runs : Runs} {keys : List String} (fresh : Fresh runs)
    (short : ∀ key ∈ keys, (bytesOf key).length < 2 ^ 32) :
    runs.spill keys = .ok
      { dir := some (Function.update (runs.dir.getD fun _ => none) runs.next
          (some (runBytes keys)))
        live := runs.live ++ [runs.next]
        next := runs.next + 1 } := by
  have none_long : ¬ ∃ key ∈ keys, 2 ^ 32 ≤ (bytesOf key).length := by
    rintro ⟨key, member, long⟩
    exact absurd long (Nat.not_le_of_lt (short key member))
  rw [Runs.spill, Runs.writeRun, fresh _ le_rfl, refuse, refuse, if_neg none_long]
  rfl

theorem spill_fresh {runs : Runs} {keys : List String} (fresh : Fresh runs)
    (short : ∀ key ∈ keys, (bytesOf key).length < 2 ^ 32) :
    ∃ after, runs.spill keys = .ok after ∧ Fresh after := by
  refine ⟨_, spill_eq fresh short, fun id later => ?_⟩
  have later : runs.next + 1 ≤ id := later
  rw [Option.getD_some, Function.update_of_ne (by omega)]
  exact fresh id (by omega)

/-- The runs spilled so far. -/
def Spilled (runs : Runs) (held : List (List String)) : Prop :=
  runs = Runs.beside ∧ held = [] ∨ runs.live ≠ [] ∧ ∃ dir, Stored runs dir held

theorem Spilled.fresh {runs : Runs} {held : List (List String)} (spilled : Spilled runs held) :
    Fresh runs := by
  rcases spilled with ⟨rfl, -⟩ | ⟨-, dir, stored⟩
  · exact fun _ _ => rfl
  · intro id later
    rw [stored.dirIs, Option.getD_some]
    exact stored.fresh id later

theorem Spilled.spill {runs : Runs} {held : List (List String)} {keys : List String}
    (spilled : Spilled runs held) (short : ∀ key ∈ keys, (bytesOf key).length < 2 ^ 32)
    (sorted : Sorted bytesOf keys) (few : (held ++ [keys]).flatten.length < 2 ^ 64) :
    ∃ after, runs.spill keys = .ok after ∧ Spilled after (held ++ [keys]) := by
  have fresh := spilled.fresh
  refine ⟨_, spill_eq fresh short, .inr ⟨by simp, _, rfl, ?_, ?_, ?_, few⟩⟩
  · have here : OnDisk (Function.update (runs.dir.getD fun _ => none) runs.next
        (some (runBytes keys))) runs.next keys := by
      refine ⟨Function.update_self .., short, ?_, sorted⟩
      simp only [List.flatten_append, List.length_append, List.flatten_singleton] at few
      omega
    refine List.rel_append ?_ (.cons here .nil)
    rcases spilled with ⟨rfl, rfl⟩ | ⟨-, dir, stored⟩
    · exact .nil
    · have files := stored.files
      refine files.imp fun id held file => ⟨?_, file.short, file.few, file.sorted⟩
      rw [Function.update_of_ne, stored.dirIs]
      · exact file.written
      · intro same
        have written := file.written
        rw [same, stored.fresh _ le_rfl] at written
        cases written
  · intro id later
    have later : runs.next + 1 ≤ id := later
    rw [Function.update_of_ne (by omega)]
    exact fresh id (by omega)
  · rcases spilled with ⟨rfl, -⟩ | ⟨-, dir, stored⟩
    · exact List.nodup_singleton _
    · rw [List.nodup_append]
      refine ⟨stored.names, List.nodup_singleton _, fun a member b new same => ?_⟩
      rw [List.mem_singleton] at new
      obtain ⟨keys, -, file⟩ := (forall₂_mem stored.files).1 a member
      have written := file.written
      rw [same, new, stored.fresh _ le_rfl] at written
      cases written

end Spill

section Collect

variable (tooLong : String) {budget : Nat}

/-- What pushing `done` has led to. -/
structure Gathered (budget : Nat) (done : List String) (run : Run) (runs : Runs) : Prop where
  budgetIs : run.budget = budget
  keeps : ∃ pushed held, Holds run pushed ∧ Spilled runs held ∧
    (∀ key ∈ pushed, (bytesOf key).length < 2 ^ 32) ∧
    (∀ key, key ∈ pushed ∨ key ∈ held.flatten ↔ key ∈ done) ∧
    pushed.length + held.flatten.length ≤ done.length

theorem gathered_new (budget : Nat) :
    Gathered budget [] (Run.withBudget budget) Runs.beside :=
  ⟨rfl, [], [], holds_new budget, .inl ⟨rfl, rfl⟩, by simp, by simp, by simp⟩

theorem sortDedup_length_le (keys : List String) :
    (sortDedup bytesOf keys).length ≤ keys.length := by
  refine (List.destutter_sublist _ _).length_le.trans ?_
  rw [List.length_mergeSort]

/-- A run that holds keys is sorted and spilled beside those before it. -/
theorem Spilled.next {run : Run} {runs : Runs} {pushed : List String} {held : List (List String)}
    (spilled : Spilled runs held) (holds : Holds run pushed)
    (short : ∀ key ∈ pushed, (bytesOf key).length < 2 ^ 32)
    (few : pushed.length + held.flatten.length < 2 ^ 64) :
    ∃ after runs', run.sorted = some (sortDedup bytesOf pushed, after) ∧
      runs.spill (sortDedup bytesOf pushed) = .ok runs' ∧
      Spilled runs' (held ++ [sortDedup bytesOf pushed]) ∧
      (held ++ [sortDedup bytesOf pushed]).flatten.length ≤
        pushed.length + held.flatten.length := by
  obtain ⟨after, sorted, -⟩ := holds.sorted
  have sizes := sortDedup_length_le pushed
  have sortedShort : ∀ key ∈ sortDedup bytesOf pushed, (bytesOf key).length < 2 ^ 32 :=
    fun key member => short key ((mem_sortDedup bytesOf_injective pushed key).mp member)
  have total : (held ++ [sortDedup bytesOf pushed]).flatten.length ≤
      pushed.length + held.flatten.length := by
    simp only [List.flatten_append, List.length_append, List.flatten_singleton]
    omega
  obtain ⟨runs', spill, spilled'⟩ := spilled.spill sortedShort
    (sortDedup_ascending bytesOf_injective pushed).sorted (by omega)
  exact ⟨after, runs', sorted, spill, spilled', total⟩

theorem Gathered.push {done : List String} {run : Run} {runs : Runs} {key : String}
    (gathered : Gathered budget done run runs) (small : budget < 2 ^ 32)
    (few : done.length < 2 ^ 64) (short : (bytesOf key).length < 2 ^ 32) :
    pushKey tooLong run runs key = some (.error (.index (.build tooLong))) ∨
      ∃ run' runs', pushKey tooLong run runs key = some (.ok (run', runs')) ∧
        Gathered budget (done ++ [key]) run' runs' := by
  obtain ⟨budgetIs, pushed, held, holds, spilled, allShort, members, size⟩ := gathered
  rw [pushKey]
  by_cases fits : run.fits key
  · right
    rw [if_pos fits]
    have room := fits.1
    refine ⟨_, _, rfl, budgetIs, pushed ++ [key], held, holds.push (by omega), spilled, ?_, ?_, ?_⟩
    · exact List.forall_mem_append.mpr ⟨allShort, List.forall_mem_singleton.mpr short⟩
    · intro other
      rw [List.mem_append, List.mem_append, ← members, List.mem_singleton]
      tauto
    · rw [List.length_append, List.length_append]
      omega
  · rw [if_neg fits]
    by_cases empty : run.isEmpty
    · exact .inl (if_pos empty)
    · right
      rw [if_neg empty]
      obtain ⟨after, runs', sorted, spill, spilled', total⟩ :=
        spilled.next holds allShort (by omega)
      have budgetKept : after.budget = budget := by
        rw [Run.sorted] at sorted
        obtain ⟨slices, -, sorted⟩ := Option.bind_eq_some_iff.mp sorted
        obtain ⟨strings, -, sorted⟩ := Option.map_eq_some_iff.mp sorted
        rw [Prod.mk.injEq] at sorted
        rw [← sorted.2]
        exact budgetIs
      have cleared : Holds (after.clear.push key) [key] := by
        have nothing : Holds after.clear [] := rfl
        exact nothing.push (by rw [show after.clear.bytes = [] from rfl, List.length_nil]; omega)
      refine ⟨after.clear.push key, runs', ?_, budgetKept, [key],
        held ++ [sortDedup bytesOf pushed], cleared, spilled', ?_, ?_, ?_⟩
      · rw [sorted, Option.map_some, spill]
        rfl
      · exact List.forall_mem_singleton.mpr short
      · intro other
        rw [List.flatten_append, List.flatten_singleton, List.mem_append,
          List.mem_singleton, mem_sortDedup bytesOf_injective, List.mem_append, ← members,
          List.mem_singleton]
        tauto
      · simp only [List.length_singleton, List.length_append] at total ⊢
        omega

theorem Gathered.pushKeys (small : budget < 2 ^ 32) (keys : List String) :
    ∀ {done : List String} {run : Run} {runs : Runs}, Gathered budget done run runs →
      (done ++ keys).length < 2 ^ 64 → (∀ key ∈ keys, (bytesOf key).length < 2 ^ 32) →
      (∃ failure, pushKeys tooLong keys run runs = some (.error failure)) ∨
        ∃ run' runs', pushKeys tooLong keys run runs = some (.ok (run', runs')) ∧
          Gathered budget (done ++ keys) run' runs' := by
  induction keys with
  | nil =>
      intro done run runs gathered _ _
      exact .inr ⟨run, runs, rfl, (List.append_nil done).symm ▸ gathered⟩
  | cons key keys ih =>
      intro done run runs gathered few short
      obtain ⟨keyShort, short⟩ := List.forall_mem_cons.mp short
      have whole : done ++ key :: keys = done ++ [key] ++ keys := by simp
      rw [whole] at few ⊢
      rw [Extsort.pushKeys]
      have fewDone : done.length < 2 ^ 64 := by
        rw [List.length_append, List.length_append] at few
        omega
      rcases gathered.push tooLong small fewDone keyShort with
        refused | ⟨run', runs', pushed, now⟩
      · rw [refused]
        exact .inl ⟨_, rfl⟩
      · rw [pushed]
        exact ih now few short

/-- Keys none of which is four gibibytes long are kept, or refused. -/
theorem collect_keeps (small : budget < 2 ^ 32) {keys : List String} (few : keys.length < 2 ^ 64)
    (short : ∀ key ∈ keys, (bytesOf key).length < 2 ^ 32) :
    ∃ collected, collect tooLong budget keys = some collected ∧
      ∀ replay, collected = .ok replay → replay.Keeps keys := by
  rw [collect]
  rcases Gathered.pushKeys tooLong small keys (gathered_new budget) few short with
    ⟨failure, refused⟩ | ⟨run, runs, pushed, gathered⟩
  · rw [refused]
    exact ⟨_, rfl, fun replay ok => by cases ok⟩
  · rw [pushed]
    clear pushed
    obtain ⟨-, pushed, held, holds, spilled, allShort, members, size⟩ := gathered
    rw [List.nil_append] at members size
    simp only
    rcases spilled with ⟨rfl, rfl⟩ | ⟨some_run, dir, stored⟩
    · rw [if_pos (show Runs.beside.live = [] from rfl)]
      refine ⟨_, rfl, fun replay ok => ?_⟩
      cases ok
      refine ⟨pushed, holds, fun key => ?_⟩
      rw [← members key, List.flatten_nil, or_iff_left List.not_mem_nil]
    · rw [if_neg some_run]
      by_cases empty : run.isEmpty
      · rw [if_pos empty]
        refine ⟨_, rfl, fun replay ok => ?_⟩
        cases ok
        have none_pushed : pushed = [] := by
          rw [← List.length_eq_zero_iff, ← holds.length, show run.spans = [] from empty]
          rfl
        refine ⟨dir, held, stored, fun key => ?_⟩
        rw [← members key, none_pushed]
        simp
      · rw [if_neg empty]
        have spilled : Spilled runs held := .inr ⟨some_run, dir, stored⟩
        obtain ⟨after, runs', sorted, spill, spilled', -⟩ :=
          spilled.next holds allShort (by omega)
        rw [sorted, Option.map_some, spill]
        refine ⟨_, rfl, fun replay ok => ?_⟩
        cases ok
        rcases spilled' with ⟨-, none_held⟩ | ⟨-, dir', stored'⟩
        · exact absurd none_held (by simp)
        · refine ⟨dir', _, stored', fun key => ?_⟩
          rw [List.flatten_append, List.flatten_singleton, List.mem_append,
            mem_sortDedup bytesOf_injective, ← members key, or_comm]

end Collect

end Lexindex.Extsort
