import Mathlib
import Lexindex.Extsort.Exact

/-!
# When the sort is exact

A span has 32 bits for a key's length, and a builder asks whether a key fits only before it
empties the run: a key of four gibibytes that follows another is taken, and is not the key
that comes out.  Every other corpus that is taken is sorted exactly.
-/

set_option autoImplicit false

namespace Lexindex.Extsort

section Short

variable {dir : Dir} {faults : Faults}

theorem stream_short (fuel : Nat) : ∀ {m : Merging} {out : List String × Bool},
    (∀ e ∈ m.heap, (bytesOf e.1).length < 2 ^ 32) → m.stream fuel = some out →
      ∀ key ∈ out.1, (bytesOf key).length < 2 ^ 32 := by
  induction fuel with
  | zero =>
      intro m out _ streamed
      cases streamed
  | succ fuel ih =>
      intro m out ready streamed
      rw [Merging.stream] at streamed
      split at streamed
      · rw [Option.some.injEq] at streamed
        rw [← streamed]
        exact fun key member => absurd member List.not_mem_nil
      · next key slot heap top =>
        rw [top] at ready
        obtain ⟨first, ready⟩ := List.forall_mem_cons.mp ready
        split at streamed
        · cases streamed
        · next reader _ =>
          split at streamed
          · rw [Option.some.injEq] at streamed
            rw [← streamed]
            exact List.forall_mem_singleton.mpr first
          · obtain ⟨rest, later, rfl⟩ := Option.map_eq_some_iff.mp streamed
            exact List.forall_mem_cons.mpr ⟨first, ih ready later⟩
          · next next after read =>
            obtain ⟨rest, later, rfl⟩ := Option.map_eq_some_iff.mp streamed
            refine List.forall_mem_cons.mpr ⟨first, ih (fun e member => ?_) later⟩
            rcases (List.mem_orderedInsert before).mp member with rfl | member
            · exact next_short read
            · exact ready e member

theorem openRuns_short (ids : List Nat) : ∀ {m after : Merging},
    (∀ e ∈ m.heap, (bytesOf e.1).length < 2 ^ 32) →
      Merging.openRuns dir faults ids m = some after →
      ∀ e ∈ after.heap, (bytesOf e.1).length < 2 ^ 32 := by
  induction ids with
  | nil =>
      intro m after ready opened
      rw [Merging.openRuns, Option.some.injEq] at opened
      rw [← opened]
      exact ready
  | cons id ids ih =>
      intro m after ready opened
      rw [Merging.openRuns] at opened
      obtain ⟨reader, -, opened⟩ := Option.bind_eq_some_iff.mp opened
      obtain ⟨first, read, opened⟩ := Option.bind_eq_some_iff.mp opened
      cases first with
      | none =>
          simp only at opened
          refine ih ?_ opened
          exact ready
      | some first =>
          simp only at opened
          refine ih (fun e member => ?_) opened
          rcases (List.mem_orderedInsert before).mp member with rfl | member
          · exact next_short read
          · exact ready e member

/-- A merge yields no key of four gibibytes, whatever the files are. -/
theorem mergeRuns_short {ids : List Nat} {out : List String × Bool}
    (merged : mergeRuns dir faults ids = some (.ok out)) :
    ∀ key ∈ out.1, (bytesOf key).length < 2 ^ 32 := by
  rw [mergeRuns] at merged
  split at merged
  · cases merged
  · next m opened =>
    obtain ⟨streamed, result, same⟩ := Option.map_eq_some_iff.mp merged
    rw [Except.ok.injEq] at same
    refine stream_short _ (openRuns_short ids ?_ opened) (same ▸ result)
    exact fun e member => absurd member List.not_mem_nil

/-- What a walk is given, in turn. -/
def gather (given : List String) (key : String) : Except Failure (List String) :=
  .ok (given ++ [key])

theorem foldlM_gather (keys : List String) : ∀ given : List String,
    keys.foldlM gather given = .ok (given ++ keys) := by
  induction keys with
  | nil =>
      intro given
      rw [List.append_nil]
      rfl
  | cons key keys ih =>
      intro given
      rw [List.foldlM_cons]
      refine (ih (given ++ [key])).trans ?_
      rw [List.append_assoc, List.singleton_append]

/-- No walk is given a key of four gibibytes. -/
theorem each_short {replay after : Replay} {fanIn : Nat} {given : List String}
    (walked : replay.each faults fanIn gather [] = some (.ok (given, after))) :
    ∀ key ∈ given, (bytesOf key).length < 2 ^ 32 := by
  cases replay with
  | inMemory run =>
      rw [Replay.each] at walked
      obtain ⟨sorted, result, walked⟩ := Option.map_eq_some_iff.mp walked
      rw [foldlM_gather] at walked
      cases walked
      exact sorted_short result
  | spilled runs =>
      rw [Replay.each] at walked
      obtain ⟨merged, result, walked⟩ := Option.map_eq_some_iff.mp walked
      obtain ⟨merge, rfl, rest⟩ := bind_eq_ok.mp walked
      rw [eachDistinct_eq, foldlM_gather, List.nil_append] at rest
      obtain ⟨all, sameAll, rest⟩ := bind_eq_ok.mp rest
      obtain ⟨-, -, rest⟩ := bind_eq_ok.mp rest
      cases sameAll
      cases rest
      rw [Runs.merge] at result
      split at result
      · cases result
      · cases result
      · next collapsed _ =>
        split at result
        · cases result
        · obtain ⟨stream, merged, joined⟩ := Option.map_eq_some_iff.mp result
          cases stream with
          | error failure => cases joined
          | ok stream =>
              cases joined
              exact fun key member => mergeRuns_short merged key
                ((List.destutter_sublist _ _).subset member)

end Short

/-- A corpus that replays exactly has no key of four gibibytes. -/
theorem ReplaysExactly.short {keys : List String} {replay : Replay}
    (exact : ReplaysExactly 2 keys replay) : ∀ key ∈ keys, (bytesOf key).length < 2 ^ 32 := by
  obtain ⟨result, walked, -, -, fine⟩ := exact (fun _ => none) (List String) gather []
  have whole := fine fun _ => rfl
  rw [foldlM_gather, List.nil_append] at whole
  cases result with
  | error failure => cases whole
  | ok pair =>
      obtain ⟨given, after⟩ := pair
      have same : given = sortDedup bytesOf keys := Except.ok.inj whole
      intro key member
      refine each_short walked key ?_
      rw [same]
      exact (mem_sortDedup bytesOf_injective keys key).mpr member

section Accepts

variable (tooLong : String)

theorem pushKey_accepts {run : Run} {runs : Runs} {key : String} (fresh : Fresh runs)
    (taken : run.fits key ∨ ¬ run.isEmpty) {result : Except Failure (Run × Runs)}
    (pushed : pushKey tooLong run runs key = some result) :
    ∃ run' runs', result = .ok (run', runs') ∧ Fresh runs' ∧ ¬ run'.isEmpty := by
  have filled : ∀ run : Run, ¬ (run.push key).isEmpty := by
    intro run empty
    exact List.append_ne_nil_of_right_ne_nil _ (List.cons_ne_nil _ _) empty
  rw [pushKey] at pushed
  by_cases fits : run.fits key
  · rw [if_pos fits, Option.some.injEq] at pushed
    exact ⟨_, _, pushed.symm, fresh, filled run⟩
  · rw [if_neg fits, if_neg (taken.resolve_left fits)] at pushed
    obtain ⟨sorted, result', rfl⟩ := Option.map_eq_some_iff.mp pushed
    obtain ⟨after, spill, still⟩ := spill_fresh fresh (sorted_short result')
    rw [spill]
    exact ⟨_, _, rfl, still, filled _⟩

theorem pushKeys_accepts (keys : List String) : ∀ {run : Run} {runs : Runs}, Fresh runs →
    ¬ run.isEmpty → ∀ {result : Except Failure (Run × Runs)},
      pushKeys tooLong keys run runs = some result →
      ∃ run' runs', result = .ok (run', runs') ∧ Fresh runs' := by
  induction keys with
  | nil =>
      intro run runs fresh _ result pushed
      rw [pushKeys, Option.some.injEq] at pushed
      exact ⟨run, runs, pushed.symm, fresh⟩
  | cons key keys ih =>
      intro run runs fresh filled result pushed
      rw [pushKeys] at pushed
      cases one : pushKey tooLong run runs key with
      | none =>
          rw [one] at pushed
          cases pushed
      | some first =>
          obtain ⟨run', runs', rfl, fresh', filled'⟩ := pushKey_accepts tooLong fresh (.inr filled) one
          rw [one] at pushed
          exact ih fresh' filled' pushed

/-- Once its first key fits, a builder refuses no key. -/
theorem collect_accepts {budget : Nat} {first : String} {keys : List String}
    (fits : (Run.withBudget budget).fits first) {collected : Except Failure Replay}
    (result : collect tooLong budget (first :: keys) = some collected) :
    ∃ replay, collected = .ok replay := by
  have fresh : Fresh Runs.beside := fun _ _ => rfl
  rw [collect, pushKeys] at result
  have one : pushKey tooLong (Run.withBudget budget) Runs.beside first =
      some (.ok ((Run.withBudget budget).push first, Runs.beside)) := if_pos fits
  have filled : ¬ ((Run.withBudget budget).push first).isEmpty := List.cons_ne_nil _ _
  rw [one] at result
  simp only at result
  cases rest : pushKeys tooLong keys ((Run.withBudget budget).push first) Runs.beside with
  | none =>
      rw [rest] at result
      cases result
  | some pushed =>
      obtain ⟨run', runs', rfl, fresh'⟩ := pushKeys_accepts tooLong keys fresh filled rest
      rw [rest] at result
      simp only at result
      by_cases none_spilled : runs'.live = []
      · rw [if_pos none_spilled, Option.some.injEq] at result
        exact ⟨_, result.symm⟩
      · rw [if_neg none_spilled] at result
        by_cases empty : run'.isEmpty
        · rw [if_pos empty, Option.some.injEq] at result
          exact ⟨_, result.symm⟩
        · rw [if_neg empty] at result
          obtain ⟨sorted, sortedIs, rfl⟩ := Option.map_eq_some_iff.mp result
          obtain ⟨after, spill, -⟩ := spill_fresh fresh' (sorted_short sortedIs)
          rw [spill]
          exact ⟨_, rfl⟩

/-- What pushing some keys has led to, whatever the spans have come to stand for. -/
def Loose (count : Nat) (run : Run) (runs : Runs) : Prop :=
  ∃ held, Spilled runs held ∧ run.spans.length + held.flatten.length ≤ count

theorem Loose.push {count : Nat} {run run' : Run} {runs runs' : Runs} {key : String}
    (loose : Loose count run runs) (few : count < 2 ^ 64)
    (pushed : pushKey tooLong run runs key = some (.ok (run', runs'))) :
    Loose (count + 1) run' runs' := by
  obtain ⟨held, spilled, size⟩ := loose
  have longer : ∀ run : Run, (run.push key).spans.length = run.spans.length + 1 := fun run => by
    rw [Run.push, List.length_append, List.length_singleton]
  rw [pushKey] at pushed
  by_cases fits : run.fits key
  · rw [if_pos fits] at pushed
    cases pushed
    exact ⟨held, spilled, by rw [longer]; omega⟩
  · rw [if_neg fits] at pushed
    by_cases empty : run.isEmpty
    · rw [if_pos empty] at pushed
      cases pushed
    · rw [if_neg empty] at pushed
      obtain ⟨sorted, sortedIs, pushed⟩ := Option.map_eq_some_iff.mp pushed
      obtain ⟨order, fewer⟩ := sorted_ordered sortedIs
      have total : (held ++ [sorted.1]).flatten.length ≤ count := by
        simp only [List.flatten_append, List.length_append, List.flatten_singleton]
        omega
      obtain ⟨after, spill, spilled'⟩ :=
        spilled.spill (sorted_short sortedIs) order (by omega)
      rw [spill] at pushed
      cases pushed
      refine ⟨_, spilled', ?_⟩
      rw [longer, show sorted.2.clear.spans = [] from rfl, List.length_nil]
      omega

theorem pushKeys_loose (keys : List String) : ∀ {count : Nat} {run run' : Run} {runs runs' : Runs},
    Loose count run runs → count + keys.length < 2 ^ 64 →
      pushKeys tooLong keys run runs = some (.ok (run', runs')) →
      Loose (count + keys.length) run' runs' := by
  induction keys with
  | nil =>
      intro count run run' runs runs' loose _ pushed
      cases pushed
      exact loose
  | cons key keys ih =>
      intro count run run' runs runs' loose few pushed
      rw [List.length_cons] at few ⊢
      rw [pushKeys] at pushed
      cases one : pushKey tooLong run runs key with
      | none =>
          rw [one] at pushed
          cases pushed
      | some first =>
          rw [one] at pushed
          cases first with
          | error failure => cases pushed
          | ok pair =>
              obtain ⟨next, spilt⟩ := pair
              have rest := ih (loose.push tooLong (by omega) one) (by omega) pushed
              rwa [show count + 1 + keys.length = count + (keys.length + 1) by omega] at rest

/-- Whatever was pushed, the files collected hold keys in order. -/
theorem collect_tame {budget : Nat} {keys : List String} (few : keys.length < 2 ^ 64)
    {runs : Runs} (collected : collect tooLong budget keys = some (.ok (.spilled runs))) :
    ∃ held, (Replay.spilled runs).Keeps held := by
  have start : Loose 0 (Run.withBudget budget) Runs.beside := ⟨[], .inl ⟨rfl, rfl⟩, le_rfl⟩
  rw [collect] at collected
  cases pushed : pushKeys tooLong keys (Run.withBudget budget) Runs.beside with
  | none =>
      rw [pushed] at collected
      cases collected
  | some result =>
      rw [pushed] at collected
      cases result with
      | error failure => cases collected
      | ok pair =>
          obtain ⟨run, spilt⟩ := pair
          obtain ⟨held, spilled, size⟩ :=
            pushKeys_loose tooLong keys start (by omega) pushed
          simp only at collected
          have kept : ∀ {runs : Runs} {held : List (List String)}, Spilled runs held →
              runs.live ≠ [] → ∃ keys, (Replay.spilled runs).Keeps keys := by
            intro runs held spilled some_run
            rcases spilled with ⟨rfl, -⟩ | ⟨-, dir, stored⟩
            · exact absurd rfl some_run
            · exact ⟨held.flatten, dir, held, stored, fun _ => Iff.rfl⟩
          by_cases none_spilled : spilt.live = []
          · rw [if_pos none_spilled] at collected
            cases collected
          · rw [if_neg none_spilled] at collected
            by_cases empty : run.isEmpty
            · rw [if_pos empty] at collected
              cases collected
              exact kept spilled none_spilled
            · rw [if_neg empty] at collected
              obtain ⟨sorted, sortedIs, collected⟩ := Option.map_eq_some_iff.mp collected
              obtain ⟨order, fewer⟩ := sorted_ordered sortedIs
              have total : (held ++ [sorted.1]).flatten.length ≤ keys.length := by
                simp only [List.flatten_append, List.length_append, List.flatten_singleton]
                omega
              obtain ⟨after, spill, spilled'⟩ :=
                spilled.spill (sorted_short sortedIs) order (by omega)
              rw [spill] at collected
              cases collected
              refine kept spilled' fun none => ?_
              rcases spilled' with ⟨-, none_held⟩ | ⟨some_run, -⟩
              · exact absurd none_held (by simp)
              · exact some_run none

/-- A builder that takes the first key sorts exactly just where no key is four gibibytes long. -/
theorem SortsExactly.short {budget : Nat} {first : String} {keys : List String}
    (exact : SortsExactly tooLong budget (first :: keys))
    (fits : (Run.withBudget budget).fits first) :
    ∀ key ∈ first :: keys, (bytesOf key).length < 2 ^ 32 := by
  obtain ⟨-, collected, result, exact⟩ := exact
  obtain ⟨replay, rfl⟩ := collect_accepts tooLong fits result
  exact (exact replay rfl 2 le_rfl replay .here).short

end Accepts

/-- The sort is exact just where the first key is refused or none is four gibibytes long. -/
theorem sorts_exactly_iff (tooLong : String) {budget : Nat} (small : budget < 2 ^ 32)
    {keys : List String} (few : keys.length < 2 ^ 64) :
    SortsExactly tooLong budget keys ↔
      ∀ first ∈ keys.head?, (Run.withBudget budget).fits first →
        ∀ key ∈ keys, (bytesOf key).length < 2 ^ 32 := by
  have kept : (∀ key ∈ keys, (bytesOf key).length < 2 ^ 32) →
      SortsExactly tooLong budget keys := by
    intro short
    obtain ⟨collected, result, keeps⟩ := collect_keeps tooLong small few short
    refine ⟨sortDedup_ascending bytesOf_injective keys, collected, result, ?_⟩
    intro replay ok fanIn two later replayed
    exact (replayed.keeps two (keeps replay ok)).exact two
  constructor
  · intro exact first isFirst fits
    cases keys with
    | nil => cases isFirst
    | cons key keys =>
        rw [List.head?_cons, Option.mem_some_iff] at isFirst
        exact exact.short tooLong (isFirst ▸ fits)
  · intro short
    cases keys with
    | nil => exact kept fun key member => absurd member List.not_mem_nil
    | cons key keys =>
        by_cases fits : (Run.withBudget budget).fits key
        · exact kept (short key rfl fits)
        · refine ⟨sortDedup_ascending bytesOf_injective _,
            .error (.index (.build tooLong)), ?_, fun replay ok => by cases ok⟩
          rw [collect, pushKeys, pushKey, if_neg fits,
            if_pos (show (Run.withBudget budget).isEmpty from rfl)]

theorem sorts_exactly_three : SortsExactly "string-index: a key longer than the run budget" 16
    ["b", "a", "b"] := by
  refine (sorts_exactly_iff _ (by decide) (by decide)).mpr fun _ _ _ => ?_
  decide

/-- A key of four gibibytes after another, at the budget the builders use. -/
theorem long_key_lost : ¬ SortsExactly "string-index: a key longer than the run budget" (256 <<< 20)
    ["a", String.ofList (List.replicate (2 ^ 32) 'b')] := by
  intro exact
  have fits : (Run.withBudget (256 <<< 20)).fits "a" := by decide
  have short := exact.short _ fits _ (List.mem_cons_of_mem _ List.mem_cons_self)
  rw [bytesOf_replicate_length] at short
  exact lt_irrefl _ short

end Lexindex.Extsort
