import Mathlib
import Lexindex.Extsort.FileSound

/-!
# Collapsing runs

A round merges groups of runs into one run each.  It keeps the keys that are on disk, loses
sight of no run that is cut short, and leaves fewer runs than it found.
-/

set_option autoImplicit false

namespace Lexindex.Extsort

/-- A run file holds the keys, in order. -/
structure OnDisk (dir : Dir) (id : Nat) (keys : List String) : Prop where
  written : dir id = some (runBytes keys)
  short : ∀ key ∈ keys, (bytesOf key).length < 2 ^ 32
  few : keys.length < 2 ^ 64
  sorted : Sorted bytesOf keys

/-- Each run still to be merged is on disk, and no later file is. -/
structure Stored (runs : Runs) (dir : Dir) (held : List (List String)) : Prop where
  dirIs : runs.dir = some dir
  files : List.Forall₂ (OnDisk dir) runs.live held
  fresh : ∀ id, runs.next ≤ id → dir id = none
  names : runs.live.Nodup
  few : held.flatten.length < 2 ^ 64

theorem forall₂_mem {α β : Type} {R : α → β → Prop} {items : List α} {values : List β}
    (both : List.Forall₂ R items values) :
    (∀ a ∈ items, ∃ b ∈ values, R a b) ∧ ∀ b ∈ values, ∃ a ∈ items, R a b := by
  induction both with
  | nil => exact ⟨by simp, by simp⟩
  | cons here _ ih =>
      refine ⟨List.forall_mem_cons.mpr ⟨⟨_, List.mem_cons_self, here⟩, fun a member => ?_⟩,
        List.forall_mem_cons.mpr ⟨⟨_, List.mem_cons_self, here⟩, fun b member => ?_⟩⟩
      · obtain ⟨b, bIn, related⟩ := ih.1 a member
        exact ⟨b, List.mem_cons_of_mem _ bIn, related⟩
      · obtain ⟨a, aIn, related⟩ := ih.2 b member
        exact ⟨a, List.mem_cons_of_mem _ aIn, related⟩

section Merged

variable {dir : Dir} {faults : Faults} {ids : List Nat} {held : List (List String)}

theorem mergeRuns_cut (files : List.Forall₂ (OnDisk dir) ids held)
    (cut : ∃ id ∈ ids, cutShort dir faults id) :
    mergeRuns dir faults ids = some (.error .io) ∨
      ∃ out, mergeRuns dir faults ids = some (.ok (out, true)) := by
  refine mergeRuns_damaged (List.any_eq_true.mpr ?_)
  obtain ⟨id, member, cut⟩ := cut
  obtain ⟨keys, -, file⟩ := (forall₂_mem files).1 id member
  exact ⟨_, member, readRun_cut file.written file.few file.short cut⟩

theorem readRun_files (files : List.Forall₂ (OnDisk dir) ids held)
    (whole : ∀ id ∈ ids, ¬ cutShort dir faults id) :
    ids.map (readRun dir faults) = held.map fun keys => (keys, false) := by
  induction files with
  | nil => rfl
  | cons file _ ih =>
      obtain ⟨here, whole⟩ := List.forall_mem_cons.mp whole
      rw [List.map_cons, List.map_cons, ih whole,
        readRun_whole file.written file.few file.short here]

theorem mergeRuns_files (files : List.Forall₂ (OnDisk dir) ids held)
    (whole : ∀ id ∈ ids, ¬ cutShort dir faults id) :
    ∃ out, mergeRuns dir faults ids = some (.ok (out, false)) ∧ Sorted bytesOf out ∧
      out.Perm held.flatten := by
  have read := readRun_files files whole
  have fine : ids.any (fun id => (readRun dir faults id).2) = false := by
    have mapped : ids.any (fun id => (readRun dir faults id).2) =
        (ids.map (readRun dir faults)).any Prod.snd := by
      rw [List.any_map]
      rfl
    rw [mapped, read, List.any_map, List.any_eq_false]
    exact fun _ _ => Bool.false_ne_true
  have sorted : ∀ id ∈ ids, Sorted bytesOf (readRun dir faults id).1 := by
    intro id member
    obtain ⟨keys, -, file⟩ := (forall₂_mem files).1 id member
    rw [readRun_whole file.written file.few file.short (whole _ member)]
    exact file.sorted
  have all : (ids.flatMap fun id => (readRun dir faults id).1) = held.flatten := by
    have mapped : (ids.flatMap fun id => (readRun dir faults id).1) =
        ((ids.map (readRun dir faults)).map Prod.fst).flatten := by
      rw [List.map_map]
      rfl
    rw [mapped, read, List.map_map]
    exact congrArg List.flatten (List.map_id held)
  obtain ⟨out, merged, inOrder, perm⟩ := mergeRuns_whole fine sorted
  exact ⟨out, merged, inOrder, all ▸ perm⟩

end Merged

theorem forall₂_append {α β : Type} {R : α → β → Prop} {front : List α} :
    ∀ {back : List α} {values : List β}, List.Forall₂ R (front ++ back) values →
      ∃ first rest, values = first ++ rest ∧ List.Forall₂ R front first ∧
        List.Forall₂ R back rest := by
  induction front with
  | nil => exact fun both => ⟨[], _, rfl, .nil, both⟩
  | cons a front ih =>
      intro back values both
      rw [List.cons_append] at both
      cases both with
      | cons here later =>
          obtain ⟨first, rest, rfl, firsts, rests⟩ := ih later
          exact ⟨_ :: first, rest, rfl, .cons here firsts, rests⟩

/-- Removing files that are there leaves the others. -/
theorem removeFiles {group : List Nat} (once : group.Nodup) :
    ∀ {runs : Runs} {dir : Dir}, runs.dir = some dir → (∀ id ∈ group, (dir id).isSome = true) →
      group.foldlM Runs.removeFile runs =
        .ok { runs with dir := some fun id => if id ∈ group then none else dir id } := by
  induction group with
  | nil =>
      intro runs dir dirIs _
      simp only [List.not_mem_nil, if_false]
      rw [← dirIs]
      rfl
  | cons id group ih =>
      intro runs dir dirIs there
      obtain ⟨absent, once⟩ := List.nodup_cons.mp once
      obtain ⟨here, there⟩ := List.forall_mem_cons.mp there
      have removed : runs.removeFile id =
          .ok { runs with dir := some (Function.update dir id none) } := by
        rw [Runs.removeFile, dirIs]
        exact if_pos here
      have still : ∀ other ∈ group, (Function.update dir id none other).isSome = true := by
        intro other member
        rw [Function.update_of_ne fun same : other = id => absent (same ▸ member)]
        exact there other member
      rw [List.foldlM_cons, removed]
      refine (ih once rfl still).trans ?_
      refine congrArg Except.ok (congrArg (fun dir => { runs with dir := some dir }) ?_)
      funext other
      by_cases same : other = id
      · rw [same, Function.update_self, ite_self, if_pos List.mem_cons_self]
      · rw [Function.update_of_ne same]
        simp only [List.mem_cons, same, false_or]

/-- `runs` with more runs yet to be looked at. -/
def Runs.withRest (runs : Runs) (rest : List Nat) : Runs :=
  { runs with live := runs.live ++ rest }

/-- What a collapse may come to: an error that a read error explains, or runs that hold the same
keys, one of them cut short if one was. -/
def Collapses (faults : Faults) (runs : Runs) (dir : Dir) (held : List (List String)) :
    Except Failure Runs → Prop
  | .error _ => ∃ id, faults id ≠ none
  | .ok after => ∃ dir' held', Stored after dir' held' ∧ held'.flatten.Perm held.flatten ∧
      ((∃ id ∈ runs.live, cutShort dir faults id) → ∃ id ∈ after.live, cutShort dir' faults id)

theorem Stored.collapses {runs : Runs} {dir : Dir} {held : List (List String)} {faults : Faults}
    (stored : Stored runs dir held) : Collapses faults runs dir held (.ok runs) :=
  ⟨dir, held, stored, .rfl, id⟩

theorem Collapses.trans {runs mid : Runs} {dir dir' : Dir} {held held' : List (List String)}
    {faults : Faults} {result : Except Failure Runs}
    (perm : held'.flatten.Perm held.flatten)
    (cut : (∃ id ∈ runs.live, cutShort dir faults id) → ∃ id ∈ mid.live, cutShort dir' faults id)
    (second : Collapses faults mid dir' held' result) : Collapses faults runs dir held result := by
  cases result with
  | error failure => exact second
  | ok after =>
      obtain ⟨dir'', held'', stored, perm', cut'⟩ := second
      exact ⟨dir'', held'', stored, perm'.trans perm, cut' ∘ cut⟩

section Group

variable {runs : Runs} {dir : Dir} {held : List (List String)} {faults : Faults}
  {group rest : List Nat}

/-- A merged group on disk in place of the runs it was merged from. -/
theorem Stored.replaced {live : List Nat} {heldLive heldGroup heldRest : List (List String)}
    {out : List String}
    (fresh : ∀ id, runs.next ≤ id → dir id = none)
    (names : (live ++ (group ++ rest)).Nodup)
    (few : (heldLive ++ (heldGroup ++ heldRest)).flatten.length < 2 ^ 64)
    (lives : List.Forall₂ (OnDisk dir) live heldLive)
    (groups : List.Forall₂ (OnDisk dir) group heldGroup)
    (rests : List.Forall₂ (OnDisk dir) rest heldRest)
    (sorted : Sorted bytesOf out) (perm : out.Perm heldGroup.flatten) :
    Stored { live := live ++ [runs.next] ++ rest
             dir := some fun id => if id ∈ group then none
               else Function.update dir runs.next (some (runBytes out)) id
             next := runs.next + 1 }
      (fun id => if id ∈ group then none
        else Function.update dir runs.next (some (runBytes out)) id)
      (heldLive ++ [out] ++ heldRest) := by
  have present : ∀ {ids held}, List.Forall₂ (OnDisk dir) ids held → ∀ id ∈ ids,
      id ≠ runs.next := by
    intro ids held files id member same
    obtain ⟨keys, -, file⟩ := (forall₂_mem files).1 id member
    have written := file.written
    rw [same, fresh _ le_rfl] at written
    cases written
  have kept : ∀ {ids held}, List.Forall₂ (OnDisk dir) ids held → (∀ id ∈ ids, id ∉ group) →
      List.Forall₂ (OnDisk fun id => if id ∈ group then none
        else Function.update dir runs.next (some (runBytes out)) id) ids held := by
    intro ids held files apart
    have names := present files
    induction files with
    | nil => exact .nil
    | cons file _ ih =>
        obtain ⟨here, apart⟩ := List.forall_mem_cons.mp apart
        obtain ⟨named, names⟩ := List.forall_mem_cons.mp names
        refine .cons ⟨?_, file.short, file.few, file.sorted⟩ (ih apart names)
        rw [if_neg here, Function.update_of_ne named]
        exact file.written
  obtain ⟨liveOnce, others, liveApart⟩ := List.nodup_append.mp names
  obtain ⟨groupOnce, restOnce, groupApart⟩ := List.nodup_append.mp others
  have outShort : ∀ key ∈ out, (bytesOf key).length < 2 ^ 32 := by
    intro key member
    obtain ⟨keys, keysIn, member⟩ := List.mem_flatten.mp (perm.mem_iff.mp member)
    obtain ⟨id, -, file⟩ := (forall₂_mem groups).2 keys keysIn
    exact file.short key member
  have sizes : out.length = heldGroup.flatten.length := perm.length_eq
  simp only [List.flatten_append, List.length_append] at few
  refine ⟨rfl, ?_, ?_, ?_, ?_⟩
  · refine List.rel_append (List.rel_append (kept lives ?_) (.cons ⟨?_, outShort, ?_, sorted⟩ .nil))
      (kept rests ?_)
    · exact fun id member inGroup =>
        liveApart id member id (List.mem_append_left _ inGroup) rfl
    · rw [if_neg fun inGroup => present groups _ inGroup rfl, Function.update_self]
    · omega
    · exact fun id member inGroup => groupApart id inGroup id member rfl
  · intro id later
    have later : runs.next + 1 ≤ id := later
    split
    · rfl
    · rw [Function.update_of_ne (by omega)]
      exact fresh id (by omega)
  · rw [List.nodup_append, List.nodup_append]
    refine ⟨⟨liveOnce, List.nodup_singleton _, ?_⟩, restOnce, ?_⟩
    · intro a member b inNew
      rw [List.mem_singleton] at inNew
      exact inNew ▸ present lives a member
    · intro a member b inRest same
      rcases List.mem_append.mp member with inLive | inNew
      · exact liveApart a inLive b (List.mem_append_right _ inRest) same
      · rw [List.mem_singleton] at inNew
        exact present rests b inRest (same ▸ inNew)
  · simp only [List.flatten_append, List.length_append, List.flatten_singleton]
    omega

/-- One group: carried forward, merged into one, or ended by a read error. -/
theorem collapseGroup_spec (stored : Stored (runs.withRest (group ++ rest)) dir held)
    (some_run : group ≠ []) :
    ∃ result, runs.collapseGroup faults group = some result ∧
      Collapses faults (runs.withRest (group ++ rest)) dir held
        (result.map fun after => after.withRest rest) ∧
      ∀ after, result = .ok after → after.live.length = runs.live.length + 1 := by
  rw [Runs.collapseGroup.eq_def]
  split
  · next only =>
    refine ⟨_, rfl, ?_, ?_⟩
    · have same : ({ runs with live := runs.live ++ [only] } : Runs).withRest rest =
          runs.withRest ([only] ++ rest) := by
        rw [Runs.withRest, Runs.withRest, List.append_assoc]
      rw [Except.map, same]
      exact stored.collapses
    · intro after result
      rw [Except.ok.injEq] at result
      rw [← result, List.length_append, List.length_singleton]
  · have dirIs : runs.dir = some dir := stored.dirIs
    rw [dirIs]
    obtain ⟨heldLive, others, rfl, lives, files⟩ := forall₂_append stored.files
    obtain ⟨heldGroup, heldRest, rfl, groups, rests⟩ := forall₂_append files
    have failing : (∃ id ∈ group, cutShort dir faults id) → ∃ id, faults id ≠ none := by
      rintro ⟨id, -, _, _, -, limit, -⟩
      exact ⟨id, by rw [limit]; exact Option.some_ne_none _⟩
    by_cases cut : ∃ id ∈ group, cutShort dir faults id
    · rcases mergeRuns_cut groups cut with refused | ⟨out, ended⟩
      · simp only [refused]
        exact ⟨.error .io, rfl, failing cut, fun after ok => by cases ok⟩
      · simp only [ended]
        cases written : runs.writeRun out with
        | error failure =>
            refine ⟨.error failure, ?_, failing cut, fun after ok => by cases ok⟩
            simp only [Option.map_some, bind, Except.bind, written]
        | ok pair =>
            refine ⟨.error .io, ?_, failing cut, fun after ok => by cases ok⟩
            simp only [Option.map_some, bind, Except.bind, written, refuse, if_true]
    · have whole : ∀ id ∈ group, ¬ cutShort dir faults id :=
        fun id member here => cut ⟨id, member, here⟩
      obtain ⟨out, merged, sorted, perm⟩ := mergeRuns_files groups whole
      have after := Stored.replaced stored.fresh stored.names stored.few lives groups rests
        sorted perm
      have written : runs.writeRun out = .ok (runs.next,
          { runs with dir := some (Function.update dir runs.next (some (runBytes out)))
                      next := runs.next + 1 }) := by
        have outShort : ¬ ∃ key ∈ out, 2 ^ 32 ≤ (bytesOf key).length := by
          rintro ⟨key, member, long⟩
          obtain ⟨keys, keysIn, member⟩ := List.mem_flatten.mp (perm.mem_iff.mp member)
          obtain ⟨id, -, file⟩ := (forall₂_mem groups).2 keys keysIn
          exact absurd long (Nat.not_le_of_lt (file.short key member))
        have free : dir runs.next = none := stored.fresh _ le_rfl
        rw [Runs.writeRun, dirIs, Option.getD_some, free, refuse, refuse, if_neg outShort]
        rfl
      have there : ∀ id ∈ group,
          (Function.update dir runs.next (some (runBytes out)) id).isSome = true := by
        intro id member
        obtain ⟨keys, -, file⟩ := (forall₂_mem groups).1 id member
        by_cases same : id = runs.next
        · rw [same, Function.update_self, Option.isSome_some]
        · rw [Function.update_of_ne same, file.written, Option.isSome_some]
      have once : group.Nodup :=
        (List.nodup_append.mp (List.nodup_append.mp stored.names).2.1).1
      have removed := @removeFiles group once { runs with
        dir := some (Function.update dir runs.next (some (runBytes out)))
        next := runs.next + 1 } _ rfl there
      have untouched : ∀ id, id ∉ group → id ≠ runs.next → (if id ∈ group then none
          else Function.update dir runs.next (some (runBytes out)) id) = dir id := by
        intro id apart other
        rw [if_neg apart, Function.update_of_ne other]
      simp only [merged, Option.map_some, bind, Except.bind, written, refuse, Bool.false_eq_true,
        if_false, removed, pure, Except.pure]
      refine ⟨_, rfl, ⟨_, _, after, ?_, ?_⟩, fun done ok => ?_⟩
      · simp only [List.flatten_append, List.flatten_singleton, List.append_assoc]
        exact (perm.append_right _).append_left _
      · rintro ⟨id, member, file, size, read, limit, less⟩
        have apart : id ∉ group := fun inGroup => whole id inGroup ⟨file, size, read, limit, less⟩
        have other : id ≠ runs.next := by
          intro same
          rw [same, show dir runs.next = none from stored.fresh _ le_rfl] at read
          cases read
        refine ⟨id, ?_, file, size, (untouched id apart other).trans read, limit, less⟩
        rcases List.mem_append.mp member with inLive | member
        · exact List.mem_append_left _ (List.mem_append_left _ inLive)
        · exact List.mem_append_right _ ((List.mem_append.mp member).resolve_left apart)
      · rw [Except.ok.injEq] at ok
        rw [← ok, List.length_append, List.length_singleton]

end Group

section Rounds

variable {faults : Faults}

theorem withRest_nil (runs : Runs) : runs.withRest [] = runs := by
  rw [Runs.withRest, List.append_nil]

theorem collapseGroups_spec {groups : List (List Nat)} (some_runs : ∀ group ∈ groups, group ≠ []) :
    ∀ {runs : Runs} {dir : Dir} {held : List (List String)},
      Stored (runs.withRest groups.flatten) dir held →
      ∃ result, Runs.collapseGroups faults groups runs = some result ∧
        Collapses faults (runs.withRest groups.flatten) dir held result ∧
        ∀ after, result = .ok after → after.live.length = runs.live.length + groups.length := by
  induction groups with
  | nil =>
      intro runs dir held stored
      rw [List.flatten_nil, withRest_nil] at stored ⊢
      refine ⟨_, rfl, stored.collapses, fun after ok => ?_⟩
      rw [Except.ok.injEq] at ok
      rw [← ok]
      rfl
  | cons group groups ih =>
      intro runs dir held stored
      obtain ⟨some_run, some_runs⟩ := List.forall_mem_cons.mp some_runs
      rw [List.flatten_cons] at stored ⊢
      obtain ⟨result, collapsed, first, grown⟩ := collapseGroup_spec stored some_run
      rw [Runs.collapseGroups, collapsed]
      cases result with
      | error failure => exact ⟨_, rfl, first, fun after ok => by cases ok⟩
      | ok mid =>
          obtain ⟨dir', held', midStored, perm, cut⟩ := first
          obtain ⟨result, rest, second, more⟩ := ih some_runs midStored
          refine ⟨result, rest, second.trans perm cut, fun after ok => ?_⟩
          rw [more after ok, grown mid rfl, List.length_cons]
          omega

theorem chunks_flatten {α : Type} (size : Nat) (items : List α) :
    (chunks size items).flatten = items := by
  fun_induction chunks size items with
  | case1 => rfl
  | case2 item items ih =>
      rw [List.flatten_cons, ih, List.cons_append, List.take_append_drop]

theorem chunks_some {α : Type} (size : Nat) (items : List α) :
    ∀ group ∈ chunks size items, group ≠ [] := by
  fun_induction chunks size items with
  | case1 => exact fun group member => absurd member List.not_mem_nil
  | case2 item items ih => exact List.forall_mem_cons.mpr ⟨List.cons_ne_nil _ _, ih⟩

theorem chunks_length_le {α : Type} (size : Nat) (items : List α) :
    (chunks size items).length ≤ items.length := by
  fun_induction chunks size items with
  | case1 => exact le_rfl
  | case2 item items ih =>
      rw [List.length_drop] at ih
      rw [List.length_cons, List.length_cons]
      omega

/-- A round with groups of two or more leaves fewer runs. -/
theorem chunks_length_lt {α : Type} {size : Nat} (two : 2 ≤ size) {items : List α}
    (many : 2 ≤ items.length) : (chunks size items).length < items.length := by
  cases items with
  | nil => exact absurd many (Nat.not_le_of_lt Nat.zero_lt_two)
  | cons item items =>
      have rest := chunks_length_le size (items.drop (size - 1))
      rw [List.length_drop] at rest
      rw [List.length_cons] at many
      rw [chunks, List.length_cons, List.length_cons]
      omega

/-- A collapse ends, with at most `fanIn` runs that hold the same keys. -/
theorem collapse_spec {fanIn : Nat} (two : 2 ≤ fanIn) (rounds : Nat) :
    ∀ {runs : Runs} {dir : Dir} {held : List (List String)}, Stored runs dir held →
      runs.live.length ≤ rounds →
      ∃ result, Runs.collapse faults fanIn rounds runs = some result ∧
        Collapses faults runs dir held result := by
  induction rounds with
  | zero =>
      intro runs dir held stored enough
      rw [Runs.collapse, if_pos (by omega)]
      exact ⟨_, rfl, stored.collapses⟩
  | succ rounds ih =>
      intro runs dir held stored enough
      rw [Runs.collapse]
      by_cases few : runs.live.length ≤ fanIn
      · rw [if_pos few]
        exact ⟨_, rfl, stored.collapses⟩
      · rw [if_neg few]
        have whole : ({ runs with live := [] } : Runs).withRest (chunks fanIn runs.live).flatten =
            runs := by
          rw [chunks_flatten, Runs.withRest, List.nil_append]
        obtain ⟨result, collapsed, round, size⟩ :=
          @collapseGroups_spec faults _ (chunks_some fanIn runs.live) { runs with live := [] } _ _
            (whole.symm ▸ stored)
        rw [whole] at round
        simp only [collapsed]
        cases result with
        | error failure => exact ⟨_, rfl, round⟩
        | ok mid =>
            obtain ⟨dir', held', midStored, perm, cut⟩ := round
            have fewer := chunks_length_lt two (show 2 ≤ runs.live.length by omega)
            have now := size mid rfl
            rw [List.length_nil, Nat.zero_add] at now
            obtain ⟨result, rest, second⟩ := ih midStored (by omega)
            exact ⟨result, rest, second.trans perm cut⟩

end Rounds

end Lexindex.Extsort
