import Mathlib
import Lexindex.Lib.Ascending
import Lexindex.Extsort.Store

/-!
# What a run holds

A run whose arena stays below four gibibytes holds the keys pushed into it, and sorts to
them, ascending and distinct.
-/

set_option autoImplicit false

namespace Lexindex.Extsort

open Run (keyOf)

theorem bytesOf_injective : Function.Injective bytesOf :=
  fun _ _ => bytesOf_inj

section Slices

variable {α β : Type} {f : α → Option β}

theorem mapM_length : ∀ {items : List α} {values : List β}, items.mapM f = some values →
    values.length = items.length := by
  intro items
  induction items with
  | nil =>
      intro values read
      rw [List.mapM_nil, Option.pure_def, Option.some.injEq] at read
      rw [← read]
      rfl
  | cons item items ih =>
      intro values read
      obtain ⟨value, rest, -, later, rfl⟩ := mapM_cons_some read
      rw [List.length_cons, List.length_cons, ih later]

theorem mapM_zip : ∀ {items : List α} {values : List β}, items.mapM f = some values →
    (items.zip values).map Prod.snd = values ∧ ∀ p ∈ items.zip values, f p.1 = some p.2 := by
  intro items
  induction items with
  | nil =>
      intro values read
      rw [List.mapM_nil, Option.pure_def, Option.some.injEq] at read
      rw [← read]
      exact ⟨rfl, by simp⟩
  | cons item items ih =>
      intro values read
      obtain ⟨value, rest, here, later, rfl⟩ := mapM_cons_some read
      obtain ⟨second, each⟩ := ih later
      rw [List.zip_cons_cons, List.map_cons, second]
      exact ⟨rfl, List.forall_mem_cons.mpr ⟨here, each⟩⟩

theorem mapM_fst {pairs : List (α × β)} (each : ∀ p ∈ pairs, f p.1 = some p.2) :
    (pairs.map Prod.fst).mapM f = some (pairs.map Prod.snd) := by
  induction pairs with
  | nil => rfl
  | cons p pairs ih =>
      obtain ⟨here, each⟩ := List.forall_mem_cons.mp each
      rw [List.map_cons, List.mapM_cons, here, ih each]
      rfl

end Slices

theorem mapM_fromUtf8 {α : Type} {pairs : List (α × List UInt8)} {keys : List String}
    (same : pairs.map Prod.snd = keys.map bytesOf) :
    pairs.mapM (fun p => fromUtf8 p.2) = some keys := by
  induction pairs generalizing keys with
  | nil =>
      rw [List.map_nil, eq_comm, List.map_eq_nil_iff] at same
      rw [same]
      rfl
  | cons p pairs ih =>
      cases keys with
      | nil => cases same
      | cons key keys =>
          rw [List.map_cons, List.map_cons, List.cons.injEq] at same
          rw [List.mapM_cons, same.1, fromUtf8_bytesOf, ih same.2]
          rfl

/-- The run's spans are the keys, in the order they were pushed. -/
def Holds (run : Run) (keys : List String) : Prop :=
  run.spans.mapM (keyOf run.bytes) = some (keys.map bytesOf)

theorem holds_new (budget : Nat) : Holds (Run.withBudget budget) [] :=
  rfl

theorem Holds.length {run : Run} {keys : List String} (holds : Holds run keys) :
    run.spans.length = keys.length := by
  rw [← mapM_length holds, List.length_map]

theorem keyOf_append {bytes key : List UInt8} (more : List UInt8) {span : Nat × Nat}
    (read : keyOf bytes span = some key) : keyOf (bytes ++ more) span = some key := by
  rw [keyOf] at read ⊢
  split at read
  · next inside =>
    rw [if_pos ⟨inside.1, inside.2.trans (by simp)⟩, List.take_append_of_le_length inside.2]
    exact read
  · cases read

theorem keyOf_length {bytes key : List UInt8} {span : Nat × Nat}
    (read : keyOf bytes span = some key) : key.length < 2 ^ 32 := by
  rw [keyOf] at read
  split at read
  · next inside =>
    rw [Option.some.injEq] at read
    have stop : (span.1 + span.2) % 2 ^ 32 < 2 ^ 32 := Nat.mod_lt _ (by decide)
    rw [← read, List.length_drop, List.length_take]
    omega
  · cases read

/-- A key pushed while the arena is below four gibibytes is the run's last. -/
theorem Holds.push {run : Run} {keys : List String} {key : String} (holds : Holds run keys)
    (room : run.bytes.length + (bytesOf key).length < 2 ^ 32) :
    Holds (run.push key) (keys ++ [key]) := by
  have old : run.spans.mapM (keyOf (run.bytes ++ bytesOf key)) = some (keys.map bytesOf) := by
    have each := (mapM_zip holds).2
    have second := (mapM_zip holds).1
    have first : (run.spans.zip (keys.map bytesOf)).map Prod.fst = run.spans :=
      List.map_fst_zip (by rw [List.length_map, holds.length])
    rw [← first, mapM_fst fun p member => keyOf_append _ (each p member), second]
  have new : keyOf (run.bytes ++ bytesOf key)
      (run.bytes.length % 2 ^ 32, (bytesOf key).length % 2 ^ 32) = some (bytesOf key) := by
    have low : run.bytes.length % 2 ^ 32 = run.bytes.length := Nat.mod_eq_of_lt (by omega)
    have high : (bytesOf key).length % 2 ^ 32 = (bytesOf key).length := Nat.mod_eq_of_lt (by omega)
    rw [keyOf, low, high, Nat.mod_eq_of_lt room, if_pos ⟨by omega, by rw [List.length_append]⟩]
    rw [← List.length_append, List.take_length, List.drop_left]
  rw [Holds, Run.push, List.mapM_append, old, List.map_append, List.mapM_cons, new]
  rfl

/-- A run sorts to its keys, ascending and distinct, and then holds these. -/
theorem Holds.sorted {run : Run} {keys : List String} (holds : Holds run keys) :
    ∃ after, run.sorted = some (sortDedup bytesOf keys, after) ∧
      Holds after (sortDedup bytesOf keys) := by
  have second := (mapM_zip holds).1
  have each := (mapM_zip holds).2
  have kept : ((((run.spans.zip (keys.map bytesOf)).mergeSort fun a b => a.2 ≤ b.2).destutter
      fun a b => a.2 ≠ b.2).map Prod.snd) = (sortDedup bytesOf keys).map bytesOf := by
    have distinct : ∀ a ∈ keys.mergeSort (fun a b => bytesOf a ≤ bytesOf b),
        ∀ b ∈ keys.mergeSort (fun a b => bytesOf a ≤ bytesOf b),
          a ≠ b ↔ bytesOf a ≠ bytesOf b :=
      fun _ _ _ _ => bytesOf_injective.ne_iff.symm
    rw [@List.map_destutter _ _ _ _ (fun a b => a ≠ b) _ _ _ fun a _ b _ => Iff.rfl,
      List.map_mergeSort (s := fun a b => decide (a ≤ b)) fun a _ b _ => rfl, second, sortDedup,
      List.map_destutter distinct,
      List.map_mergeSort (s := fun a b => decide (a ≤ b)) fun a _ b _ => rfl]
  refine ⟨_, by rw [Run.sorted, show run.spans.mapM (keyOf run.bytes) = _ from holds,
    Option.bind_some]; simp only; rw [mapM_fromUtf8 kept, Option.map_some], ?_⟩
  rw [Holds, ← kept]
  refine mapM_fst fun p member => each p ?_
  have sorted := (List.destutter_sublist _ _).subset member
  exact List.mem_mergeSort.mp sorted

/-- No key of a sorted run is four gibibytes long. -/
theorem sorted_short {run after : Run} {keys : List String}
    (sorted : run.sorted = some (keys, after)) : ∀ key ∈ keys, (bytesOf key).length < 2 ^ 32 := by
  rw [Run.sorted] at sorted
  obtain ⟨slices, read, sorted⟩ := Option.bind_eq_some_iff.mp sorted
  obtain ⟨strings, decoded, sorted⟩ := Option.map_eq_some_iff.mp sorted
  rw [Prod.mk.injEq] at sorted
  obtain ⟨rfl, -⟩ := sorted
  have each := (mapM_zip read).2
  have whole := (mapM_zip decoded)
  intro key member
  rw [← whole.1] at member
  obtain ⟨p, pIn, rfl⟩ := List.mem_map.mp member
  have from_ := List.of_mem_zip pIn
  have inOrder := (List.destutter_sublist _ _).subset from_.1
  rw [bytesOf_fromUtf8 (whole.2 p pIn)]
  exact keyOf_length (each p.1 (List.mem_mergeSort.mp inOrder))

/-- Whatever a run holds, what it sorts to is in order, and no more than its spans. -/
theorem sorted_ordered {run after : Run} {keys : List String}
    (sorted : run.sorted = some (keys, after)) :
    Sorted bytesOf keys ∧ keys.length ≤ run.spans.length := by
  rw [Run.sorted] at sorted
  obtain ⟨slices, read, sorted⟩ := Option.bind_eq_some_iff.mp sorted
  obtain ⟨strings, decoded, sorted⟩ := Option.map_eq_some_iff.mp sorted
  rw [Prod.mk.injEq] at sorted
  obtain ⟨rfl, -⟩ := sorted
  have kept := List.destutter_sublist (fun a b : (Nat × Nat) × List UInt8 => a.2 ≠ b.2)
    ((run.spans.zip slices).mergeSort fun a b => a.2 ≤ b.2)
  have order := (sorted_mergeSort Prod.snd (run.spans.zip slices)).sublist kept
  obtain ⟨second, each⟩ := mapM_zip decoded
  have same := mapM_length decoded
  refine ⟨?_, ?_⟩
  · have firsts : ((((run.spans.zip slices).mergeSort fun a b => a.2 ≤ b.2).destutter
        (fun a b => a.2 ≠ b.2)).zip strings).map Prod.fst = _ :=
      List.map_fst_zip (Nat.le_of_eq same.symm)
    have zipped := List.pairwise_map.mp (firsts.symm ▸ order)
    rw [Sorted, ← second, List.pairwise_map]
    refine zipped.imp_of_mem fun {p q} pIn qIn le => ?_
    rw [bytesOf_fromUtf8 (each p pIn), bytesOf_fromUtf8 (each q qIn)]
    exact le
  · have fewer := kept.length_le
    rw [List.length_mergeSort, List.length_zip] at fewer
    omega

end Lexindex.Extsort
