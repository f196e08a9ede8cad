import Mathlib
import Lexindex.Lib.Ascending
import Lexindex.Extsort.RunSound

/-!
# What a merge yields

A reader comes to its run's end or to a read error.  A merge of runs none of which meets an
error yields all their keys, in order, and says so; one with an error says that.
-/

set_option autoImplicit false

namespace Lexindex.Extsort

/-- The keys a reader still yields, and whether an error ends them. -/
def drained : Nat → List UInt8 → List String × Bool
  | 0, _ => ([], false)
  | left + 1, rest =>
      match RunReader.next { rest, left := left + 1 } with
      | none => ([], true)
      | some none => ([], false)
      | some (some (key, reader)) =>
          (key :: (drained left reader.rest).1, (drained left reader.rest).2)

def RunReader.outcome (reader : RunReader) : List String × Bool :=
  drained reader.left reader.rest

theorem next_left {reader after : RunReader} {key : String}
    (ready : reader.next = some (some (key, after))) : reader.left = after.left + 1 := by
  rw [RunReader.next] at ready
  split at ready
  · cases ready
  · next some_left =>
    obtain ⟨len, -, ready⟩ := Option.bind_eq_some_iff.mp ready
    obtain ⟨bytes, -, ready⟩ := Option.bind_eq_some_iff.mp ready
    obtain ⟨string, -, ready⟩ := Option.map_eq_some_iff.mp ready
    rw [Option.some.injEq, Prod.mk.injEq] at ready
    rw [← ready.2]
    simp only
    omega

theorem outcome_error {reader : RunReader} (failed : reader.next = none) :
    reader.outcome = ([], true) := by
  obtain ⟨rest, left⟩ := reader
  cases left with
  | zero => cases failed
  | succ left => rw [RunReader.outcome, drained, failed]

theorem outcome_end {reader : RunReader} (ended : reader.next = some none) :
    reader.outcome = ([], false) := by
  obtain ⟨rest, left⟩ := reader
  cases left with
  | zero => rfl
  | succ left => rw [RunReader.outcome, drained, ended]

theorem outcome_key {reader after : RunReader} {key : String}
    (ready : reader.next = some (some (key, after))) :
    reader.outcome = (key :: after.outcome.1, after.outcome.2) := by
  have one := next_left ready
  obtain ⟨rest, left⟩ := reader
  simp only at one
  rw [one] at ready ⊢
  rw [RunReader.outcome, drained, ready]
  rfl

/-- A read key is as long as four bytes say. -/
theorem next_short {reader after : RunReader} {key : String}
    (ready : reader.next = some (some (key, after))) : (bytesOf key).length < 2 ^ 32 := by
  rw [RunReader.next] at ready
  split at ready
  · cases ready
  · obtain ⟨len, lenRead, ready⟩ := Option.bind_eq_some_iff.mp ready
    obtain ⟨bytes, bytesRead, ready⟩ := Option.bind_eq_some_iff.mp ready
    obtain ⟨string, decoded, ready⟩ := Option.map_eq_some_iff.mp ready
    rw [Option.some.injEq, Prod.mk.injEq] at ready
    rw [← ready.1, bytesOf_fromUtf8 decoded]
    rw [readExact] at lenRead bytesRead
    split at lenRead
    · rw [Option.some.injEq] at lenRead
      have small : leNat len.1 < 256 ^ 4 := lenRead ▸ leNat_take_lt 4 reader.rest
      split at bytesRead
      · rw [Option.some.injEq] at bytesRead
        rw [← bytesRead]
        exact (List.length_take_le _ _).trans_lt small
      · cases bytesRead
    · cases lenRead

section Replaced

variable {α : Type} {items : List α} {i : Nat} {a : α}

theorem split_at (here : items[i]? = some a) :
    ∃ front back, items = front ++ a :: back ∧ ∀ b, items.set i b = front ++ b :: back := by
  obtain ⟨inside, rfl⟩ := List.getElem?_eq_some_iff.mp here
  refine ⟨items.take i, items.drop (i + 1), ?_, fun b => ?_⟩
  · rw [List.getElem_cons_drop inside, List.take_append_drop]
  · rw [List.set_eq_take_append_cons_drop, if_pos inside]

end Replaced

instance before_total : Std.Total before where
  total a b := by
    rcases lt_trichotomy (bytesOf a.1) (bytesOf b.1) with less | same | more
    · exact .inl (.inl less)
    · exact (le_total a.2 b.2).imp (fun le => .inr ⟨same, le⟩) fun le => .inr ⟨same.symm, le⟩
    · exact .inr (.inl more)

instance before_trans : IsTrans (String × Nat) before where
  trans a b c := by
    rintro (less | ⟨same, le⟩) (next | ⟨nextSame, nextLe⟩)
    · exact .inl (less.trans next)
    · exact .inl (nextSame ▸ less)
    · exact .inl (same ▸ next)
    · exact .inr ⟨same.trans nextSame, le.trans nextLe⟩

theorem before_le {a b : String × Nat} (first : before a b) : bytesOf a.1 ≤ bytesOf b.1 := by
  rcases first with less | ⟨same, -⟩
  · exact less.le
  · exact same.le

namespace Merging

/-- Every key that is ready or is still to be read. -/
def pending (m : Merging) : List String :=
  m.heap.map Prod.fst ++ m.readers.flatMap fun reader => reader.outcome.1

def fails (m : Merging) : Bool :=
  m.readers.any fun reader => reader.outcome.2

/-- The heap has at most one key of each run, and the runs without one have ended. -/
structure Valid (m : Merging) : Prop where
  slots : ∀ e ∈ m.heap, e.2 < m.readers.length
  once : (m.heap.map Prod.snd).Nodup
  ended : ∀ (i : Nat) reader, m.readers[i]? = some reader → i ∉ m.heap.map Prod.snd →
    reader.outcome = ([], false)

/-- The heap is in order, and so is what each run has yet to yield. -/
structure Ordered (m : Merging) : Prop where
  heap : m.heap.Pairwise before
  runs : ∀ (i : Nat) reader, m.readers[i]? = some reader → Sorted bytesOf reader.outcome.1
  ready : ∀ e ∈ m.heap, ∀ reader, m.readers[e.2]? = some reader →
    ∀ key ∈ reader.outcome.1, bytesOf e.1 ≤ bytesOf key

variable {m : Merging} {key : String} {slot : Nat} {heap : List (String × Nat)}
  {reader after : RunReader}

theorem Valid.popped (valid : Valid m) (top : m.heap = (key, slot) :: heap)
    (here : m.readers[slot]? = some reader) (ended : reader.outcome = ([], false)) :
    Valid { m with heap } := by
  have once := valid.once
  have slots := valid.slots
  rw [top] at once slots
  refine ⟨fun e member => slots e (List.mem_cons_of_mem _ member),
    (List.nodup_cons.mp once).2, fun i other read absent => ?_⟩
  by_cases same : i = slot
  · rw [same, here, Option.some.injEq] at read
    exact read ▸ ended
  · refine valid.ended i other read ?_
    rw [top, List.map_cons, List.mem_cons]
    exact not_or_intro same absent

theorem Valid.pushed (valid : Valid m) (top : m.heap = (key, slot) :: heap) (ready : String) :
    Valid { readers := m.readers.set slot after
            heap := heap.orderedInsert before (ready, slot) } := by
  have once := valid.once
  have slots := valid.slots
  rw [top] at once slots
  have perm := (List.perm_orderedInsert before (ready, slot) heap).map Prod.snd
  refine ⟨fun e member => ?_, perm.nodup_iff.mpr once, fun i other read absent => ?_⟩
  · rw [List.length_set]
    rcases (List.mem_orderedInsert before).mp member with rfl | member
    · exact slots (key, slot) List.mem_cons_self
    · exact slots e (List.mem_cons_of_mem _ member)
  · rw [perm.mem_iff, List.map_cons, List.mem_cons, not_or] at absent
    rw [List.getElem?_set_ne (Ne.symm absent.1)] at read
    refine valid.ended i other read ?_
    rw [top, List.map_cons, List.mem_cons]
    exact not_or_intro absent.1 absent.2

/-- Reading the next key of the run just popped moves it from the run to the heap. -/
theorem pending_pushed (top : m.heap = (key, slot) :: heap)
    (here : m.readers[slot]? = some reader) {ready : String}
    (read : reader.next = some (some (ready, after))) :
    m.pending.Perm (key :: pending { readers := m.readers.set slot after
                                     heap := heap.orderedInsert before (ready, slot) }) := by
  obtain ⟨front, back, whole, replaced⟩ := split_at here
  have heapPerm := (List.perm_orderedInsert before (ready, slot) heap).map Prod.fst
  rw [pending, pending, top, replaced after, whole, List.map_cons, List.cons_append,
    List.perm_cons]
  refine List.Perm.trans ?_ (heapPerm.append_right _).symm
  simp only [List.flatMap_append, List.flatMap_cons, outcome_key read, List.map_cons,
    List.cons_append]
  refine List.Perm.trans ?_ List.perm_middle
  exact List.perm_middle.append_left _

theorem fails_pushed (here : m.readers[slot]? = some reader) {ready : String}
    (read : reader.next = some (some (ready, after))) (heap : List (String × Nat)) :
    fails { readers := m.readers.set slot after, heap } = m.fails := by
  obtain ⟨front, back, whole, replaced⟩ := split_at here
  rw [fails, fails, replaced after, whole, List.any_append, List.any_append, List.any_cons,
    List.any_cons, outcome_key read]

theorem steps_pushed (top : m.heap = (key, slot) :: heap)
    (here : m.readers[slot]? = some reader) {ready : String}
    (read : reader.next = some (some (ready, after))) :
    steps { readers := m.readers.set slot after
            heap := heap.orderedInsert before (ready, slot) } + 1 = m.steps := by
  obtain ⟨front, back, whole, replaced⟩ := split_at here
  have one := next_left read
  have size := (List.perm_orderedInsert before (ready, slot) heap).length_eq
  rw [steps, steps, top, replaced after, whole, size]
  simp only [List.length_cons, List.map_append, List.map_cons, List.sum_append, List.sum_cons]
  omega

/-- A merge yields a stream, which meets an error if any run does, and otherwise is all that is
pending. -/
theorem Valid.stream (fuel : Nat) : ∀ {m : Merging}, m.Valid → m.steps ≤ fuel →
    ∃ out, m.stream fuel = some (out, m.fails) ∧ (m.fails = false → out.Perm m.pending) := by
  induction fuel with
  | zero =>
      intro m _ enough
      rw [steps] at enough
      omega
  | succ fuel ih =>
      intro m valid enough
      rw [Merging.stream]
      split
      · next empty =>
        have ended : ∀ reader ∈ m.readers, reader.outcome = ([], false) := by
          intro reader member
          obtain ⟨i, inside, rfl⟩ := List.getElem_of_mem member
          refine valid.ended i _ (List.getElem?_eq_getElem inside) ?_
          rw [empty]
          exact List.not_mem_nil
        have fine : m.fails = false := by
          rw [fails, List.any_eq_false]
          intro reader member
          rw [ended reader member]
          exact Bool.false_ne_true
        refine ⟨[], by rw [fine], fun _ => ?_⟩
        rw [pending, empty, List.map_nil, List.nil_append, List.flatMap_eq_nil_iff.mpr]
        intro reader member
        rw [ended reader member]
      · next key slot heap top =>
        have inside := valid.slots (key, slot) (top ▸ List.mem_cons_self)
        have here := List.getElem?_eq_getElem inside
        rw [here]
        simp only
        split
        · next failed =>
          have fine : m.fails = true := by
            rw [fails, List.any_eq_true]
            exact ⟨_, List.getElem_mem inside, by rw [outcome_error failed]⟩
          exact ⟨[key], by rw [fine], fun none => absurd (fine.symm.trans none) Bool.true_eq_false.mp⟩
        · next ended =>
          have ended := outcome_end ended
          have fewer : steps { m with heap } ≤ fuel := by
            rw [steps, top, List.length_cons] at enough
            rw [steps]
            simp only
            omega
          obtain ⟨out, streamed, perm⟩ := ih (valid.popped top here ended) fewer
          rw [streamed, Option.map_some]
          refine ⟨key :: out, rfl, fun fine => ?_⟩
          rw [pending, top]
          exact (perm fine).cons key
        · next ready after read =>
          have one := steps_pushed top here read
          have fewer : steps { readers := m.readers.set slot after
                               heap := heap.orderedInsert before (ready, slot) } ≤ fuel := by
            omega
          obtain ⟨out, streamed, perm⟩ := ih (valid.pushed top ready) fewer
          rw [streamed, Option.map_some, fails_pushed here read]
          refine ⟨key :: out, rfl, fun fine => ?_⟩
          rw [fails_pushed here read] at perm
          exact ((perm fine).cons key).trans (pending_pushed top here read).symm

theorem Ordered.popped (ordered : Ordered m) (top : m.heap = (key, slot) :: heap) :
    Ordered { m with heap } where
  heap := (List.pairwise_cons.mp (top ▸ ordered.heap)).2
  runs := ordered.runs
  ready e member := ordered.ready e (top ▸ List.mem_cons_of_mem _ member)

theorem Ordered.pushed (ordered : Ordered m) (valid : Valid m)
    (top : m.heap = (key, slot) :: heap) (here : m.readers[slot]? = some reader) {ready : String}
    (read : reader.next = some (some (ready, after))) :
    Ordered { readers := m.readers.set slot after
              heap := heap.orderedInsert before (ready, slot) } := by
  have rest := (List.pairwise_cons.mp (top ▸ ordered.heap)).2
  have inside := valid.slots (key, slot) (top ▸ List.mem_cons_self)
  have sorted := ordered.runs slot reader here
  rw [outcome_key read] at sorted
  obtain ⟨least, later⟩ := List.pairwise_cons.mp sorted
  have replaced : (m.readers.set slot after)[slot]? = some after := by
    rw [List.getElem?_set_self inside]
  refine ⟨rest.orderedInsert _ _, fun i other there => ?_, fun e member other there => ?_⟩
  · by_cases same : i = slot
    · rw [same, replaced, Option.some.injEq] at there
      exact there ▸ later
    · rw [List.getElem?_set_ne (Ne.symm same)] at there
      exact ordered.runs i other there
  · rcases (List.mem_orderedInsert before).mp member with rfl | member
    · rw [replaced, Option.some.injEq] at there
      exact there ▸ least
    · have once := valid.once
      rw [top, List.map_cons, List.nodup_cons] at once
      have apart : e.2 ≠ slot := fun same => once.1 (List.mem_map.mpr ⟨e, member, same⟩)
      rw [List.getElem?_set_ne apart.symm] at there
      exact ordered.ready e (top ▸ List.mem_cons_of_mem _ member) other there

/-- The heap's first key is the least of all that is pending. -/
theorem Ordered.least (ordered : Ordered m) (valid : Valid m)
    (top : m.heap = (key, slot) :: heap) : ∀ x ∈ m.pending, bytesOf key ≤ bytesOf x := by
  have first : ∀ e ∈ m.heap, bytesOf key ≤ bytesOf e.1 := by
    intro e member
    rw [top] at member
    rcases List.mem_cons.mp member with rfl | member
    · exact le_rfl
    · exact before_le ((List.pairwise_cons.mp (top ▸ ordered.heap)).1 e member)
  intro x member
  rcases List.mem_append.mp member with inHeap | toRead
  · obtain ⟨e, eIn, rfl⟩ := List.mem_map.mp inHeap
    exact first e eIn
  · obtain ⟨other, otherIn, toRead⟩ := List.mem_flatMap.mp toRead
    obtain ⟨i, inside, rfl⟩ := List.getElem_of_mem otherIn
    have there := List.getElem?_eq_getElem inside
    by_cases waits : i ∈ m.heap.map Prod.snd
    · obtain ⟨e, eIn, rfl⟩ := List.mem_map.mp waits
      exact (first e eIn).trans (ordered.ready e eIn _ there x toRead)
    · rw [valid.ended i _ there waits] at toRead
      cases toRead

/-- A merge that meets no error yields its keys in order. -/
theorem Ordered.stream (fuel : Nat) : ∀ {m : Merging} {out : List String}, m.Ordered → m.Valid →
    m.steps ≤ fuel → m.stream fuel = some (out, false) → Sorted bytesOf out := by
  induction fuel with
  | zero =>
      intro m out _ _ enough
      rw [steps] at enough
      omega
  | succ fuel ih =>
      intro m out ordered valid enough streamed
      have whole : ∀ {out}, m.stream (fuel + 1) = some (out, false) → out.Perm m.pending := by
        intro out streamed
        obtain ⟨all, result, perm⟩ := valid.stream (fuel + 1) enough
        rw [result, Option.some.injEq, Prod.mk.injEq] at streamed
        exact streamed.1 ▸ perm streamed.2
      have members := whole streamed
      rw [Merging.stream] at streamed
      split at streamed
      · rw [Option.some.injEq, Prod.mk.injEq] at streamed
        rw [← streamed.1]
        exact List.Pairwise.nil
      · next key slot heap top =>
        have least := ordered.least valid top
        have inside := valid.slots (key, slot) (top ▸ List.mem_cons_self)
        have here := List.getElem?_eq_getElem inside
        rw [here] at streamed
        simp only at streamed
        split at streamed
        · cases streamed
        · next ended =>
          obtain ⟨rest, result, joined⟩ := Option.map_eq_some_iff.mp streamed
          rw [Prod.mk.injEq] at joined
          obtain ⟨rfl, fine⟩ := joined
          have fewer : steps { m with heap } ≤ fuel := by
            rw [steps, top, List.length_cons] at enough
            rw [steps]
            simp only
            omega
          have sorted := ih (ordered.popped top)
            (valid.popped top here (outcome_end ended)) fewer (by rw [result, ← fine])
          exact List.pairwise_cons.mpr
            ⟨fun x member => least x (members.mem_iff.mp (List.mem_cons_of_mem _ member)), sorted⟩
        · next ready after read =>
          obtain ⟨rest, result, joined⟩ := Option.map_eq_some_iff.mp streamed
          rw [Prod.mk.injEq] at joined
          obtain ⟨rfl, fine⟩ := joined
          have one := steps_pushed top here read
          have fewer : steps { readers := m.readers.set slot after
                               heap := heap.orderedInsert before (ready, slot) } ≤ fuel := by
            omega
          have sorted := ih (ordered.pushed valid top here read) (valid.pushed top ready) fewer
            (by rw [result, ← fine])
          exact List.pairwise_cons.mpr
            ⟨fun x member => least x (members.mem_iff.mp (List.mem_cons_of_mem _ member)), sorted⟩

/-- Another run opened that has ended already. -/
theorem Valid.opened_ended (valid : Valid m) (ended : reader.outcome = ([], false)) :
    Valid { m with readers := m.readers ++ [reader] } := by
  refine ⟨fun e member => ?_, valid.once, fun i other there absent => ?_⟩
  · have inside := valid.slots e member
    rw [List.length_append]
    omega
  · rcases Nat.lt_or_ge i m.readers.length with old | new
    · rw [List.getElem?_append_left old] at there
      exact valid.ended i other there absent
    · rw [List.getElem?_append_right new] at there
      have member := List.mem_of_getElem? there
      rw [List.mem_singleton] at member
      exact member ▸ ended

/-- Another run opened, its first key ready. -/
theorem Valid.opened (valid : Valid m) (ready : String) :
    Valid { readers := m.readers ++ [after]
            heap := m.heap.orderedInsert before (ready, m.readers.length) } := by
  have perm := (List.perm_orderedInsert before (ready, m.readers.length) m.heap).map Prod.snd
  refine ⟨fun e member => ?_, perm.nodup_iff.mpr ?_, fun i other there absent => ?_⟩
  · rw [List.length_append, List.length_singleton]
    rcases (List.mem_orderedInsert before).mp member with rfl | member
    · exact Nat.lt_succ_self _
    · exact Nat.lt_succ_of_lt (valid.slots e member)
  · rw [List.map_cons, List.nodup_cons]
    refine ⟨fun member => ?_, valid.once⟩
    obtain ⟨e, eIn, same⟩ := List.mem_map.mp member
    have inside := valid.slots e eIn
    omega
  · rw [perm.mem_iff, List.map_cons, List.mem_cons, not_or] at absent
    have inside := (List.getElem?_eq_some_iff.mp there).1
    rw [List.length_append, List.length_singleton] at inside
    rw [List.getElem?_append_left (by omega)] at there
    exact valid.ended i other there absent.2

theorem Ordered.opened_ended (ordered : Ordered m) (valid : Valid m)
    (ended : reader.outcome = ([], false)) :
    Ordered { m with readers := m.readers ++ [reader] } := by
  refine ⟨ordered.heap, fun i other there => ?_, fun e member other there => ?_⟩
  · rcases Nat.lt_or_ge i m.readers.length with old | new
    · rw [List.getElem?_append_left old] at there
      exact ordered.runs i other there
    · rw [List.getElem?_append_right new] at there
      have member := List.mem_of_getElem? there
      rw [List.mem_singleton] at member
      rw [member, ended]
      exact List.Pairwise.nil
  · rw [List.getElem?_append_left (valid.slots e member)] at there
    exact ordered.ready e member other there

theorem Ordered.opened (ordered : Ordered m) (valid : Valid m) {ready : String}
    (sorted : Sorted bytesOf (ready :: after.outcome.1)) :
    Ordered { readers := m.readers ++ [after]
              heap := m.heap.orderedInsert before (ready, m.readers.length) } := by
  obtain ⟨least, later⟩ := List.pairwise_cons.mp sorted
  refine ⟨ordered.heap.orderedInsert _ _, fun i other there => ?_, fun e member other there => ?_⟩
  · rcases Nat.lt_or_ge i m.readers.length with old | new
    · rw [List.getElem?_append_left old] at there
      exact ordered.runs i other there
    · rw [List.getElem?_append_right new] at there
      have member := List.mem_of_getElem? there
      rw [List.mem_singleton] at member
      exact member ▸ later
  · rcases (List.mem_orderedInsert before).mp member with rfl | member
    · rw [List.getElem?_concat_length, Option.some.injEq] at there
      exact there ▸ least
    · rw [List.getElem?_append_left (valid.slots e member)] at there
      exact ordered.ready e member other there

end Merging

/-- What reading a run to its end gives. -/
def readRun (dir : Dir) (faults : Faults) (id : Nat) : List String × Bool :=
  match RunReader.openRun dir faults id with
  | none => ([], true)
  | some reader => reader.outcome

namespace Merging

variable {dir : Dir} {faults : Faults} {ids : List Nat} {m : Merging}

theorem openRuns_refused (ids : List Nat) : ∀ {m : Merging}, openRuns dir faults ids m = none →
    ids.any (fun id => (readRun dir faults id).2) = true := by
  induction ids with
  | nil =>
      intro m refused
      cases refused
  | cons id ids ih =>
      intro m refused
      rw [List.any_cons, Bool.or_eq_true]
      rw [openRuns] at refused
      cases opened : RunReader.openRun dir faults id with
      | none =>
          left
          rw [readRun, opened]
      | some reader =>
          rw [opened, Option.bind_some] at refused
          cases ready : reader.next with
          | none =>
              left
              rw [readRun, opened]
              simp only
              rw [outcome_error ready]
          | some first =>
              right
              rw [ready, Option.bind_some] at refused
              cases first with
              | none => exact ih refused
              | some first => exact ih refused

/-- What opening runs makes ready or leaves to be read is what they hold. -/
theorem openRuns_spec (ids : List Nat) : ∀ {m after : Merging}, m.Valid →
    openRuns dir faults ids m = some after →
      after.Valid ∧
      after.fails = (m.fails || ids.any fun id => (readRun dir faults id).2) ∧
      after.pending.Perm (m.pending ++ ids.flatMap fun id => (readRun dir faults id).1) ∧
      (m.Ordered → (∀ id ∈ ids, Sorted bytesOf (readRun dir faults id).1) → after.Ordered) := by
  induction ids with
  | nil =>
      intro m after valid opened
      rw [openRuns, Option.some.injEq] at opened
      rw [← opened]
      refine ⟨valid, (Bool.or_false _).symm, ?_, fun ordered _ => ordered⟩
      rw [List.flatMap_nil, List.append_nil]
  | cons id ids ih =>
      intro m after valid opened
      rw [openRuns] at opened
      obtain ⟨reader, readerOpened, opened⟩ := Option.bind_eq_some_iff.mp opened
      obtain ⟨first, ready, opened⟩ := Option.bind_eq_some_iff.mp opened
      have run : readRun dir faults id = reader.outcome := by
        rw [readRun, readerOpened]
      rw [List.any_cons, List.flatMap_cons, run]
      cases first with
      | none =>
          have ended := outcome_end ready
          obtain ⟨valid', fails', perm, sorted⟩ := ih (valid.opened_ended ended) opened
          refine ⟨valid', ?_, ?_, fun ordered runs => ?_⟩
          · rw [fails', ended, fails, fails, List.any_append, List.any_cons, List.any_nil, ended,
              Bool.or_false, Bool.or_false, Bool.false_or]
          · refine perm.trans ?_
            rw [pending, pending, List.flatMap_append, List.flatMap_singleton, ended,
              List.append_nil, List.nil_append]
          · exact sorted (ordered.opened_ended valid ended) fun other member =>
              runs other (List.mem_cons_of_mem _ member)
      | some first =>
          obtain ⟨key, next⟩ := first
          have outcome := outcome_key ready
          obtain ⟨valid', fails', perm, sorted⟩ := ih (valid.opened key) opened
          refine ⟨valid', ?_, ?_, fun ordered runs => ?_⟩
          · rw [fails', outcome, fails, fails, List.any_append, List.any_cons, List.any_nil,
              Bool.or_false, Bool.or_assoc]
          · refine perm.trans ?_
            have heapPerm :=
              (List.perm_orderedInsert before (key, m.readers.length) m.heap).map Prod.fst
            rw [pending, pending, List.flatMap_append, List.flatMap_singleton, outcome]
            refine (heapPerm.append_right _ |>.append_right _).trans ?_
            simp only [List.map_cons, List.cons_append, List.append_assoc]
            refine List.Perm.symm ?_
            rw [← List.append_assoc, ← List.append_assoc]
            exact List.perm_middle
          · refine sorted (ordered.opened valid ?_) fun other member =>
              runs other (List.mem_cons_of_mem _ member)
            have first := runs id List.mem_cons_self
            rw [run, outcome] at first
            exact first

end Merging

theorem merging_empty : Merging.Valid { readers := [], heap := [] } :=
  ⟨fun e member => absurd member List.not_mem_nil, List.nodup_nil, fun i reader there => by
    cases there⟩

theorem merging_empty_ordered : Merging.Ordered { readers := [], heap := [] } :=
  ⟨List.Pairwise.nil, fun i reader there => (by cases there), fun e member =>
    absurd member List.not_mem_nil⟩

section MergeRuns

variable {dir : Dir} {faults : Faults} {ids : List Nat}

/-- A merge of runs one of which meets a read error says so. -/
theorem mergeRuns_damaged (damaged : ids.any (fun id => (readRun dir faults id).2) = true) :
    mergeRuns dir faults ids = some (.error .io) ∨
      ∃ out, mergeRuns dir faults ids = some (.ok (out, true)) := by
  rw [mergeRuns]
  cases opened : Merging.openRuns dir faults ids { readers := [], heap := [] } with
  | none => exact .inl rfl
  | some m =>
      right
      obtain ⟨valid, fails, -⟩ := Merging.openRuns_spec ids merging_empty opened
      obtain ⟨out, streamed, -⟩ := valid.stream m.steps le_rfl
      refine ⟨out, ?_⟩
      rw [damaged, Bool.or_true] at fails
      simp only
      rw [streamed, fails, Option.map_some]

/-- A merge of sorted runs that are read to their ends yields all their keys in order. -/
theorem mergeRuns_whole (whole : ids.any (fun id => (readRun dir faults id).2) = false)
    (sorted : ∀ id ∈ ids, Sorted bytesOf (readRun dir faults id).1) :
    ∃ out, mergeRuns dir faults ids = some (.ok (out, false)) ∧ Sorted bytesOf out ∧
      out.Perm (ids.flatMap fun id => (readRun dir faults id).1) := by
  rw [mergeRuns]
  cases opened : Merging.openRuns dir faults ids { readers := [], heap := [] } with
  | none =>
      rw [Merging.openRuns_refused ids opened] at whole
      cases whole
  | some m =>
      obtain ⟨valid, fails, perm, ordered⟩ := Merging.openRuns_spec ids merging_empty opened
      rw [whole, Bool.or_false] at fails
      obtain ⟨out, streamed, all⟩ := valid.stream m.steps le_rfl
      have fine : m.fails = false := fails
      rw [fine] at streamed
      refine ⟨out, by simp only; rw [streamed, Option.map_some], ?_, (all fine).trans perm⟩
      exact (ordered merging_empty_ordered sorted).stream m.steps valid le_rfl streamed

end MergeRuns

end Lexindex.Extsort
