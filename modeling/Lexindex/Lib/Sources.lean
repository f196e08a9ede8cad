import Mathlib
import Lexindex.Lib.Ascending

/-!
# Sources and their merge

A source answers its next item, that it has ended, or an error.  `Drains` says what it yields
to a caller that asks until it ends, and whether it ends in an error.  A heap with the next item of
every source is a source again: its items are those of all, least first where each is ascending,
and it ends in an error where one of them does.
-/

set_option autoImplicit false

namespace Lexindex

variable {σ α ε : Type}

/-- What a source yields until it ends, and whether in an error. -/
inductive Drains (next : σ → Except ε (Option (α × σ))) : σ → List α → Bool → Prop
  | failed {s : σ} {e : ε} (answer : next s = .error e) : Drains next s [] true
  | ended {s : σ} (answer : next s = .ok none) : Drains next s [] false
  | item {s s' : σ} {a : α} {items : List α} {fails : Bool} (answer : next s = .ok (some (a, s')))
      (rest : Drains next s' items fails) : Drains next s (a :: items) fails

namespace Drains

variable {next : σ → Except ε (Option (α × σ))} {s : σ} {items : List α} {fails : Bool}

theorem unique (drains : Drains next s items fails) : ∀ {others : List α} {fails' : Bool},
    Drains next s others fails' → items = others ∧ fails = fails' := by
  induction drains with
  | failed answer =>
      intro others fails' other
      cases other with
      | failed _ => exact ⟨rfl, rfl⟩
      | ended answer' => cases answer.symm.trans answer'
      | item answer' _ => cases answer.symm.trans answer'
  | ended answer =>
      intro others fails' other
      cases other with
      | failed answer' => cases answer.symm.trans answer'
      | ended _ => exact ⟨rfl, rfl⟩
      | item answer' _ => cases answer.symm.trans answer'
  | item answer _ ih =>
      intro others fails' other
      cases other with
      | failed answer' => cases answer.symm.trans answer'
      | ended answer' => cases answer.symm.trans answer'
      | item answer' rest' =>
          cases answer.symm.trans answer'
          obtain ⟨rfl, rfl⟩ := ih rest'
          exact ⟨rfl, rfl⟩

theorem congr {s' : σ} (drains : Drains next s' items fails) (same : next s = next s') :
    Drains next s items fails := by
  cases drains with
  | failed answer => exact .failed (same.trans answer)
  | ended answer => exact .ended (same.trans answer)
  | item answer rest => exact .item (same.trans answer) rest

/-- A source with nothing to yield fails, or has ended. -/
theorem of_nil (drains : Drains next s [] fails) :
    (fails = true ∧ ∃ e, next s = .error e) ∨ fails = false ∧ next s = .ok none := by
  cases drains with
  | failed answer => exact .inl ⟨rfl, _, answer⟩
  | ended answer => exact .inr ⟨rfl, answer⟩

theorem of_cons {a : α} (drains : Drains next s (a :: items) fails) :
    ∃ s', next s = .ok (some (a, s')) ∧ Drains next s' items fails := by
  cases drains with
  | item answer rest => exact ⟨_, answer, rest⟩

end Drains

/-! ## The merge -/

/-- The sources, and the item each that has not ended has ready, least first. -/
structure Merging (σ α : Type) where
  sources : List σ
  heap : List (α × Nat)

section Merge

variable {β : Type} [LinearOrder β] (key : α → β)

/-- By item, then by source. -/
def Ahead (a b : α × Nat) : Prop :=
  key a.1 < key b.1 ∨ key a.1 = key b.1 ∧ a.2 ≤ b.2

instance Ahead.decide : DecidableRel (Ahead key) :=
  fun _ _ => inferInstanceAs (Decidable (_ ∨ _))

instance Ahead.total : Std.Total (Ahead key) where
  total a b := by
    rcases lt_trichotomy (key a.1) (key b.1) with less | same | more
    · exact .inl (.inl less)
    · rcases Nat.le_total a.2 b.2 with low | high
      · exact .inl (.inr ⟨same, low⟩)
      · exact .inr (.inr ⟨same.symm, high⟩)
    · exact .inr (.inl more)

instance Ahead.trans : IsTrans (α × Nat) (Ahead key) where
  trans a b c := by
    rintro (less | ⟨same, low⟩) (less' | ⟨same', low'⟩)
    · exact .inl (less.trans less')
    · exact .inl (same' ▸ less)
    · exact .inl (same ▸ less')
    · exact .inr ⟨same.trans same', low.trans low'⟩

theorem Ahead.le {a b : α × Nat} (ahead : Ahead key a b) : key a.1 ≤ key b.1 :=
  ahead.elim le_of_lt fun both => both.1.le

variable (next : σ → Except ε (Option (α × σ)))

namespace Merging

/-- Each source asked once. -/
def start : List σ → Merging σ α → Except ε (Merging σ α)
  | [], m => .ok m
  | s :: rest, m =>
      match next s with
      | .error e => .error e
      | .ok none => start rest { m with sources := m.sources ++ [s] }
      | .ok (some (a, s')) => start rest
          { sources := m.sources ++ [s']
            heap := m.heap.orderedInsert (Ahead key) (a, m.sources.length) }

/-- The top of the heap, and its source's next item in its place. -/
def pull (m : Merging σ α) : Except ε (Option (α × Merging σ α)) :=
  match m.heap with
  | [] => .ok none
  | (a, i) :: heap =>
      match m.sources[i]? with
      | none => .ok none
      | some s =>
          match next s with
          | .error e => .error e
          | .ok none => .ok (some (a, { m with heap }))
          | .ok (some (b, s')) => .ok (some (a,
              { sources := m.sources.set i s', heap := heap.orderedInsert (Ahead key) (b, i) }))

end Merging

/-! ## What the merge yields -/

theorem flatMap_taken {items : List Nat} (distinct : items.Nodup) {r : Nat}
    (member : r ∈ items) {f g : Nat → List α} {a : α} (taken : f r = a :: g r)
    (same : ∀ i, i ≠ r → f i = g i) : (items.flatMap f).Perm (a :: items.flatMap g) := by
  induction items with
  | nil => cases member
  | cons i items ih =>
      obtain ⟨fresh, distinct⟩ := List.nodup_cons.mp distinct
      rw [List.flatMap_cons, List.flatMap_cons]
      rcases List.mem_cons.mp member with rfl | later
      · have rest : items.flatMap f = items.flatMap g :=
          List.flatMap_congr fun j held => same j fun is => fresh (is ▸ held)
        rw [taken, rest]
        exact List.Perm.refl _
      · rw [same i fun is => fresh (is ▸ later)]
        exact ((ih distinct later).append_left (g i)).trans List.perm_middle

/-- A merge at work over sources that still yield `rest` and fail as `fails` says: the heap holds
the last item of every source that may have more. -/
structure Running (m : Merging σ α) (rest : Nat → List α) (fails : Nat → Bool) : Prop where
  ordered : m.heap.Pairwise (Ahead key)
  once : (m.heap.map Prod.snd).Nodup
  known : ∀ e ∈ m.heap, e.2 < m.sources.length
  drains : ∀ i s, m.sources[i]? = some s → i ∈ m.heap.map Prod.snd → Drains next s (rest i) (fails i)
  ended : ∀ i, i ∉ m.heap.map Prod.snd → rest i = [] ∧ fails i = false

/-- Every item that is ready or still to come. -/
def Merging.pending (m : Merging σ α) (rest : Nat → List α) : List α :=
  m.heap.map Prod.fst ++ (List.range m.sources.length).flatMap rest

/-- Every source goes on past the item it has ready. -/
def Rising (m : Merging σ α) (rest : Nat → List α) : Prop :=
  ∀ e ∈ m.heap, Sorted key (e.1 :: rest e.2)

variable {key next} {m : Merging σ α} {rest : Nat → List α} {fails : Nat → Bool} {a : α} {i : Nat}
  {heap : List (α × Nat)} {s : σ}

/-- The top's source has ended. -/
theorem Running.popped (running : Running key next m rest fails) (top : m.heap = (a, i) :: heap)
    (none_ : rest i = []) (fine : fails i = false) :
    Running key next { m with heap } rest fails := by
  obtain ⟨ordered, once, known, drains, ended⟩ := running
  rw [top] at ordered once known drains ended
  rw [List.map_cons, List.nodup_cons] at once
  refine ⟨(List.pairwise_cons.mp ordered).2, once.2, fun e member => known e (List.mem_cons_of_mem _ member),
    fun j s at_ member => drains j s at_ (List.mem_cons_of_mem _ member), fun j absent => ?_⟩
  by_cases here : j = i
  · rw [here]
    exact ⟨none_, fine⟩
  · apply ended
    rw [List.map_cons, List.mem_cons, not_or]
    exact ⟨here, absent⟩

/-- The top's source has an item more. -/
theorem Running.pushed (running : Running key next m rest fails) (top : m.heap = (a, i) :: heap)
    {b : α} {items : List α} {s' : σ} (more : rest i = b :: items)
    (onward : Drains next s' items (fails i)) :
    Running key next
      { sources := m.sources.set i s', heap := heap.orderedInsert (Ahead key) (b, i) }
      (Function.update rest i items) fails := by
  obtain ⟨ordered, once, known, drains, ended⟩ := running
  rw [top] at ordered once known drains ended
  rw [List.map_cons, List.nodup_cons] at once
  have perm := List.perm_orderedInsert (Ahead key) (b, i) heap
  have slots : ∀ j, j ∈ (heap.orderedInsert (Ahead key) (b, i)).map Prod.snd ↔
      j = i ∨ j ∈ heap.map Prod.snd := by
    intro j
    rw [(perm.map Prod.snd).mem_iff, List.map_cons, List.mem_cons]
  refine ⟨(List.pairwise_cons.mp ordered).2.orderedInsert (b, i) heap, ?_, ?_, ?_, ?_⟩
  · rw [(perm.map Prod.snd).nodup_iff, List.map_cons]
    exact List.nodup_cons.mpr once
  · intro e member
    rw [List.length_set]
    rcases List.mem_cons.mp (perm.mem_iff.mp member) with rfl | later
    · exact known (a, i) List.mem_cons_self
    · exact known e (List.mem_cons_of_mem _ later)
  · intro j s at_ member
    by_cases here : j = i
    · subst here
      rw [List.getElem?_set_self (known (a, j) List.mem_cons_self)] at at_
      rw [Function.update_self, ← Option.some.inj at_]
      exact onward
    · rw [List.getElem?_set_ne (Ne.symm here)] at at_
      rw [Function.update_of_ne here]
      exact drains j s at_ (List.mem_cons_of_mem _ (((slots j).mp member).resolve_left here))
  · intro j absent
    rw [slots, not_or] at absent
    rw [Function.update_of_ne absent.1]
    apply ended
    rw [List.map_cons, List.mem_cons, not_or]
    exact absent

variable (key) in
/-- Of the items to come the pushed one is the only one that changes its place. -/
theorem Merging.pending_pushed (s' : σ) (top : m.heap = (a, i) :: heap) (inside : i < m.sources.length)
    {b : α} {items : List α} (more : rest i = b :: items) :
    (m.pending rest).Perm (a :: Merging.pending
      { sources := m.sources.set i s', heap := heap.orderedInsert (Ahead key) (b, i) }
      (Function.update rest i items)) := by
  have perm := (List.perm_orderedInsert (Ahead key) (b, i) heap).map Prod.fst
  have taken := flatMap_taken List.nodup_range (List.mem_range.mpr inside)
    (f := rest) (g := Function.update rest i items) (by rw [Function.update_self, more])
    (fun j apart => (Function.update_of_ne apart _ _).symm)
  rw [Merging.pending, Merging.pending, top, List.length_set, List.map_cons, List.cons_append]
  apply List.Perm.cons
  refine (taken.append_left _).trans (List.perm_middle.trans ?_)
  rw [← List.cons_append]
  exact perm.symm.append_right _

/-- Nothing to come is below the top. -/
theorem Running.least (running : Running key next m rest fails) (rising : Rising key m rest)
    (top : m.heap = (a, i) :: heap) : ∀ x ∈ m.pending rest, key a ≤ key x := by
  have first : ∀ e ∈ m.heap, key a ≤ key e.1 := by
    intro e member
    have ordered := running.ordered
    rw [top] at member ordered
    rcases List.mem_cons.mp member with rfl | later
    · exact le_refl _
    · exact Ahead.le key ((List.pairwise_cons.mp ordered).1 e later)
  intro x member
  rcases List.mem_append.mp member with here | later
  · obtain ⟨e, held, rfl⟩ := List.mem_map.mp here
    exact first e held
  · obtain ⟨j, -, held⟩ := List.mem_flatMap.mp later
    by_cases headed : j ∈ m.heap.map Prod.snd
    · obtain ⟨e, known, rfl⟩ := List.mem_map.mp headed
      exact (first e known).trans ((List.pairwise_cons.mp (rising e known)).1 x held)
    · rw [(running.ended j headed).1] at held
      cases held

/-- The merge of sources: an error where one of them fails, else all their items, and in order where
each source's are. -/
theorem Running.merged : ∀ (count : Nat) {m : Merging σ α} {rest : Nat → List α},
    (m.pending rest).length = count → Running key next m rest fails →
    ∃ out fails', Drains (Merging.pull key next) m out fails' ∧
      (fails' = true ↔ ∃ i, fails i = true) ∧ out.length ≤ count ∧
      (fails' = false → out.Perm (m.pending rest) ∧ (Rising key m rest → Sorted key out)) := by
  intro count
  induction count with
  | zero =>
      intro m rest none_ running
      have empty : m.heap = [] := by
        have nil := List.eq_nil_of_length_eq_zero none_
        rw [Merging.pending, List.append_eq_nil_iff] at nil
        exact List.map_eq_nil_iff.mp nil.1
      refine ⟨[], false, .ended (by rw [Merging.pull, empty]), ?_, Nat.le_refl 0, fun _ => ?_⟩
      · constructor
        · exact fun contra => absurd contra (by decide)
        · rintro ⟨i, failing⟩
          rw [(running.ended i (by rw [empty]; exact List.not_mem_nil)).2] at failing
          cases failing
      · rw [List.eq_nil_of_length_eq_zero none_]
        exact ⟨List.Perm.refl _, fun _ => List.Pairwise.nil⟩
  | succ count ih =>
      intro m rest counted running
      cases top : m.heap with
      | nil =>
          have none_ : (List.range m.sources.length).flatMap rest = [] := by
            rw [List.flatMap_eq_nil_iff]
            intro j _
            exact (running.ended j (by rw [top]; exact List.not_mem_nil)).1
          rw [Merging.pending, top, none_] at counted
          cases counted
      | cons e heap =>
          obtain ⟨a, i⟩ := e
          have inside := running.known (a, i) (by rw [top]; exact List.mem_cons_self)
          have at_ := List.getElem?_eq_getElem inside
          have source := running.drains i _ at_ (by rw [top]; exact List.mem_cons_self)
          cases left : rest i with
          | nil =>
              rw [left] at source
              rcases source.of_nil with ⟨failing, e, answer⟩ | ⟨fine, answer⟩
              · refine ⟨[], true, .failed (e := e) ?_, ⟨fun _ => ⟨i, failing⟩, fun _ => rfl⟩,
                  Nat.zero_le _, ?_⟩
                · rw [Merging.pull, top]
                  simp only [at_, answer]
                · exact fun contra => absurd contra (by decide)
              · have pulled : Merging.pull key next m = .ok (some (a, { m with heap })) := by
                  rw [Merging.pull, top]
                  simp only [at_, answer]
                have whole : m.pending rest = a :: Merging.pending { m with heap } rest := by
                  rw [Merging.pending, top]
                  rfl
                rw [whole, List.length_cons, Nat.add_right_cancel_iff] at counted
                obtain ⟨out, fails', drained, failing, few, fine'⟩ :=
                  ih counted (running.popped top left fine)
                refine ⟨a :: out, fails', .item pulled drained, failing, Nat.succ_le_succ few,
                  fun sound => ?_⟩
                obtain ⟨perm, sorted⟩ := fine' sound
                rw [whole]
                refine ⟨perm.cons a, fun rising => List.pairwise_cons.mpr ⟨fun x member => ?_, ?_⟩⟩
                · apply running.least rising top
                  rw [whole]
                  exact List.mem_cons_of_mem _ (perm.mem_iff.mp member)
                · exact sorted fun e member => rising e (by rw [top]; exact List.mem_cons_of_mem _ member)
          | cons b items =>
              rw [left] at source
              obtain ⟨s', answer, onward⟩ := source.of_cons
              have pulled : Merging.pull key next m = .ok (some (a,
                  { sources := m.sources.set i s'
                    heap := heap.orderedInsert (Ahead key) (b, i) })) := by
                rw [Merging.pull, top]
                simp only [at_, answer]
              have moved := Merging.pending_pushed key s' top inside left
              have counted' := moved.length_eq
              rw [counted, List.length_cons, Nat.add_right_cancel_iff] at counted'
              obtain ⟨out, fails', drained, failing, few, fine⟩ :=
                ih counted'.symm (running.pushed top left onward)
              refine ⟨a :: out, fails', .item pulled drained, failing, Nat.succ_le_succ few,
                fun sound => ?_⟩
              obtain ⟨perm, sorted⟩ := fine sound
              have whole := (perm.cons a).trans moved.symm
              refine ⟨whole, fun rising => List.pairwise_cons.mpr ⟨fun x member => ?_, sorted ?_⟩⟩
              · exact running.least rising top x (whole.mem_iff.mp (List.mem_cons_of_mem _ member))
              · have own := rising (a, i) (by rw [top]; exact List.mem_cons_self)
                rw [left] at own
                intro e member
                have distinct := running.once
                rw [top, List.map_cons, List.nodup_cons] at distinct
                rcases List.mem_cons.mp ((List.perm_orderedInsert (Ahead key) (b, i) heap).mem_iff.mp
                  member) with rfl | later
                · rw [Function.update_self]
                  exact (List.pairwise_cons.mp own).2
                · have slot : e.2 ∈ heap.map Prod.snd := List.mem_map_of_mem later
                  have apart : e.2 ≠ i := fun same => distinct.1 (same ▸ slot)
                  rw [Function.update_of_ne apart]
                  exact rising e (by rw [top]; exact List.mem_cons_of_mem _ later)

/-! ## The first item of each -/

/-- A source that has ended at once. -/
theorem Running.joined (running : Running key next m rest fails) (s : σ) :
    Running key next { m with sources := m.sources ++ [s] } rest fails := by
  obtain ⟨ordered, once, known, drains, ended⟩ := running
  refine ⟨ordered, once, fun e member => ?_, fun i s' at_ member => ?_, ended⟩
  · rw [List.length_append]
    exact Nat.lt_add_right _ (known e member)
  · obtain ⟨e, held, rfl⟩ := List.mem_map.mp member
    rw [List.getElem?_append_left (known e held)] at at_
    exact drains e.2 s' at_ member

/-- A source that has an item ready. -/
theorem Running.readied (running : Running key next m rest fails) {s : σ} {items : List α} {failing : Bool}
    (onward : Drains next s items failing) :
    Running key next
      { sources := m.sources ++ [s]
        heap := m.heap.orderedInsert (Ahead key) (a, m.sources.length) }
      (Function.update rest m.sources.length items)
      (Function.update fails m.sources.length failing) := by
  obtain ⟨ordered, once, known, drains, ended⟩ := running
  have perm := List.perm_orderedInsert (Ahead key) (a, m.sources.length) m.heap
  have slots : ∀ j, j ∈ (m.heap.orderedInsert (Ahead key) (a, m.sources.length)).map Prod.snd ↔
      j = m.sources.length ∨ j ∈ m.heap.map Prod.snd := by
    intro j
    rw [(perm.map Prod.snd).mem_iff, List.map_cons, List.mem_cons]
  have fresh : ∀ j ∈ m.heap.map Prod.snd, j < m.sources.length := by
    intro j member
    obtain ⟨e, held, rfl⟩ := List.mem_map.mp member
    exact known e held
  refine ⟨ordered.orderedInsert _ _, ?_, ?_, ?_, ?_⟩
  · rw [(perm.map Prod.snd).nodup_iff, List.map_cons, List.nodup_cons]
    exact ⟨fun member => absurd (fresh _ member) (Nat.lt_irrefl _), once⟩
  · intro e member
    rw [List.length_append, List.length_singleton]
    rcases List.mem_cons.mp (perm.mem_iff.mp member) with rfl | earlier
    · exact Nat.lt_succ_self _
    · exact Nat.lt_succ_of_lt (known e earlier)
  · intro j s' at_ member
    rcases (slots j).mp member with rfl | earlier
    · rw [List.getElem?_concat_length] at at_
      rw [Function.update_self, Function.update_self, ← Option.some.inj at_]
      exact onward
    · have inside := fresh j earlier
      rw [List.getElem?_append_left inside] at at_
      rw [Function.update_of_ne inside.ne, Function.update_of_ne inside.ne]
      exact drains j s' at_ earlier
  · intro j absent
    rw [slots, not_or] at absent
    rw [Function.update_of_ne absent.1, Function.update_of_ne absent.1]
    exact ended j absent.2

/-- Sources asked once: one fails at once, or the merge is at work. -/
theorem Merging.start_spec (items : Nat → List α) (fails : Nat → Bool) : ∀ (todo : List σ)
    {m : Merging σ α} {rest : Nat → List α} {done : Nat → Bool}, Running key next m rest done →
    (∀ j s, todo[j]? = some s →
      Drains next s (items (m.sources.length + j)) (fails (m.sources.length + j))) →
    (∀ j, done j = (decide (j < m.sources.length) && fails j)) →
    (m.pending rest).Perm ((List.range m.sources.length).flatMap items) →
    ((∀ j, Sorted key (items j)) → Rising key m rest) →
    ((∃ e, start key next todo m = .error e) ∧ ∃ j < m.sources.length + todo.length, fails j = true) ∨
    ∃ m' rest', start key next todo m = .ok m' ∧
      Running key next m' rest' (fun j => decide (j < m.sources.length + todo.length) && fails j) ∧
      (m'.pending rest').Perm ((List.range (m.sources.length + todo.length)).flatMap items) ∧
      ((∀ j, Sorted key (items j)) → Rising key m' rest') := by
  intro todo
  induction todo with
  | nil =>
      intro m rest done running _ same perm rising
      have whole : done = fun j => decide (j < m.sources.length) && fails j := funext same
      rw [whole] at running
      exact .inr ⟨m, rest, rfl, running, perm, rising⟩
  | cons s todo ih =>
      intro m rest done running drains same perm rising
      have first := drains 0 s rfl
      have later : ∀ s', ∀ j s'', todo[j]? = some s'' →
          Drains next s'' (items ((m.sources ++ [s']).length + j))
            (fails ((m.sources ++ [s']).length + j)) := by
        intro s' j s'' at_
        have own := drains (j + 1) s'' at_
        rwa [List.length_append, List.length_singleton, Nat.add_assoc, Nat.add_comm 1 j]
      have counts : ∀ s' : σ, (m.sources ++ [s']).length + todo.length =
          m.sources.length + (s :: todo).length := by
        intro s'
        rw [List.length_append, List.length_singleton, List.length_cons]
        omega
      have unready : m.sources.length ∉ m.heap.map Prod.snd := by
        intro member
        obtain ⟨e, held, slot⟩ := List.mem_map.mp member
        have below := running.known e held
        omega
      have extended : ∀ s' : σ, (List.range (m.sources ++ [s']).length).flatMap items =
          (List.range m.sources.length).flatMap items ++ items m.sources.length := by
        intro s'
        rw [List.length_append, List.length_singleton, List.range_succ, List.flatMap_append,
          List.flatMap_singleton]
      rw [Nat.add_zero] at first
      cases left : items m.sources.length with
      | nil =>
          rw [left] at first
          rcases first.of_nil with ⟨failing, e, answer⟩ | ⟨fine, answer⟩
          · refine .inl ⟨⟨e, ?_⟩, m.sources.length, ?_, failing⟩
            · rw [Merging.start, answer]
            · rw [List.length_cons]
              omega
          · have joined := running.joined s
            have started : start key next (s :: todo) m =
                start key next todo { m with sources := m.sources ++ [s] } := by
              rw [Merging.start, answer]
            rw [started, ← counts s]
            refine ih joined (later s) (fun j => ?_) ?_ rising
            · rw [same]
              by_cases here : j = m.sources.length
              · rw [here, fine, Bool.and_false, Bool.and_false]
              · congr 1
                rw [List.length_append, List.length_singleton]
                exact decide_eq_decide.mpr (by omega)
            · rw [extended, left, List.append_nil]
              have whole : Merging.pending { m with sources := m.sources ++ [s] } rest = m.pending rest := by
                rw [Merging.pending, Merging.pending, List.length_append, List.length_singleton,
                  List.range_succ, List.flatMap_append, List.flatMap_singleton,
                  (running.ended _ unready).1, List.append_nil]
              rw [whole]
              exact perm
      | cons a tail =>
          rw [left] at first
          obtain ⟨s', answer, onward⟩ := first.of_cons
          have started : start key next (s :: todo) m = start key next todo
              { sources := m.sources ++ [s']
                heap := m.heap.orderedInsert (Ahead key) (a, m.sources.length) } := by
            rw [Merging.start, answer]
          have readied := running.readied (a := a) onward
          have apart : ∀ e ∈ m.heap, e.2 ≠ m.sources.length := fun e held slot =>
            unready (slot ▸ List.mem_map_of_mem held)
          rw [started, ← counts s']
          refine ih readied (later s') (fun j => ?_) ?_ ?_
          · by_cases here : j = m.sources.length
            · rw [here, Function.update_self, List.length_append, List.length_singleton,
                decide_eq_true (Nat.lt_succ_self _), Bool.true_and]
            · rw [Function.update_of_ne here, same]
              congr 1
              rw [List.length_append, List.length_singleton]
              exact decide_eq_decide.mpr (by omega)
          · rw [extended, left, Merging.pending, List.length_append, List.length_singleton,
              List.range_succ, List.flatMap_append, List.flatMap_singleton, Function.update_self]
            have others : (List.range m.sources.length).flatMap
                (Function.update rest m.sources.length tail) =
                (List.range m.sources.length).flatMap rest :=
              List.flatMap_congr fun j held =>
                Function.update_of_ne (Nat.ne_of_lt (List.mem_range.mp held)) _ _
            rw [others]
            have heapPerm := (List.perm_orderedInsert (Ahead key) (a, m.sources.length) m.heap).map Prod.fst
            refine (heapPerm.append_right _).trans ?_
            rw [List.map_cons, List.cons_append, ← List.append_assoc]
            refine (List.perm_middle.symm.trans ?_ : (a :: (_ ++ tail)).Perm _)
            exact perm.append_right (a :: tail)
          · intro sorted e member
            rcases List.mem_cons.mp ((List.perm_orderedInsert (Ahead key) (a, m.sources.length)
              m.heap).mem_iff.mp member) with rfl | earlier
            · rw [Function.update_self, ← left]
              exact sorted _
            · rw [Function.update_of_ne (apart e earlier)]
              exact rising sorted e earlier

variable (key) in
/-- The merge of sources, from the first item of each on: what it does where some source fails, and where
none does. -/
theorem Merging.drains {sources : List σ} {items : Nat → List α} {fails : Nat → Bool}
    (drains : ∀ j s, sources[j]? = some s → Drains next s (items j) (fails j)) :
    ((∃ e, start key next sources { sources := [], heap := [] } = .error e) ∧
      ∃ j < sources.length, fails j = true) ∨
    ∃ m out failing, start key next sources { sources := [], heap := [] } = .ok m ∧
      Drains (pull key next) m out failing ∧
      (failing = true ↔ ∃ j < sources.length, fails j = true) ∧
      out.length ≤ ((List.range sources.length).flatMap items).length ∧
      (failing = false → out.Perm ((List.range sources.length).flatMap items) ∧
        ((∀ j, Sorted key (items j)) → Sorted key out)) := by
  have none_ : Running key next { sources := [], heap := [] } (fun _ => []) fun _ => false :=
    ⟨List.Pairwise.nil, List.nodup_nil, fun e member => absurd member List.not_mem_nil,
      fun j s at_ => absurd at_ (by simp), fun j _ => ⟨rfl, rfl⟩⟩
  have started := start_spec items fails sources none_
    (fun j s at_ => by simpa using drains j s at_) (fun j => rfl) (List.Perm.refl _)
    (fun _ e member => absurd member List.not_mem_nil)
  simp only [List.length_nil, Nat.zero_add] at started
  rcases started with failed | ⟨m, rest, opened, running, perm, rising⟩
  · exact .inl failed
  · obtain ⟨out, failing, drained, iff, few, fine⟩ := running.merged _ rfl
    refine .inr ⟨m, out, failing, opened, drained, ?_, few.trans perm.length_eq.le, fun sound => ?_⟩
    · rw [iff]
      simp only [Bool.and_eq_true, decide_eq_true_eq]
    · obtain ⟨whole, order⟩ := fine sound
      exact ⟨whole.trans perm, fun sorted => order (rising sorted)⟩

end Merge

end Lexindex
