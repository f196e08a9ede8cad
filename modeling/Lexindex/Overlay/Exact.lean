import Mathlib
import Lexindex.Overlay.Runs

/-!
# An overlay over an exact base is a catalog

A catalog numbers every key it ever held, once, and says which of them it holds now.
An overlay over a base with exact membership answers as the catalog that was edited
the same way: by key, by id, and in how many keys are live.
-/

set_option autoImplicit false

namespace Lexindex.Overlay

/-- A base whose ids are those of its keys, and of no other. -/
structure ExactBase {I : Type} [OverlayKeys I] (base : I) : Prop where
  inverse : ∀ key id, OverlayBase.baseId base key = some id ↔ OverlayKeys.baseKey base id = some key
  range : ∀ id, (OverlayKeys.baseKey base id).isSome ↔ id < OverlayBase.baseLen base

/-- The keys held, the number of every key that ever was, and the next number. -/
structure Catalog where
  live : Set String
  number : String → Option Nat
  next : Nat

namespace Catalog

def start {I : Type} [OverlayBase I] (base : I) : Catalog where
  live := {key | ∃ id, OverlayBase.baseId base key = some id}
  number := OverlayBase.baseId base
  next := OverlayBase.baseLen base

/-- A key added is held, under the number it had or the next one. -/
noncomputable def add (c : Catalog) (key : String) : Catalog :=
  match c.number key with
  | some _ => { c with live := insert key c.live }
  | none =>
      { live := insert key c.live
        number := fun other => if other = key then some c.next else c.number other
        next := c.next + 1 }

noncomputable def edit (c : Catalog) : Edit → Catalog
  | .add key => c.add key
  | .retireId id => { c with live := {key ∈ c.live | c.number key ≠ some id} }
  | .remove key => { c with live := c.live \ {key} }

/-- The catalog after some edits. -/
noncomputable def after {I : Type} [OverlayBase I] (base : I) (edits : List Edit) : Catalog :=
  edits.foldl edit (start base)

end Catalog

variable {I : Type} [OverlayKeys I] {hash : List UInt8 → UInt64} {base : I}

theorem ExactBase.bounded (exact : ExactBase base) : BoundedBase base := by
  intro key id answered
  rw [← exact.range id, (exact.inverse key id).mp answered]
  rfl

/-- A ledger that numbers as a catalog does, and holds live the keys the catalog holds. -/
structure Numbers (base : I) (l : Ledger String) (c : Catalog) : Prop where
  number : c.number = l.holds (OverlayBase.baseId base) (OverlayBase.baseLen base)
  next : c.next = l.space (OverlayBase.baseLen base)
  live : ∀ key, key ∈ c.live ↔
    ∃ id, l.lookup (OverlayBase.baseId base) (OverlayBase.baseLen base) key = some id
  sound : l.Sound (OverlayBase.baseId base) (OverlayBase.baseLen base)

/-- Over an exact base no two keys share a number. -/
theorem ExactBase.holds_inj (exact : ExactBase base) {l : Ledger String} {key other : String}
    {id : Nat}
    (held : l.holds (OverlayBase.baseId base) (OverlayBase.baseLen base) key = some id)
    (otherHeld : l.holds (OverlayBase.baseId base) (OverlayBase.baseLen base) other = some id) :
    other = key := by
  cases owned : OverlayBase.baseId base key with
  | none => exact Ledger.holds_inj exact.bounded owned held otherHeld
  | some j =>
      cases otherOwned : OverlayBase.baseId base other with
      | none => exact (Ledger.holds_inj exact.bounded otherOwned otherHeld held).symm
      | some k =>
          rw [Ledger.holds_own owned, Option.some.injEq] at held
          rw [Ledger.holds_own otherOwned, Option.some.injEq] at otherHeld
          have keyAt := (exact.inverse key j).mp owned
          have otherAt := (exact.inverse other k).mp otherOwned
          rw [held] at keyAt
          rw [otherHeld, keyAt, Option.some.injEq] at otherAt
          exact otherAt.symm

theorem numbers_start (base : I) :
    Numbers base { entered := [], retired := ∅ } (Catalog.start base) where
  number := by
    funext key
    change OverlayBase.baseId base key = _
    rw [Ledger.holds]
    cases OverlayBase.baseId base key <;> simp
  next := rfl
  live := by
    intro key
    change (∃ id, OverlayBase.baseId base key = some id) ↔ _
    rw [Ledger.lookup, Ledger.holds]
    cases OverlayBase.baseId base key <;> simp
  sound := Ledger.sound_start _ _

section Step

variable {l : Ledger String} {c : Catalog} (numbers : Numbers base l c)
  (exact : ExactBase base)
include numbers exact

theorem Numbers.add (key : String) :
    Numbers base (l.enter (OverlayBase.baseId base) (OverlayBase.baseLen base) key).2
      (c.add key) := by
  have bounded := exact.bounded
  have answered := Ledger.lookup_enter numbers.sound key
  have mine := (Ledger.lookup_eq_some.mp answered).1
  have liveNow : ∀ other, other ∈ insert key c.live ↔
      ∃ id, (l.enter (OverlayBase.baseId base) (OverlayBase.baseLen base) key).2.lookup
        (OverlayBase.baseId base) (OverlayBase.baseLen base) other = some id := by
    intro other
    rw [Set.mem_insert_iff, numbers.live]
    by_cases here : other = key
    · subst here
      exact iff_of_true (Or.inl rfl) ⟨_, answered⟩
    · rw [or_iff_right here]
      apply exists_congr
      intro id
      rw [Ledger.lookup_live bounded, Ledger.lookup_live bounded, Ledger.holds_enter_other here,
        Ledger.live_enter bounded numbers.sound]
      refine and_congr_right fun held => (or_iff_left ?_).symm
      rintro rfl
      rw [← @Ledger.holds_enter_other _ _ _ _ l key other here] at held
      exact here (exact.holds_inj mine held)
  have soundNow := numbers.sound.enter key
  have numberOf : ∀ other, other ≠ key →
      (l.enter (OverlayBase.baseId base) (OverlayBase.baseLen base) key).2.holds
        (OverlayBase.baseId base) (OverlayBase.baseLen base) other = c.number other := by
    intro other here
    rw [Ledger.holds_enter_other here, numbers.number]
  rw [Catalog.add]
  cases held : c.number key with
  | some id =>
      have enters : l.enter (OverlayBase.baseId base) (OverlayBase.baseLen base) key =
          (id, { l with retired := l.retired.erase id }) := by
        rw [numbers.number] at held
        rw [Ledger.enter, held]
      refine ⟨?_, ?_, liveNow, soundNow⟩
      · rw [enters]
        exact numbers.number
      · rw [enters]
        exact numbers.next
  | none =>
      have enters : l.enter (OverlayBase.baseId base) (OverlayBase.baseLen base) key =
          (l.space (OverlayBase.baseLen base), { l with entered := l.entered ++ [key] }) := by
        rw [numbers.number] at held
        rw [Ledger.enter, held]
      refine ⟨?_, ?_, liveNow, soundNow⟩
      · funext other
        by_cases here : other = key
        · subst here
          rw [mine, enters]
          simp [numbers.next]
        · rw [numberOf other here]
          simp [here]
      · rw [enters, Ledger.space, List.length_append, List.length_singleton, ← Nat.add_assoc]
        exact congrArg (· + 1) numbers.next

theorem Numbers.retireId (id : Nat) :
    Numbers base (l.retire (OverlayBase.baseLen base) id).2 (c.edit (.retireId id)) where
  number := by
    refine numbers.number.trans ?_
    funext key
    exact (Ledger.holds_retire id).symm
  next := by
    refine numbers.next.trans ?_
    rw [Ledger.retire]
    split <;> rfl
  live := by
    intro key
    change key ∈ c.live ∧ c.number key ≠ some id ↔ _
    rw [numbers.live, numbers.number]
    simp only [Ledger.lookup_live exact.bounded, Ledger.holds_retire, Ledger.live_retire]
    constructor
    · rintro ⟨⟨j, held, live⟩, apart⟩
      refine ⟨j, held, live, ?_⟩
      rintro rfl
      exact apart held
    · rintro ⟨j, held, live, apart⟩
      refine ⟨⟨j, held, live⟩, ?_⟩
      rw [held, ne_eq, Option.some.injEq]
      exact apart
  sound := numbers.sound.retire id

theorem Numbers.edit (e : Edit) : Numbers base (ledgerStep base l e) (c.edit e) := by
  cases e with
  | add key => exact numbers.add exact key
  | retireId id => exact numbers.retireId exact id
  | remove key =>
      rw [ledgerStep]
      cases found : l.lookup (OverlayBase.baseId base) (OverlayBase.baseLen base) key with
      | some id =>
          have retired := numbers.retireId exact id
          have held := (Ledger.lookup_eq_some.mp found).1
          have same : c.edit (.remove key) = c.edit (.retireId id) := by
            rw [Catalog.edit, Catalog.edit]
            congr 1
            ext other
            rw [Set.mem_sdiff, Set.mem_singleton_iff, Set.mem_ofPred_eq, numbers.number]
            refine and_congr_right fun _ => not_congr ⟨?_, fun otherHeld => ?_⟩
            · rintro rfl
              exact held
            · exact exact.holds_inj held otherHeld
          rw [same]
          exact retired
      | none =>
          have absent : key ∉ c.live := by
            rw [numbers.live]
            rintro ⟨id, here⟩
            rw [found] at here
            cases here
          have same : c.edit (.remove key) = c := by
            rw [Catalog.edit, Set.sdiff_singleton_eq_self absent]
          rw [same]
          exact numbers

end Step

theorem Numbers.edits (exact : ExactBase base) (edits : List Edit) {l : Ledger String} {c : Catalog}
    (numbers : Numbers base l c) :
    Numbers base (edits.foldl (ledgerStep base) l) (edits.foldl Catalog.edit c) := by
  induction edits generalizing l c with
  | nil => exact numbers
  | cons e rest ih => exact ih (numbers.edit exact e)

/-! ## Keys by id -/

/-- The key a ledger's live id is of. -/
def keyOf (base : I) (l : Ledger String) (id : Nat) : Option String :=
  if id ∈ l.retired then none
  else if id < OverlayBase.baseLen base then OverlayKeys.baseKey base id
  else l.entered[id - OverlayBase.baseLen base]?

theorem Represents.key {ov : Overlay I} {l : Ledger String} (shows : Represents hash base ov l)
    (id : Nat) : ov.key id = some (keyOf base l id) := by
  have count : ov.addedStarts.length = l.entered.length := by
    rw [shows.arena.starts, List.length_map, List.length_range]
  rw [Overlay.key, keyOf, shows.baseIs, shows.dead, count]
  simp only [decide_eq_true_eq]
  by_cases retired : id ∈ l.retired
  · rw [if_pos retired, if_pos retired]
  · rw [if_neg retired, if_neg retired]
    by_cases inBase : id < OverlayBase.baseLen base
    · rw [if_pos inBase, if_pos inBase]
    · rw [if_neg inBase, if_neg inBase]
      by_cases inside : id - OverlayBase.baseLen base < l.entered.length
      · rw [if_pos inside, shows.arena.addedKey inside, List.getElem?_eq_getElem inside]
        rfl
      · rw [if_neg inside, List.getElem?_eq_none (by omega)]

/-- Over an exact base the key of an id and the id of a key are inverse. -/
theorem ExactBase.lookup_iff (exact : ExactBase base) {l : Ledger String}
    (sound : l.Sound (OverlayBase.baseId base) (OverlayBase.baseLen base)) (key : String) (id : Nat) :
    l.lookup (OverlayBase.baseId base) (OverlayBase.baseLen base) key = some id ↔
      keyOf base l id = some key := by
  rw [Ledger.lookup_eq_some, keyOf]
  by_cases retired : id ∈ l.retired
  · simp [retired]
  · rw [if_neg retired]
    simp only [retired, not_false_eq_true, and_true]
    cases owned : OverlayBase.baseId base key with
    | some j =>
        have keyAt := (exact.inverse key j).mp owned
        have jLt := exact.bounded key j owned
        rw [Ledger.holds_own owned, Option.some.injEq]
        constructor
        · rintro rfl
          rw [if_pos jLt, keyAt]
        · intro found
          split at found
          · have there := (exact.inverse key id).mpr found
            rw [owned, Option.some.injEq] at there
            exact there
          · have entered := List.mem_of_getElem? found
            rw [sound.strangers key entered] at owned
            cases owned
    | none =>
        have notBase : OverlayKeys.baseKey base id ≠ some key := by
          intro found
          rw [(exact.inverse key id).mpr found] at owned
          cases owned
        constructor
        · intro held
          by_cases entered : key ∈ l.entered
          · rw [Ledger.holds_entered owned entered, Option.some.injEq] at held
            rw [← held, if_neg (by omega), Nat.add_sub_cancel_left]
            exact List.getElem?_idxOf entered
          · rw [Ledger.holds_eq_none.mpr ⟨owned, entered⟩] at held
            cases held
        · intro found
          split at found
          · exact absurd found notBase
          · obtain ⟨inside, rfl⟩ := List.getElem?_eq_some_iff.mp found
            rw [Ledger.holds_entered owned (List.getElem_mem inside),
              sound.nodup.idxOf_getElem _ inside, Option.some.injEq]
            omega

theorem Represents.keys {ov : Overlay I} {l : Ledger String} (shows : Represents hash base ov l) :
    ov.keys = some ((List.range (l.space (OverlayBase.baseLen base))).filterMap (keyOf base l)) := by
  rw [Overlay.keys, shows.idSpace]
  induction List.range (l.space (OverlayBase.baseLen base)) with
  | nil => rfl
  | cons id rest ih =>
      rw [List.foldr_cons, ih, shows.key, List.filterMap_cons]
      cases keyOf base l id <;> rfl

/-- Over an exact base an overlay lists its live keys once each, and counts them. -/
theorem Represents.listed (exact : ExactBase base) {ov : Overlay I} {l : Ledger String}
    (shows : Represents hash base ov l) :
    ∃ keys, ov.keys = some keys ∧ keys.Nodup ∧ keys.length = ov.len ∧
      ∀ key, key ∈ keys ↔ ∃ id, ov.id hash key = some (some id) := by
  refine ⟨_, shows.keys, ?_, ?_, fun key => ?_⟩
  · refine List.Nodup.filterMap (fun id other key found otherFound => ?_) List.nodup_range
    have mine := (exact.lookup_iff shows.sound key id).mpr found
    rw [(exact.lookup_iff shows.sound key other).mpr otherFound, Option.some.injEq] at mine
    exact mine.symm
  · rw [len, shows.live, Ledger.liveSet, ← Nat.count_eq_card_filter_range, Nat.count,
      List.length_filterMap_eq_countP]
    apply List.countP_congr
    intro id member
    rw [List.mem_range, Ledger.space] at member
    rw [decide_eq_true_eq, keyOf]
    by_cases retired : id ∈ l.retired
    · simp [retired]
    · rw [if_neg retired]
      by_cases inBase : id < OverlayBase.baseLen base
      · rw [if_pos inBase, exact.range]
        exact iff_of_true inBase retired
      · rw [if_neg inBase, List.getElem?_eq_getElem (by omega)]
        exact iff_of_true rfl retired
  · rw [List.mem_filterMap]
    simp only [shows.id, Option.some.injEq]
    constructor
    · rintro ⟨id, _, found⟩
      exact ⟨id, (exact.lookup_iff shows.sound key id).mpr found⟩
    · rintro ⟨id, held⟩
      refine ⟨id, List.mem_range.mpr ?_, (exact.lookup_iff shows.sound key id).mp held⟩
      exact Ledger.holds_lt exact.bounded (Ledger.lookup_eq_some.mp held).1

/-! ## The overlay is the catalog -/

/-- What an overlay promises over an exact base, after the edits `edits`. -/
structure IsCatalog (hash : List UInt8 → UInt64) (base : I) (edits : List Edit) (ov : Overlay I) :
    Prop where
  /-- Every query answers. -/
  answers : (∀ key, ∃ answer, ov.id hash key = some answer) ∧ ∀ id, ∃ answer, ov.key id = some answer
  inverse : ∀ key id, ov.id hash key = some (some id) ↔ ov.key id = some (some key)
  live : ∀ key, (∃ id, ov.id hash key = some (some id)) ↔ key ∈ (Catalog.after base edits).live
  number : ∀ key id, ov.id hash key = some (some id) →
    (Catalog.after base edits).number key = some id
  /-- No later edit renumbers a live key, or issues its id to another. -/
  stable : ∀ more later key id, ov.run hash more = some later → ov.id hash key = some (some id) →
    (∀ other, later.id hash other = some (some id) → other = key) ∧
    (∀ j, later.id hash key = some (some j) → j = id) ∧
    ∀ j last, later.add hash key = some (j, last) → j = id
  /-- The live keys are listed once each, and `len` counts them. -/
  listed : ∃ keys, ov.keys = some keys ∧ keys.Nodup ∧ keys.length = ov.len ∧
    ∀ key, key ∈ keys ↔ key ∈ (Catalog.after base edits).live
  /-- An edit returns, but for an addition the arena has no room for. -/
  returns : ∀ edit, ov.step hash edit = none → ∃ key, edit = .add key ∧ ¬ Roomy ov key

theorem exact_base_run (exact : ExactBase base) (edits : List Edit) {ov : Overlay I}
    (reached : (Overlay.new base).run hash edits = some ov) : IsCatalog hash base edits ov := by
  have bounded := exact.bounded
  have shows := (represents_new base).run bounded reached
  have numbers := (numbers_start base).edits exact edits
  generalize edits.foldl (ledgerStep base) { entered := [], retired := ∅ } = l at shows numbers
  have inverse : ∀ key id, ov.id hash key = some (some id) ↔ ov.key id = some (some key) := by
    intro key id
    rw [shows.id, shows.key, Option.some.injEq, Option.some.injEq]
    exact exact.lookup_iff shows.sound key id
  have live : ∀ key, (∃ id, ov.id hash key = some (some id)) ↔
      key ∈ (Catalog.after base edits).live := by
    intro key
    rw [shows.id, Catalog.after, numbers.live]
    simp only [Option.some.injEq]
  refine ⟨⟨fun key => ⟨_, shows.id key⟩, fun id => ⟨_, shows.key id⟩⟩, inverse, live, ?_, ?_, ?_, ?_⟩
  · intro key id found
    rw [shows.id, Option.some.injEq] at found
    rw [Catalog.after, numbers.number]
    exact (Ledger.lookup_eq_some.mp found).1
  · intro more later key id run found
    rw [shows.id, Option.some.injEq] at found
    have held := (Ledger.lookup_eq_some.mp found).1
    have final := shows.run bounded run
    obtain ⟨changes, changed, _⟩ := ledger_changes base more l
    rw [changed] at final
    have kept := Ledger.holds_run held changes
    refine ⟨fun other otherFound => ?_, fun j again => ?_, fun j last added => ?_⟩
    · rw [final.id, Option.some.injEq] at otherFound
      exact exact.holds_inj kept (Ledger.lookup_eq_some.mp otherFound).1
    · rw [final.id, Option.some.injEq, Ledger.lookup_eq_some, kept, Option.some.injEq] at again
      exact again.1.symm
    · rcases final.add bounded key with ⟨_, none, _⟩ | ⟨_, entered, _⟩
      · rw [none] at added
        cases added
      · rw [added, Option.some.injEq, Prod.mk.injEq, Ledger.enter, kept] at entered
        exact entered.1
  · obtain ⟨keys, listed, once, count, members⟩ := shows.listed exact
    exact ⟨keys, listed, once, count, fun key => (members key).trans (live key)⟩
  · intro edit none
    rcases shows.step bounded edit with ⟨after, result, _⟩ | ⟨_, crowded⟩
    · rw [none] at result
      cases result
    · exact crowded

/-- A base that lists its keys in id order. -/
structure ListedBase where
  keys : List String
  nodup : keys.Nodup

instance : OverlayKeys ListedBase where
  baseLen base := base.keys.length
  baseId base key := if key ∈ base.keys then some (base.keys.idxOf key) else none
  baseKey base id := base.keys[id]?

theorem listedBase_exact (base : ListedBase) : ExactBase base where
  inverse := by
    intro key id
    change (if key ∈ base.keys then some (base.keys.idxOf key) else none) = some id ↔
      base.keys[id]? = some key
    constructor
    · intro answered
      split at answered
      · next member =>
        cases answered
        exact List.getElem?_idxOf member
      · cases answered
    · intro listed
      obtain ⟨inside, rfl⟩ := List.getElem?_eq_some_iff.mp listed
      rw [if_pos (List.getElem_mem inside), base.nodup.idxOf_getElem id inside]
  range := by
    intro id
    change (base.keys[id]?).isSome ↔ id < base.keys.length
    rw [isSome_getElem?]

theorem exact_base_run_two_keys :
    ∃ ov, (Overlay.new (⟨["a", "b"], by decide⟩ : ListedBase)).run (fun _ => 0)
        [.add "c", .remove "a", .add "d", .retireId 1, .add "a"] = some ov ∧
      IsCatalog (fun _ => 0) (⟨["a", "b"], by decide⟩ : ListedBase)
        [.add "c", .remove "a", .add "d", .retireId 1, .add "a"] ov :=
  ⟨_, rfl, exact_base_run (listedBase_exact _) _ rfl⟩

end Lexindex.Overlay
