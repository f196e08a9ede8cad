import Mathlib
import Lexindex.StringIndex.FirstCharsSound

/-!
# A query's first character

The table answers with the state that the walk comes to, and so changes nothing of what is reported.
-/

set_option autoImplicit false

namespace Lexindex.FstWalk

open Faulting

/-! ## What is found from the root -/

section Root

variable {raw : RawFst}
  (ascends : ∀ addr, raw.Reaches addr → Ascending Transition.inp (raw.node addr).transitions)
  (outs : ∀ t ∈ (raw.node raw.root).transitions, t.out < 2 ^ 64)

/-- What a transition of the root leads to. -/
def rootPart (raw : RawFst) (t : Transition) : Option (List (Nat × Nat × Nat)) :=
  match leadLen t.inp with
  | none => some []
  | some len => descend raw (len - 1) t.addr t.out [t.inp]

theorem begins_lead {b : UInt8} {len : Nat} (led : leadLen b = some len) :
    Begins [b] (len - 1) := by
  have positive : 0 < len := by
    rw [leadLen] at led
    split at led
    · cases led
      omega
    · split at led
      · cases led
        omega
      · split at led
        · cases led
          omega
        · cases led
  refine ⟨b, [], rfl, ?_⟩
  rw [led, List.length_singleton]
  congr 1
  omega

include ascends

theorem mem_rootPart {t : Transition} (member : t ∈ (raw.node raw.root).transitions)
    {part : List (Nat × Nat × Nat)} (found : rootPart raw t = some part) (x : Nat × Nat × Nat) :
    x ∈ part ↔ ∃ (c : Char) (tail : List UInt8), c.toNat ≤ 0xFFFF ∧
      String.utf8EncodeChar c = t.inp :: tail ∧ raw.stateFrom t.addr t.out tail = some x.2 ∧
        x.1 = c.toNat := by
  rw [rootPart] at found
  split at found
  · next none_ =>
    cases found
    refine iff_of_false List.not_mem_nil ?_
    rintro ⟨c, tail, small, bytes, _⟩
    obtain ⟨lead, others, same, -, -, length⟩ := utf8_lead c
    rw [bytes, List.cons.injEq] at same
    rw [if_pos small, ← same.1, none_] at length
    cases length
  · next len led =>
    rw [mem_descend ascends (len - 1) (.step .root member) (begins_lead led) found x]
    constructor
    · rintro ⟨c, tail, bytes, state, place⟩
      exact ⟨c, tail, (leadLen_char bytes led).1, bytes, state, place⟩
    · rintro ⟨c, tail, _, bytes, state, place⟩
      exact ⟨c, tail, bytes, state, place⟩

include outs

/-- Every character of the plane that the root leads past, with the state there. -/
theorem mem_found {parts : List (List (Nat × Nat × Nat))}
    (got : (raw.node raw.root).transitions.mapM (rootPart raw) = some parts) (x : Nat × Nat × Nat) :
    x ∈ parts.flatten ↔ ∃ c : Char, c.toNat ≤ 0xFFFF ∧ x.1 = c.toNat ∧
      raw.stateFrom raw.root 0 (String.utf8EncodeChar c) = some x.2 := by
  rw [mem_collected got]
  constructor
  · rintro ⟨t, member, part, found, inside⟩
    obtain ⟨c, tail, small, bytes, state, place⟩ :=
      (mem_rootPart ascends member found x).mp inside
    refine ⟨c, small, place, ?_⟩
    rw [bytes, RawFst.stateFrom, find?_of_ascending (ascends _ .root) member, Option.bind_some,
      checkedAdd, Nat.zero_add, if_pos (outs t member), Option.bind_some, state]
  · rintro ⟨c, small, place, led⟩
    obtain ⟨lead, tail, bytes, -⟩ := utf8_lead c
    rw [bytes] at led
    obtain ⟨t, at_, led⟩ := Option.bind_eq_some_iff.mp led
    obtain ⟨sum, added, led⟩ := Option.bind_eq_some_iff.mp led
    rw [checkedAdd_eq_some, Nat.zero_add] at added
    have member := List.mem_of_find?_eq_some at_
    have input : t.inp = lead := by simpa using List.find?_some at_
    obtain ⟨part, found⟩ := collected_of_mem got t member
    refine ⟨t, member, part, found, (mem_rootPart ascends member found x).mpr ?_⟩
    exact ⟨c, tail, small, input ▸ bytes, added.2 ▸ led, place⟩

omit outs in
theorem found_pairwise {parts : List (List (Nat × Nat × Nat))}
    (got : (raw.node raw.root).transitions.mapM (rootPart raw) = some parts) :
    parts.flatten.Pairwise fun x y => x.1 < y.1 := by
  apply collected_pairwise got (ascends _ .root)
  · intro t member part found
    rw [rootPart] at found
    split at found
    · cases found
      exact List.Pairwise.nil
    · next len led =>
      exact descend_pairwise ascends (len - 1) (.step .root member) (begins_lead led) found
  · intro a aMember b bMember less as bs aFound bFound x here y there
    obtain ⟨c, _, -, left, -, xPlace⟩ := (mem_rootPart ascends aMember aFound x).mp here
    obtain ⟨d, _, -, right, -, yPlace⟩ := (mem_rootPart ascends bMember bFound y).mp there
    rw [xPlace, yPlace]
    exact @char_lt_of_bytes c d [] _ _ _ _ left right less

end Root

/-! ## The pages -/

/-- The code points entered so far, and how many lie before each page that has one. -/
structure Pages (entered : List Nat) (bits : List Word) (base : List Nat) : Prop where
  length : base.length = bits.length
  bit : ∀ p, streamBit bits p = true ↔ p ∈ entered
  first : ∀ page, bits.getD page 0#64 ≠ 0#64 →
    base[page]? = some (entered.filter (· < page * 64)).length

theorem exists_bit {x : Word} (nonzero : x ≠ 0#64) : ∃ i < 64, x.getLsbD i = true := by
  by_contra none_
  apply nonzero
  apply BitVec.eq_of_getLsbD_eq
  intro i small
  rw [BitVec.getLsbD_zero]
  cases set : x.getLsbD i with
  | false => rfl
  | true => exact absurd ⟨i, small, set⟩ none_

/-- A page that has bits has one of the code points. -/
theorem Pages.mem {entered : List Nat} {bits : List Word} {base : List Nat}
    (pages : Pages entered bits base) {page : Nat} (some_ : bits.getD page 0#64 ≠ 0#64) :
    ∃ p ∈ entered, p / 64 = page := by
  obtain ⟨i, small, set⟩ := exists_bit some_
  refine ⟨page * 64 + i, (pages.bit _).mp ?_, by omega⟩
  rw [streamBit, show (page * 64 + i) / 64 = page by omega,
    show (page * 64 + i) % 64 = i by omega]
  exact set

/-- A code point past those entered, in a page of its own or not. -/
theorem Pages.push {entered : List Nat} {bits : List Word} {base base' : List Nat} {cp : Nat}
    (held : Pages entered bits base) (before : ∀ p ∈ entered, p < cp)
    (here : cp / 64 < bits.length)
    (entry : (if bits.getD (cp / 64) 0#64 = 0#64 then
      (toU32 entered.length).map (base.set (cp / 64)) else some base) = some base') :
    Pages (entered ++ [cp]) (setBit bits cp) base' := by
  -- The place of the page's first is written where the page was empty.
  have written : base'.length = base.length ∧
      (bits.getD (cp / 64) 0#64 = 0#64 → base'[cp / 64]? = some entered.length) ∧
      ∀ page, bits.getD page 0#64 ≠ 0#64 → base'[page]? = base[page]? := by
    split at entry
    · next empty =>
      obtain ⟨i, fits, rfl⟩ := Option.map_eq_some_iff.mp entry
      obtain ⟨-, rfl⟩ := toU32_eq_some.mp fits
      have inside : cp / 64 < base.length := held.length ▸ here
      refine ⟨List.length_set .., fun _ => List.getElem?_set_self inside, ?_⟩
      intro page some_
      apply List.getElem?_set_ne
      intro same
      exact some_ (same ▸ empty)
    · next some_ =>
      cases entry
      exact ⟨rfl, fun empty => absurd empty some_, fun _ _ => rfl⟩
  obtain ⟨length, fresh, kept⟩ := written
  have later : ∀ page, page ≤ cp / 64 → ((entered ++ [cp]).filter (· < page * 64)).length =
      (entered.filter (· < page * 64)).length := by
    intro page le
    have past : ¬ cp < page * 64 := by omega
    rw [List.filter_append, List.filter_singleton, decide_eq_false past]
    simp
  constructor
  · rw [length, setBit_length, held.length]
  · intro p
    rw [streamBit_setBit here, Bool.or_eq_true, decide_eq_true_eq, held.bit, List.mem_append,
      List.mem_singleton, or_comm]
  · intro page some_
    rw [setBit, getD_modify here] at some_
    by_cases same : page = cp / 64
    · rw [later page (Nat.le_of_eq same)]
      by_cases empty : bits.getD page 0#64 = 0#64
      · rw [same] at empty ⊢
        rw [fresh empty, List.filter_eq_self.mpr]
        intro p member
        have below := before p member
        have apart : p / 64 ≠ cp / 64 := by
          intro samePage
          have set := (held.bit p).mpr member
          rw [streamBit, samePage, empty, BitVec.getLsbD_zero] at set
          cases set
        rw [decide_eq_true_eq]
        omega
      · rw [kept page empty]
        exact held.first page empty
    · rw [if_neg same] at some_
      obtain ⟨p, member, there⟩ := held.mem some_
      have below := before p member
      rw [later page (by omega), kept page some_]
      exact held.first page some_

theorem Pages.enter {found : List (Nat × Nat × Nat)} : ∀ {entered : List Nat} {bits : List Word}
    {base : List Nat} {pages : List Word × List Nat}, Pages entered bits base →
      (entered ++ found.map Prod.fst).Pairwise (· < ·) →
      (∀ x ∈ found, x.1 / 64 < bits.length) →
      FstWalk.enter entered.length found (bits, base) = some pages →
      Pages (entered ++ found.map Prod.fst) pages.1 pages.2 := by
  induction found with
  | nil =>
      intro entered bits base pages held _ _ answered
      cases answered
      rw [List.map_nil, List.append_nil]
      exact held
  | cons item found ih =>
      intro entered bits base pages held ordered inside answered
      obtain ⟨cp, state⟩ := item
      rw [FstWalk.enter] at answered
      obtain ⟨base', entry, answered⟩ := Option.bind_eq_some_iff.mp answered
      obtain ⟨here, inside⟩ := List.forall_mem_cons.mp inside
      simp only at here
      rw [List.map_cons, ← List.singleton_append, ← List.append_assoc] at ordered ⊢
      have before : ∀ p ∈ entered, p < cp := by
        intro p member
        have front := (List.pairwise_append.mp ordered).1
        exact (List.pairwise_append.mp front).2.2 p member cp (List.mem_singleton_self _)
      refine ih (held.push before here entry) ordered ?_ ?_
      · rw [setBit_length]
        exact inside
      · rw [List.length_append, List.length_singleton]
        exact answered

/-- The bits below one of a word's. -/
theorem countOnes_below (x : Word) {k : Nat} (small : k < 64) :
    (x &&& (1#64 <<< k - 1#64)).countOnes = (x.ones.filter (· < k)).length := by
  have mask : ∀ i < 64, (1#64 <<< k - 1#64).getLsbD i = decide (i < k) := by
    intro i inside
    rw [BitVec.getLsbD, BitVec.toNat_sub, BitVec.toNat_shiftLeft, Nat.shiftLeft_eq]
    have power : 2 ^ k < 2 ^ 64 := Nat.pow_lt_pow_right (by omega) small
    have positive : 0 < 2 ^ k := Nat.two_pow_pos k
    rw [BitVec.toNat_ofNat, Nat.one_mod_eq_one.mpr (by omega), one_mul, Nat.mod_eq_of_lt power,
      show (2 ^ 64 - 1 + 2 ^ k) = 2 ^ k - 1 + 2 ^ 64 by omega, Nat.add_mod_right,
      Nat.mod_eq_of_lt (by omega), Nat.testBit_two_pow_sub_one]
  rw [Word.countOnes, Word.ones, Word.ones, List.filter_filter]
  congr 1
  apply List.filter_congr
  intro i inside
  rw [BitVec.getLsbD_and, mask i (List.mem_range.mp inside), Bool.and_comm]

/-- The code points before one are those of earlier pages and of the bits below. -/
theorem Pages.rank {entered : List Nat} {bits : List Word} {base : List Nat}
    (pages : Pages entered bits base) (ordered : entered.Pairwise (· < ·)) (cp : Nat) :
    (entered.filter (· < cp)).length = (entered.filter (· < cp / 64 * 64)).length +
      ((bits.getD (cp / 64) 0#64).ones.filter (· < cp % 64)).length := by
  have split : entered.filter (· < cp) = entered.filter (· < cp / 64 * 64) ++
      ((bits.getD (cp / 64) 0#64).ones.filter (· < cp % 64)).map (cp / 64 * 64 + ·) := by
    apply @Ascending.unique Nat Nat _ id
    · exact ordered.filter _
    · apply List.pairwise_append.mpr
      refine ⟨ordered.filter _, ?_, ?_⟩
      · rw [List.pairwise_map]
        exact ((Word.ones_sorted _).filter _).imp fun less => Nat.add_lt_add_left less _
      · intro p front q back
        obtain ⟨i, -, rfl⟩ := List.mem_map.mp back
        have below := of_decide_eq_true (List.mem_filter.mp front).2
        exact Nat.lt_of_lt_of_le below (Nat.le_add_right _ _)
    · intro p
      rw [List.mem_append, List.mem_filter, List.mem_filter, List.mem_map, decide_eq_true_eq,
        decide_eq_true_eq]
      constructor
      · rintro ⟨member, below⟩
        by_cases earlier : p < cp / 64 * 64
        · exact .inl ⟨member, earlier⟩
        · have set := (pages.bit p).mpr member
          rw [streamBit, show p / 64 = cp / 64 by omega] at set
          refine .inr ⟨p % 64, List.mem_filter.mpr ⟨Word.mem_ones.mpr set, ?_⟩, by omega⟩
          rw [decide_eq_true_eq]
          omega
      · rintro (⟨member, earlier⟩ | ⟨i, inside, rfl⟩)
        · exact ⟨member, by omega⟩
        · obtain ⟨one, below⟩ := List.mem_filter.mp inside
          have small := Word.ones_lt one
          rw [decide_eq_true_eq] at below
          refine ⟨(pages.bit _).mp ?_, by omega⟩
          rw [streamBit, show (cp / 64 * 64 + i) / 64 = cp / 64 by omega,
            show (cp / 64 * 64 + i) % 64 = i by omega]
          exact Word.mem_ones.mp one
  rw [split, List.length_append, List.length_map]

/-! ## What the table answers -/

theorem nth_eq {α : Type} {items : List α} {i : Nat} {item : α} (here : items[i]? = some item) :
    nth items i = .ok item := by
  rw [nth, here]

theorem and_bit (x : Word) (k : Nat) (small : k < 64) :
    x &&& 1#64 <<< k = 0#64 ↔ x.getLsbD k = false := by
  constructor
  · intro zero
    have bit := congrArg (BitVec.getLsbD · k) zero
    simp only [BitVec.getLsbD_and, one_shift_getLsbD small, decide_true, Bool.and_true,
      BitVec.getLsbD_zero] at bit
    exact bit
  · intro clear
    apply BitVec.eq_of_getLsbD_eq
    intro i inside
    rw [BitVec.getLsbD_and, one_shift_getLsbD small, BitVec.getLsbD_zero]
    by_cases same : i = k
    · rw [same, clear, Bool.false_and]
    · rw [decide_eq_false same, Bool.and_false]

/-- An entry stands past those below it. -/
theorem getElem?_rank {found : List (Nat × Nat × Nat)}
    (ordered : found.Pairwise fun x y => x.1 < y.1) {x : Nat × Nat × Nat} (member : x ∈ found) :
    found[((found.map Prod.fst).filter (· < x.1)).length]? = some x := by
  obtain ⟨front, back, rfl⟩ := List.append_of_mem member
  obtain ⟨-, behind, across⟩ := List.pairwise_append.mp ordered
  have below : (front.map Prod.fst).filter (· < x.1) = front.map Prod.fst := by
    rw [List.filter_eq_self]
    intro p inside
    obtain ⟨y, there, rfl⟩ := List.mem_map.mp inside
    exact decide_eq_true (across y there x (List.mem_cons_self ..))
  have above : ((x :: back).map Prod.fst).filter (· < x.1) = [] := by
    rw [List.filter_eq_nil_iff]
    intro p inside
    obtain ⟨y, there, rfl⟩ := List.mem_map.mp inside
    rw [decide_eq_true_eq]
    rcases List.mem_cons.mp there with rfl | later
    · exact Nat.lt_irrefl _
    · have less := (List.pairwise_cons.mp behind).1 y later
      omega
  rw [List.map_append, List.filter_append, below, above, List.append_nil, List.length_map,
    List.getElem?_append_right (Nat.le_refl _), Nat.sub_self]
  rfl

section Answers

variable {raw : RawFst} {table : FirstChars}
  (ascends : ∀ addr, raw.Reaches addr → Ascending Transition.inp (raw.node addr).transitions)
  (outs : ∀ t ∈ (raw.node raw.root).transitions, t.out < 2 ^ 64)
  (derived : FirstChars.derive raw = some table)
include derived

theorem derive_root : table.root =
    if (raw.node raw.root).isFinal then some (raw.node raw.root).finalOutput else none := by
  obtain ⟨parts, -, derived⟩ := Option.bind_eq_some_iff.mp derived
  obtain ⟨pages, -, derived⟩ := Option.bind_eq_some_iff.mp derived
  cases derived
  rfl

include ascends

/-- The pages hold the code points that are found. -/
theorem derive_pages : ∃ parts, (raw.node raw.root).transitions.mapM (rootPart raw) = some parts ∧
    Pages (parts.flatten.map Prod.fst) table.bits table.base ∧
    table.states = parts.flatten.map Prod.snd := by
  obtain ⟨parts, got, derived⟩ := Option.bind_eq_some_iff.mp derived
  obtain ⟨pages, entered, derived⟩ := Option.bind_eq_some_iff.mp derived
  cases derived
  refine ⟨parts, got, ?_, rfl⟩
  have ordered := found_pairwise ascends got
  have empty (count : Nat) :
      Pages [] (List.replicate count 0#64) (List.replicate count 0) := by
    have zero : ∀ page, (List.replicate count 0#64).getD page 0#64 = 0#64 := by
      intro page
      rw [List.getD_eq_getElem?_getD, List.getElem?_replicate]
      split <;> rfl
    constructor
    · rw [List.length_replicate, List.length_replicate]
    · intro p
      rw [streamBit, zero, BitVec.getLsbD_zero]
      simp
    · intro page some_
      exact absurd (zero page) some_
  apply (empty _).enter _ _ entered
  · rw [List.nil_append, List.pairwise_map]
    exact ordered
  · intro x member
    rw [List.length_replicate]
    cases last : parts.flatten.getLast? with
    | none =>
        rw [List.getLast?_eq_none_iff] at last
        rw [last] at member
        cases member
    | some final =>
        obtain ⟨front, whole⟩ := List.getLast?_eq_some_iff.mp last
        rw [whole] at ordered member
        rw [Option.elim_some]
        rcases List.mem_append.mp member with before | here
        · have less := (List.pairwise_append.mp ordered).2.2 x before final
            (List.mem_singleton_self _)
          omega
        · rw [List.mem_singleton.mp here]
          omega

include outs

/-- Past a character of the plane the table has the state that the walk comes to. -/
theorem after_eq {c : Char} (small : c.toNat ≤ 0xFFFF) :
    table.after c =
      .ok (some (raw.stateFrom raw.root 0 (String.utf8EncodeChar c))) := by
  obtain ⟨parts, got, pages, states⟩ := derive_pages ascends derived
  have members := mem_found ascends outs got
  have ordered := found_pairwise ascends got
  have bit := pages.bit c.toNat
  rw [FirstChars.after, if_neg (by omega)]
  simp only [and_bit _ _ (Nat.mod_lt c.toNat (show 64 > 0 by omega))]
  change (if streamBit table.bits c.toNat = false then _ else _) = _
  cases set : streamBit table.bits c.toNat with
  | false =>
      rw [if_pos rfl]
      cases led : raw.stateFrom raw.root 0 (String.utf8EncodeChar c) with
      | none => rfl
      | some state =>
          have found := (members (c.toNat, state)).mpr ⟨c, small, rfl, led⟩
          have entered := bit.mpr (List.mem_map.mpr ⟨_, found, rfl⟩)
          rw [set] at entered
          cases entered
  | true =>
      rw [if_neg Bool.noConfusion]
      obtain ⟨x, found, same⟩ := List.mem_map.mp (bit.mp set)
      obtain ⟨d, -, place, led⟩ := (members x).mp found
      have char : d = c := Char.toNat_inj.mp (place.symm.trans same)
      have some_ : table.bits.getD (c.toNat / 64) 0#64 ≠ 0#64 := by
        intro zero
        rw [streamBit, zero, BitVec.getLsbD_zero] at set
        cases set
      have rank := pages.rank (List.pairwise_map.mpr ordered) c.toNat
      have here := getElem?_rank ordered found
      rw [same, rank] at here
      have state : table.states[((parts.flatten.map Prod.fst).filter (· < c.toNat / 64 * 64)).length +
          ((table.bits.getD (c.toNat / 64) 0#64).ones.filter (· < c.toNat % 64)).length]? =
            some x.2 := by
        rw [states, List.getElem?_map, here]
        rfl
      rw [nth_eq (pages.first _ some_), countOnes_below _ (Nat.mod_lt _ (by omega))]
      simp only [bind, Except.bind]
      rw [nth_eq state, ← char, led]
      rfl

end Answers

end Lexindex.FstWalk
