import Mathlib
import Lexindex.StringIndex.NodeFormat

/-!
# The walks over bytes are the transducer's

A lookup steps from node to node, and so reads what the transducer maps a key to.  The walk for the
keys that begin a query reports them in turn, and the table of first characters leaves it in the
state it would have come to.
-/

set_option autoImplicit false

namespace Lexindex

namespace RawFst

variable (raw : RawFst)

/-- What a node maps a key to: the outputs on its path, and the final one. -/
def lookupFrom (addr : Nat) : List UInt8 → Option Nat
  | [] => if (raw.node addr).isFinal then some (raw.node addr).finalOutput else none
  | b :: rest =>
      ((raw.node addr).transitions.find? fun t => t.inp == b).bind fun t =>
        (lookupFrom t.addr rest).map (t.out + ·)

/-- `fst::Map::get`. -/
def lookup (key : List UInt8) : Option Nat :=
  raw.lookupFrom raw.root key

/-- The node some bytes lead to, and the outputs on the way, the sums checked. -/
def stateFrom (addr acc : Nat) : List UInt8 → Option (Nat × Nat)
  | [] => some (addr, acc)
  | b :: rest =>
      ((raw.node addr).transitions.find? fun t => t.inp == b).bind fun t =>
        (checkedAdd acc t.out).bind fun sum => stateFrom t.addr sum rest

variable {raw} {addr acc : Nat}

/-- Checked sums answer where the whole sum is in the word. -/
theorem getFrom_eq_lookup (key : List UInt8) :
    raw.getFrom addr acc key = (raw.lookupFrom addr key).bind (checkedAdd acc) := by
  induction key generalizing addr acc with
  | nil =>
      rw [getFrom, lookupFrom]
      split <;> rfl
  | cons b rest ih =>
      rw [getFrom, lookupFrom]
      cases (raw.node addr).transitions.find? fun t => t.inp == b with
      | none => rfl
      | some t =>
          simp only [Option.bind_some]
          cases sum : checkedAdd acc t.out with
          | none =>
              cases raw.lookupFrom t.addr rest with
              | none => rfl
              | some v =>
                  rw [checkedAdd, ite_eq_right_iff] at sum
                  rw [Option.map_some, Option.bind_some, checkedAdd, if_neg]
                  intro fits
                  cases sum (by omega)
          | some sum' =>
              obtain ⟨-, rfl⟩ := checkedAdd_eq_some.mp sum
              simp only
              rw [ih]
              cases raw.lookupFrom t.addr rest with
              | none => rfl
              | some v =>
                  rw [Option.map_some, Option.bind_some, Option.bind_some, checkedAdd, checkedAdd,
                    Nat.add_assoc]

theorem get_eq_lookup (fits : ∀ key v, raw.lookup key = some v → v < 2 ^ 64) (key : List UInt8) :
    raw.get key = raw.lookup key := by
  rw [get, getFrom_eq_lookup]
  change (raw.lookup key).bind _ = _
  cases found : raw.lookup key with
  | none => rfl
  | some v =>
      rw [Option.bind_some, checkedAdd, Nat.zero_add, if_pos (fits key v found)]

/-- A lookup goes on from the state the front of its key leads to. -/
theorem getFrom_append (front rest : List UInt8) :
    raw.getFrom addr acc (front ++ rest) =
      (raw.stateFrom addr acc front).bind fun state => raw.getFrom state.1 state.2 rest := by
  induction front generalizing addr acc with
  | nil => rfl
  | cons b front ih =>
      rw [List.cons_append, getFrom, stateFrom]
      cases (raw.node addr).transitions.find? fun t => t.inp == b with
      | none => rfl
      | some t =>
          simp only [Option.bind_some]
          cases checkedAdd acc t.out with
          | none => rfl
          | some sum => exact ih

/-- The nodes that are reached lie below the root. -/
theorem Reaches.le (reached : raw.Reaches addr) : addr ≤ raw.root := by
  induction reached with
  | root => exact Nat.le_refl _
  | step _ member ih => exact Nat.le_trans (Nat.le_of_lt (raw.below _ _ member)) ih

theorem Reaches.found {b : UInt8} {t : Transition} (reached : raw.Reaches addr)
    (found : ((raw.node addr).transitions.find? fun t => t.inp == b) = some t) :
    raw.Reaches t.addr :=
  reached.step (List.mem_of_find?_eq_some found)

theorem stateFrom_reaches {front : List UInt8} {state : Nat × Nat} (reached : raw.Reaches addr)
    (led : raw.stateFrom addr acc front = some state) : raw.Reaches state.1 := by
  induction front generalizing addr acc with
  | nil =>
      cases led
      exact reached
  | cons b front ih =>
      obtain ⟨t, found, led⟩ := Option.bind_eq_some_iff.mp led
      obtain ⟨sum, -, led⟩ := Option.bind_eq_some_iff.mp led
      exact ih (reached.found found) led

end RawFst

namespace FstWalk

open Faulting

/-- A transducer's bytes, with the layout read from them, and its nodes. -/
structure Encodes (layout : Layout) (bytes : List UInt8) (raw : RawFst) : Prop where
  read : Layout.of bytes = some layout
  root : layout.root = raw.root
  nodes : ∀ addr, raw.Reaches addr → NodeAt bytes (version bytes) addr (raw.node addr)

/-- The keys that end within `rest`, past a state at byte `i` of the query. -/
def endings (raw : RawFst) (query : List UInt8) (i addr acc : Nat) (rest : List UInt8) :
    List (Nat × Nat) :=
  (List.range (rest.length + 1)).filterMap fun j =>
    if isCharBoundary query (i + j) then (raw.getFrom addr acc (rest.take j)).map (i + j, ·)
    else none

section Encoded

variable {layout : Layout} {bytes : List UInt8} {raw : RawFst} (encodes : Encodes layout bytes raw)
include encodes

theorem Encodes.layout_eq : layout = ⟨layout.root, indexedAboveOf (version bytes)⟩ := by
  obtain ⟨root, -, same⟩ := Option.bind_eq_some_iff.mp encodes.read
  rw [Option.pure_def, Option.some.injEq] at same
  rw [← same]

theorem Encodes.word {addr : Nat} (reached : raw.Reaches addr) : addr < 2 ^ 64 := by
  obtain ⟨root, read, same⟩ := Option.bind_eq_some_iff.mp encodes.read
  rw [Option.pure_def, Option.some.injEq] at same
  have top : root < 2 ^ 64 := by
    simp only [rootAddr, Option.bind_eq_bind, Option.bind_eq_some_iff] at read
    obtain ⟨-, -, -, -, start, -, part, got, read⟩ := read
    rw [Option.ite_none_right_eq_some, Option.some.injEq] at read
    rw [getRange, Option.ite_none_right_eq_some, Option.some.injEq] at got
    have eight := leNat_lt part
    rw [← got.2, bytesBetween_length (by omega) got.1.2, Nat.add_sub_cancel_left, got.2] at eight
    exact read.2 ▸ eight
  have below := reached.le
  rw [← encodes.root, ← same] at below
  exact Nat.lt_of_le_of_lt below top

/-- A step from a node that is reached. -/
theorem Encodes.step {addr : Nat} (reached : raw.Reaches addr) (final : Bool)
    (input : Option UInt8) :
    layout.step final bytes addr input =
      .ok (if (final || addr == EMPTY) && (raw.node addr).isFinal then
        some (raw.node addr).finalOutput else none, input.bind (follow (raw.node addr))) := by
  rw [encodes.layout_eq]
  exact step_node layout.root (encodes.nodes addr reached) (encodes.word reached) final input

theorem Encodes.getFrom_eq {addr acc : Nat} (reached : raw.Reaches addr) (key : List UInt8) :
    layout.getFrom bytes addr acc key = .ok (raw.getFrom addr acc key) := by
  induction key generalizing addr acc with
  | nil =>
      rw [Layout.getFrom, encodes.step reached, RawFst.getFrom]
      simp only [bind, Except.bind, Bool.true_or, Bool.true_and]
      split <;> rfl
  | cons b rest ih =>
      rw [Layout.getFrom, encodes.step reached, RawFst.getFrom]
      simp only [bind, Except.bind, Option.bind_some, follow]
      cases found : (raw.node addr).transitions.find? fun t => t.inp == b with
      | none => rfl
      | some t =>
          simp only [Option.map_some]
          cases checkedAdd acc t.out with
          | none => rfl
          | some sum => exact ih (reached.found found)

omit encodes in
theorem reported_eq {query : List UInt8} {i addr acc : Nat} :
    reported query i acc
        (if (raw.node addr).isFinal then some (raw.node addr).finalOutput else none) =
      (if isCharBoundary query i then (raw.getFrom addr acc []).map (i, ·) else none).toList := by
  rw [reported, RawFst.getFrom]
  cases (raw.node addr).isFinal with
  | false => cases isCharBoundary query i <;> rfl
  | true =>
      simp only [if_true, Option.bind_some]
      cases checkedAdd acc (raw.node addr).finalOutput with
      | none => cases isCharBoundary query i <;> rfl
      | some v => cases isCharBoundary query i <;> rfl

omit encodes in
theorem endings_cons (query : List UInt8) (i addr acc : Nat) (b : UInt8) (rest : List UInt8) :
    endings raw query i addr acc (b :: rest) =
      (if isCharBoundary query i then (raw.getFrom addr acc []).map (i, ·) else none).toList ++
        match (raw.stateFrom addr acc [b]) with
        | none => []
        | some (dest, sum) => endings raw query (i + 1) dest sum rest := by
  have behind : ∀ j, raw.getFrom addr acc ((b :: rest).take (j + 1)) =
      (raw.stateFrom addr acc [b]).bind fun state => raw.getFrom state.1 state.2 (rest.take j) :=
    fun j => RawFst.getFrom_append [b] (rest.take j)
  rw [endings, List.length_cons, List.range_succ_eq_map,
    show 0 :: (List.range (rest.length + 1)).map Nat.succ =
      [0] ++ (List.range (rest.length + 1)).map Nat.succ from rfl,
    List.filterMap_append, List.filterMap_map]
  congr 1
  cases led : raw.stateFrom addr acc [b] with
  | none =>
      apply List.filterMap_eq_nil_iff.mpr
      intro j _
      simp only [Function.comp, Nat.succ_eq_add_one, behind, led, Option.bind_none,
        Option.map_none, ite_self]
  | some state =>
      apply List.filterMap_congr
      intro j _
      simp only [Function.comp, Nat.succ_eq_add_one, behind, led, Option.bind_some]
      rw [show i + (j + 1) = i + 1 + j by omega]

/-- The walk over the bytes reports what the nodes below map the query's bytes to. -/
theorem Encodes.prefixesFrom_eq {query : List UInt8} {i addr acc : Nat} (reached : raw.Reaches addr)
    (rest : List UInt8) :
    layout.prefixesFrom bytes query i addr acc rest =
      .ok (endings raw query i addr acc rest) := by
  induction rest generalizing i addr acc with
  | nil =>
      rw [Layout.prefixesFrom, encodes.step reached]
      simp only [bind, Except.bind, Bool.true_or, Bool.true_and]
      rw [reported_eq, endings, List.length_nil, Nat.zero_add, List.range_one, List.filterMap_cons]
      simp only [Nat.add_zero, List.take_nil, List.filterMap_nil]
      cases (if isCharBoundary query i then (raw.getFrom addr acc []).map (i, ·) else none) <;> rfl
  | cons b rest ih =>
      rw [Layout.prefixesFrom, encodes.step reached]
      simp only [bind, Except.bind, Bool.true_or, Bool.true_and, Option.bind_some, follow]
      rw [reported_eq, endings_cons, RawFst.stateFrom]
      cases found : (raw.node addr).transitions.find? fun t => t.inp == b with
      | none => simp [pure, Except.pure]
      | some t =>
          simp only [Option.map_some, Option.bind_some]
          cases checkedAdd acc t.out with
          | none => simp [pure, Except.pure]
          | some sum =>
              simp only
              rw [ih (reached.found found)]
              rfl

end Encoded

/-! ## A character at a time -/

/-- A byte that is not a character's first. -/
def Continues (b : UInt8) : Prop :=
  0x80 ≤ b ∧ b < 0xC0

theorem continues_ofNat {v : Nat} (small : v < 256) :
    Continues (UInt8.ofNat v) ↔ 0x80 ≤ v ∧ v < 0xC0 := by
  rw [Continues, UInt8.le_iff_toNat_le, UInt8.lt_iff_toNat_lt, UInt8.toNat_ofNat',
    Nat.mod_eq_of_lt small]
  rfl

theorem leadLen_ofNat {v : Nat} (small : v < 256) :
    leadLen (UInt8.ofNat v) =
      if v ≤ 0x7F then some 1 else if 0xC2 ≤ v ∧ v ≤ 0xDF then some 2
      else if 0xE0 ≤ v ∧ v ≤ 0xEF then some 3 else none := by
  rw [leadLen]
  simp only [UInt8.le_iff_toNat_le, UInt8.toNat_ofNat', Nat.mod_eq_of_lt small]
  rfl

/-- A character's first byte says how many it takes, and only the others continue it. -/
theorem utf8_lead (c : Char) : ∃ lead tail, String.utf8EncodeChar c = lead :: tail ∧
    ¬ Continues lead ∧ (∀ b ∈ tail, Continues b) ∧
    leadLen lead = if c.toNat ≤ 0xFFFF then some (tail.length + 1) else none := by
  obtain ⟨digits, form, exact_⟩ := utf8Form c
  rw [exact_]
  cases form with
  | one small =>
      refine ⟨_, _, rfl, ?_, by simp, ?_⟩
      · rw [continues_ofNat (by omega)]
        omega
      · rw [leadLen_ofNat (by omega), if_pos (by omega), if_pos (by omega)]
        rfl
  | two least small =>
      refine ⟨_, _, rfl, ?_, ?_, ?_⟩
      · rw [continues_ofNat (by omega)]
        omega
      · simp only [List.map_cons, List.map_nil, List.forall_mem_cons]
        rw [continues_ofNat (by omega)]
        exact ⟨by omega, by simp⟩
      · rw [leadLen_ofNat (by omega), if_neg (by omega), if_pos (by omega), if_pos (by omega)]
        rfl
  | three least small =>
      refine ⟨_, _, rfl, ?_, ?_, ?_⟩
      · rw [continues_ofNat (by omega)]
        omega
      · simp only [List.map_cons, List.map_nil, List.forall_mem_cons]
        rw [continues_ofNat (by omega), continues_ofNat (by omega)]
        exact ⟨by omega, by omega, by simp⟩
      · rw [leadLen_ofNat (by omega), if_neg (by omega), if_neg (by omega), if_pos (by omega),
          if_pos (by omega)]
        rfl
  | four least small =>
      refine ⟨_, _, rfl, ?_, ?_, ?_⟩
      · rw [continues_ofNat (by omega)]
        omega
      · simp only [List.map_cons, List.map_nil, List.forall_mem_cons]
        rw [continues_ofNat (by omega), continues_ofNat (by omega), continues_ofNat (by omega)]
        exact ⟨by omega, by omega, by omega, by simp⟩
      · rw [leadLen_ofNat (by omega), if_neg (by omega), if_neg (by omega), if_neg (by omega),
          if_neg (by omega)]

section Boundaries

variable {query front rest : List UInt8} {c : Char}
  (whole : query = front ++ (String.utf8EncodeChar c ++ rest))
include whole

/-- A character begins at a boundary. -/
theorem boundary_here : isCharBoundary query front.length = true := by
  obtain ⟨lead, tail, bytes, starts, -⟩ := utf8_lead c
  rw [isCharBoundary, whole, List.getElem?_append_right (Nat.le_refl _), Nat.sub_self, bytes]
  have not_ : decide (¬ (0x80 ≤ lead ∧ lead < 0xC0)) = true := decide_eq_true starts
  simp only [List.cons_append, List.getElem?_cons_zero, Option.any_some, not_, Bool.or_true]

/-- No other of its bytes is at one. -/
theorem boundary_inside {j : Nat} (inside : j + 1 < (String.utf8EncodeChar c).length) :
    isCharBoundary query (front.length + 1 + j) = false := by
  obtain ⟨lead, tail, bytes, -, continues, -⟩ := utf8_lead c
  rw [bytes] at whole inside
  rw [List.length_cons] at inside
  obtain ⟨next, at_⟩ : ∃ next, tail[j]? = some next := ⟨_, List.getElem?_eq_getElem (by omega)⟩
  have not_ : decide (¬ (0x80 ≤ next ∧ next < 0xC0)) = false :=
    decide_eq_false (not_not_intro (continues next (List.mem_of_getElem? at_)))
  have length := congrArg List.length whole
  rw [List.length_append, List.length_append, List.length_cons] at length
  have byte : query[front.length + 1 + j]? = some next := by
    rw [whole, List.getElem?_append_right (by omega), List.getElem?_append_left (by
      rw [List.length_cons]; omega), show front.length + 1 + j - front.length = j + 1 by omega,
      List.getElem?_cons_succ, at_]
  rw [isCharBoundary, byte, Option.any_some, not_, Bool.or_false, Bool.or_eq_false_iff]
  exact ⟨beq_false_of_ne (by omega), beq_false_of_ne (by omega)⟩

end Boundaries

theorem stateFrom_cons (raw : RawFst) (addr acc : Nat) (b : UInt8) (tail : List UInt8) :
    raw.stateFrom addr acc (b :: tail) =
      (raw.stateFrom addr acc [b]).bind fun state => raw.stateFrom state.1 state.2 tail := by
  rw [RawFst.stateFrom, RawFst.stateFrom, Option.bind_assoc]
  refine Option.bind_congr fun t _ => ?_
  rw [Option.bind_assoc]
  rfl

/-- Bytes that are at no boundary report nothing. -/
theorem endings_skip {raw : RawFst} {query : List UInt8} (tail rest : List UInt8) :
    ∀ {i addr acc : Nat}, (∀ j < tail.length, isCharBoundary query (i + j) = false) →
      endings raw query i addr acc (tail ++ rest) =
        match raw.stateFrom addr acc tail with
        | none => []
        | some state => endings raw query (i + tail.length) state.1 state.2 rest := by
  induction tail with
  | nil =>
      intro i addr acc _
      rfl
  | cons b tail ih =>
      intro i addr acc inside
      have here := inside 0 (Nat.zero_lt_succ _)
      rw [Nat.add_zero] at here
      rw [List.cons_append, endings_cons, here, stateFrom_cons raw addr acc b tail]
      simp only [Bool.false_eq_true, if_false, Option.toList_none, List.nil_append]
      cases raw.stateFrom addr acc [b] with
      | none => rfl
      | some state =>
          simp only [Option.bind_some]
          have later : ∀ j < tail.length, isCharBoundary query (i + 1 + j) = false := by
            intro j small
            rw [Nat.add_assoc, Nat.add_comm 1 j]
            exact inside (j + 1) (Nat.succ_lt_succ small)
          rw [ih later, List.length_cons, Nat.add_right_comm, Nat.add_assoc]

/-- A character's step: what its own state reports, and what is reported past it. -/
theorem endings_char {raw : RawFst} {query front rest : List UInt8} {c : Char} {addr acc : Nat}
    (whole : query = front ++ (String.utf8EncodeChar c ++ rest)) :
    endings raw query front.length addr acc (String.utf8EncodeChar c ++ rest) =
      ((raw.getFrom addr acc []).map (front.length, ·)).toList ++
        match raw.stateFrom addr acc (String.utf8EncodeChar c) with
        | none => []
        | some state => endings raw query
            (front.length + (String.utf8EncodeChar c).length) state.1 state.2 rest := by
  have here := boundary_here whole
  have inside := @boundary_inside query front rest c whole
  obtain ⟨lead, tail, bytes, -⟩ := utf8_lead c
  rw [bytes] at inside ⊢
  rw [List.cons_append, endings_cons, here, if_pos rfl, stateFrom_cons raw addr acc lead tail]
  congr 1
  cases raw.stateFrom addr acc [lead] with
  | none => rfl
  | some state =>
      simp only [Option.bind_some]
      rw [endings_skip tail rest fun j small => inside (by rw [List.length_cons]; omega),
        List.length_cons, Nat.add_right_comm, Nat.add_assoc]

/-- The keys that end within a text are those of its prefixes. -/
theorem endings_text {raw : RawFst} {query : List UInt8} (chars : List Char) :
    ∀ {front : List UInt8} {addr acc : Nat},
      query = front ++ chars.flatMap String.utf8EncodeChar →
      endings raw query front.length addr acc (chars.flatMap String.utf8EncodeChar) =
        chars.inits.filterMap fun key =>
          (raw.getFrom addr acc (key.flatMap String.utf8EncodeChar)).map
            (front.length + (key.flatMap String.utf8EncodeChar).length, ·) := by
  induction chars with
  | nil =>
      intro front addr acc whole
      rw [List.flatMap_nil, List.append_nil] at whole
      have last : isCharBoundary query front.length = true := by
        rw [isCharBoundary, whole, beq_self_eq_true, Bool.or_true, Bool.true_or]
      rw [List.flatMap_nil, endings, List.length_nil, Nat.zero_add, List.range_one]
      rw [show ([] : List Char).inits = [[]] from rfl]
      simp only [List.filterMap_cons, List.filterMap_nil, Nat.add_zero, last, if_true, List.take_nil,
        List.flatMap_nil, List.length_nil]
  | cons c chars ih =>
      intro front addr acc whole
      rw [List.flatMap_cons] at whole
      rw [List.flatMap_cons, endings_char whole, List.inits_cons, ← List.singleton_append (x := []),
        List.filterMap_append, List.filterMap_map]
      congr 1
      cases led : raw.stateFrom addr acc (String.utf8EncodeChar c) with
      | none =>
          symm
          apply List.filterMap_eq_nil_iff.mpr
          intro key _
          simp only [Function.comp, List.flatMap_cons, RawFst.getFrom_append, led,
            Option.bind_none, Option.map_none]
      | some state =>
          simp only
          rw [← List.length_append, ih (by rw [whole, List.append_assoc])]
          apply List.filterMap_congr
          intro key _
          simp only [Function.comp, List.flatMap_cons, RawFst.getFrom_append, led,
            Option.bind_some, List.length_append, Nat.add_assoc]

end FstWalk

end Lexindex
