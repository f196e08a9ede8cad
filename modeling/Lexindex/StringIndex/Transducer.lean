import Mathlib
import Lexindex.Lib.Checked
import Lexindex.Lib.Search
import Lexindex.Lib.Utf8

/-!
# Walking a transducer

A transducer is nodes at addresses, each below the nodes that lead to it.  A key is a path from
the root to a final node and its value the sum of the outputs on it.  Where the outputs out of a
node count the keys before them, a walk that keeps under a rank finds the key of that rank.
-/

set_option autoImplicit false

namespace Lexindex

structure Transition where
  inp : UInt8
  out : Nat
  addr : Nat
deriving DecidableEq, Repr

structure Node where
  isFinal : Bool
  finalOutput : Nat
  transitions : List Transition
deriving DecidableEq, Repr

/-- `fst::raw::Fst`: its root and what it decodes at an address.  A node is written after the
nodes it leads to. -/
structure RawFst where
  root : Nat
  node : Nat → Node
  below : ∀ addr, ∀ t ∈ (node addr).transitions, t.addr < addr

namespace RawFst

variable (raw : RawFst)

/-- Whether the transition at `mid` leads to no key past `id`. -/
def within (raw : RawFst) (id addr acc mid : Nat) : Bool :=
  match (raw.node addr).transitions[mid]? with
  | none => false
  | some t => (checkedAdd acc t.out).any (· ≤ id)

/-- The rank walk from a node, `acc` and `key` being what led there. -/
def rankWalkFrom (id addr acc : Nat) (key : List UInt8) : Option String :=
  if (raw.node addr).isFinal = true ∧ checkedAdd acc (raw.node addr).finalOutput = some id then
    fromUtf8 key
  else
    match partitionPoint (raw.within id addr acc) 0 (raw.node addr).transitions.length with
    | 0 => none
    | last + 1 =>
        match found : (raw.node addr).transitions[last]? with
        | none => none
        | some t =>
            have := raw.below addr t (List.mem_of_getElem? found)
            match checkedAdd acc t.out with
            | none => none
            | some acc => rankWalkFrom id t.addr acc (key ++ [t.inp])
termination_by addr

def rankWalk (id : Nat) : Option String :=
  raw.rankWalkFrom id raw.root 0 []

/-- `Layout::get` from a node on: each byte's step, then the final output, the sums checked. -/
def getFrom (addr acc : Nat) : List UInt8 → Option Nat
  | [] =>
      if (raw.node addr).isFinal then checkedAdd acc (raw.node addr).finalOutput else none
  | byte :: rest =>
      match (raw.node addr).transitions.find? fun t => t.inp == byte with
      | none => none
      | some t =>
          match checkedAdd acc t.out with
          | none => none
          | some acc => getFrom t.addr acc rest

def get (key : List UInt8) : Option Nat :=
  raw.getFrom raw.root 0 key

/-! ## The keys of a node -/

/-- What the paths from a node to a final one spell, the node's own end first. -/
def spelled (addr : Nat) : List (List UInt8) :=
  (if (raw.node addr).isFinal then [[]] else []) ++
    (raw.node addr).transitions.attach.flatMap fun t =>
      have := raw.below addr t.1 t.2
      (spelled t.1.addr).map (t.1.inp :: ·)
termination_by addr

/-- The keys behind each transition of a node. -/
def parts (addr : Nat) : List (List (List UInt8)) :=
  (raw.node addr).transitions.map fun t => (raw.spelled t.addr).map (t.inp :: ·)

/-- The nodes a walk can come to. -/
inductive Reaches (raw : RawFst) : Nat → Prop
  | root : Reaches raw raw.root
  | step {addr : Nat} {t : Transition} (here : Reaches raw addr)
      (member : t ∈ (raw.node addr).transitions) : Reaches raw t.addr

/-- How many keys end at a node itself. -/
def ends (addr : Nat) : Nat :=
  if (raw.node addr).isFinal then 1 else 0

/-- A node's outputs count: a final node has none of its own, its inputs ascend, and a transition's
is the number of keys the node spells before it. -/
structure CountsKeys (raw : RawFst) (addr : Nat) : Prop where
  final : (raw.node addr).isFinal = true → (raw.node addr).finalOutput = 0
  inputs : Ascending Transition.inp (raw.node addr).transitions
  outs : ∀ (i : Nat) (t : Transition), (raw.node addr).transitions[i]? = some t →
    t.out = raw.ends addr + ((raw.parts addr).take i).flatten.length

section Spelled

variable {raw} {addr : Nat}

theorem spelled_eq : raw.spelled addr =
    (if (raw.node addr).isFinal then [[]] else []) ++ (raw.parts addr).flatten := by
  rw [spelled, parts, ← List.flatMap_def]
  congr 1
  rw [List.flatMap_subtype (g := fun t => (raw.spelled t.addr).map (t.inp :: ·)) (by simp),
    List.unattach_attach]

theorem ends_length :
    (if (raw.node addr).isFinal then [[]] else [] : List (List UInt8)).length = raw.ends addr := by
  rw [ends]
  split <;> rfl

/-- The empty key is the first of a final node's, and of no other's. -/
theorem spelled_nil {k : Nat} :
    (raw.spelled addr)[k]? = some [] ↔ (raw.node addr).isFinal = true ∧ k = 0 := by
  have inner : ∀ k : Nat, (raw.parts addr).flatten[k]? ≠ some [] := by
    intro k here
    obtain ⟨j, part, m, at_, there, -⟩ := getElem?_flatten_iff.mp here
    rw [parts, List.getElem?_map] at at_
    obtain ⟨t, -, rfl⟩ := Option.map_eq_some_iff.mp at_
    rw [List.getElem?_map] at there
    obtain ⟨rest, -, same⟩ := Option.map_eq_some_iff.mp there
    cases same
  rw [spelled_eq]
  cases (raw.node addr).isFinal with
  | true =>
      cases k with
      | zero => simp
      | succ k => simpa using inner k
  | false => simpa using inner k

/-- A longer key is behind the transition of its first byte, past the keys before that. -/
theorem spelled_cons {k : Nat} {byte : UInt8} {rest : List UInt8} :
    (raw.spelled addr)[k]? = some (byte :: rest) ↔
      ∃ (i : Nat) (t : Transition) (m : Nat), (raw.node addr).transitions[i]? = some t ∧
        t.inp = byte ∧ (raw.spelled t.addr)[m]? = some rest ∧
        k = raw.ends addr + ((raw.parts addr).take i).flatten.length + m := by
  have inner : ∀ k : Nat, (raw.parts addr).flatten[k]? = some (byte :: rest) ↔
      ∃ (i : Nat) (t : Transition) (m : Nat), (raw.node addr).transitions[i]? = some t ∧
        t.inp = byte ∧ (raw.spelled t.addr)[m]? = some rest ∧
        k = ((raw.parts addr).take i).flatten.length + m := by
    intro k
    rw [getElem?_flatten_iff]
    constructor
    · rintro ⟨i, part, m, at_, there, rfl⟩
      rw [parts, List.getElem?_map] at at_
      obtain ⟨t, here, rfl⟩ := Option.map_eq_some_iff.mp at_
      rw [List.getElem?_map] at there
      obtain ⟨other, inside, same⟩ := Option.map_eq_some_iff.mp there
      rw [List.cons.injEq] at same
      exact ⟨i, t, m, here, same.1, same.2 ▸ inside, rfl⟩
    · rintro ⟨i, t, m, here, rfl, inside, rfl⟩
      refine ⟨i, (raw.spelled t.addr).map (t.inp :: ·), m, ?_, ?_, rfl⟩
      · rw [parts, List.getElem?_map, here, Option.map_some]
      · rw [List.getElem?_map, inside, Option.map_some]
  rw [spelled_eq, ends]
  cases (raw.node addr).isFinal with
  | true =>
      rw [if_pos rfl, if_pos rfl]
      cases k with
      | zero =>
          refine iff_of_false (by simp) ?_
          rintro ⟨i, t, m, -, -, -, place⟩
          omega
      | succ k =>
          rw [List.singleton_append, List.getElem?_cons_succ, inner]
          refine exists_congr fun i => exists_congr fun t => exists_congr fun m => ?_
          refine and_congr_right fun _ => and_congr_right fun _ => and_congr_right fun _ => ?_
          omega
  | false =>
      rw [if_neg Bool.noConfusion, if_neg Bool.noConfusion, List.nil_append, inner]
      simp only [Nat.zero_add]

/-- The keys before a transition's, and with its own. -/
theorem parts_take_succ {i : Nat} {t : Transition}
    (here : (raw.node addr).transitions[i]? = some t) :
    ((raw.parts addr).take (i + 1)).flatten.length =
      ((raw.parts addr).take i).flatten.length + (raw.spelled t.addr).length := by
  have part : (raw.parts addr)[i]? = some ((raw.spelled t.addr).map (t.inp :: ·)) := by
    rw [parts, List.getElem?_map, here, Option.map_some]
  rw [List.take_add_one, part, Option.toList_some, List.flatten_append, List.length_append,
    List.flatten_singleton, List.length_map]

theorem parts_take_mono {i j : Nat} (le : i ≤ j) :
    ((raw.parts addr).take i).flatten.length ≤ ((raw.parts addr).take j).flatten.length := by
  have front := List.take_prefix_take_left (l := raw.parts addr) le
  obtain ⟨back, whole⟩ := front
  rw [← whole, List.flatten_append, List.length_append]
  omega

end Spelled

/-! ## The walks are right -/

section Walks

variable {raw} (counts : ∀ addr, raw.Reaches addr → raw.CountsKeys addr)
include counts

/-- A rank walk from a node finds the node's key of the rank that is left. -/
theorem rankWalkFrom_spec {id : Nat} (word : id < 2 ^ 64) (addr : Nat) :
    raw.Reaches addr → ∀ {acc : Nat} {key : List UInt8}, acc ≤ id →
      raw.rankWalkFrom id addr acc key =
        (raw.spelled addr)[id - acc]?.bind fun rest => fromUtf8 (key ++ rest) := by
  induction addr using Nat.strong_induction_on with
  | _ addr ih =>
      intro reached acc key le
      have counted := counts addr reached
      rw [rankWalkFrom]
      split
      · next stops =>
        obtain ⟨final, sum⟩ := stops
        rw [counted.final final, checkedAdd_eq_some] at sum
        have here : (raw.spelled addr)[id - acc]? = some [] :=
          spelled_nil.mpr ⟨final, by omega⟩
        rw [here, Option.bind_some, List.append_nil]
      · next goes =>
        -- The key that is left is not the node's own end.
        have not_end : (raw.spelled addr)[id - acc]? ≠ some [] := by
          intro here
          obtain ⟨final, zero⟩ := spelled_nil.mp here
          refine goes ⟨final, ?_⟩
          rw [counted.final final, checkedAdd_eq_some]
          omega
        have holds : ∀ (i : Nat) (t : Transition), (raw.node addr).transitions[i]? = some t →
            (raw.within id addr acc i = true ↔ acc + t.out ≤ id) := by
          intro i t at_
          rw [within, at_]
          simp only [checkedAdd]
          split
          · simp
          · refine iff_of_false (by simp) (by omega)
        have down : ∀ i j, i ≤ j → raw.within id addr acc j = true →
            raw.within id addr acc i = true := by
          intro i j before later
          have inside : j < (raw.node addr).transitions.length := by
            by_contra past
            rw [within, List.getElem?_eq_none (Nat.le_of_not_lt past)] at later
            cases later
          have atJ := List.getElem?_eq_getElem inside
          have atI := List.getElem?_eq_getElem (Nat.lt_of_le_of_lt before inside)
          rw [holds j _ atJ, counted.outs j _ atJ] at later
          rw [holds i _ atI, counted.outs i _ atI]
          have fewer := @parts_take_mono raw addr i j before
          omega
        obtain ⟨-, atMost, held, stopped⟩ :=
          partitionPoint_spec down (Nat.zero_le (raw.node addr).transitions.length)
        -- Which transition a key that is left is behind.
        have behind : ∀ {byte : UInt8} {rest : List UInt8},
            (raw.spelled addr)[id - acc]? = some (byte :: rest) →
            ∃ (i : Nat) (t : Transition), partitionPoint (raw.within id addr acc) 0
                (raw.node addr).transitions.length = i + 1 ∧
              (raw.node addr).transitions[i]? = some t ∧ t.inp = byte ∧ acc + t.out ≤ id ∧
              (raw.spelled t.addr)[id - (acc + t.out)]? = some rest := by
          intro byte rest here
          obtain ⟨i, t, m, at_, input, inside, place⟩ := spelled_cons.mp here
          obtain ⟨iIn, -⟩ := List.getElem?_eq_some_iff.mp at_
          obtain ⟨mIn, -⟩ := List.getElem?_eq_some_iff.mp inside
          have out := counted.outs i t at_
          have under : acc + t.out ≤ id := by omega
          refine ⟨i, t, ?_, at_, input, under, ?_⟩
          · refine Nat.le_antisymm (Nat.le_of_not_lt fun later => ?_)
              (Nat.succ_le_of_lt (Nat.lt_of_not_le fun earlier => ?_))
            · have next := held (i + 1) (Nat.zero_le _) later
              have nextAt := List.getElem?_eq_getElem (Nat.lt_of_lt_of_le later atMost)
              rw [holds _ _ nextAt, counted.outs _ _ nextAt, parts_take_succ at_] at next
              omega
            · exact stopped i earlier iIn ((holds i t at_).mpr under)
          · rw [show id - (acc + t.out) = m by omega]
            exact inside
        split
        · next zero =>
          cases here : (raw.spelled addr)[id - acc]? with
          | none => rfl
          | some left =>
              cases left with
              | nil => exact absurd here not_end
              | cons byte rest =>
                  obtain ⟨i, t, place, -⟩ := behind here
                  omega
        · next last place =>
          have inside : last < (raw.node addr).transitions.length := by omega
          have at_ := List.getElem?_eq_getElem inside
          generalize (raw.node addr).transitions[last] = t at at_
          have under : acc + t.out ≤ id := (holds last t at_).mp (held last (Nat.zero_le _) (by omega))
          have sum : checkedAdd acc t.out = some (acc + t.out) :=
            checkedAdd_eq_some.mpr ⟨by omega, rfl⟩
          split
          · next none_found =>
            rw [at_] at none_found
            cases none_found
          · next other found =>
            rw [at_, Option.some.injEq] at found
            subst found
            rw [sum]
            simp only
            have member := List.mem_of_getElem? at_
            rw [ih t.addr (raw.below addr t member) (reached.step member) under]
            -- The key left at the node is the one left behind the transition, or neither is.
            have same : (raw.spelled addr)[id - acc]? =
                ((raw.spelled t.addr)[id - (acc + t.out)]?).map (t.inp :: ·) := by
              have out := counted.outs last t at_
              cases inner : (raw.spelled t.addr)[id - (acc + t.out)]? with
              | some rest =>
                  rw [Option.map_some]
                  exact spelled_cons.mpr ⟨last, t, _, at_, rfl, inner, by omega⟩
              | none =>
                  rw [Option.map_none]
                  cases here : (raw.spelled addr)[id - acc]? with
                  | none => rfl
                  | some left =>
                      cases left with
                      | nil => exact absurd here not_end
                      | cons byte rest =>
                          obtain ⟨i, u, placeU, atU, -, -, found⟩ := behind here
                          have sameAt : i = last := by omega
                          rw [sameAt, at_, Option.some.injEq] at atU
                          rw [← atU, inner] at found
                          cases found
            rw [same]
            cases (raw.spelled t.addr)[id - (acc + t.out)]? with
            | none => rfl
            | some rest =>
                rw [Option.map_some, Option.bind_some, Option.bind_some, List.append_assoc,
                  List.singleton_append]

/-- A lookup from a node finds a key at its place among the node's. -/
theorem getFrom_spec (key : List UInt8) : ∀ {addr acc id : Nat}, raw.Reaches addr →
    acc + (raw.spelled addr).length < 2 ^ 64 →
      (raw.getFrom addr acc key = some id ↔
        acc ≤ id ∧ (raw.spelled addr)[id - acc]? = some key) := by
  induction key with
  | nil =>
      intro addr acc id reached room
      have counted := counts addr reached
      rw [getFrom, spelled_nil]
      cases final : (raw.node addr).isFinal with
      | true =>
          rw [if_pos rfl, counted.final final, checkedAdd_eq_some]
          constructor
          · rintro ⟨-, rfl⟩
            exact ⟨Nat.le_refl _, rfl, Nat.sub_self _⟩
          · rintro ⟨le, -, zero⟩
            omega
      | false =>
          rw [if_neg Bool.noConfusion]
          exact iff_of_false (by simp) fun both => by cases both.2.1
  | cons byte rest ih =>
      intro addr acc id reached room
      have counted := counts addr reached
      -- A key behind a transition keeps the sum in a word.
      have fits : ∀ (i : Nat) (t : Transition), (raw.node addr).transitions[i]? = some t →
          acc + t.out + (raw.spelled t.addr).length < 2 ^ 64 := by
        intro i t at_
        have upTo := parts_take_succ at_
        have whole := @parts_take_mono raw addr (i + 1) (max (i + 1) (raw.parts addr).length)
          (Nat.le_max_left _ _)
        rw [List.take_of_length_le (Nat.le_max_right _ _)] at whole
        have out := counted.outs i t at_
        have length := congrArg List.length (@spelled_eq raw addr)
        rw [List.length_append, ends_length] at length
        omega
      rw [getFrom, spelled_cons]
      constructor
      · intro answered
        split at answered
        · cases answered
        · next t found =>
          have member := List.mem_of_find?_eq_some found
          obtain ⟨i, at_⟩ := List.mem_iff_getElem?.mp member
          have input : t.inp = byte := by simpa using List.find?_some found
          have room' := fits i t at_
          have sum : checkedAdd acc t.out = some (acc + t.out) :=
            checkedAdd_eq_some.mpr ⟨by omega, rfl⟩
          rw [sum] at answered
          obtain ⟨le, here⟩ := (ih (reached.step member) room').mp answered
          have out := counted.outs i t at_
          exact ⟨by omega, i, t, _, at_, input, here, by omega⟩
      · rintro ⟨le, i, t, m, at_, input, here, place⟩
        have member := List.mem_of_getElem? at_
        have room' := fits i t at_
        have found : (raw.node addr).transitions.find? (fun t => t.inp == byte) = some t := by
          cases other : (raw.node addr).transitions.find? fun t => t.inp == byte with
          | none =>
              have differs := List.find?_eq_none.mp other t member
              exact absurd (by simpa using input) differs
          | some u =>
              have uMember := List.mem_of_find?_eq_some other
              have uInput : u.inp = byte := by simpa using List.find?_some other
              refine congrArg some ?_
              by_contra differ
              have symmetric : Std.Symm fun a b : Transition => a.inp ≠ b.inp :=
                ⟨fun _ _ unequal => unequal.symm⟩
              have apart := counted.inputs.imp (S := fun a b => a.inp ≠ b.inp) fun less => less.ne
              exact apart.forall uMember member differ (uInput.trans input.symm)
        have out := counted.outs i t at_
        have sum : checkedAdd acc t.out = some (acc + t.out) :=
          checkedAdd_eq_some.mpr ⟨by omega, rfl⟩
        rw [found]
        simp only [sum]
        refine (ih (reached.step member) room').mpr ⟨by omega, ?_⟩
        rw [show id - (acc + t.out) = m by omega]
        exact here

end Walks

end RawFst

end Lexindex
