import Mathlib
import Lexindex.Lib.Word
import Lexindex.StringIndex.NodeSafe
import Lexindex.StringIndex.Transducer

/-!
# What a node's bytes say

The bytes of a transducer against its nodes: each form of a node packs its transitions so that the
step, which searches bytes and follows one delta, answers as the node does.
-/

set_option autoImplicit false

namespace Lexindex.FstWalk

open Faulting

/-- The empty final node. -/
def Node.empty : Node :=
  { isFinal := true, finalOutput := 0, transitions := [] }

/-- The delta that is packed for a transition out of a node that ends at `stop`. -/
def Leads (delta addr stop : Nat) : Prop :=
  (addr = EMPTY ∧ delta = EMPTY) ∨ (addr < stop ∧ delta = stop - addr)

/-- A node as `fst` writes it, by its last byte: its state, then downwards its sizes and inputs,
where they lead and their outputs, and last the final output. -/
inductive NodeAt (bytes : List UInt8) (version : Nat) : Nat → Node → Prop
  | empty : NodeAt bytes version EMPTY Node.empty
  /-- One transition, to the node written just before. -/
  | next {addr : Nat} {state : UInt8} (positive : addr ≠ EMPTY) (here : bytes[addr]? = some state)
      (form : state >>> 6 = 0b11) (room : ownLen state < addr) :
      NodeAt bytes version addr
        { isFinal := false, finalOutput := 0
          transitions := [⟨inputOf bytes addr state, 0, addr - ownLen state - 1⟩] }
  /-- One transition of its own. -/
  | one {addr tsize osize stop dest : Nat} {state : UInt8} (positive : addr ≠ EMPTY)
      (here : bytes[addr]? = some state) (form : state >>> 6 = 0b10)
      (sized : sizesOf (packedOf bytes addr state) = (tsize, osize)) (tSmall : tsize ≤ 8)
      (oSmall : osize ≤ 8) (room : ownLen state + 1 + tsize + osize + stop = addr)
      (leads : Leads (field bytes (stop + osize) tsize) dest stop) :
      NodeAt bytes version addr
        { isFinal := false, finalOutput := 0
          transitions := [⟨inputOf bytes addr state, field bytes stop osize, dest⟩] }
  /-- Any number of transitions, in reverse, and past 32 an index of their inputs. -/
  | any {addr tsize osize indexLen inputs outputs stop : Nat} {state : UInt8} {node : Node}
      (positive : addr ≠ EMPTY) (here : bytes[addr]? = some state)
      (form : state >>> 6 ≠ 0b11 ∧ state >>> 6 ≠ 0b10) (final : isFinal state = node.isFinal)
      (counted : transitionsOf bytes addr state = node.transitions.length)
      (sized : sizesOf (packedOf bytes addr state) = (tsize, osize)) (tSmall : tsize ≤ 8)
      (oSmall : osize ≤ 8)
      (indexed : (if 2 ≤ version ∧ INDEXED < node.transitions.length then 256 else 0) = indexLen)
      (inputsAt : inputs + node.transitions.length + indexLen + 1 + ownLen state = addr)
      (outputsAt : outputs + node.transitions.length * tsize = inputs)
      (stopAt : stop + (if node.isFinal then osize else 0) + node.transitions.length * osize =
        outputs)
      (ascends : Ascending Transition.inp node.transitions)
      (input : ∀ (i : Nat) (t : Transition), node.transitions[i]? = some t →
        bytes[inputs + node.transitions.length - (i + 1)]? = some t.inp)
      (entry : indexLen ≠ 0 → ∀ b : UInt8,
        (bytes.getD (inputs + node.transitions.length + b.toNat) 0).toNat =
          (node.transitions.findIdx? (·.inp == b)).getD 255)
      (leads : ∀ (i : Nat) (t : Transition), node.transitions[i]? = some t →
        Leads (field bytes (inputs - (i + 1) * tsize) tsize) t.addr stop)
      (outs : ∀ (i : Nat) (t : Transition), node.transitions[i]? = some t →
        field bytes (outputs - (i + 1) * osize) osize = t.out)
      (finalOut : node.isFinal = true → field bytes stop osize = node.finalOutput) :
      NodeAt bytes version addr node

theorem Leads.led {delta addr stop : Nat} (leads : Leads delta addr stop) :
    (delta = EMPTY ∨ delta ≤ stop) ∧ led delta stop = addr := by
  rcases leads with ⟨rfl, rfl⟩ | ⟨below, rfl⟩
  · exact ⟨.inl rfl, rfl⟩
  · rw [FstWalk.led, if_neg (by rw [EMPTY]; omega)]
    omega

/-! ## The transition an input takes -/

/-- Where distinct items hold `b`, a search finds it. -/
theorem findIdx?_of_nodup {α : Type} [DecidableEq α] {items : List α} {b : α} {i : Nat}
    (nodup : items.Nodup) (here : items[i]? = some b) : items.findIdx? (· == b) = some i := by
  obtain ⟨inside, at_⟩ := List.getElem?_eq_some_iff.mp here
  rw [List.findIdx?_eq_some_iff_getElem]
  refine ⟨inside, by simp [at_], ?_⟩
  intro j before
  have apart : items[j] ≠ items[i] := by
    intro same
    have equal := (nodup.getElem_inj_iff).mp same
    omega
  rw [at_] at apart
  simpa using apart

/-- A search from the back, the place counted from the front. -/
theorem findIdx?_reverse {α : Type} [DecidableEq α] {items : List α} (nodup : items.Nodup) (b : α) :
    (items.reverse.findIdx? (· == b)).map (items.length - · - 1) = items.findIdx? (· == b) := by
  by_cases member : b ∈ items
  · obtain ⟨i, inside, at_⟩ := List.mem_iff_getElem.mp member
    have here : items[i]? = some b := List.getElem?_eq_some_iff.mpr ⟨inside, at_⟩
    have back : items.reverse[items.length - 1 - i]? = some b := by
      rw [List.getElem?_reverse (by omega), show items.length - 1 - (items.length - 1 - i) = i by
        omega]
      exact here
    rw [findIdx?_of_nodup nodup here,
      findIdx?_of_nodup (List.nodup_reverse.mpr nodup) back, Option.map_some]
    congr 1
    omega
  · have absent : ∀ other ∈ items, (other == b) = false := by
      intro other inside
      rw [beq_eq_false_iff_ne]
      exact fun same => member (same ▸ inside)
    rw [List.findIdx?_eq_none_iff.mpr absent, List.findIdx?_eq_none_iff.mpr (by simpa using absent)]
    rfl

/-- Every byte is one of 256 distinct ones. -/
theorem mem_of_all_bytes {inputs : List UInt8} (nodup : inputs.Nodup) (all : inputs.length = 256)
    (b : UInt8) : b ∈ inputs := by
  by_contra absent
  have longer : (b :: inputs).Nodup := List.nodup_cons.mpr ⟨absent, nodup⟩
  have numbers : ((b :: inputs).map UInt8.toNat).Nodup :=
    longer.map fun _ _ => UInt8.toNat_inj.mp
  have within : (b :: inputs).map UInt8.toNat ⊆ List.range 256 := by
    intro v member
    obtain ⟨byte, -, rfl⟩ := List.mem_map.mp member
    exact List.mem_range.mpr byte.toNat_lt
  have few := (numbers.subperm within).length_le
  rw [List.length_map, List.length_cons, all, List.length_range] at few
  omega

section Found

variable {bytes : List UInt8} {transitions : List Transition} {inputs : Nat}
  (ascends : Ascending Transition.inp transitions)
  (input : ∀ (i : Nat) (t : Transition), transitions[i]? = some t →
    bytes[inputs + transitions.length - (i + 1)]? = some t.inp)
include ascends

theorem inputs_nodup : (transitions.map Transition.inp).Nodup := by
  rw [List.Nodup, List.pairwise_map]
  exact ascends.imp fun less => less.ne

include input

omit ascends in
/-- The inputs stand in reverse. -/
theorem bytesBetween_inputs :
    bytesBetween bytes inputs (inputs + transitions.length) =
      (transitions.map Transition.inp).reverse := by
  apply List.ext_getElem?
  intro k
  rw [bytesBetween, Nat.add_sub_cancel_left]
  by_cases inside : k < transitions.length
  · have at_ := List.getElem?_eq_getElem
      (show transitions.length - 1 - k < transitions.length by omega)
    have byte := input _ _ at_
    rw [List.getElem?_take_of_lt inside, List.getElem?_drop,
      List.getElem?_reverse (by rwa [List.length_map]), List.length_map, List.getElem?_map, at_,
      Option.map_some, ← byte]
    congr 1
    omega
  · rw [List.getElem?_eq_none (by rw [List.length_take]; omega),
      List.getElem?_eq_none (by rw [List.length_reverse, List.length_map]; omega)]

/-- The index, and the search of the inputs where there is none, name the transition. -/
theorem foundIn_eq {indexLen : Nat} (few : transitions.length ≤ 256)
    (indexed : indexLen = 0 ∨ indexLen = 256)
    (entry : indexLen ≠ 0 → ∀ b : UInt8,
      (bytes.getD (inputs + transitions.length + b.toNat) 0).toNat =
        (transitions.findIdx? (·.inp == b)).getD 255) (b : UInt8) :
    foundIn bytes (inputs + transitions.length + indexLen) indexLen inputs transitions.length b =
      transitions.findIdx? (·.inp == b) := by
  have nodup := inputs_nodup ascends
  have mapped : (transitions.map Transition.inp).findIdx? (· == b) =
      transitions.findIdx? (·.inp == b) := by
    rw [List.findIdx?_map]
    rfl
  rw [foundIn]
  split
  · next some_ =>
    have wide : indexLen = 256 := indexed.resolve_left some_
    rw [wide, Nat.add_sub_cancel, entry some_ b]
    cases found : transitions.findIdx? (·.inp == b) with
    | some i =>
        obtain ⟨inside, -⟩ := List.findIdx?_eq_some_iff_getElem.mp found
        exact if_pos inside
    | none =>
        apply if_neg
        intro less
        rw [Option.getD_none] at less
        have member := mem_of_all_bytes nodup (by rw [List.length_map]; omega) b
        obtain ⟨t, here, same⟩ := List.mem_map.mp member
        have differs := List.findIdx?_eq_none_iff.mp found t here
        simp [same] at differs
  · rw [bytesBetween_inputs input, ← mapped, ← findIdx?_reverse nodup, List.length_map]

end Found

/-! ## A step is the node's -/

/-- Where an input leads from a node, and the output on the way. -/
def follow (node : Node) (b : UInt8) : Option (Nat × Nat) :=
  (node.transitions.find? fun t => t.inp == b).map fun t => (t.addr, t.out)

theorem NodeAt.inputs {bytes : List UInt8} {version addr : Nat} {node : Node}
    (written : NodeAt bytes version addr node) : Ascending Transition.inp node.transitions := by
  cases written with
  | empty => exact List.Pairwise.nil
  | next => exact List.pairwise_singleton ..
  | one => exact List.pairwise_singleton ..
  | any => assumption

theorem follow_single (t : Transition) (isFinal : Bool) (out : Nat) (input : Option UInt8) :
    (input.bind fun b => follow ⟨isFinal, out, [t]⟩ b) =
      if input = some t.inp then some (t.addr, t.out) else none := by
  cases input with
  | none => rfl
  | some b =>
      rw [Option.bind_some, follow, List.find?_singleton]
      by_cases same : t.inp = b
      · simp [same]
      · rw [if_neg (by simpa using same),
          if_neg fun other => same (Option.some.inj other).symm]
        rfl

/-- A step from a node's bytes is the node's own. -/
theorem step_node {bytes : List UInt8} {version addr : Nat} {node : Node} (root : Nat)
    (written : NodeAt bytes version addr node) (word : addr < 2 ^ 64) (final : Bool)
    (input : Option UInt8) :
    Layout.step ⟨root, indexedAboveOf version⟩ final bytes addr input =
      .ok (if (final || addr == EMPTY) && node.isFinal then some node.finalOutput else none,
        input.bind (follow node)) := by
  rw [Layout.step]
  cases written with
  | empty =>
      rw [if_pos rfl]
      cases input <;> simp [Node.empty, follow]
  | @next _ state positive here form room =>
      obtain ⟨inside, at_⟩ := List.getElem?_eq_some_iff.mp here
      rw [if_neg positive, index_eq inside, List.get_eq_getElem, at_, follow_single]
      simp only [bind, Except.bind]
      rw [if_pos form, stepNext_eq inside input room]
      simp
  | @one _ tsize osize stop dest state positive here form sized tSmall oSmall room leads =>
      obtain ⟨inside, at_⟩ := List.getElem?_eq_some_iff.mp here
      obtain ⟨fits, leads⟩ := leads.led
      rw [if_neg positive, index_eq inside, List.get_eq_getElem, at_, follow_single]
      simp only [bind, Except.bind]
      rw [if_neg (by rw [form]; decide), if_pos form,
        stepOne_eq inside word input sized tSmall oSmall room fits, leads]
      simp
  | @any _ tsize osize indexLen inputs outputs stop state _ positive here form isFinal_ counted sized
      tSmall oSmall indexed inputsAt outputsAt stopAt ascends byte entry leads outs finalOut =>
      obtain ⟨inside, at_⟩ := List.getElem?_eq_some_iff.mp here
      have few : node.transitions.length ≤ 256 := counted ▸ transitionsOf_le bytes addr state
      have fits : ∀ i < node.transitions.length,
          field bytes (inputs - (i + 1) * tsize) tsize = EMPTY ∨
            field bytes (inputs - (i + 1) * tsize) tsize ≤ stop := by
        intro i small
        exact (leads i _ (List.getElem?_eq_getElem small)).led.1
      have found := foundIn_eq ascends byte few (by rw [← indexed]; split <;> simp) entry
      rw [if_neg positive, index_eq inside, List.get_eq_getElem, at_]
      simp only [bind, Except.bind]
      rw [if_neg form.1, if_neg form.2, stepAny_eq inside word ⟨root, indexedAboveOf version⟩ final
        input counted sized oSmall (fun _ => tSmall) ((indexed_same version _ few).trans indexed)
        inputsAt outputsAt (isFinal_.symm ▸ stopAt) fits, isFinal_]
      refine congrArg Except.ok (Prod.ext ?_ ?_)
      · simp only
        have notEmpty : (addr == EMPTY) = false := beq_false_of_ne positive
        rw [notEmpty, Bool.or_false]
        split
        · next both =>
          rw [Bool.and_eq_true] at both
          rw [finalOut both.2]
        · rfl
      · cases input with
        | none => rfl
        | some b =>
            simp only [Option.bind_some]
            rw [found b, follow, List.find?_eq_bind_findIdx?_getElem?]
            cases place : node.transitions.findIdx? (·.inp == b) with
            | none => rfl
            | some i =>
                obtain ⟨small, -⟩ := List.findIdx?_eq_some_iff_getElem.mp place
                have here := List.getElem?_eq_getElem small
                rw [Option.map_some, Option.bind_some, here, Option.map_some,
                  (leads i _ here).led.2, outs i _ here]

end Lexindex.FstWalk

/-!
## Walks over the bytes

The lookup and the walk for the keys that begin a query, stepping over a transducer's bytes, and
the table that answers the steps of a query's first character with one read.
-/

namespace Lexindex.FstWalk

open Faulting

/-- The state a walk is in past a first character, for every character of the plane that begins a
key. -/
structure FirstChars where
  /-- The empty key's value. -/
  root : Option Nat
  /-- A bit for each code point that begins a key. -/
  bits : List Word
  /-- Where each page's first state is. -/
  base : List Nat
  states : List (Nat × Nat)

/-- `u32::try_from`. -/
def toU32 (v : Nat) : Option Nat :=
  if v < 2 ^ 32 then some v else none

/-- Every character that takes `left` more bytes from the node at `addr`, with the state past it,
in code point order. -/
def descend (raw : RawFst) : Nat → Nat → Nat → List UInt8 → Option (List (Nat × Nat × Nat))
  | 0, addr, sum, spelled =>
      -- A byte path that no text spells takes no character's place.
      match (fromUtf8 spelled).bind (·.toList.head?) with
      | none => some []
      | some c => do
          let addr ← toU32 addr
          let sum ← toU32 sum
          pure [(c.toNat, addr, sum)]
  | left + 1, addr, sum, spelled => do
      let found ← (raw.node addr).transitions.mapM fun (t : Transition) =>
        if 0x80 ≤ t.inp ∧ t.inp ≤ 0xBF then
          match checkedAdd sum t.out with
          | none => some []
          | some next => descend raw left t.addr next (spelled ++ [t.inp])
        else some []
      pure found.flatten

/-- How many bytes a character of the plane takes, by its first. -/
def leadLen (b : UInt8) : Option Nat :=
  if b ≤ 0x7F then some 1
  else if 0xC2 ≤ b ∧ b ≤ 0xDF then some 2
  else if 0xE0 ≤ b ∧ b ≤ 0xEF then some 3
  else none

/-- The characters and states that are found, entered in the pages. -/
def enter : Nat → List (Nat × Nat × Nat) → List Word × List Nat → Option (List Word × List Nat)
  | _, [], pages => some pages
  | i, (cp, _) :: rest, (bits, base) => do
      let base ← (if bits.getD (cp / 64) 0#64 = 0#64 then (toU32 i).map (base.set (cp / 64))
        else some base)
      enter (i + 1) rest (setBit bits cp, base)

def FirstChars.derive (raw : RawFst) : Option FirstChars := do
  let root := raw.node raw.root
  let parts ← root.transitions.mapM fun (t : Transition) =>
    match leadLen t.inp with
    | none => some []
    | some len => descend raw (len - 1) t.addr t.out [t.inp]
  let found := parts.flatten
  let pages := found.getLast?.elim 0 fun last => last.1 / 64 + 1
  let (bits, base) ← enter 0 found (List.replicate pages 0#64, List.replicate pages 0)
  pure
    { root := if root.isFinal then some root.finalOutput else none
      bits, base, states := found.map Prod.snd }

/-- `items[i]`. -/
def nth {α : Type} (items : List α) (i : Nat) : Faulting Unit α :=
  match items[i]? with
  | some item => .ok item
  | none => .error .panicked

/-- The state past `c`, if a key begins with it, and if the table holds its plane. -/
def FirstChars.after (table : FirstChars) (c : Char) :
    Faulting Unit (Option (Option (Nat × Nat))) :=
  if 0xFFFF < c.toNat then .ok none
  else
    let page := c.toNat / 64
    let bit := 1#64 <<< (c.toNat % 64)
    let bits := table.bits.getD page 0#64
    if bits &&& bit = 0#64 then .ok (some none)
    else do
      let first ← nth table.base page
      let state ← nth table.states (first + (bits &&& (bit - 1#64)).countOnes)
      pure (some (some state))

/-- `Layout::get` from a state on. -/
def Layout.getFrom (layout : Layout) (bytes : List UInt8) (addr acc : Nat) :
    List UInt8 → Faulting Unit (Option Nat)
  | [] => do
      let (final, _) ← layout.step true bytes addr none
      pure (final.bind (checkedAdd acc))
  | b :: rest => do
      let (_, next) ← layout.step false bytes addr (some b)
      match next with
      | none => pure none
      | some (dest, out) =>
          match checkedAdd acc out with
          | none => pure none
          | some sum => Layout.getFrom layout bytes dest sum rest

/-- `Layout::get`. -/
def Layout.get (layout : Layout) (bytes key : List UInt8) : Faulting Unit (Option Nat) :=
  layout.getFrom bytes layout.root 0 key

/-- `str::is_char_boundary`. -/
def isCharBoundary (text : List UInt8) (i : Nat) : Bool :=
  i == 0 || i == text.length || (text[i]?).any fun b => decide (¬ (0x80 ≤ b ∧ b < 0xC0))

/-- What a state at byte `i` reports: its key's end and value, where a character ends. -/
def reported (query : List UInt8) (i acc : Nat) (final : Option Nat) : List (Nat × Nat) :=
  match final.bind (checkedAdd acc) with
  | some v => if isCharBoundary query i then [(i, v)] else []
  | none => []

/-- The walk from byte `i` of the query on, the bytes from there being left. -/
def Layout.prefixesFrom (layout : Layout) (bytes query : List UInt8) (i addr acc : Nat) :
    List UInt8 → Faulting Unit (List (Nat × Nat))
  | [] => do
      let (final, _) ← layout.step true bytes addr none
      pure (reported query i acc final)
  | b :: rest => do
      let (final, next) ← layout.step true bytes addr (some b)
      match next with
      | none => pure (reported query i acc final)
      | some (dest, out) =>
          match checkedAdd acc out with
          | none => pure (reported query i acc final)
          | some sum => do
              let later ← Layout.prefixesFrom layout bytes query (i + 1) dest sum rest
              pure (reported query i acc final ++ later)

/-- `Layout::common_prefixes`: what it reports, in turn. -/
def Layout.commonPrefixes (layout : Layout) (bytes : List UInt8) (first : Option FirstChars)
    (query : String) : Faulting Unit (List (Nat × Nat)) := do
  let q := bytesOf query
  let past ← (match first, query.toList.head? with
    | some table, some c => table.after c
    | _, _ => pure none)
  match past with
  | none => layout.prefixesFrom bytes q 0 layout.root 0 q
  | some past => do
      let empty := match first.bind FirstChars.root with
        | some v => [(0, v)]
        | none => []
      match past with
      | none => pure empty
      | some (dest, sum) => do
          let len := (query.toList.head?).elim 0 Char.utf8Size
          let later ← layout.prefixesFrom bytes q len dest sum (q.drop len)
          pure (empty ++ later)

end Lexindex.FstWalk
