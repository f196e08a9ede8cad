import Mathlib
import Lexindex.StringIndex.WalkExact

/-!
# The table of first characters

The table is filled from every character that begins a key, in code point order, so that the states
before a character's are those of the pages before its own and of the bits below its own.
-/

set_option autoImplicit false

namespace Lexindex.FstWalk

open Faulting

/-! ## What is collected from each item in turn -/

section Collected

variable {α β : Type} {f : α → Option (List β)}

theorem mem_collected {items : List α} : ∀ {parts : List (List β)}, items.mapM f = some parts →
    ∀ x, x ∈ parts.flatten ↔ ∃ item ∈ items, ∃ part, f item = some part ∧ x ∈ part := by
  induction items with
  | nil =>
      intro parts read x
      cases read
      simp
  | cons item items ih =>
      intro parts read x
      obtain ⟨part, rest, first, later, rfl⟩ := mapM_cons_some read
      rw [List.flatten_cons, List.mem_append, ih later]
      simp only [List.exists_mem_cons_iff, first, Option.some.injEq, exists_eq_left']

theorem collected_of_mem {items : List α} : ∀ {parts : List (List β)}, items.mapM f = some parts →
    ∀ item ∈ items, ∃ part, f item = some part := by
  induction items with
  | nil => simp
  | cons item items ih =>
      intro parts read other member
      obtain ⟨part, rest, first, later, -⟩ := mapM_cons_some read
      rcases List.mem_cons.mp member with rfl | inside
      · exact ⟨part, first⟩
      · exact ih later other inside

/-- What is collected is in order where the items are. -/
theorem collected_pairwise {P : α → α → Prop} {Q : β → β → Prop} {items : List α} :
    ∀ {parts : List (List β)}, items.mapM f = some parts → items.Pairwise P →
      (∀ item ∈ items, ∀ part, f item = some part → part.Pairwise Q) →
      (∀ a ∈ items, ∀ b ∈ items, P a b → ∀ as bs, f a = some as → f b = some bs →
        ∀ x ∈ as, ∀ y ∈ bs, Q x y) → parts.flatten.Pairwise Q := by
  induction items with
  | nil =>
      intro parts read _ _ _
      cases read
      exact List.Pairwise.nil
  | cons item items ih =>
      intro parts read ordered within across
      obtain ⟨part, rest, first, later, rfl⟩ := mapM_cons_some read
      obtain ⟨least, ordered⟩ := List.pairwise_cons.mp ordered
      have tailOrdered := ih later ordered
        (fun other member => within other (List.mem_cons_of_mem _ member))
        (fun a aMember b bMember =>
          across a (List.mem_cons_of_mem _ aMember) b (List.mem_cons_of_mem _ bMember))
      rw [List.flatten_cons, List.pairwise_append]
      refine ⟨within item (List.mem_cons_self ..) part first, tailOrdered, ?_⟩
      intro x here y there
      obtain ⟨other, member, others, read, inside⟩ := (mem_collected later y).mp there
      exact across item (List.mem_cons_self ..) other (List.mem_cons_of_mem _ member)
        (least other member) part others first read x here y inside

/-- The same, by what holds of an item and what its part collects. -/
theorem collected_pairwise_by {P : α → α → Prop} {Q : β → β → Prop} {R : α → β → Prop}
    {items : List α} {parts : List (List β)} (read : items.mapM f = some parts)
    (ordered : items.Pairwise P)
    (within : ∀ item ∈ items, ∀ part, f item = some part → part.Pairwise Q ∧ ∀ x ∈ part, R item x)
    (across : ∀ a b, P a b → ∀ x y, R a x → R b y → Q x y) : parts.flatten.Pairwise Q := by
  apply collected_pairwise read ordered
  · intro item member part found
    exact (within item member part found).1
  · intro a aMember b bMember less as bs aFound bFound x here y there
    exact across a b less x y ((within a aMember as aFound).2 x here)
      ((within b bMember bs bFound).2 y there)

end Collected

/-! ## Characters and the bytes that lead to them -/

/-- Bytes that are a character's as far as its first says how many there are. -/
def Begins (spelled : List UInt8) (left : Nat) : Prop :=
  ∃ lead mid, spelled = lead :: mid ∧ leadLen lead = some (spelled.length + left)

theorem leadLen_char {c : Char} {lead : UInt8} {tail : List UInt8} {n : Nat}
    (bytes : String.utf8EncodeChar c = lead :: tail) (led : leadLen lead = some n) :
    c.toNat ≤ 0xFFFF ∧ n = tail.length + 1 := by
  obtain ⟨first, others, same, -, -, length⟩ := utf8_lead c
  rw [bytes, List.cons.injEq] at same
  obtain ⟨rfl, rfl⟩ := same
  rw [led] at length
  split at length
  · next small => exact ⟨small, Option.some.inj length⟩
  · cases length

theorem Begins.rest {spelled tail : List UInt8} {left : Nat} {c : Char}
    (begins : Begins spelled left) (bytes : String.utf8EncodeChar c = spelled ++ tail) :
    tail.length = left ∧ ∀ b ∈ tail, Continues b := by
  obtain ⟨lead, mid, rfl, led⟩ := begins
  obtain ⟨first, others, same, -, continues, -⟩ := utf8_lead c
  rw [List.cons_append] at bytes
  have length := (leadLen_char bytes led).2
  rw [bytes, List.cons.injEq] at same
  rw [List.length_append, List.length_cons] at length
  refine ⟨by omega, ?_⟩
  intro b member
  apply continues
  rw [← same.2]
  exact List.mem_append_right mid member

theorem Begins.step {spelled : List UInt8} {left : Nat} (begins : Begins spelled (left + 1))
    (b : UInt8) : Begins (spelled ++ [b]) left := by
  obtain ⟨lead, mid, rfl, led⟩ := begins
  refine ⟨lead, mid ++ [b], rfl, ?_⟩
  rw [led, List.length_append, List.length_singleton]
  congr 1
  omega

/-- Text that is as long as its first character is that character. -/
theorem head_of_begins {spelled : List UInt8} (begins : Begins spelled 0) (c : Char) :
    (fromUtf8 spelled).bind (·.toList.head?) = some c ↔ String.utf8EncodeChar c = spelled := by
  obtain ⟨lead, mid, rfl, led⟩ := begins
  constructor
  · intro read
    obtain ⟨text, read, first⟩ := Option.bind_eq_some_iff.mp read
    have bytes := bytesOf_fromUtf8 read
    cases chars : text.toList with
    | nil =>
        rw [chars] at first
        cases first
    | cons d rest =>
        rw [chars, List.head?_cons, Option.some.injEq] at first
        subst first
        rw [bytesOf_eq, chars, List.flatMap_cons] at bytes
        obtain ⟨first, others, same, -⟩ := utf8_lead d
        rw [same, List.cons_append, List.cons.injEq] at bytes
        obtain ⟨rfl, whole⟩ := bytes
        obtain ⟨-, length⟩ := leadLen_char same led
        have sizes := congrArg List.length whole
        rw [List.length_append] at sizes
        rw [List.length_cons] at length
        have none_left : rest.flatMap String.utf8EncodeChar = [] :=
          List.eq_nil_of_length_eq_zero (by omega)
        rw [same, ← whole, none_left, List.append_nil]
  · intro bytes
    have text : bytesOf (String.ofList [c]) = lead :: mid := by
      rw [bytesOf_ofList, List.flatMap_singleton, bytes]
    rw [← text, fromUtf8_bytesOf, Option.bind_some, String.toList_ofList]
    rfl

/-- Characters compare as their bytes do, at the first that differs. -/
theorem char_lt_of_bytes {c d : Char} {shared : List UInt8} {a b : UInt8} {as bs : List UInt8}
    (left : String.utf8EncodeChar c = shared ++ a :: as)
    (right : String.utf8EncodeChar d = shared ++ b :: bs) (less : a < b) : c.toNat < d.toNat := by
  have order := bytesOf_lt_iff (String.ofList [c]) (String.ofList [d])
  rw [bytesOf_ofList, bytesOf_ofList, List.flatMap_singleton, List.flatMap_singleton, left, right,
    String.toList_ofList, String.toList_ofList] at order
  have bytes : shared ++ a :: as < shared ++ b :: bs :=
    List.append_left_lt (List.cons_lt_cons_iff.mpr (.inl less))
  have chars := order.mp bytes
  rcases List.cons_lt_cons_iff.mp chars with below | ⟨-, none_⟩
  · exact below
  · exact absurd none_ (List.not_lt_nil _)

/-! ## What is found below a node -/

theorem find?_of_ascending {transitions : List Transition}
    (ascends : Ascending Transition.inp transitions) {t : Transition} (member : t ∈ transitions) :
    (transitions.find? fun u => u.inp == t.inp) = some t := by
  cases found : transitions.find? fun u => u.inp == t.inp with
  | none => simpa using List.find?_eq_none.mp found t member
  | some u =>
      have inside := List.mem_of_find?_eq_some found
      have same : u.inp = t.inp := by simpa using List.find?_some found
      congr 1
      by_contra differ
      have symmetric : Std.Symm fun a b : Transition => a.inp ≠ b.inp :=
        ⟨fun _ _ unequal => unequal.symm⟩
      have apart := ascends.imp (S := fun a b => a.inp ≠ b.inp) fun less => less.ne
      exact apart.forall inside member differ same

theorem toU32_eq_some {v w : Nat} : toU32 v = some w ↔ v < 2 ^ 32 ∧ v = w := by
  rw [toU32, Option.ite_none_right_eq_some, Option.some.injEq]

section Found

variable {raw : RawFst}
  (ascends : ∀ addr, raw.Reaches addr → Ascending Transition.inp (raw.node addr).transitions)
include ascends

/-- What is found from a node: the characters its bytes begin, with the states past them. -/
theorem mem_descend (left : Nat) : ∀ {addr sum : Nat} {spelled : List UInt8}
    {found : List (Nat × Nat × Nat)}, raw.Reaches addr → Begins spelled left →
      descend raw left addr sum spelled = some found → ∀ x, x ∈ found ↔
        ∃ (c : Char) (tail : List UInt8), String.utf8EncodeChar c = spelled ++ tail ∧
          raw.stateFrom addr sum tail = some x.2 ∧ x.1 = c.toNat := by
  induction left with
  | zero =>
      intro addr sum spelled found reached begins read x
      rw [descend] at read
      -- Nothing is left of a character that these bytes begin.
      have only : ∀ c tail, String.utf8EncodeChar c = spelled ++ tail →
          (fromUtf8 spelled).bind (·.toList.head?) = some c ∧ tail = [] := by
        intro c tail bytes
        have none_left := List.eq_nil_of_length_eq_zero (begins.rest bytes).1
        rw [none_left, List.append_nil] at bytes
        exact ⟨(head_of_begins begins c).mpr bytes, none_left⟩
      split at read
      · next none_ =>
        cases read
        refine iff_of_false List.not_mem_nil ?_
        rintro ⟨c, tail, bytes, _⟩
        rw [(only c tail bytes).1] at none_
        cases none_
      · next c here =>
        obtain ⟨addr', aFits, read⟩ := Option.bind_eq_some_iff.mp read
        obtain ⟨sum', sFits, read⟩ := Option.bind_eq_some_iff.mp read
        obtain ⟨-, rfl⟩ := toU32_eq_some.mp aFits
        obtain ⟨-, rfl⟩ := toU32_eq_some.mp sFits
        cases read
        rw [List.mem_singleton]
        constructor
        · intro same
          refine ⟨c, [], ?_, ?_, by rw [same]⟩
          · rw [List.append_nil]
            exact (head_of_begins begins c).mp here
          · rw [same]
            rfl
        · rintro ⟨d, tail, bytes, led, place⟩
          obtain ⟨there, rfl⟩ := only d tail bytes
          rw [here, Option.some.injEq] at there
          rw [RawFst.stateFrom, Option.some.injEq] at led
          apply Prod.ext
          · rw [place, there]
          · exact led.symm
  | succ left ih =>
      intro addr sum spelled found reached begins read x
      rw [descend] at read
      obtain ⟨parts, got, same⟩ := Option.bind_eq_some_iff.mp read
      cases same
      rw [mem_collected got]
      constructor
      · rintro ⟨t, member, part, found, inside⟩
        split at found
        · split at found
          · cases found
            cases inside
          · next sum' added =>
            have below := (ih (reached.step member) (begins.step t.inp) found x).mp inside
            obtain ⟨c, tail, bytes, led, place⟩ := below
            refine ⟨c, t.inp :: tail, ?_, ?_, place⟩
            · rw [bytes, List.append_assoc]
              rfl
            · rw [RawFst.stateFrom, find?_of_ascending (ascends addr reached) member,
                Option.bind_some, added, Option.bind_some, led]
        · cases found
          cases inside
      · rintro ⟨c, tail, bytes, led, place⟩
        obtain ⟨length, continues⟩ := begins.rest bytes
        cases tail with
        | nil => cases length
        | cons b tail =>
            obtain ⟨t, at_, led⟩ := Option.bind_eq_some_iff.mp led
            obtain ⟨sum', added, led⟩ := Option.bind_eq_some_iff.mp led
            have member := List.mem_of_find?_eq_some at_
            have input : t.inp = b := by simpa using List.find?_some at_
            obtain ⟨part, found⟩ := collected_of_mem got t member
            refine ⟨t, member, part, found, ?_⟩
            have inRange : 0x80 ≤ t.inp ∧ t.inp ≤ 0xBF := by
              obtain ⟨least, most⟩ := continues b (List.mem_cons_self ..)
              rw [input]
              refine ⟨least, ?_⟩
              rw [UInt8.lt_iff_toNat_lt] at most
              rw [UInt8.le_iff_toNat_le]
              exact Nat.le_of_lt_succ most
            rw [if_pos inRange, added] at found
            refine (ih (reached.step member) (begins.step t.inp) found x).mpr
              ⟨c, tail, ?_, led, place⟩
            rw [bytes, input, List.append_assoc]
            rfl

/-- They are found in code point order. -/
theorem descend_pairwise (left : Nat) : ∀ {addr sum : Nat} {spelled : List UInt8}
    {found : List (Nat × Nat × Nat)}, raw.Reaches addr → Begins spelled left →
      descend raw left addr sum spelled = some found → found.Pairwise fun x y => x.1 < y.1 := by
  induction left with
  | zero =>
      intro addr sum spelled found _ _ read
      rw [descend] at read
      split at read
      · cases read
        exact List.Pairwise.nil
      · obtain ⟨addr', -, read⟩ := Option.bind_eq_some_iff.mp read
        obtain ⟨sum', -, read⟩ := Option.bind_eq_some_iff.mp read
        cases read
        exact List.pairwise_singleton ..
  | succ left ih =>
      intro addr sum spelled found reached begins read
      rw [descend] at read
      obtain ⟨parts, got, same⟩ := Option.bind_eq_some_iff.mp read
      cases same
      -- What a transition's part holds is behind its byte.
      apply collected_pairwise_by (R := fun t x => ∃ (c : Char) (tail : List UInt8),
        String.utf8EncodeChar c = spelled ++ t.inp :: tail ∧ x.1 = c.toNat) got (ascends addr reached)
      · intro t member part found
        split at found
        · split at found
          · rw [Option.some.injEq] at found
            rw [← found]
            simp
          · refine ⟨ih (reached.step member) (begins.step t.inp) found, ?_⟩
            intro x inside
            have below := mem_descend ascends left (reached.step member) (begins.step t.inp) found x
            obtain ⟨c, tail, bytes, -, place⟩ := below.mp inside
            refine ⟨c, tail, ?_, place⟩
            rw [bytes, List.append_assoc]
            rfl
        · rw [Option.some.injEq] at found
          rw [← found]
          simp
      · intro a b less x y here there
        obtain ⟨c, _, left, xPlace⟩ := here
        obtain ⟨d, _, right, yPlace⟩ := there
        rw [xPlace, yPlace]
        exact char_lt_of_bytes left right less

end Found

end Lexindex.FstWalk
