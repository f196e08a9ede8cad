import Mathlib
import Lexindex.Lib.Faults
import Lexindex.StringIndex.WalkExact

/-!
# Character-level subsequence matching

The automaton counts the bytes of the query that are matched, and a mismatch inside a character goes
back to where that character begins.  The lead bytes of UTF-8 are none of its continuation bytes, so a
character of the query is matched by a whole character or not at all.
-/

set_option autoImplicit false

namespace Lexindex.StringIndex

open Faulting
open FstWalk (Continues utf8_lead)

structure UnicodeSubsequence where
  query : List UInt8
deriving DecidableEq, Repr

namespace UnicodeSubsequence

def new (query : String) : UnicodeSubsequence :=
  { query := bytesOf query }

/-- Offset of the character that a query byte belongs to. -/
def charStart (a : UnicodeSubsequence) : Nat → Faulting Unit Nat
  | 0 => .ok 0
  | start + 1 => do
      let byte ← index a.query (start + 1)
      if byte &&& 0xC0 = 0x80 then a.charStart start else .ok (start + 1)

def start : Nat := 0

def isMatch (a : UnicodeSubsequence) (state : Nat) : Bool :=
  state == a.query.length

/-- The rest of the query may follow in any state. -/
def canMatch (_ : UnicodeSubsequence) (_ : Nat) : Bool :=
  true

def willAlwaysMatch (a : UnicodeSubsequence) (state : Nat) : Bool :=
  state == a.query.length

def accept (a : UnicodeSubsequence) (state : Nat) (byte : UInt8) : Faulting Unit Nat :=
  if state = a.query.length then .ok state
  else do
    let next ← index a.query state
    if byte = next then .ok (state + 1) else a.charStart state

/-- The state after some bytes. -/
def feed (a : UnicodeSubsequence) : Nat → List UInt8 → Faulting Unit Nat
  | state, [] => .ok state
  | state, byte :: bytes => do
      let state ← a.accept state byte
      a.feed state bytes

end UnicodeSubsequence

/-! ## Continuation bytes -/

theorem and_mask : ∀ v < 256, (v &&& 0xC0 = 0x80 ↔ 0x80 ≤ v ∧ v < 0xC0) := by
  decide +kernel

theorem continues_iff_mask (b : UInt8) : b &&& 0xC0 = 0x80 ↔ Continues b := by
  have mask := and_mask b.toNat b.toNat_lt
  rw [Continues, UInt8.le_iff_toNat_le, UInt8.lt_iff_toNat_lt, ← UInt8.toNat_inj, UInt8.toNat_and]
  exact mask

/-- Two characters' bytes agree up to a byte where they differ. -/
theorem utf8_apart {q c : Char} (apart : q ≠ c) : ∃ shared x xs y ys,
    String.utf8EncodeChar q = shared ++ x :: xs ∧ String.utf8EncodeChar c = shared ++ y :: ys ∧
      x ≠ y := by
  rcases lt_or_gt_of_ne apart with less | more
  · obtain ⟨shared, x, xs, y, ys, first, second, order⟩ :=
      utf8_prefixCode.ascends q c trivial trivial less
    exact ⟨shared, x, xs, y, ys, first, second, order.ne⟩
  · obtain ⟨shared, x, xs, y, ys, first, second, order⟩ :=
      utf8_prefixCode.ascends c q trivial trivial more
    exact ⟨shared, y, ys, x, xs, second, first, order.ne'⟩

/-! ## Single bytes -/

namespace UnicodeSubsequence

variable {a : UnicodeSubsequence}

theorem index_at {i : Nat} {byte : UInt8} (at_ : a.query[i]? = some byte) :
    (index a.query i : Faulting Unit UInt8) = .ok byte := by
  rw [index, at_]

theorem accept_same {state : Nat} {byte : UInt8} (at_ : a.query[state]? = some byte) :
    a.accept state byte = .ok (state + 1) := by
  obtain ⟨inside, -⟩ := List.getElem?_eq_some_iff.mp at_
  rw [accept, if_neg (Nat.ne_of_lt inside), index_at at_]
  exact if_pos rfl

theorem accept_other {state : Nat} {byte next : UInt8} (at_ : a.query[state]? = some next)
    (other : byte ≠ next) : a.accept state byte = a.charStart state := by
  obtain ⟨inside, -⟩ := List.getElem?_eq_some_iff.mp at_
  rw [accept, if_neg (Nat.ne_of_lt inside), index_at at_]
  exact if_neg other

theorem charStart_inside : ∀ {pos : Nat}, pos < a.query.length →
    ∃ start ≤ pos, a.charStart pos = .ok start := by
  intro pos
  induction pos with
  | zero => exact fun _ => ⟨0, Nat.le_refl 0, rfl⟩
  | succ pos ih =>
      intro inside
      obtain ⟨start, least, found⟩ := ih (by omega)
      rw [charStart, index_at (List.getElem?_eq_getElem inside)]
      simp only [bind, Except.bind]
      split
      · exact ⟨start, by omega, found⟩
      · exact ⟨pos + 1, Nat.le_refl _, rfl⟩

/-- A state inside the query goes to one inside it. -/
theorem accept_inside {state : Nat} (inside : state ≤ a.query.length) (byte : UInt8) :
    ∃ state' ≤ a.query.length, a.accept state byte = .ok state' := by
  by_cases matched : state = a.query.length
  · exact ⟨state, inside, if_pos matched⟩
  · have below : state < a.query.length := by omega
    have at_ := List.getElem?_eq_getElem below
    by_cases same : byte = a.query[state]
    · rw [← same] at at_
      exact ⟨state + 1, below, accept_same at_⟩
    · obtain ⟨start, least, found⟩ := charStart_inside below
      exact ⟨start, by omega, (accept_other at_ same).trans found⟩

theorem feed_inside (bytes : List UInt8) : ∀ {state : Nat}, state ≤ a.query.length →
    ∃ state' ≤ a.query.length, a.feed state bytes = .ok state' := by
  induction bytes with
  | nil => exact fun inside => ⟨_, inside, rfl⟩
  | cons byte bytes ih =>
      intro state inside
      obtain ⟨next, nextInside, accepted⟩ := accept_inside inside byte
      obtain ⟨last, lastInside, fed⟩ := ih nextInside
      refine ⟨last, lastInside, ?_⟩
      rw [feed, accepted]
      exact fed

theorem feed_append (front back : List UInt8) : ∀ (state : Nat),
    a.feed state (front ++ back) = (a.feed state front).bind fun state => a.feed state back := by
  induction front with
  | nil => exact fun _ => rfl
  | cons byte front ih =>
      intro state
      rw [List.cons_append, feed, feed]
      cases a.accept state byte with
      | ok next => exact ih next
      | error stop => rfl

/-- The accepting state absorbs. -/
theorem feed_matched (bytes : List UInt8) :
    a.feed a.query.length bytes = .ok a.query.length := by
  induction bytes with
  | nil => rfl
  | cons byte bytes ih =>
      rw [feed, accept, if_pos rfl]
      exact ih

/-- Bytes that come next in the query are matched. -/
theorem feed_same (bytes : List UInt8) : ∀ {front rest : List UInt8},
    a.query = front ++ (bytes ++ rest) →
      a.feed front.length bytes = .ok (front.length + bytes.length) := by
  induction bytes with
  | nil => exact fun _ => rfl
  | cons byte bytes ih =>
      intro front rest whole
      have at_ : a.query[front.length]? = some byte := by
        rw [whole, List.getElem?_append_right (Nat.le_refl _), Nat.sub_self]
        rfl
      have later := @ih (front ++ [byte]) rest (by rw [whole]; simp)
      rw [List.length_append, List.length_singleton] at later
      rw [feed, accept_same at_]
      simp only [bind, Except.bind]
      rw [later, List.length_cons]
      congr 1
      omega

/-! ## Whole characters -/

section Character

variable {front rest : List UInt8} {q : Char}
  (whole : a.query = front ++ (String.utf8EncodeChar q ++ rest))
include whole

/-- From inside a character a mismatch goes back to where it begins. -/
theorem charStart_character : ∀ {j : Nat}, j < (String.utf8EncodeChar q).length →
    a.charStart (front.length + j) = .ok front.length := by
  obtain ⟨lead, tail, bytes, starts, continues, -⟩ := utf8_lead q
  have at_ : ∀ j, a.query[front.length + j]? = (lead :: tail ++ rest)[j]? := by
    intro j
    rw [whole, bytes, List.getElem?_append_right (Nat.le_add_right ..), Nat.add_sub_cancel_left]
  intro j
  induction j with
  | zero =>
      intro _
      rw [Nat.add_zero]
      cases length : front.length with
      | zero => rfl
      | succ n =>
          have first := at_ 0
          rw [Nat.add_zero, length] at first
          rw [charStart, index_at (show a.query[(n + 1)]? = some lead from first)]
          exact if_neg fun masked => starts ((continues_iff_mask lead).mp masked)
  | succ j ih =>
      intro inside
      rw [bytes, List.length_cons] at inside
      have next : a.query[front.length + j + 1]? = some tail[j] := by
        rw [Nat.add_assoc, at_, List.cons_append, List.getElem?_cons_succ,
          List.getElem?_append_left (by omega), List.getElem?_eq_getElem]
      rw [← Nat.add_assoc, charStart, index_at next]
      simp only [bind, Except.bind]
      rw [if_pos ((continues_iff_mask _).mpr (continues _ (List.getElem_mem _)))]
      exact ih (by rw [bytes, List.length_cons]; omega)

/-- Continuation bytes leave the state where a character begins. -/
theorem feed_continues {bytes : List UInt8} (continues : ∀ b ∈ bytes, Continues b) :
    a.feed front.length bytes = .ok front.length := by
  obtain ⟨lead, tail, spelled, starts, -⟩ := utf8_lead q
  have at_ : a.query[front.length]? = some lead := by
    rw [whole, spelled, List.getElem?_append_right (Nat.le_refl _), Nat.sub_self]
    rfl
  have back := charStart_character whole (j := 0) (by rw [spelled]; exact Nat.succ_pos _)
  rw [Nat.add_zero] at back
  induction bytes with
  | nil => rfl
  | cons byte bytes ih =>
      obtain ⟨here, later⟩ := List.forall_mem_cons.mp continues
      have other : byte ≠ lead := fun same => starts (same ▸ here)
      rw [feed, accept_other at_ other, back]
      exact ih later

/-- Another character leaves the state where it was. -/
theorem feed_other {c : Char} (other : q ≠ c) :
    a.feed front.length (String.utf8EncodeChar c) = .ok front.length := by
  obtain ⟨shared, x, xs, y, ys, wanted, given, apart⟩ := utf8_apart other
  obtain ⟨lead, tail, spelled, -, continues, -⟩ := utf8_lead c
  have matched := feed_same shared (show a.query = front ++ (shared ++ (x :: xs ++ rest)) by
    rw [whole, wanted, List.append_assoc])
  have at_ : a.query[front.length + shared.length]? = some x := by
    rw [whole, wanted, List.getElem?_append_right (Nat.le_add_right ..), Nat.add_sub_cancel_left,
      List.append_assoc, List.getElem?_append_right (Nat.le_refl _), Nat.sub_self]
    rfl
  have back := charStart_character whole (j := shared.length) (by
    rw [wanted, List.length_append, List.length_cons]
    omega)
  have after : ∀ b ∈ ys, Continues b := by
    intro b member
    apply continues
    rw [given] at spelled
    cases shared with
    | nil =>
        rw [List.nil_append, List.cons.injEq] at spelled
        exact spelled.2 ▸ member
    | cons first shared =>
        rw [List.cons_append, List.cons.injEq] at spelled
        rw [← spelled.2]
        exact List.mem_append_right _ (List.mem_cons_of_mem _ member)
  rw [given, feed_append, matched]
  simp only [Except.bind]
  rw [feed, accept_other at_ apart.symm, back]
  exact feed_continues whole after

end Character

/-! ## Whole haystacks -/

/-- The characters of the query that some characters leave to match. -/
def left : List Char → List Char → List Char
  | [], _ => []
  | q :: query, [] => q :: query
  | q :: query, c :: haystack => if q = c then left query haystack else left (q :: query) haystack

theorem left_eq_nil : ∀ {haystack query : List Char},
    left query haystack = [] ↔ query.Sublist haystack := by
  intro haystack
  induction haystack with
  | nil =>
      intro query
      cases query with
      | nil => simp [left]
      | cons q query => simp [left]
  | cons c haystack ih =>
      intro query
      cases query with
      | nil => simp [left]
      | cons q query =>
          rw [left]
          split
          · next same =>
            rw [ih, same, List.cons_sublist_cons]
          · next other =>
            rw [ih]
            constructor
            · exact fun sub => sub.cons c
            · intro sub
              cases sub with
              | cons _ sub => exact sub
              | cons_cons _ _ => exact absurd rfl other

/-- Where the haystack's characters leave the query. -/
theorem feed_chars : ∀ (haystack rem : List Char) {front : List UInt8},
    a.query = front ++ rem.flatMap String.utf8EncodeChar → ∃ front',
      a.query = front' ++ (left rem haystack).flatMap String.utf8EncodeChar ∧
        a.feed front.length (haystack.flatMap String.utf8EncodeChar) = .ok front'.length := by
  intro haystack
  induction haystack with
  | nil =>
      intro rem front whole
      refine ⟨front, ?_, rfl⟩
      cases rem with
      | nil => exact whole
      | cons q rem => exact whole
  | cons c haystack ih =>
      intro rem front whole
      rw [List.flatMap_cons, feed_append]
      cases rem with
      | nil =>
          rw [List.flatMap_nil, List.append_nil] at whole
          refine ⟨front, by rw [left, List.flatMap_nil, List.append_nil, whole], ?_⟩
          rw [← whole, feed_matched]
          exact feed_matched _
      | cons q rem =>
          rw [List.flatMap_cons] at whole
          by_cases same : q = c
          · subst same
            obtain ⟨front', whole', fed⟩ := @ih rem (front ++ String.utf8EncodeChar q)
              (by rw [whole, List.append_assoc])
            refine ⟨front', ?_, ?_⟩
            · rw [left, if_pos rfl]
              exact whole'
            · rw [feed_same _ whole]
              rw [List.length_append] at fed
              exact fed
          · obtain ⟨front', whole', fed⟩ := @ih (q :: rem) front (by rw [whole, List.flatMap_cons])
            refine ⟨front', ?_, ?_⟩
            · rw [left, if_neg same]
              exact whole'
            · rw [feed_other whole same]
              exact fed

end UnicodeSubsequence

open UnicodeSubsequence

/-- The automaton matches exactly the haystacks of which the query's characters are a subsequence, it
never gives up before one, and once it has matched it stays so. -/
theorem subsequence_exact (query haystack : String) : ∃ state,
    (new query).feed start (bytesOf haystack) = .ok state ∧
      ((new query).isMatch state = true ↔ query.toList.Sublist haystack.toList) ∧
      (∀ before, before <+: bytesOf haystack → ∃ state',
        (new query).feed start before = .ok state' ∧ (new query).canMatch state' = true) ∧
      ((new query).willAlwaysMatch state = true → ∀ more,
        (new query).feed start (bytesOf haystack ++ more) = .ok state) := by
  obtain ⟨front, whole, fed⟩ := feed_chars haystack.toList query.toList
    (show (new query).query = [] ++ _ from bytesOf_eq query)
  rw [← bytesOf_eq] at fed
  refine ⟨front.length, fed, ?_, ?_, ?_⟩
  · have length := congrArg List.length whole
    rw [List.length_append] at length
    rw [isMatch, beq_iff_eq, length, ← left_eq_nil, Nat.left_eq_add, List.length_eq_zero_iff,
      List.flatMap_eq_nil_iff]
    constructor
    · intro none_
      cases left_ : left query.toList haystack.toList with
      | nil => rfl
      | cons q rem =>
          exact absurd (none_ q (by rw [left_]; exact List.mem_cons_self ..))
            String.utf8EncodeChar_ne_nil
    · intro nothing q member
      rw [nothing] at member
      cases member
  · intro before _
    obtain ⟨state, -, reached⟩ := feed_inside before (Nat.zero_le (new query).query.length)
    exact ⟨state, reached, rfl⟩
  · intro always more
    rw [willAlwaysMatch, beq_iff_eq] at always
    change (new query).feed ([] : List UInt8).length _ = _
    rw [feed_append, fed, always]
    exact feed_matched more

end Lexindex.StringIndex
