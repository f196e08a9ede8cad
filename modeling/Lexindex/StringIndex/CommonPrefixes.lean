import Mathlib
import Lexindex.StringIndex.FirstCharsExact

/-!
# What the walks answer

A lookup answers with the transducer's value, the walk reports the keys that begin a query, shortest
first and with their values, and the table of first characters changes neither.
-/

set_option autoImplicit false

namespace Lexindex.FstWalk

open Faulting

theorem field_lt (bytes : List UInt8) (start : Nat) {n : Nat} (small : n ≤ 8) :
    field bytes start n < 2 ^ 64 := by
  have bound := leNat_lt (bytesBetween bytes start (start + n))
  have length : (bytesBetween bytes start (start + n)).length ≤ 8 := by
    rw [bytesBetween, List.length_take]
    omega
  have power : 256 ^ (bytesBetween bytes start (start + n)).length ≤ 256 ^ 8 :=
    Nat.pow_le_pow_right (by omega) length
  rw [field]
  omega

/-- What a node packs is a word. -/
theorem NodeAt.words {bytes : List UInt8} {version addr : Nat} {node : Node}
    (written : NodeAt bytes version addr node) :
    (∀ t ∈ node.transitions, t.out < 2 ^ 64) ∧
      (node.isFinal = true → node.finalOutput < 2 ^ 64) := by
  cases written with
  | empty => simp [Node.empty]
  | next => simp
  | @one _ _ osize stop _ _ _ _ _ _ _ oSmall =>
      have small := field_lt bytes stop oSmall
      simpa using small
  | @any _ _ osize _ _ outputs stop _ _ _ _ _ _ _ _ _ oSmall _ _ _ _ _ _ _ _ outs finalOut =>
      constructor
      · intro t member
        obtain ⟨i, at_⟩ := List.mem_iff_getElem?.mp member
        rw [← outs i t at_]
        exact field_lt bytes _ oSmall
      · intro final
        rw [← finalOut final]
        exact field_lt bytes _ oSmall

section Encoded

variable {layout : Layout} {bytes : List UInt8} {raw : RawFst} (encodes : Encodes layout bytes raw)
include encodes

theorem Encodes.ascends : ∀ addr, raw.Reaches addr →
    Ascending Transition.inp (raw.node addr).transitions :=
  fun addr reached => (encodes.nodes addr reached).inputs

theorem Encodes.get_eq (key : List UInt8) : layout.get bytes key = .ok (raw.get key) := by
  rw [Layout.get, encodes.root, encodes.getFrom_eq .root, RawFst.get]

theorem Encodes.commonPrefixes_eq (query : String) :
    layout.commonPrefixes bytes none query =
      .ok (endings raw (bytesOf query) 0 raw.root 0 (bytesOf query)) := by
  unfold Layout.commonPrefixes
  simp only [bind, Except.bind, pure, Except.pure]
  rw [encodes.root, encodes.prefixesFrom_eq .root]

/-- The empty key's value is in the table as the root reports it. -/
theorem Encodes.derive_empty {table : FirstChars} (derived : FirstChars.derive raw = some table) :
    table.root = raw.getFrom raw.root 0 [] := by
  rw [derive_root derived, RawFst.getFrom]
  split
  · next final =>
    have word := (encodes.nodes _ .root).words.2 final
    rw [checkedAdd, Nat.zero_add, if_pos word]
  · rfl

/-- The table changes nothing of what is reported. -/
theorem Encodes.commonPrefixes_table {table : FirstChars}
    (derived : FirstChars.derive raw = some table) (query : String) :
    layout.commonPrefixes bytes (some table) query = layout.commonPrefixes bytes none query := by
  cases chars : query.toList with
  | nil =>
      unfold Layout.commonPrefixes
      rw [chars]
      rfl
  | cons c rest =>
      by_cases small : c.toNat ≤ 0xFFFF
      · have outs := (encodes.nodes _ .root).words.1
        have whole : bytesOf query =
            String.utf8EncodeChar c ++ rest.flatMap String.utf8EncodeChar := by
          rw [bytesOf_eq, chars, List.flatMap_cons]
        have length : (String.utf8EncodeChar c).length = c.utf8Size :=
          String.length_utf8EncodeChar c
        rw [encodes.commonPrefixes_eq]
        have walked := @endings_char raw (bytesOf query) [] _ c raw.root 0 whole
        rw [List.length_nil, ← whole] at walked
        rw [walked]
        unfold Layout.commonPrefixes
        rw [chars]
        simp only [List.head?_cons, bind, Except.bind]
        rw [after_eq encodes.ascends outs derived small]
        simp only [Option.bind_some, encodes.derive_empty derived, Option.elim_some]
        cases led : raw.stateFrom raw.root 0 (String.utf8EncodeChar c) with
        | none => cases raw.getFrom raw.root 0 [] <;> rfl
        | some state =>
            simp only
            rw [encodes.prefixesFrom_eq (RawFst.stateFrom_reaches .root led), whole, ← length,
              List.drop_left]
            simp only [pure, Except.pure, Nat.zero_add]
            cases raw.getFrom raw.root 0 [] <;> rfl
      · unfold Layout.commonPrefixes
        rw [chars]
        simp only [List.head?_cons, FirstChars.after]
        rw [if_pos (Nat.lt_of_not_le small)]
        rfl

end Encoded

/-- Over the bytes of a transducer whose values are words, a lookup answers as the map does, and the
walk reports the query's prefixes that are keys, shortest first and each with where it ends and its
value, with or without the table of first characters. -/
theorem walks_agree {layout : Layout} {bytes : List UInt8} {raw : RawFst}
    (encodes : Encodes layout bytes raw)
    (fits : ∀ key v, raw.lookup key = some v → v < 2 ^ 64) :
    (∀ key, layout.get bytes key = .ok (raw.lookup key)) ∧
    (∀ query : String, layout.commonPrefixes bytes none query =
      .ok (query.toList.inits.filterMap fun key =>
        (raw.lookup (bytesOf (String.ofList key))).map
          ((bytesOf (String.ofList key)).length, ·))) ∧
    ∀ table, FirstChars.derive raw = some table → ∀ query : String,
      layout.commonPrefixes bytes (some table) query =
        layout.commonPrefixes bytes none query := by
  refine ⟨?_, ?_, fun table derived query => encodes.commonPrefixes_table derived query⟩
  · intro key
    rw [encodes.get_eq, RawFst.get_eq_lookup fits]
  · intro query
    have text := @endings_text raw (bytesOf query) query.toList [] raw.root 0 (bytesOf_eq query)
    rw [List.length_nil, ← bytesOf_eq] at text
    rw [encodes.commonPrefixes_eq, text]
    congr 1
    apply List.filterMap_congr
    intro key _
    rw [bytesOf_ofList, ← RawFst.get_eq_lookup fits, RawFst.get, Nat.zero_add]

/-! One key of one byte: its root, packed with a delta of zero, is at 18. -/

def oneKeyBytes : List UInt8 :=
  [3, 0, 0, 0, 0, 0, 0, 0] ++ List.replicate 8 0 ++ [0, 0x10, 0x81] ++
    [1, 0, 0, 0, 0, 0, 0, 0] ++ [18, 0, 0, 0, 0, 0, 0, 0] ++ [0, 0, 0, 0]

def oneKey : RawFst where
  root := 18
  node addr :=
    if addr = 18 then { isFinal := false, finalOutput := 0, transitions := [⟨0x74, 0, EMPTY⟩] }
    else Node.empty
  below addr t member := by
    split at member
    · next root =>
      rw [List.mem_singleton.mp member, root]
      decide
    · cases member

theorem oneKey_reaches {addr : Nat} (reached : oneKey.Reaches addr) : addr = 18 ∨ addr = EMPTY := by
  cases reached with
  | root => exact .inl rfl
  | step here member =>
      rw [oneKey] at member
      simp only at member
      split at member
      · rw [List.mem_singleton.mp member]
        exact .inr rfl
      · cases member

theorem oneKey_encodes : Encodes ⟨18, 32⟩ oneKeyBytes oneKey where
  read := by decide
  root := rfl
  nodes addr reached := by
    rcases oneKey_reaches reached with rfl | rfl
    · have written := @NodeAt.one oneKeyBytes (version oneKeyBytes) 18 1 0 16 EMPTY 0x81 (by decide)
        (by decide) (by decide) (by decide) (by omega) (by omega) (by decide) (.inl (by decide))
      exact written
    · exact NodeAt.empty

theorem oneKey_fits (key : List UInt8) (v : Nat) (found : oneKey.lookup key = some v) :
    v < 2 ^ 64 := by
  have none_ : ∀ rest w, oneKey.lookupFrom EMPTY rest = some w → w = 0 := by
    intro rest w here
    cases rest with
    | nil => exact (Option.some.inj here).symm
    | cons b rest => cases here
  cases key with
  | nil => cases found
  | cons b rest =>
      obtain ⟨t, at_, found⟩ := Option.bind_eq_some_iff.mp found
      obtain ⟨w, here, rfl⟩ := Option.map_eq_some_iff.mp found
      have member := List.mem_singleton.mp (List.mem_of_find?_eq_some at_)
      rw [member] at here ⊢
      rw [none_ rest w here]
      decide

theorem walks_agree_oneKey :
    (∀ key, Layout.get ⟨18, 32⟩ oneKeyBytes key = .ok (oneKey.lookup key)) ∧
    (∀ query : String, Layout.commonPrefixes ⟨18, 32⟩ oneKeyBytes none query =
      .ok (query.toList.inits.filterMap fun key =>
        (oneKey.lookup (bytesOf (String.ofList key))).map
          ((bytesOf (String.ofList key)).length, ·))) ∧
    ∀ table, FirstChars.derive oneKey = some table → ∀ query : String,
      Layout.commonPrefixes ⟨18, 32⟩ oneKeyBytes (some table) query =
        Layout.commonPrefixes ⟨18, 32⟩ oneKeyBytes none query :=
  walks_agree oneKey_encodes oneKey_fits

end Lexindex.FstWalk
