import Mathlib
import Lexindex.Packed.Stream

/-!
# Bytes and their codes

Each byte has one code, an escaped one, or is written raw, and no byte's codes begin another's where
the alphabet can tell the escape from a byte of its own.
-/

set_option autoImplicit false

namespace Lexindex.Packed

open Alphabet

/-! ## The inverse table -/

section Named

variable {mark : Nat → Nat} {b : UInt8}

theorem nameAll_other (bytes : List UInt8) (absent : b ∉ bytes) : ∀ (k : Nat) (code : List Nat),
    ((bytes.zipIdx k).foldl (fun code (b, i) => code.set b.toNat (mark i)) code)[b.toNat]? =
      code[b.toNat]? := by
  induction bytes with
  | nil => exact fun _ _ => rfl
  | cons first bytes ih =>
      intro k code
      rw [List.mem_cons, not_or] at absent
      rw [List.zipIdx_cons, List.foldl_cons, ih absent.2]
      apply List.getElem?_set_ne
      intro same
      exact absent.1 (UInt8.toNat_inj.mp same).symm

theorem nameAll_named (bytes : List UInt8) (distinct : bytes.Nodup) :
    ∀ {k i : Nat} {code : List Nat}, bytes[i]? = some b → b.toNat < code.length →
      ((bytes.zipIdx k).foldl (fun code (b, i) => code.set b.toNat (mark i)) code)[b.toNat]? =
        some (mark (k + i)) := by
  induction bytes with
  | nil =>
      intro k i code here
      cases here
  | cons first bytes ih =>
      intro k i code here inside
      obtain ⟨absent, distinct⟩ := List.nodup_cons.mp distinct
      rw [List.zipIdx_cons, List.foldl_cons]
      cases i with
      | zero =>
          rw [List.getElem?_cons_zero, Option.some.injEq] at here
          rw [← here] at inside ⊢
          rw [nameAll_other bytes absent, Nat.add_zero]
          exact List.getElem?_set_self inside
      | succ i =>
          rw [List.getElem?_cons_succ] at here
          rw [ih distinct here (by rwa [List.length_set]), Nat.add_right_comm, Nat.add_assoc]

theorem nameAll_length (mark : Nat → Nat) (bytes : List UInt8) : ∀ (k : Nat) (code : List Nat),
    ((bytes.zipIdx k).foldl (fun code (b, i) => code.set b.toNat (mark i)) code).length =
      code.length := by
  induction bytes with
  | nil => exact fun _ _ => rfl
  | cons first bytes ih =>
      intro k code
      rw [List.zipIdx_cons, List.foldl_cons, ih, List.length_set]

end Named

/-- An alphabet whose codes can be told apart. -/
structure Alphabet.Decodable (a : Alphabet) : Prop where
  width : 1 ≤ a.width ∧ a.width ≤ 8
  one : a.one.length ≤ 2 ^ a.width
  two : a.two.length ≤ top a.width
  /-- With escaped bytes, the escape is no byte of its own. -/
  escape : a.two ≠ [] → a.one.length ≤ top a.width
  distinct : (a.one ++ a.two).Nodup
  code : a.code = nameAll escaped a.two (nameAll id a.one (List.replicate 256 UNNAMED))

/-- Where the alphabet fits its width only its own bytes have codes. -/
def Alphabet.Covers (a : Alphabet) (b : UInt8) : Prop :=
  a.two = [] → b ∈ a.one

theorem top_lt (width : Nat) : top width < 2 ^ width := by
  have positive := Nat.two_pow_pos width
  rw [top]
  omega

section Codes

variable {a : Alphabet} (decodable : a.Decodable) {b : UInt8}
include decodable

theorem Alphabet.Decodable.power_le : 2 ^ a.width ≤ 256 := by
  rw [show 256 = 2 ^ 8 from rfl]
  exact Nat.pow_le_pow_right (by omega) decodable.width.2

theorem code_one {i : Nat} (here : a.one[i]? = some b) :
    a.code.getD b.toNat UNNAMED = i ∧ i < a.one.length := by
  obtain ⟨inside, -⟩ := List.getElem?_eq_some_iff.mp here
  obtain ⟨oneDistinct, -, apart⟩ := List.nodup_append.mp decodable.distinct
  have absent : b ∉ a.two := fun other =>
    apart b (List.mem_of_getElem? here) b other rfl
  have byte : b.toNat < 256 := b.toNat_lt
  refine ⟨?_, inside⟩
  rw [decodable.code, List.getD_eq_getElem?_getD, nameAll, nameAll_other _ absent, nameAll,
    nameAll_named _ oneDistinct here (by rwa [List.length_replicate]), Nat.zero_add]
  rfl

theorem code_two {j : Nat} (here : a.two[j]? = some b) :
    a.code.getD b.toNat UNNAMED = escaped j ∧ j < a.two.length := by
  obtain ⟨inside, -⟩ := List.getElem?_eq_some_iff.mp here
  obtain ⟨-, twoDistinct, -⟩ := List.nodup_append.mp decodable.distinct
  have byte : b.toNat < 256 := b.toNat_lt
  refine ⟨?_, inside⟩
  rw [decodable.code, List.getD_eq_getElem?_getD, nameAll, nameAll_named _ twoDistinct here
    (by rw [nameAll, nameAll_length, List.length_replicate]; exact byte), Nat.zero_add]
  rfl

theorem code_other (notOne : b ∉ a.one) (notTwo : b ∉ a.two) :
    a.code.getD b.toNat UNNAMED = UNNAMED := by
  have byte : b.toNat < 256 := b.toNat_lt
  rw [decodable.code, List.getD_eq_getElem?_getD, nameAll, nameAll_other _ notTwo, nameAll,
    nameAll_other _ notOne, List.getElem?_replicate, if_pos byte]
  rfl

theorem codesOf_one {i : Nat} (here : a.one[i]? = some b) : a.codesOf b = [i] := by
  obtain ⟨code, inside⟩ := code_one decodable here
  have small : i < 256 :=
    Nat.lt_of_lt_of_le (Nat.lt_of_lt_of_le inside decodable.one) decodable.power_le
  have high : ¬ i >>> 15 = 1 := by
    rw [Nat.shiftRight_eq_div_pow]
    omega
  rw [codesOf, code, if_neg (by rw [UNNAMED]; omega), if_neg high]

theorem codesOf_two {j : Nat} (here : a.two[j]? = some b) : a.codesOf b = [top a.width, j] := by
  obtain ⟨code, inside⟩ := code_two decodable here
  have power := decodable.power_le
  have small : j < 2 ^ 15 := by
    have most := decodable.two
    have less := top_lt a.width
    omega
  have value : escaped j = 2 ^ 15 + j := by
    rw [escaped, ← Nat.shiftLeft_add_eq_or_of_lt small, Nat.shiftLeft_eq, one_mul]
  have few : j < 256 := by
    have most := decodable.two
    have less := top_lt a.width
    omega
  have high : (2 ^ 15 + j) >>> 15 = 1 := by
    rw [Nat.shiftRight_eq_div_pow]
    omega
  have low : (2 ^ 15 + j) &&& 0x7FFF = j := by
    rw [Nat.and_two_pow_sub_one_eq_mod _ 15]
    omega
  rw [codesOf, code, value, if_neg (by rw [UNNAMED]; omega), if_pos high, low]

theorem codesOf_raw (notOne : b ∉ a.one) (notTwo : b ∉ a.two) :
    a.codesOf b =
      top a.width :: top a.width :: digits a.width (perByte a.width) b.toNat := by
  rw [codesOf, code_other decodable notOne notTwo, if_pos rfl]

omit decodable in
/-- A byte is behind one code, behind an escaped one, or neither. -/
theorem named_cases (a : Alphabet) (b : UInt8) : (∃ i : Nat, a.one[i]? = some b) ∨
    (∃ j : Nat, a.two[j]? = some b) ∨ (b ∉ a.one ∧ b ∉ a.two) := by
  by_cases one : b ∈ a.one
  · exact .inl (List.mem_iff_getElem?.mp one)
  · by_cases two : b ∈ a.two
    · exact .inr (.inl (List.mem_iff_getElem?.mp two))
    · exact .inr (.inr ⟨one, two⟩)

omit decodable in
theorem digits_length (width count : Nat) : ∀ left : Nat,
    (digits width count left).length = count := by
  induction count with
  | zero => exact fun _ => rfl
  | succ count ih => exact fun left => by rw [digits, List.length_cons, ih]

omit decodable in
theorem digits_lt (width count : Nat) : ∀ left : Nat,
    ∀ c ∈ digits width count left, c < 2 ^ width := by
  induction count with
  | zero => simp [digits]
  | succ count ih =>
      intro left c member
      rw [digits] at member
      rcases List.mem_cons.mp member with rfl | later
      · rw [top, Nat.and_two_pow_sub_one_eq_mod]
        exact Nat.mod_lt _ (Nat.two_pow_pos width)
      · exact ih _ c later

theorem codesOf_lt : ∀ c ∈ a.codesOf b, c < 2 ^ a.width := by
  have escape := top_lt a.width
  rcases named_cases a b with ⟨i, here⟩ | ⟨j, here⟩ | ⟨notOne, notTwo⟩
  · obtain ⟨-, inside⟩ := code_one decodable here
    rw [codesOf_one decodable here]
    intro c member
    rw [List.mem_singleton.mp member]
    exact Nat.lt_of_lt_of_le inside decodable.one
  · obtain ⟨-, inside⟩ := code_two decodable here
    have most := decodable.two
    rw [codesOf_two decodable here]
    simp only [List.forall_mem_cons]
    exact ⟨escape, by omega, by simp⟩
  · rw [codesOf_raw decodable notOne notTwo]
    simp only [List.forall_mem_cons]
    exact ⟨escape, escape, digits_lt _ _ _⟩

omit decodable in
/-- What a raw byte's digits are read back as. -/
theorem rawByte_spec {width : Nat} {code : Nat → Option Nat} {v : Nat} (left : Nat) :
    ∀ {i acc : Nat}, left ≤ perByte width → acc = v % 2 ^ ((perByte width - left) * width) →
      (∀ k < left, code (i + k) =
        (digits width left (v >>> ((perByte width - left) * width)))[k]?) →
      rawByte width code i left acc = some (v % 2 ^ (perByte width * width)) := by
  induction left with
  | zero =>
      intro i acc _ held _
      rw [rawByte, held, Nat.sub_zero]
  | succ left ih =>
      intro i acc le held read
      have first := read 0 (Nat.zero_lt_succ _)
      rw [Nat.add_zero, digits, List.getElem?_cons_zero, top, Nat.and_two_pow_sub_one_eq_mod,
        Nat.shiftRight_eq_div_pow] at first
      have place : (perByte width - left) * width =
          (perByte width - (left + 1)) * width + width := by
        rw [← Nat.succ_mul]
        congr 1
        omega
      rw [rawByte, first]
      simp only [Option.bind_eq_bind, Option.bind_some]
      apply ih (by omega)
      · rw [held, Nat.or_comm, ← Nat.shiftLeft_add_eq_or_of_lt (Nat.mod_lt _ (Nat.two_pow_pos _)),
          Nat.shiftLeft_eq, place, pow_add, Nat.mod_mul]
        ring
      · intro k small
        have later := read (k + 1) (Nat.succ_lt_succ small)
        rw [digits, List.getElem?_cons_succ, ← Nat.shiftRight_add, ← place] at later
        rw [← later]
        congr 1
        omega

omit decodable in
theorem perByte_enough {width : Nat} (positive : 1 ≤ width) : 8 ≤ perByte width * width := by
  have split := Nat.div_add_mod (8 + width - 1) width
  have small := Nat.mod_lt (8 + width - 1) (show 0 < width by omega)
  rw [perByte, mul_comm]
  omega

/-- The codes of a byte, wherever they stand, are read as that byte. -/
theorem byteAt_spec (covers : a.Covers b) {code : Nat → Option Nat} {place : Nat}
    (read : ∀ k < (a.codesOf b).length, code (place + k) = (a.codesOf b)[k]?) :
    a.byteAt code place = some (b, (a.codesOf b).length) := by
  rcases named_cases a b with ⟨i, here⟩ | ⟨j, here⟩ | ⟨notOne, notTwo⟩
  · obtain ⟨-, inside⟩ := code_one decodable here
    rw [codesOf_one decodable here] at read ⊢
    have first : code place = some i := read 0 (by simp)
    have cond : a.two = [] ∨ i ≠ top a.width := by
      by_cases fits : a.two = []
      · exact .inl fits
      · have most := decodable.escape fits
        exact .inr (by omega)
    rw [byteAt, first]
    simp only [Option.bind_eq_bind, Option.bind_some]
    rw [if_pos cond, here]
    rfl
  · obtain ⟨-, inside⟩ := code_two decodable here
    have most := decodable.two
    rw [codesOf_two decodable here] at read ⊢
    have first : code place = some (top a.width) := read 0 (by simp)
    have second : code (place + 1) = some j := read 1 (by simp)
    have some_ : ¬ (a.two = [] ∨ top a.width ≠ top a.width) := by
      rw [not_or, not_not]
      refine ⟨?_, rfl⟩
      intro none_
      rw [none_] at inside
      cases inside
    rw [byteAt, first]
    simp only [Option.bind_eq_bind, Option.bind_some]
    rw [if_neg some_, second]
    simp only [Option.bind_some]
    rw [if_pos (show j ≠ top a.width by omega), here]
    rfl
  · have some_ : ¬ (a.two = [] ∨ top a.width ≠ top a.width) := by
      rw [not_or, not_not]
      exact ⟨fun none_ => notOne (covers none_), rfl⟩
    have length : (a.codesOf b).length = 2 + perByte a.width := by
      rw [codesOf_raw decodable notOne notTwo, List.length_cons, List.length_cons, digits_length]
      omega
    rw [length] at read ⊢
    rw [codesOf_raw decodable notOne notTwo] at read
    have first : code place = some (top a.width) := read 0 (by omega)
    have second : code (place + 1) = some (top a.width) := read 1 (by omega)
    have raw := @rawByte_spec a.width code b.toNat (perByte a.width) (place + 2) 0 (Nat.le_refl _)
      (by rw [Nat.sub_self, Nat.zero_mul, pow_zero, Nat.mod_one])
      (by
        intro k small
        have digit := read (k + 2) (by omega)
        rw [List.getElem?_cons_succ, List.getElem?_cons_succ] at digit
        rw [Nat.sub_self, Nat.zero_mul, Nat.shiftRight_zero, ← digit]
        congr 1
        omega)
    have whole : b.toNat % 2 ^ (perByte a.width * a.width) = b.toNat := by
      apply Nat.mod_eq_of_lt
      have byte : b.toNat < 2 ^ 8 := b.toNat_lt
      exact Nat.lt_of_lt_of_le byte
        (Nat.pow_le_pow_right (by omega) (perByte_enough decodable.width.1))
    rw [byteAt, first]
    simp only [Option.bind_eq_bind, Option.bind_some]
    rw [if_neg some_, second]
    simp only [Option.bind_some]
    rw [if_neg (by simp), raw, whole]
    simp

/-- No byte's codes begin another's. -/
theorem codesOf_prefix {c : UInt8} (left : a.Covers b) (right : a.Covers c)
    (begins : a.codesOf b <+: a.codesOf c) : b = c := by
  obtain ⟨rest, whole⟩ := begins
  have first := @byteAt_spec a decodable b left (fun i => (a.codesOf c)[i]?) 0 (by
    intro k small
    rw [Nat.zero_add, ← whole, List.getElem?_append_left small])
  have second := @byteAt_spec a decodable c right (fun i => (a.codesOf c)[i]?) 0 (by
    intro k _
    rw [Nat.zero_add])
  rw [first, Option.some.injEq, Prod.mk.injEq] at second
  exact second.1

theorem codesOf_ne_nil : 0 < (a.codesOf b).length := by
  rcases named_cases a b with ⟨i, here⟩ | ⟨j, here⟩ | ⟨notOne, notTwo⟩
  · rw [codesOf_one decodable here]
    exact Nat.zero_lt_one
  · rw [codesOf_two decodable here]
    exact Nat.zero_lt_two
  · rw [codesOf_raw decodable notOne notTwo]
    exact Nat.zero_lt_succ _

end Codes

end Lexindex.Packed
