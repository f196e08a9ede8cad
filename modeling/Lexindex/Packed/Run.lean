import Mathlib
import Lexindex.Packed.Sound

/-!
# Suffixes in a run

A suffix is decoded from the bit its codes were recorded to start at, whatever was written before it
and after it.
-/

set_option autoImplicit false

namespace Lexindex.Packed

open Alphabet

/-- The codes of a suffix. -/
def Alphabet.codes (a : Alphabet) (s : List UInt8) : List Nat :=
  s.flatMap a.codesOf

/-- The stream holds some codes from a bit on. -/
structure Codes.Spell (codes : Codes) (written : List Nat) : Prop where
  len : codes.len = written.length
  inside : codes.start + written.length * codes.width ≤ codes.bytes.length * 8
  digit : ∀ (i c : Nat), written[i]? = some c →
    leNat codes.bytes / 2 ^ (codes.start + i * codes.width) % 2 ^ codes.width = c

theorem Codes.Spell.code_eq {codes : Codes} {written : List Nat} (spell : codes.Spell written)
    (narrow : codes.width ≤ 8) {i : Nat} (here : i < written.length) :
    codes.code i = written[i]? := by
  have at_ := List.getElem?_eq_getElem here
  have last : i * codes.width + codes.width ≤ written.length * codes.width := by
    rw [← Nat.succ_mul]
    exact Nat.mul_le_mul_right _ here
  have inside := spell.inside
  rw [Codes.code_eq narrow (spell.len ▸ here) (by omega), spell.digit i _ at_, at_]

section Decoded

variable {a : Alphabet} (decodable : a.Decodable)
include decodable

theorem codes_lt (s : List UInt8) : ∀ c ∈ a.codes s, c < 2 ^ a.width := by
  intro c member
  obtain ⟨b, -, inside⟩ := List.mem_flatMap.mp member
  exact codesOf_lt decodable c inside

theorem length_le_codes (s : List UInt8) : s.length ≤ (a.codes s).length := by
  induction s with
  | nil => exact Nat.zero_le _
  | cons b s ih =>
      have positive := @codesOf_ne_nil a decodable b
      rw [codes] at ih ⊢
      rw [List.flatMap_cons, List.length_append, List.length_cons]
      omega

/-- Where the alphabet fits its width a byte is one code, its place in the table. -/
theorem codes_fitting (fits : a.two = []) {s : List UInt8} (covers : ∀ b ∈ s, a.Covers b) :
    (a.codes s).length = s.length ∧ ∀ (i : Nat) (b : UInt8), s[i]? = some b →
      ∃ c, (a.codes s)[i]? = some c ∧ a.one[c]? = some b := by
  induction s with
  | nil => exact ⟨rfl, by simp⟩
  | cons b s ih =>
      obtain ⟨here, later⟩ := List.forall_mem_cons.mp covers
      obtain ⟨length, places⟩ := ih later
      obtain ⟨c, named⟩ := List.mem_iff_getElem?.mp (here fits)
      rw [Alphabet.codes, List.flatMap_cons, codesOf_one decodable named]
      constructor
      · rw [List.length_append, List.length_singleton, List.length_cons]
        change 1 + (a.codes s).length = _
        omega
      · intro i b' at_
        cases i with
        | zero =>
            rw [List.getElem?_cons_zero, Option.some.injEq] at at_
            exact ⟨c, rfl, at_ ▸ named⟩
        | succ i => exact places i b' at_

variable {codes : Codes} {s : List UInt8} (width : codes.width = a.width)
  (spell : codes.Spell (a.codes s))
include width spell

/-- A byte at a time. -/
theorem decodeFrom_spec (covers : ∀ b ∈ s, a.Covers b) {want : Nat} (fuel : Nat) :
    ∀ {done rest : List UInt8}, s = done ++ rest → done.length + fuel = want →
      a.decodeFrom codes want fuel (a.codes done).length done = some (s.take want) := by
  have narrow : codes.width ≤ 8 := width.symm ▸ decodable.width.2
  induction fuel with
  | zero =>
      intro done rest whole size
      rw [decodeFrom, whole, ← size, Nat.add_zero, List.take_left]
  | succ fuel ih =>
      intro done rest whole size
      rw [decodeFrom]
      cases rest with
      | nil =>
          rw [List.append_nil] at whole
          have ended : ¬ ((a.codes done).length < codes.len ∧ done.length < want) := by
            rw [spell.len, whole]
            omega
          rw [if_neg ended, whole, List.take_of_length_le (by omega)]
      | cons b rest =>
          have split : a.codes s = a.codes done ++ (a.codesOf b ++ a.codes rest) := by
            rw [whole, Alphabet.codes, List.flatMap_append, List.flatMap_cons]
            rfl
          have positive := @codesOf_ne_nil a decodable b
          have under : (a.codes done).length < codes.len ∧ done.length < want := by
            rw [spell.len, split, List.length_append, List.length_append]
            omega
          have member : b ∈ s := by
            rw [whole]
            exact List.mem_append_right _ (List.mem_cons_self ..)
          have byte := @byteAt_spec a decodable b (covers b member) codes.code (a.codes done).length
            (by
              intro k small
              rw [spell.code_eq narrow (by
                rw [split, List.length_append, List.length_append]; omega), split,
                List.getElem?_append_right (by omega), Nat.add_sub_cancel_left,
                List.getElem?_append_left small])
          have next : (a.codes done).length + (a.codesOf b).length =
              (a.codes (done ++ [b])).length := by
            rw [Alphabet.codes, Alphabet.codes, List.flatMap_append, List.length_append,
              List.flatMap_singleton]
          rw [if_pos under, byte]
          simp only
          rw [next]
          apply @ih (done ++ [b]) rest
          · rw [whole, List.append_assoc, List.singleton_append]
          · rw [List.length_append, List.length_singleton]
            omega

omit spell width decodable in
theorem spreadWord_spec {word m take : Nat} (inside : m + take ≤ s.length)
    (read : ∀ j < take, a.one[word >>> (a.width * j) &&& top a.width]? = s[m + j]?) :
    a.spreadWord take word = some ((s.drop m).take take) := by
  induction take generalizing word m with
  | zero => rfl
  | succ take ih =>
      have first := read 0 (Nat.zero_lt_succ _)
      have at_ := List.getElem?_eq_getElem (show m < s.length by omega)
      rw [Nat.mul_zero, Nat.shiftRight_zero, Nat.add_zero, at_] at first
      have later := @ih (word >>> a.width) (m + 1) (by omega) (by
        intro j small
        have next := read (j + 1) (Nat.succ_lt_succ small)
        rw [Nat.mul_succ, Nat.add_comm (a.width * j), Nat.shiftRight_add] at next
        rw [next]
        congr 1
        omega)
      rw [spreadWord, first]
      simp only [Option.bind_eq_bind, Option.bind_some]
      rw [later, List.drop_eq_getElem_cons (show m < s.length by omega), List.take_succ_cons]
      rfl

/-- A word of codes at a time, where each byte is one. -/
theorem spreadFrom_spec (fits : a.two = []) (covers : ∀ b ∈ s, a.Covers b) {want : Nat}
    (most : want ≤ s.length) (fuel : Nat) : ∀ {done : List UInt8}, done = s.take done.length →
      done.length ≤ want → want ≤ done.length + fuel →
      a.spreadFrom codes want fuel done = some (s.take want) := by
  obtain ⟨length, places⟩ := codes_fitting decodable fits covers
  have inside := spell.inside
  rw [length, width] at inside
  have wide := decodable.width
  induction fuel with
  | zero =>
      intro done front le reach
      rw [spreadFrom, front]
      congr 2
      omega
  | succ fuel ih =>
      intro done front le reach
      rw [spreadFrom]
      by_cases under : done.length < want
      · rw [if_pos under]
        simp only
        have last : done.length * a.width + a.width ≤ s.length * a.width := by
          rw [← Nat.succ_mul]
          exact Nat.mul_le_mul_right _ (by omega)
        generalize bitAt : codes.start + done.length * a.width = bit
        rw [if_neg (by omega)]
        have tail : (codes.bytes.drop (bit / 8)).length = codes.bytes.length - bit / 8 :=
          List.length_drop ..
        generalize held_eq : (if 8 ≤ (codes.bytes.drop (bit / 8)).length then 64 - bit % 8
          else (codes.bytes.drop (bit / 8)).length * 8 - bit % 8) = held
        have held_le : held ≤ 64 - bit % 8 := by
          rw [← held_eq]
          split <;> omega
        have held_ge : a.width ≤ held := by
          rw [← held_eq]
          split <;> omega
        have some_ : 1 ≤ held / a.width := (Nat.one_le_div_iff (by omega)).mpr held_ge
        generalize take_eq : min (held / a.width) (want - done.length) = take
        rw [if_neg (by omega)]
        have part := @spreadWord_spec a s (wordFrom codes.bytes (bit / 8) >>> (bit % 8)) done.length
          take (by omega) (by
            intro j small
            have at_ := List.getElem?_eq_getElem (show done.length + j < s.length by omega)
            obtain ⟨c, code, named⟩ := places _ _ at_
            have digit := spell.digit _ c code
            have word_fits : a.width * j + a.width ≤ held := by
              have count : (j + 1) * a.width ≤ held / a.width * a.width :=
                Nat.mul_le_mul_right _ (by omega)
              have whole := Nat.div_mul_le_self held a.width
              rw [Nat.succ_mul, mul_comm j] at count
              omega
            rw [wordFrom_eq, top, Nat.and_two_pow_sub_one_eq_mod, Nat.shiftRight_eq_div_pow,
              Nat.shiftRight_eq_div_pow]
            have bits := @word_bits (leNat codes.bytes) bit (a.width * j + a.width) (by omega)
            have shifted := congrArg (· / 2 ^ (a.width * j)) bits
            simp only [pow_add, Nat.mod_mul_right_div_self] at shifted
            rw [shifted, Nat.div_div_eq_div_mul, ← pow_add]
            rw [width, show codes.start + (done.length + j) * a.width = bit + a.width * j by
              rw [← bitAt]; ring] at digit
            rw [digit, named, at_])
        rw [part]
        simp only
        have grown : (done ++ (s.drop done.length).take take).length = done.length + take := by
          rw [List.length_append, List.length_take, List.length_drop]
          omega
        apply ih
        · rw [grown, List.take_add]
          conv_lhs => rw [front]
          rw [← front]
        · omega
        · omega
      · rw [if_neg under, front]
        congr 2
        omega

/-- A suffix is decoded from where its codes start, as far as is asked for. -/
theorem decodeInto_spec (covers : ∀ b ∈ s, a.Covers b) (cap : Nat) :
    a.decodeInto codes cap = some (s.take cap) := by
  have size := length_le_codes decodable s
  have cut : s.take (min codes.len cap) = s.take cap := by
    rw [spell.len]
    by_cases less : cap ≤ (a.codes s).length
    · rw [Nat.min_eq_right less]
    · rw [Nat.min_eq_left (by omega), List.take_of_length_le size, List.take_of_length_le (by omega)]
  rw [decodeInto]
  split
  · next fits =>
    obtain ⟨length, -⟩ := codes_fitting decodable fits covers
    rw [← cut]
    apply spreadFrom_spec decodable width spell fits covers _ _ rfl (Nat.zero_le _)
    · rw [List.length_nil, Nat.zero_add]
    · rw [spell.len, length]
      exact Nat.min_le_left _ _
  · rw [← cut]
    exact @decodeFrom_spec a decodable codes s width spell covers _ _ [] s rfl (Nat.zero_add _)

end Decoded

end Lexindex.Packed
