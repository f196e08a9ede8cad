import Mathlib
import Lexindex.DoubleArray.Index

/-!
# Walks, a character at a time

The loops over a text's bytes, as recursions on the characters it is made of.
-/

set_option autoImplicit false

namespace Lexindex

namespace DoubleArray

theorem mask_eq_mod (x : Nat) :
    x &&& 0x1F = x % 32 ∧ x &&& 0x0F = x % 16 ∧ x &&& 0x07 = x % 8 ∧ x &&& 0x3F = x % 64 :=
  ⟨Nat.and_two_pow_sub_one_eq_mod x 5, Nat.and_two_pow_sub_one_eq_mod x 4,
    Nat.and_two_pow_sub_one_eq_mod x 3, Nat.and_two_pow_sub_one_eq_mod x 6⟩

theorem or_low {a low : Nat} (k : Nat) (small : low < 2 ^ k) : a <<< k ||| low = a * 2 ^ k + low := by
  rw [← Nat.shiftLeft_add_eq_or_of_lt small, Nat.shiftLeft_eq]

/-- What a byte position holds, from what follows it. -/
theorem getElem?_of_drop {b front rest : List UInt8} {i : Nat} (ahead : b.drop i = front ++ rest)
    (k : Nat) (inside : k < front.length) : b[i + k]? = front[k]? := by
  rw [← List.getElem?_drop, ahead, List.getElem?_append_left inside]

theorem decode_char {b rest : List UInt8} {i : Nat} {c : Char}
    (ahead : b.drop i = String.utf8EncodeChar c ++ rest) :
    decode b i = some (c.toNat, (String.utf8EncodeChar c).length) := by
  obtain ⟨digits, form, exact⟩ := utf8Form c
  have scalar := char_lt c
  rw [exact] at ahead ⊢
  generalize c.toNat = v at form scalar
  have reads : ∀ k d, digits[k]? = some d → b[i + k]? = some (UInt8.ofNat d) := by
    intro k d held
    have inside := (List.getElem?_eq_some_iff.mp held).1
    rw [getElem?_of_drop ahead k (by simpa using inside), List.getElem?_map, held]
    rfl
  have digit : ∀ d, d ∈ digits → (UInt8.ofNat d).toNat = d := by
    intro d member
    rw [UInt8.toNat_ofNat', Nat.mod_eq_of_lt (form.digit_lt d member)]
  cases form with
  | one small =>
      have first := reads 0 v rfl
      have value := digit v (by simp)
      rw [Nat.add_zero] at first
      simp only [decode, first, Option.bind_some, value]
      rw [if_pos small]
      rfl
  | two least small =>
      have first := reads 0 _ rfl
      have second := reads 1 _ rfl
      rw [Nat.add_zero] at first
      have value := digit (v / 64 + 0xC0) (by simp)
      have next := digit (v % 64 + 0x80) (by simp)
      simp only [decode, first, second, Option.bind_some, Option.map_some, value, next]
      rw [if_neg (by omega), if_pos (by omega), (mask_eq_mod _).1, (mask_eq_mod _).2.2.2,
        or_low 6 (by omega)]
      simp only [List.map_cons, List.map_nil, List.length_cons, List.length_nil]
      congr 2
      omega
  | three least small =>
      have first := reads 0 _ rfl
      have second := reads 1 _ rfl
      have third := reads 2 _ rfl
      rw [Nat.add_zero] at first
      have value := digit (v / 4096 + 0xE0) (by simp)
      have next := digit (v / 64 % 64 + 0x80) (by simp)
      have last := digit (v % 64 + 0x80) (by simp)
      simp only [decode, first, second, third, Option.bind_some, Option.map_some, value, next, last]
      rw [if_neg (by omega), if_neg (by omega), if_pos (by omega), (mask_eq_mod _).2.1,
        (mask_eq_mod _).2.2.2, (mask_eq_mod _).2.2.2, Nat.or_assoc, or_low 6 (by omega),
        or_low 12 (by omega)]
      simp only [List.map_cons, List.map_nil, List.length_cons, List.length_nil]
      congr 2
      omega
  | four least small =>
      have first := reads 0 _ rfl
      have second := reads 1 _ rfl
      have third := reads 2 _ rfl
      have fourth := reads 3 _ rfl
      rw [Nat.add_zero] at first
      have value := digit (v / 262144 + 0xF0) (by simp)
      have next := digit (v / 4096 % 64 + 0x80) (by simp)
      have after := digit (v / 64 % 64 + 0x80) (by simp)
      have last := digit (v % 64 + 0x80) (by simp)
      simp only [decode, first, second, third, fourth, Option.bind_some, Option.map_some, value,
        next, after, last]
      rw [if_neg (by omega), if_neg (by omega), if_neg (by omega), (mask_eq_mod _).2.2.1,
        (mask_eq_mod _).2.2.2, (mask_eq_mod _).2.2.2, (mask_eq_mod _).2.2.2, Nat.or_assoc,
        Nat.or_assoc, or_low 6 (by omega), or_low 12 (by omega), or_low 18 (by omega)]
      simp only [List.map_cons, List.map_nil, List.length_cons, List.length_nil]
      congr 2
      omega

end DoubleArray

namespace DoubleArrayIndex

open DoubleArray

/-- The loop of `id` on the characters still to come. -/
def idWalk (idx : DoubleArrayIndex) : List Char → Nat → Option (Option Nat)
  | [], _ => none
  | c :: rest, base =>
      if idx.label c.toNat = 0 then some none
      else
        (idx.step base (idx.label c.toNat)).bind fun taken =>
          match taken with
          | none => some none
          | some v =>
              if rest = [] then some (if endsKey v then some (idOf v) else none)
              else if continues v then idx.idWalk rest (baseOf v)
              else some none

/-- The loop of `forEachCommonPrefix` on the characters still to come, the first at byte `i`. -/
def prefixWalk (idx : DoubleArrayIndex) : List Char → Nat → Nat → Option (List (Nat × Nat))
  | [], _, _ => some []
  | c :: rest, i, base =>
      if idx.label c.toNat = 0 then some []
      else
        (idx.step base (idx.label c.toNat)).bind fun taken =>
          match taken with
          | none => some []
          | some v =>
              let after := i + (String.utf8EncodeChar c).length
              let found := if endsKey v then [(after, idOf v)] else []
              if continues v then (idx.prefixWalk rest after (baseOf v)).map (found ++ ·)
              else some found

/-- Where each character ends, the first starting at byte `i`. -/
def endsOf : List Char → Nat → List Nat
  | [], _ => []
  | c :: rest, i =>
      (i + (String.utf8EncodeChar c).length) :: endsOf rest (i + (String.utf8EncodeChar c).length)

variable (idx : DoubleArrayIndex)

theorem drop_after {b rest : List UInt8} {i : Nat} {c : Char}
    (ahead : b.drop i = String.utf8EncodeChar c ++ rest) :
    b.drop (i + (String.utf8EncodeChar c).length) = rest := by
  rw [← List.drop_drop, ahead, List.drop_left]

theorem at_end_iff {b : List UInt8} {rest : List Char} {i : Nat} {c : Char}
    (ahead : b.drop i = String.utf8EncodeChar c ++ rest.flatMap String.utf8EncodeChar) :
    i + (String.utf8EncodeChar c).length = b.length ↔ rest = [] := by
  have size := congrArg List.length ahead
  have nonempty := List.length_pos_iff.mpr (@String.utf8EncodeChar_ne_nil c)
  rw [List.length_drop, List.length_append] at size
  cases rest with
  | nil =>
      rw [List.flatMap_nil, List.length_nil] at size
      simp only [iff_true]
      omega
  | cons d rest =>
      have more := List.length_pos_iff.mpr (@String.utf8EncodeChar_ne_nil d)
      rw [List.flatMap_cons, List.length_append] at size
      simp only [reduceCtorEq, iff_false]
      omega

theorem idFrom_eq_idWalk (b : List UInt8) (chars : List Char) (i base : Nat) (some_left : chars ≠ [])
    (ahead : b.drop i = chars.flatMap String.utf8EncodeChar) :
    idx.idFrom b i base = idx.idWalk chars base := by
  induction chars generalizing i base with
  | nil => exact absurd rfl some_left
  | cons c rest ih =>
      rw [List.flatMap_cons] at ahead
      have read := decode_char ahead
      rw [idFrom]
      split
      · rename_i failed
        rw [read] at failed
        cases failed
      · rename_i cp w found
        rw [read, Option.some.injEq, Prod.mk.injEq] at found
        obtain ⟨rfl, rfl⟩ := found
        rw [idWalk]
        refine if_congr Iff.rfl rfl ?_
        refine congrArg _ (funext fun taken => ?_)
        cases taken with
        | none => rfl
        | some v =>
            simp only [at_end_iff ahead]
            by_cases last : rest = []
            · rw [if_pos last, if_pos last]
            · rw [if_neg last, if_neg last, ih _ _ last (drop_after ahead)]

theorem prefixesFrom_eq_prefixWalk (b : List UInt8) (chars : List Char) (i base : Nat)
    (ahead : b.drop i = chars.flatMap String.utf8EncodeChar) :
    idx.prefixesFrom b i base = idx.prefixWalk chars i base := by
  induction chars generalizing i base with
  | nil =>
      have past : ¬ i < b.length := by
        rw [List.flatMap_nil, List.drop_eq_nil_iff] at ahead
        omega
      rw [prefixesFrom, if_neg past, prefixWalk]
  | cons c rest ih =>
      rw [List.flatMap_cons] at ahead
      have read := decode_char ahead
      have inside : i < b.length := by
        have bounds := decode_inside read
        omega
      rw [prefixesFrom, if_pos inside]
      split
      · rename_i failed
        rw [read] at failed
        cases failed
      · rename_i cp w found
        rw [read, Option.some.injEq, Prod.mk.injEq] at found
        obtain ⟨rfl, rfl⟩ := found
        rw [prefixWalk]
        refine if_congr Iff.rfl rfl ?_
        refine congrArg _ (funext fun taken => ?_)
        cases taken with
        | none => rfl
        | some v => simp only [ih _ _ (drop_after ahead)]

theorem labelsFrom_eq (b : List UInt8) (chars : List Char) (i : Nat)
    (ahead : b.drop i = chars.flatMap String.utf8EncodeChar) :
    idx.labelsFrom b i =
      some (chars.map fun c => idx.label c.toNat % 2 ^ 16, endsOf chars i) := by
  induction chars generalizing i with
  | nil =>
      have past : ¬ i < b.length := by
        rw [List.flatMap_nil, List.drop_eq_nil_iff] at ahead
        omega
      rw [labelsFrom, if_neg past, endsOf, List.map_nil]
  | cons c rest ih =>
      rw [List.flatMap_cons] at ahead
      have read := decode_char ahead
      have inside : i < b.length := by
        have bounds := decode_inside read
        omega
      rw [labelsFrom, if_pos inside]
      split
      · rename_i failed
        rw [read] at failed
        cases failed
      · rename_i cp w found
        rw [read, Option.some.injEq, Prod.mk.injEq] at found
        obtain ⟨rfl, rfl⟩ := found
        rw [ih _ (drop_after ahead), Option.map_some, endsOf, List.map_cons]

/-- `id`, on the characters of the key. -/
theorem id_eq_idWalk (key : String) :
    idx.id key = if key.toList = [] then some idx.empty else idx.idWalk key.toList 0 := by
  have ahead : (bytesOf key).drop 0 = key.toList.flatMap String.utf8EncodeChar := bytesOf_eq key
  rw [id]
  by_cases none_left : key.toList = []
  · have bare : bytesOf key = [] := by rw [bytesOf_eq, none_left, List.flatMap_nil]
    simp only [bare, none_left, if_true]
  · have some_bytes : bytesOf key ≠ [] := by
      rw [bytesOf_eq]
      intro bare
      have none_left' := utf8_prefixCode.flatMap_inj (fun _ _ => trivial) (fun _ _ => trivial)
        (bare.trans (List.flatMap_nil (f := String.utf8EncodeChar)).symm)
      exact none_left none_left'
    rw [if_neg some_bytes, if_neg none_left, idx.idFrom_eq_idWalk _ _ _ _ none_left ahead]

theorem forEachCommonPrefix_eq (query : String) :
    idx.forEachCommonPrefix query =
      (idx.prefixWalk query.toList 0 0).map (idx.emptyPrefix ++ ·) := by
  have ahead : (bytesOf query).drop 0 = query.toList.flatMap String.utf8EncodeChar :=
    bytesOf_eq query
  rw [forEachCommonPrefix, idx.prefixesFrom_eq_prefixWalk _ _ 0 0 ahead]

/-- A text cut where a run of its characters ends is that run. -/
theorem sliced_prefix {query : String} {front : List Char} (taken : front <+: query.toList) :
    sliced query (front.flatMap String.utf8EncodeChar).length = some (String.ofList front) := by
  obtain ⟨rest, whole⟩ := taken
  have bytes : bytesOf query =
      front.flatMap String.utf8EncodeChar ++ rest.flatMap String.utf8EncodeChar := by
    rw [bytesOf_eq, ← whole, List.flatMap_append]
  have inside : (front.flatMap String.utf8EncodeChar).length ≤ (bytesOf query).length := by
    rw [bytes, List.length_append]
    exact Nat.le_add_right ..
  rw [sliced, if_pos inside, bytes, List.take_left, ← bytesOf_ofList, fromUtf8_bytesOf]

theorem endsOf_length (chars : List Char) (i : Nat) : (endsOf chars i).length = chars.length := by
  induction chars generalizing i with
  | nil => rfl
  | cons c rest ih => rw [endsOf, List.length_cons, List.length_cons, ih]

/-- The labels of a text's characters, as the occurrence walk stores them. -/
def textLabels (text : String) : List Nat :=
  text.toList.map fun c => idx.label c.toNat % 2 ^ 16

/-- The walk from character `p`: each match with where it starts and ends. -/
def occurrencesAt (text : String) (p : Nat) : Option (List (Nat × Nat × Nat × Nat × Nat)) :=
  (idx.matchesFrom ((idx.textLabels text ++ [0]).drop p) p 0).bind fun found =>
    found.mapM fun e =>
      ((0 :: endsOf text.toList 0)[p]?).bind fun start =>
        ((0 :: endsOf text.toList 0)[e.1]?).map fun last => (p, e.1, start, last, e.2)

theorem occurrences_eq (text : String) :
    idx.occurrences text =
      ((List.range text.toList.length).mapM (idx.occurrencesAt text)).map List.flatten := by
  have ahead : (bytesOf text).drop 0 = text.toList.flatMap String.utf8EncodeChar := bytesOf_eq text
  rw [occurrences, idx.labelsFrom_eq _ _ 0 ahead, Option.bind_some]
  simp only [List.length_map]
  rfl

theorem drop_textLabels {text : String} {p : Nat} (inside : p < text.toList.length) :
    (idx.textLabels text ++ [0]).drop p = (idx.textLabels text).drop p ++ [0] := by
  refine List.drop_append_of_le_length ?_
  rw [textLabels, List.length_map]
  exact Nat.le_of_lt inside

end DoubleArrayIndex

end Lexindex
