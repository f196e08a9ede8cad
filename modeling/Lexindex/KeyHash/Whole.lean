import Mathlib
import Lexindex.KeyHash.State
import Lexindex.Lib.Bits

/-!
# Every byte of a key is read

The loads of each class of lengths lie inside the key and cover it, so that keys of one length
that give the same words are the same key.
-/

set_option autoImplicit false

namespace Lexindex.KeyHash

open Faulting (getUnchecked word index bytesBetween getUnchecked_eq word_eq index_eq
  bytesBetween_length)

variable {ε : Type} {b b' : List UInt8}

/-! ## Loads -/

/-- `size` bytes at `i` in one word. -/
def load (size : Nat) (b : List UInt8) (i : Nat) : Word :=
  BitVec.ofNat 64 (leNat (bytesBetween b i (i + size)))

theorem r4_eq {i : Nat} (inside : i + 4 ≤ b.length) : (r4 b i : Faulting ε Word) = .ok (load 4 b i) := by
  have sized : (bytesBetween b i (i + 4)).length = 4 := by
    rw [bytesBetween_length (by omega) inside, Nat.add_sub_cancel_left]
  rw [r4, getUnchecked_eq (by omega) inside]
  change Except.bind (word 4 _) _ = _
  rw [word_eq sized]
  rfl

theorem r8_eq {i : Nat} (inside : i + 8 ≤ b.length) : (r8 b i : Faulting ε Word) = .ok (load 8 b i) := by
  have sized : (bytesBetween b i (i + 8)).length = 8 := by
    rw [bytesBetween_length (by omega) inside, Nat.add_sub_cancel_left]
  rw [r8, getUnchecked_eq (by omega) inside]
  change Except.bind (word 8 _) _ = _
  rw [word_eq sized]
  rfl

theorem load_lt (size : Nat) (b : List UInt8) (i : Nat) :
    leNat (bytesBetween b i (i + size)) < 2 ^ (8 * size) := by
  rw [leNat_between]
  exact Nat.mod_lt _ (by positivity)

/-- Two keys are the same from `lo` to `hi`. -/
def Agree (b b' : List UInt8) (lo hi : Nat) : Prop :=
  ∀ p, lo ≤ p → p < hi → b[p]? = b'[p]?

/-- A load shows the bytes it reads. -/
theorem agree_of_load {size i : Nat} (small : size ≤ 8) (length : b.length = b'.length)
    (inside : i + size ≤ b.length) (same : load size b i = load size b' i) :
    Agree b b' i (i + size) := by
  have values := congrArg BitVec.toNat same
  have fits : ∀ s : List UInt8, leNat (bytesBetween s i (i + size)) < 2 ^ 64 := fun s =>
    (load_lt size s i).trans_le (Nat.pow_le_pow_right (by decide) (by omega))
  rw [load, load, BitVec.toNat_ofNat, BitVec.toNat_ofNat, Nat.mod_eq_of_lt (fits b),
    Nat.mod_eq_of_lt (fits b')] at values
  have bytes : bytesBetween b i (i + size) = bytesBetween b' i (i + size) := by
    refine leNat_inj ?_ values
    rw [bytesBetween_length (by omega) inside, bytesBetween_length (by omega) (length ▸ inside)]
  intro p from_ upTo
  have here := congrArg (fun s : List UInt8 => s[p - i]?) bytes
  simp only [bytesBetween, Nat.add_sub_cancel_left] at here
  rw [List.getElem?_take_of_lt (by omega), List.getElem?_take_of_lt (by omega),
    List.getElem?_drop, List.getElem?_drop, Nat.add_sub_cancel' from_] at here
  exact here

theorem eq_of_agree (length : b.length = b'.length) (agree : ∀ p, p < b.length → b[p]? = b'[p]?) :
    b = b' := by
  refine List.ext_getElem? fun p => ?_
  by_cases inside : p < b.length
  · exact agree p inside
  · rw [List.getElem?_eq_none (by omega), List.getElem?_eq_none (by omega)]

/-! ## Up to sixteen bytes -/

/-- Two halves of a word are told apart. -/
theorem halves_inj {x y x' y' : Word} (low : x.toNat < 2 ^ 32) (low' : x'.toNat < 2 ^ 32)
    (high : y.toNat < 2 ^ 32) (high' : y'.toNat < 2 ^ 32)
    (same : x ||| y <<< 32 = x' ||| y' <<< 32) : x = x' ∧ y = y' := by
  have value : ∀ {x y : Word}, x.toNat < 2 ^ 32 → y.toNat < 2 ^ 32 →
      (x ||| y <<< 32).toNat = 2 ^ 32 * y.toNat + x.toNat := by
    intro x y low high
    rw [BitVec.toNat_or, BitVec.toNat_shiftLeft, Nat.shiftLeft_eq, Nat.mul_comm,
      Nat.mod_eq_of_lt (by omega), Nat.or_comm, ← Nat.two_pow_add_eq_or_of_lt low]
  have values := congrArg BitVec.toNat same
  rw [value low high, value low' high'] at values
  exact ⟨BitVec.eq_of_toNat_eq (by omega), BitVec.eq_of_toNat_eq (by omega)⟩

theorem load4_lt (b : List UInt8) (i : Nat) : (load 4 b i).toNat < 2 ^ 32 := by
  have small := load_lt 4 b i
  rw [load, BitVec.toNat_ofNat, Nat.mod_eq_of_lt (small.trans (by decide))]
  exact small

/-- The distance of the second and third loads, by the classes of the length. -/
theorem step_cases {n : Nat} (four : 4 ≤ n) (short : n ≤ 16) :
    n < 8 ∧ (n >>> 3) <<< 2 = 0 ∨ 8 ≤ n ∧ n < 16 ∧ (n >>> 3) <<< 2 = 4 ∨ n = 16 ∧ (n >>> 3) <<< 2 = 8 := by
  rw [Nat.shiftRight_eq_div_pow, Nat.shiftLeft_eq]
  omega

theorem twoWords_eq (four : 4 ≤ b.length) (short : b.length ≤ 16) :
    (twoWords b : Faulting ε (Word × Word)) =
      .ok (load 4 b 0 ||| load 4 b ((b.length >>> 3) <<< 2) <<< 32,
        load 4 b (b.length - 4) ||| load 4 b (b.length - 4 - (b.length >>> 3) <<< 2) <<< 32) := by
  have reach : (b.length >>> 3) <<< 2 + 4 ≤ b.length := by
    obtain ⟨_, step⟩ | ⟨_, _, step⟩ | ⟨_, step⟩ := step_cases four short <;> omega
  rw [twoWords, if_pos four]
  simp only [r4_eq (ε := ε) (show 0 + 4 ≤ b.length by omega), r4_eq (ε := ε) reach,
    r4_eq (ε := ε) (show b.length - 4 + 4 ≤ b.length by omega),
    r4_eq (ε := ε) (show b.length - 4 - (b.length >>> 3) <<< 2 + 4 ≤ b.length by omega)]
  rfl

theorem twoWords_inj (four : 4 ≤ b.length) (short : b.length ≤ 16) (length : b.length = b'.length)
    (same : (twoWords b : Faulting ε (Word × Word)) = twoWords b') : b = b' := by
  rw [twoWords_eq four short, twoWords_eq (length ▸ four) (length ▸ short), ← length] at same
  obtain ⟨first, last⟩ := Prod.mk.inj (Except.ok.inj same)
  obtain ⟨head, headNext⟩ := halves_inj (load4_lt ..) (load4_lt ..) (load4_lt ..) (load4_lt ..) first
  obtain ⟨tail, tailNext⟩ := halves_inj (load4_lt ..) (load4_lt ..) (load4_lt ..) (load4_lt ..) last
  have cases_ := step_cases four short
  have head := agree_of_load (by decide) length (by omega) head
  have headNext := agree_of_load (by decide) length (by omega) headNext
  have tail := agree_of_load (by decide) length (by omega) tail
  have tailNext := agree_of_load (by decide) length (by omega) tailNext
  refine eq_of_agree length fun p inside => ?_
  obtain ⟨_, step⟩ | ⟨_, _, step⟩ | ⟨_, step⟩ := cases_
  · -- Below eight bytes the first and the last four cover the key.
    by_cases early : p < 4
    · exact head p (by omega) (by omega)
    · exact tail p (by omega) (by omega)
  · -- To fifteen, the first and the last eight.
    by_cases early : p < 4
    · exact head p (by omega) (by omega)
    by_cases next : p < 8
    · exact headNext p (by omega) (by omega)
    by_cases late : b.length - 4 ≤ p
    · exact tail p late (by omega)
    · exact tailNext p (by omega) (by omega)
  · -- At sixteen the loads are the four quarters.
    by_cases early : p < 4
    · exact head p (by omega) (by omega)
    by_cases next : p < 8
    · exact tailNext p (by omega) (by omega)
    by_cases late : p < 12
    · exact headNext p (by omega) (by omega)
    · exact tail p (by omega) (by omega)

theorem octet_toNat (byte : UInt8) : (octet byte).toNat = byte.toNat := by
  rw [octet, BitVec.toNat_ofNat, Nat.mod_eq_of_lt (byte.toNat_lt.trans (by decide))]

/-- The three octets of a short key's word. -/
theorem octets_toNat (x y z : UInt8) :
    (octet x ||| octet y <<< 16 ||| octet z <<< 32).toNat =
      x.toNat + 2 ^ 16 * y.toNat + 2 ^ 32 * z.toNat := by
  have xLt := x.toNat_lt
  have yLt := y.toNat_lt
  have zLt := z.toNat_lt
  rw [BitVec.toNat_or, BitVec.toNat_or, BitVec.toNat_shiftLeft, BitVec.toNat_shiftLeft, octet_toNat,
    octet_toNat, octet_toNat, Nat.shiftLeft_eq, Nat.shiftLeft_eq, Nat.mod_eq_of_lt (by omega),
    Nat.mod_eq_of_lt (by omega), Nat.mul_comm y.toNat, Nat.mul_comm z.toNat,
    Nat.or_comm x.toNat, ← Nat.two_pow_add_eq_or_of_lt (show x.toNat < 2 ^ 16 by omega),
    Nat.or_comm (2 ^ 16 * y.toNat + x.toNat),
    ← Nat.two_pow_add_eq_or_of_lt (show 2 ^ 16 * y.toNat + x.toNat < 2 ^ 32 by omega)]
  omega

/-- The bytes a short key's word holds, once each: `b[0]`, `b[n / 2]` and `b[n - 1]`. -/
theorem twoWords_short (short : b.length < 4) (some_ : 0 < b.length) :
    (twoWords b : Faulting ε (Word × Word)) =
      .ok (octet (b.get ⟨0, some_⟩) ||| octet (b.get ⟨b.length / 2, by omega⟩) <<< 16 |||
        octet (b.get ⟨b.length - 1, by omega⟩) <<< 32, 0) := by
  rw [twoWords, if_neg (by omega), if_neg (by omega)]
  simp only [index_eq (ε := ε) some_, index_eq (ε := ε) (show b.length / 2 < b.length by omega),
    index_eq (ε := ε) (show b.length - 1 < b.length by omega)]
  rfl

theorem twoWords_short_inj (short : b.length < 4) (length : b.length = b'.length)
    (same : (twoWords b : Faulting ε (Word × Word)) = twoWords b') : b = b' := by
  by_cases some_ : 0 < b.length
  · rw [twoWords_short short some_, twoWords_short (length ▸ short) (length ▸ some_)] at same
    have values := congrArg BitVec.toNat (Prod.mk.inj (Except.ok.inj same)).1
    rw [octets_toNat, octets_toNat] at values
    simp only [List.get_eq_getElem] at values
    have below : ∀ (s : List UInt8) (p : Nat) (inside : p < s.length), s[p].toNat < 2 ^ 8 :=
      fun s p inside => s[p].toNat_lt
    have first := below b 0 some_
    have first' := below b' 0 (length ▸ some_)
    have middle := below b (b.length / 2) (by omega)
    have middle' := below b' (b'.length / 2) (by omega)
    have head : b[0] = b'[0] := UInt8.toNat_inj.mp (by omega)
    have centre : b[b.length / 2] = b'[b'.length / 2] := UInt8.toNat_inj.mp (by omega)
    have last : b[b.length - 1] = b'[b'.length - 1] := UInt8.toNat_inj.mp (by omega)
    refine List.ext_getElem length fun p inside inside' => ?_
    have which : p = 0 ∨ p = b.length / 2 ∨ p = b.length - 1 := by omega
    obtain rfl | rfl | rfl := which
    · exact head
    · simpa only [length] using centre
    · simpa only [length] using last
  · rw [List.eq_nil_of_length_eq_zero (by omega : b.length = 0),
      List.eq_nil_of_length_eq_zero (by omega : b'.length = 0)]

theorem twoWords_reads (short : b.length ≤ 16) : ∃ w, (twoWords b : Faulting ε (Word × Word)) = .ok w := by
  by_cases four : 4 ≤ b.length
  · exact ⟨_, twoWords_eq four short⟩
  by_cases some_ : 0 < b.length
  · exact ⟨_, twoWords_short (by omega) some_⟩
  · refine ⟨(0, 0), ?_⟩
    rw [twoWords, if_neg four, if_pos (by omega)]

/-! ## Above sixteen bytes -/

/-- The first and the last sixteen bytes. -/
def bothEnds (b : List UInt8) : Four :=
  ⟨load 8 b 0, load 8 b 8, load 8 b (b.length - 16), load 8 b (b.length - 8)⟩

/-- The first thirty-two bytes. -/
def leadingBlock (b : List UInt8) : Four :=
  ⟨load 8 b 0, load 8 b 8, load 8 b 16, load 8 b 24⟩

theorem fourWords_eq (least : 17 ≤ b.length) : (fourWords b : Faulting ε Four) = .ok (bothEnds b) := by
  rw [fourWords]
  simp only [r8_eq (ε := ε) (show 0 + 8 ≤ b.length by omega),
    r8_eq (ε := ε) (show 8 + 8 ≤ b.length by omega),
    r8_eq (ε := ε) (show b.length - 16 + 8 ≤ b.length by omega),
    r8_eq (ε := ε) (show b.length - 8 + 8 ≤ b.length by omega)]
  rfl

theorem fourWords_inj (least : 17 ≤ b.length) (most : b.length ≤ 32) (length : b.length = b'.length)
    (same : (fourWords b : Faulting ε Four) = fourWords b') : b = b' := by
  rw [fourWords_eq least, fourWords_eq (length ▸ least), bothEnds, bothEnds, ← length] at same
  obtain ⟨first, second, third, fourth⟩ := Four.mk.inj (Except.ok.inj same)
  have first := agree_of_load (by decide) length (by omega) first
  have second := agree_of_load (by decide) length (by omega) second
  have third := agree_of_load (by decide) length (by omega) third
  have fourth := agree_of_load (by decide) length (by omega) fourth
  refine eq_of_agree length fun p inside => ?_
  by_cases early : p < 8
  · exact first p (by omega) (by omega)
  by_cases next : p < 16
  · exact second p (by omega) (by omega)
  by_cases late : b.length - 8 ≤ p
  · exact fourth p late (by omega)
  · exact third p (by omega) (by omega)

theorem blockWords_eq (more : 32 < b.length) :
    (blockWords b : Faulting ε Four) = .ok (leadingBlock b) := by
  rw [blockWords]
  simp only [r8_eq (ε := ε) (show 0 + 8 ≤ b.length by omega),
    r8_eq (ε := ε) (show 8 + 8 ≤ b.length by omega),
    r8_eq (ε := ε) (show 16 + 8 ≤ b.length by omega),
    r8_eq (ε := ε) (show 24 + 8 ≤ b.length by omega)]
  rfl

theorem blocksRead_done (few : b.length ≤ 32) : (blocksRead b : Faulting ε (List Four)) = .ok [] := by
  rw [blocksRead, if_neg (by omega)]

/-- The leading blocks are read inside the key, and the state is a round over each. -/
theorem blocks_eq (b : List UInt8) : ∃ leading : List Four,
    (blocksRead b : Faulting ε (List Four)) = .ok leading ∧
    ∀ s, (blocks b s : Faulting ε (Word × Word)) = .ok (leading.foldl (fun s w => round w s) s) := by
  induction size : b.length using Nat.strong_induction_on generalizing b with
  | _ n ih =>
      by_cases more : 32 < b.length
      · obtain ⟨later, read, rounds⟩ := ih (b.drop 32).length (by rw [List.length_drop]; omega) _ rfl
        refine ⟨leadingBlock b :: later, ?_, fun s => ?_⟩
        · rw [blocksRead, if_pos more, blockWords_eq more, read]
          rfl
        · rw [blocks, if_pos more, blockWords_eq more, List.foldl_cons, ← rounds]
          rfl
      · refine ⟨[], blocksRead_done (by omega), fun s => ?_⟩
        rw [blocks, if_neg more]
        rfl

/-- The leading blocks show all but the last thirty-two bytes. -/
theorem blocksRead_inj (length : b.length = b'.length)
    (same : (blocksRead b : Faulting ε (List Four)) = blocksRead b') :
    ∀ p, p + 32 < b.length → b[p]? = b'[p]? := by
  induction size : b.length using Nat.strong_induction_on generalizing b b' with
  | _ n ih =>
      subst size
      intro p before
      have more : 32 < b.length := by omega
      obtain ⟨later, read, -⟩ := blocks_eq (ε := ε) (b.drop 32)
      obtain ⟨later', read', -⟩ := blocks_eq (ε := ε) (b'.drop 32)
      rw [blocksRead, if_pos more, blockWords_eq more, read, blocksRead, if_pos (length ▸ more),
        blockWords_eq (length ▸ more), read'] at same
      obtain ⟨here, rest⟩ := List.cons.inj (Except.ok.inj same)
      obtain ⟨first, second, third, fourth⟩ := Four.mk.inj here
      by_cases block : p < 32
      · by_cases early : p < 8
        · exact agree_of_load (by decide) length (by omega) first p (by omega) (by omega)
        by_cases next : p < 16
        · exact agree_of_load (by decide) length (by omega) second p (by omega) (by omega)
        by_cases late : p < 24
        · exact agree_of_load (by decide) length (by omega) third p (by omega) (by omega)
        · exact agree_of_load (by decide) length (by omega) fourth p (by omega) (by omega)
      · have shorter : (b.drop 32).length < b.length := by rw [List.length_drop]; omega
        have after := @ih _ shorter (b.drop 32) (b'.drop 32)
          (by rw [List.length_drop, List.length_drop, length]) (by rw [read, read', rest]) rfl (p - 32)
          (by rw [List.length_drop]; omega)
        rwa [List.getElem?_drop, List.getElem?_drop, Nat.add_sub_cancel' (by omega)] at after

/-! ## Any length -/

/-- Every load is inside the key, and the state is made of the words they give. -/
theorem state_reads (b : List UInt8) :
    ∃ w, (wordsRead b : Faulting ε Words) = .ok w ∧ (state b : Faulting ε (Word × Word)) = .ok w.mixed := by
  by_cases short : b.length ≤ 16
  · obtain ⟨w, read⟩ := twoWords_reads (ε := ε) short
    refine ⟨.two w, ?_, ?_⟩
    · rw [wordsRead, if_pos short, read]
      rfl
    · rw [state, if_pos short, read]
      rfl
  by_cases middle : b.length ≤ 32
  · refine ⟨.fours [bothEnds b], ?_, ?_⟩
    · rw [wordsRead, if_neg short, if_pos middle, fourWords_eq (by omega)]
      rfl
    · rw [state, if_neg short, if_pos middle, fourWords_eq (by omega)]
      rfl
  · obtain ⟨leading, read, rounds⟩ := blocks_eq (ε := ε) b
    have last : 17 ≤ (b.drop (b.length - 32)).length := by
      rw [List.length_drop]
      omega
    refine ⟨.fours (leading ++ [bothEnds (b.drop (b.length - 32))]), ?_, ?_⟩
    · rw [wordsRead, if_neg short, if_neg middle, read, fourWords_eq last]
      rfl
    · rw [state, if_neg short, if_neg middle, rounds, fourWords_eq last, Words.mixed,
        List.foldl_append]
      rfl

theorem wordsRead_inj (length : b.length = b'.length)
    (same : (wordsRead b : Faulting ε Words) = wordsRead b') : b = b' := by
  by_cases short : b.length ≤ 16
  · have words : (twoWords b : Faulting ε (Word × Word)) = twoWords b' := by
      obtain ⟨w, read⟩ := twoWords_reads (ε := ε) short
      obtain ⟨w', read'⟩ := twoWords_reads (ε := ε) (length ▸ short)
      rw [wordsRead, if_pos short, wordsRead, if_pos (length ▸ short), read, read'] at same
      rw [read, read', Words.two.inj (Except.ok.inj same)]
    by_cases four : 4 ≤ b.length
    · exact twoWords_inj four short length words
    · exact twoWords_short_inj (by omega) length words
  by_cases middle : b.length ≤ 32
  · rw [wordsRead, if_neg short, if_pos middle, wordsRead, if_neg (length ▸ short),
      if_pos (length ▸ middle), fourWords_eq (by omega), fourWords_eq (by omega)] at same
    have word := (List.cons.inj (Words.fours.inj (Except.ok.inj same))).1
    refine fourWords_inj (ε := ε) (by omega) middle length ?_
    rw [fourWords_eq (by omega), fourWords_eq (by omega), word]
  · obtain ⟨leading, read, -⟩ := blocks_eq (ε := ε) b
    obtain ⟨leading', read', -⟩ := blocks_eq (ε := ε) b'
    have last : (b.drop (b.length - 32)).length = 32 := by
      rw [List.length_drop]
      omega
    have last' : (b'.drop (b'.length - 32)).length = 32 := by
      rw [List.length_drop]
      omega
    rw [wordsRead, if_neg short, if_neg middle, wordsRead, if_neg (length ▸ short),
      if_neg (length ▸ middle), read, read', fourWords_eq (by omega), fourWords_eq (by omega)] at same
    obtain ⟨blocks, tail⟩ := List.append_inj' (Words.fours.inj (Except.ok.inj same)) rfl
    have final : b.drop (b.length - 32) = b'.drop (b'.length - 32) := by
      refine fourWords_inj (ε := ε) (by omega) (by omega) (last.trans last'.symm) ?_
      rw [fourWords_eq (by omega), fourWords_eq (by omega), (List.cons.inj tail).1]
    refine eq_of_agree length fun p inside => ?_
    by_cases before : p + 32 < b.length
    · exact blocksRead_inj (ε := ε) length (by rw [read, read', blocks]) p before
    · have here := congrArg (fun s : List UInt8 => s[p - (b.length - 32)]?) final
      simp only [List.getElem?_drop, ← length] at here
      rwa [Nat.add_sub_cancel' (by omega)] at here

/-- **The state reads the whole key.**  Every load it makes is inside the key, it is made of the
words they give, and keys of one length that give the same words are the same. -/
theorem state_reads_whole_key (n : Nat) :
    (∀ b : List UInt8, b.length = n → ∃ w, (wordsRead b : Faulting ε Words) = .ok w ∧
      (state b : Faulting ε (Word × Word)) = .ok w.mixed) ∧
    ∀ b b' : List UInt8, b.length = n → b'.length = n →
      (wordsRead b : Faulting ε Words) = wordsRead b' → b = b' :=
  ⟨fun b _ => state_reads b,
    fun _ _ length length' same => wordsRead_inj (length.trans length'.symm) same⟩

theorem state_reads_whole_key_three :
    (∃ w, (wordsRead [1, 2, 3] : Faulting Empty Words) = .ok w ∧
      (state [1, 2, 3] : Faulting Empty (Word × Word)) = .ok w.mixed) ∧
    ([1, 2, 3] : List UInt8) = [0 + 1, 2, 3] :=
  ⟨(state_reads_whole_key 3).1 [1, 2, 3] rfl,
    (state_reads_whole_key (ε := Empty) 3).2 [1, 2, 3] [0 + 1, 2, 3] rfl rfl rfl⟩

end Lexindex.KeyHash
