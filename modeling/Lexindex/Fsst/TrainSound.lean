import Mathlib
import Lexindex.Fsst.Table

/-!
# Training gives tables

A candidate is a piece or a pair of them that fits in a word, so whatever the sample was and
whichever candidates earn the most, what a round keeps are symbols of one to eight bytes.
-/

set_option autoImplicit false

namespace Lexindex.Fsst

open Faulting

/-! ## Words -/

theorem leNat_append (front back : List UInt8) :
    leNat (front ++ back) = leNat front + 256 ^ front.length * leNat back := by
  induction front with
  | nil => simp [leNat]
  | cons byte front ih =>
      rw [List.cons_append, leNat, leNat, ih, List.length_cons, pow_succ']
      ring

theorem leNat_zeros (n : Nat) : leNat (List.replicate n 0) = 0 := by
  induction n with
  | zero => rfl
  | succ n ih => rw [List.replicate_succ, leNat, ih]; rfl

theorem wordOf_eq (bytes : List UInt8) : wordOf bytes = leNat bytes := by
  rw [wordOf, leNat_append, leNat_zeros, Nat.mul_zero, Nat.add_zero]

theorem leBytes_take {n m : Nat} (le : n ≤ m) (value : Nat) :
    (leBytes m value).take n = leBytes n value := by
  induction n generalizing m value with
  | zero => rfl
  | succ n ih =>
      cases m with
      | zero => omega
      | succ m => rw [leBytes, leBytes, List.take_succ_cons, ih (by omega)]

/-- The bytes at hand are or'ed in, each above those before. -/
theorem foldl_or_eq (bytes : List UInt8) : ∀ {k w : Nat}, w < 256 ^ k →
    (bytes.zipIdx k).foldl (fun w (b, k) => w ||| b.toNat <<< (8 * k)) w =
      w + 256 ^ k * leNat bytes := by
  induction bytes with
  | nil => simp [leNat]
  | cons b bytes ih =>
      intro k w small
      have byte : b.toNat < 256 := b.toNat_lt
      have step : w ||| b.toNat <<< (8 * k) = w + 256 ^ k * b.toNat := by
        have power : (2 : Nat) ^ (8 * k) = 256 ^ k := by rw [pow_mul]; rfl
        rw [Nat.or_comm, ← Nat.shiftLeft_add_eq_or_of_lt (power.symm ▸ small), Nat.shiftLeft_eq,
          power]
        ring
      have fits : w + 256 ^ k * b.toNat < 256 ^ (k + 1) := by
        have room : 256 ^ k * (b.toNat + 1) ≤ 256 ^ k * 256 := Nat.mul_le_mul_left _ byte
        rw [mul_add, mul_one] at room
        rw [pow_succ]
        omega
      rw [List.zipIdx_cons, List.foldl_cons]
      simp only
      rw [step, ih fits, leNat, pow_succ]
      ring

/-- The word at a place is that of the bytes from there, however it is loaded. -/
theorem wordAt_eq (s : List UInt8) (i : Nat) : wordAt s i = leNat ((s.drop i).take 8) := by
  rw [wordAt]
  split
  · rw [bytesBetween, Nat.add_sub_cancel_left]
  · next near =>
    split
    · next wide =>
      have past : i = s.length - 8 + (i + 8 - s.length) := by omega
      have front := List.take_append_drop (i + 8 - s.length) (s.drop (s.length - 8))
      have length : ((s.drop (s.length - 8)).take (i + 8 - s.length)).length =
          i + 8 - s.length := by
        rw [List.length_take, List.length_drop]
        omega
      have small := leNat_lt ((s.drop (s.length - 8)).take (i + 8 - s.length))
      rw [length] at small
      rw [Nat.shiftRight_eq_div_pow, pow_mul, show (2 : Nat) ^ 8 = 256 from rfl, ← front,
        leNat_append, length, Nat.add_mul_div_left _ _ (by positivity), Nat.div_eq_of_lt small,
        Nat.zero_add, List.drop_drop, ← past, List.take_of_length_le]
      rw [List.length_drop]
      omega
    · next short =>
      rw [foldl_or_eq _ (show 0 < 256 ^ 0 by decide), pow_zero, one_mul, Nat.zero_add,
        List.take_of_length_le]
      rw [List.length_drop]
      omega

/-! ## Tables -/

/-- A code, its word and its length. -/
def Table.Has (t : Table) (code word len : Nat) : Prop :=
  t.words[code]? = some word ∧ t.lens[code]? = some len

/-- Symbols of one to eight bytes, few enough that none has the escape's code. -/
structure Table.Valid (t : Table) : Prop where
  parallel : t.lens.length = t.words.length
  few : t.words.length ≤ MAX_SYMBOLS
  symbol : ∀ {code word len : Nat}, t.Has code word len → 1 ≤ len ∧ len ≤ 8 ∧ word < 256 ^ len

theorem Table.Valid.code_lt {t : Table} (valid : t.Valid) {code word len : Nat}
    (has : t.Has code word len) : code < 255 := by
  obtain ⟨inside, -⟩ := List.getElem?_eq_some_iff.mp has.1
  exact Nat.lt_of_lt_of_le inside valid.few

theorem Table.fromSymbols_valid {syms : List (List UInt8)} (few : syms.length ≤ MAX_SYMBOLS)
    (sized : ∀ sym ∈ syms, 1 ≤ sym.length ∧ sym.length ≤ 8) : (fromSymbols syms).Valid := by
  constructor
  · rw [fromSymbols, List.length_map, List.length_map]
  · rw [fromSymbols, List.length_map]
    exact few
  · intro code word len has
    obtain ⟨words, lens⟩ := has
    rw [fromSymbols] at words lens
    simp only [List.getElem?_map] at words lens
    obtain ⟨sym, here, rfl⟩ := Option.map_eq_some_iff.mp words
    rw [here, Option.map_some, Option.some.injEq] at lens
    obtain ⟨least, most⟩ := sized sym (List.mem_of_getElem? here)
    rw [← lens, wordOf_eq]
    exact ⟨least, most, leNat_lt sym⟩

/-- The first symbols of a table are a table of its symbols. -/
theorem Table.head_has {t : Table} {k code word len : Nat} (has : (t.head k).Has code word len) :
    t.Has code word len := by
  obtain ⟨words, lens⟩ := has
  rw [head] at words lens
  rw [List.getElem?_take] at words lens
  rw [Option.ite_none_right_eq_some] at words lens
  exact ⟨words.2, lens.2⟩

theorem Table.Valid.head {t : Table} (valid : t.Valid) (k : Nat) : (t.head k).Valid := by
  constructor
  · rw [Table.head, List.length_take, List.length_take, valid.parallel]
  · rw [Table.head, List.length_take]
    exact Nat.le_trans (Nat.min_le_right _ _) valid.few
  · intro code word len has
    exact valid.symbol (Table.head_has has)

/-! ## Training gives tables -/

section Training

variable {t : Table}

theorem Table.piece_len (valid : t.Valid) (code : Nat) :
    1 ≤ (t.piece code).2 ∧ (t.piece code).2 ≤ 8 := by
  rw [piece]
  split
  · next inside =>
    have word := List.getElem?_eq_getElem inside
    have len := List.getElem?_eq_getElem (valid.parallel.symm ▸ inside)
    obtain ⟨least, most, -⟩ := valid.symbol ⟨word, len⟩
    rw [@List.getD_eq_getElem?_getD _ t.lens, len]
    exact ⟨least, most⟩
  · omega

/-- Candidates of one to eight bytes. -/
def Gain.Sized (gain : Gain) : Prop :=
  ∀ entry ∈ gain, 1 ≤ entry.1.2 ∧ entry.1.2 ≤ 8

theorem Gain.Sized.add {gain : Gain} (sized : gain.Sized) {key : Nat × Nat} (g : Nat)
    (fits : 1 ≤ key.2 ∧ key.2 ≤ 8) : (gain.add key g).Sized := by
  induction gain with
  | nil =>
      intro entry member
      rw [Gain.add, List.mem_singleton] at member
      rw [member]
      exact fits
  | cons first rest ih =>
      obtain ⟨here, later⟩ := List.forall_mem_cons.mp sized
      rw [Gain.add]
      split
      · exact List.forall_mem_cons.mpr ⟨here, later⟩
      · exact List.forall_mem_cons.mpr ⟨here, ih later⟩

theorem foldl_sized {α : Type} {f : Gain → α → Gain} (items : List α)
    (each : ∀ gain, gain.Sized → ∀ item, (f gain item).Sized) :
    ∀ {gain : Gain}, gain.Sized → (items.foldl f gain).Sized := by
  induction items with
  | nil => exact fun sized => sized
  | cons item items ih => exact fun sized => ih (each _ sized item)

theorem Table.gains_sized (valid : t.Valid) (counts : Counts) : (t.gains counts).Sized := by
  rw [gains]
  apply foldl_sized
  · intro gain sized a
    split
    · exact sized
    · apply foldl_sized _ _ sized
      intro gain sized b
      rw [gainPair]
      simp only
      split
      · exact sized
      · next fits =>
        have least := (t.piece_len valid a).1
        rw [MAX_LEN] at fits
        exact sized.add _ ⟨by omega, by omega⟩
  · rw [gainOne]
    apply foldl_sized
    · intro gain sized code
      simp only
      split
      · exact sized.add _ (t.piece_len valid code)
      · exact sized
    · intro entry none_
      cases none_

theorem Table.ranked_sized {gain : Gain} (sized : gain.Sized) :
    ∀ candidate ∈ ranked gain, 1 ≤ candidate.2 ∧ candidate.2 ≤ 8 := by
  intro candidate member
  rw [ranked] at member
  obtain ⟨entry, here, rfl⟩ := List.mem_map.mp member
  rw [List.mem_mergeSort] at here
  obtain ⟨from_, inside, rfl⟩ := List.mem_map.mp here
  exact sized from_ inside

theorem Table.reachFrom_spec {max : Nat} (candidates : List (Nat × Nat)) :
    ∀ {taken : List Nat} {syms : List (List UInt8)},
      (∀ candidate ∈ candidates, 1 ≤ candidate.2 ∧ candidate.2 ≤ 8) → syms.length ≤ max →
      (∀ sym ∈ syms, 1 ≤ sym.length ∧ sym.length ≤ 8) →
      (reachFrom max candidates taken syms).length ≤ max ∧
        ∀ sym ∈ reachFrom max candidates taken syms, 1 ≤ sym.length ∧ sym.length ≤ 8 := by
  induction candidates with
  | nil => exact fun _ few sized => ⟨few, sized⟩
  | cons candidate rest ih =>
      intro taken syms ranked few sized
      obtain ⟨word, len⟩ := candidate
      obtain ⟨here, later⟩ := List.forall_mem_cons.mp ranked
      simp only at here
      have grown : ∀ sym ∈ syms ++ [(leBytes 8 word).take len],
          1 ≤ sym.length ∧ sym.length ≤ 8 := by
        intro sym member
        rcases List.mem_append.mp member with before | new
        · exact sized sym before
        · rw [List.mem_singleton.mp new, List.length_take, leBytes_length]
          omega
      have room : syms.length ≠ max → (syms ++ [(leBytes 8 word).take len]).length ≤ max := by
        intro unequal
        rw [List.length_append, List.length_singleton]
        omega
      rw [reachFrom]
      split
      · exact ⟨few, sized⟩
      · next unequal =>
        split
        · split
          · exact ih later few sized
          · exact ih later (room unequal) grown
        · exact ih later (room unequal) grown

theorem Table.round_valid (valid : t.Valid) (sample : List (List UInt8)) (max : Nat) :
    (t.round sample max).Valid := by
  have sized := ranked_sized (t.gains_sized valid (t.tally sample))
  obtain ⟨few, each⟩ := @reachFrom_spec (min max MAX_SYMBOLS) _ (List.replicate SLOTS 0) [] sized
    (Nat.zero_le _) (by simp)
  exact fromSymbols_valid (Nat.le_trans few (Nat.min_le_right _ _)) each

theorem Table.rounds_valid (sample : List (List UInt8)) (max : Nat) : ∀ (left : Nat) {t : Table},
    t.Valid → (rounds sample max left t).Valid := by
  intro left
  induction left with
  | zero => exact fun valid => valid
  | succ left ih =>
      intro t valid
      rw [rounds]
      split
      · exact valid
      · exact ih (t.round_valid valid sample max)

/-- Whatever the sample and the size, training ends in a table. -/
theorem Table.trainTo_valid (sample : List (List UInt8)) (max : Nat) :
    (trainTo sample max).Valid := by
  apply rounds_valid
  refine ⟨rfl, Nat.zero_le _, ?_⟩
  intro code word len has
  cases has.1

end Training

end Lexindex.Fsst
