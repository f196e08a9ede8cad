import Mathlib
import Lexindex.Lib.ByteLanes
import Lexindex.Mphf.Remap
import Lexindex.Mphf.RemapReads

/-!
# Selecting a bit inside a word is exact

The bytes' counts are summed up byte over byte in one product, and compared with the rank all at
once: how many of them do not pass it is the byte the bit is in.
-/

set_option autoImplicit false

namespace Lexindex.Mphf

/-- The set bits of each byte of a word, side by side. -/
def byteCounts (x : Word) : Word :=
  let s := x - ((x >>> 1) &&& 0x5555555555555555#64)
  let s := (s &&& 0x3333333333333333#64) + ((s >>> 2) &&& 0x3333333333333333#64)
  (s + (s >>> 4)) &&& 0x0F0F0F0F0F0F0F0F#64

/-- The bytes of a word. -/
def bytesOfWord (x : Word) : List Nat :=
  lanesOf 8 x.toNat

theorem bytesOfWord_lt (x : Word) : ∀ b ∈ bytesOfWord x, b < 2 ^ 8 :=
  lanesOf_lt 8 x.toNat

theorem byteCounts_toNat (x : Word) :
    (byteCounts x).toNat = lanes ((bytesOfWord x).map fun b => (onesInByte b).length) := by
  have small := bytesOfWord_lt x
  have whole : lanes (bytesOfWord x) = x.toNat := lanes_lanesOf 8 x.toNat x.isLt
  have length : (bytesOfWord x).length = 8 := lanesOf_length 8 x.toNat
  have mask : ∀ m, lanes ((bytesOfWord x).map fun _ => m) = lanes (List.replicate 8 m) := fun m => by
    rw [List.map_const', length]
  have fits : ∀ f : Nat → Nat, (∀ b ∈ bytesOfWord x, f b < 2 ^ 8) → lanes ((bytesOfWord x).map f) < 2 ^ 64 := by
    intro f below
    have bound := lanes_map_lt below
    rwa [length] at bound
  have pairs : (x - ((x >>> 1) &&& 0x5555555555555555#64)).toNat = lanes ((bytesOfWord x).map pairSums) := by
    have below : (x >>> 1 &&& 0x5555555555555555#64) ≤ x := by
      rw [BitVec.le_def, BitVec.toNat_and, BitVec.toNat_ushiftRight]
      exact Nat.and_le_left.trans (Nat.shiftRight_le ..)
    rw [← lanes_pairs small, whole, mask, BitVec.toNat_sub_of_le below, BitVec.toNat_and,
      BitVec.toNat_ushiftRight]
    rfl
  rw [byteCounts]
  generalize x - ((x >>> 1) &&& 0x5555555555555555#64) = p at pairs
  have nibbles : ((p &&& 0x3333333333333333#64) + ((p >>> 2) &&& 0x3333333333333333#64)).toNat =
      lanes ((bytesOfWord x).map nibbleSums) := by
    have bound := fits nibbleSums fun b member => by
      have sums := (byteSums b (small b member)).2.2
      omega
    rw [← lanes_nibbleSums small, mask] at bound ⊢
    rw [BitVec.toNat_add, BitVec.toNat_and, BitVec.toNat_and, BitVec.toNat_ushiftRight, pairs]
    exact Nat.mod_eq_of_lt bound
  generalize (p &&& 0x3333333333333333#64) + ((p >>> 2) &&& 0x3333333333333333#64) = q at nibbles
  have bound := fits (fun b => (onesInByte b).length) fun b _ => (onesInByte_length b).trans_lt (by decide)
  rw [← lanes_counted small, mask] at bound ⊢
  rw [BitVec.toNat_and, BitVec.toNat_add, BitVec.toNat_ushiftRight, nibbles]
  have modulo := @Nat.and_mod_two_pow (lanes ((bytesOfWord x).map nibbleSums) +
    lanes ((bytesOfWord x).map nibbleSums) >>> 4) (lanes (List.replicate 8 0x0F)) 64
  rw [Nat.mod_eq_of_lt bound] at modulo
  exact modulo.symm

/-! ## The byte and the bit in it -/

/-- The set bits of each byte. -/
def countsOf (x : Word) : List Nat :=
  (bytesOfWord x).map fun b => (onesInByte b).length

@[simp] theorem countsOf_length (x : Word) : (countsOf x).length = 8 := by
  rw [countsOf, List.length_map]
  exact lanesOf_length 8 x.toNat

theorem countsOf_le (x : Word) : ∀ c ∈ countsOf x, c ≤ 8 := by
  intro c member
  obtain ⟨b, -, rfl⟩ := List.mem_map.mp member
  exact onesInByte_length b

theorem countsOf_take_sum (x : Word) (k : Nat) : ((countsOf x).take k).sum ≤ 8 * k := by
  have bound := List.sum_le_card_nsmul ((countsOf x).take k) 8 fun c member =>
    countsOf_le x c (List.mem_of_mem_take member)
  have few : ((countsOf x).take k).length ≤ k := List.length_take_le ..
  rw [smul_eq_mul] at bound
  omega

theorem countsOf_sum (x : Word) : (countsOf x).sum ≤ 64 := by
  have bound := countsOf_take_sum x 8
  rwa [List.take_of_length_le (countsOf_length x).le] at bound

theorem onesWord_toNat : onesWord.toNat = lanes (List.replicate 8 1) := by decide

/-- Byte `i` counts the set bits of bytes `0..=i`. -/
theorem sums_toNat (x : Word) : (byteCounts x * onesWord).toNat = lanes (running 0 (countsOf x)) := by
  have total := countsOf_sum x
  have product := lanes_running (countsOf x) 0 (by omega)
  rw [countsOf_length, Nat.zero_add] at product
  rw [BitVec.toNat_mul, byteCounts_toNat, onesWord_toNat]
  exact product

/-- The high bit of byte `i` is set where that count is at most `r`. -/
theorem atMost_toNat (x : Word) {r : Nat} (short : r < 64) :
    ((((BitVec.ofNat 64 r &&& 0x7F#64) * onesWord ||| (onesWord <<< 7)) - byteCounts x * onesWord) &&&
      (onesWord <<< 7)).toNat =
      128 * lanes ((running 0 (countsOf x)).map fun s => if s ≤ r then 1 else 0) := by
  have total := countsOf_sum x
  have sums := sums_toNat x
  have length : (running 0 (countsOf x)).length = 8 := by rw [running_length, countsOf_length]
  have small : ∀ s ∈ running 0 (countsOf x), s ≤ 64 := fun s member => by
    have bounds := (running_bounds (countsOf x) 0 s member).2
    omega
  have own : (running 0 (countsOf x)).map (fun s => s) = running 0 (countsOf x) := List.map_id' _
  have rank : ∀ r < 64, ((BitVec.ofNat 64 r &&& 0x7F#64) * onesWord ||| (onesWord <<< 7)).toNat =
      lanes (List.replicate 8 (128 + r)) := by decide +kernel
  have high : (onesWord <<< 7).toNat = lanes (List.replicate 8 128) := by decide
  have digit : ∀ r < 64, ∀ s < 65, 128 + r - s &&& 128 = 128 * if s ≤ r then 1 else 0 := by decide +kernel
  generalize running 0 (countsOf x) = ss at *
  have each : ∀ m, lanes (ss.map fun _ => m) = lanes (List.replicate 8 m) := fun m => by
    rw [List.map_const', length]
  have above : lanes ss ≤ lanes (ss.map fun _ => 128 + r) := by
    conv_lhs => rw [← own]
    exact lanes_le fun s member => by
      have bound := small s member
      omega
  have below : byteCounts x * onesWord ≤ (BitVec.ofNat 64 r &&& 0x7F#64) * onesWord ||| (onesWord <<< 7) := by
    rw [BitVec.le_def, sums, rank r short, ← each]
    exact above
  have difference : lanes (ss.map fun _ => 128 + r) - lanes (ss.map fun s => s) =
      lanes (ss.map fun s => 128 + r - s) := lanes_sub fun s member => by
    have bound := small s member
    omega
  rw [own] at difference
  rw [BitVec.toNat_and, BitVec.toNat_sub_of_le below, rank r short, sums, high, ← each, ← each, difference,
    lanes_and (by decide) (fun s _ => by omega), lanes_mul]
  congr 1
  exact List.map_congr_left fun s member => digit r short s (by have bound := small s member; omega)

/-- As many bytes' counts are at most the rank as bytes lie before the bit's. -/
theorem atMost_count (x : Word) {r k t : Nat} (within : k < 8) (less : t < (countsOf x).getD k 0)
    (split : r = ((countsOf x).take k).sum + t) (atMost : Word)
    (told : atMost.toNat = 128 * lanes ((running 0 (countsOf x)).map fun s => if s ≤ r then 1 else 0)) :
    (((atMost >>> 7) * onesWord) >>> 56).toNat = k := by
  have counted := @running_count (countsOf x) 0 k t (by rwa [countsOf_length]) less
  rw [Nat.zero_add, ← split] at counted
  have length : ((running 0 (countsOf x)).map fun s => if s ≤ r then 1 else 0).length = 8 := by
    rw [List.length_map, running_length, countsOf_length]
  generalize ((running 0 (countsOf x)).map fun s => if s ≤ r then 1 else 0) = flags at *
  have product := lanes_running flags 0 (by omega)
  have last := getD_running flags 0 8 (length ▸ Nat.le_refl _)
  have bytes : ∀ s ∈ running 0 flags, s < 2 ^ 8 := fun s member => by
    have bounds := (running_bounds flags 0 s member).2
    omega
  have top := lanes_byte bytes 7
  have whole := lanes_lt bytes
  rw [running_length, length] at whole
  rw [List.getD_cons_succ, List.take_of_length_le length.le, Nat.zero_add, counted] at last
  rw [length, Nat.zero_add] at product
  rw [BitVec.toNat_ushiftRight, BitVec.toNat_mul, BitVec.toNat_ushiftRight, told, onesWord_toNat,
    Nat.shiftRight_eq_div_pow, Nat.shiftRight_eq_div_pow, show (2 : Nat) ^ 7 = 128 by decide,
    Nat.mul_div_cancel_left _ (by decide)]
  rw [last] at top
  rw [product]
  omega

/-- The count of the bytes before byte `k`. -/
theorem before_toNat (x : Word) {k : Nat} (within : k < 8) :
    ((((byteCounts x * onesWord) <<< 8) >>> (8 * k)) &&& 0xFF#64).toNat = ((countsOf x).take k).sum := by
  have total := countsOf_sum x
  have bytes : ∀ s ∈ 0 :: running 0 (countsOf x), s < 2 ^ 8 := fun s member => by
    rcases List.mem_cons.mp member with rfl | later
    · decide
    · have bounds := (running_bounds (countsOf x) 0 s later).2
      omega
  have byte := lanes_byte bytes k
  rw [getD_running _ _ _ (by rw [countsOf_length]; omega), Nat.zero_add, lanes, Nat.zero_add] at byte
  rw [BitVec.toNat_and, BitVec.toNat_ushiftRight, BitVec.toNat_shiftLeft, sums_toNat, Nat.shiftLeft_eq,
    Nat.shiftRight_eq_div_pow, show (0xFF#64).toNat = 2 ^ 8 - 1 by decide, Nat.and_two_pow_sub_one_eq_mod,
    ← byte]
  generalize lanes (running 0 (countsOf x)) = n
  interval_cases k <;> omega

theorem byteAt_toNat (x : Word) {k : Nat} : ((x >>> (8 * k)) &&& 0xFF#64).toNat = (bytesOfWord x).getD k 0 := by
  have byte := lanes_byte (bytesOfWord_lt x) k
  rw [bytesOfWord, lanes_lanesOf 8 x.toNat x.isLt] at byte
  rw [BitVec.toNat_and, BitVec.toNat_ushiftRight, Nat.shiftRight_eq_div_pow,
    show (0xFF#64).toNat = 2 ^ 8 - 1 by decide, Nat.and_two_pow_sub_one_eq_mod, byte, bytesOfWord]

/-- The byte is the one the counts leave the rank to, and the bit the one its table has. -/
theorem selectInWord_eq (x : Word) {r k t : Nat} (within : k < 8)
    (less : t < (onesInByte ((bytesOfWord x).getD k 0)).length)
    (split : r = ((countsOf x).take k).sum + t) :
    selectInWord x r = 8 * k + (onesInByte ((bytesOfWord x).getD k 0)).getD t 0 := by
  have room : k < (bytesOfWord x).length := by rwa [bytesOfWord, lanesOf_length]
  have count : (countsOf x).getD k 0 = (onesInByte ((bytesOfWord x).getD k 0)).length := by
    rw [countsOf, List.getD_eq_getElem _ _ (by rwa [List.length_map]), List.getElem_map,
      List.getD_eq_getElem _ _ room]
  have few := onesInByte_length ((bytesOfWord x).getD k 0)
  have bound := countsOf_take_sum x k
  have short : r < 64 := by omega
  have byte := atMost_count x within (count ▸ less) split _ (atMost_toNat x short)
  have start : min (k * 8) 56 = 8 * k := by omega
  have rank : ((BitVec.ofNat 64 r - (((byteCounts x * onesWord) <<< 8) >>> (8 * k) &&& 0xFF#64)) &&&
      7#64).toNat = t := by
    have past := before_toNat x within
    rw [BitVec.toNat_and, BitVec.toNat_sub_of_le, past, BitVec.toNat_ofNat, Nat.mod_eq_of_lt (by omega),
      show (7#64).toNat = 2 ^ 3 - 1 by decide, Nat.and_two_pow_sub_one_eq_mod]
    · omega
    · rw [BitVec.le_def, past, BitVec.toNat_ofNat, Nat.mod_eq_of_lt (by omega)]
      omega
  rw [byteCounts] at byte rank
  rw [selectInWord]
  rw [byte, start, rank, byteAt_toNat]
  rfl

/-- **Selecting is exact**: below the set bits of a word, the `r`-th of them. -/
theorem selectInWord_exact {x : Word} {r : Nat} (inside : r < x.countOnes) :
    x.ones[r]? = some (selectInWord x r) := by
  have bits : x.ones = bitsFrom 0 (bytesOfWord x) := by
    rw [bytesOfWord, ← filter_lanesOf, ← List.range_eq_range', Word.ones]
    rfl
  have length : (bytesOfWord x).length = 8 := lanesOf_length 8 x.toNat
  rw [Word.countOnes, bits] at inside
  obtain ⟨k, t, within, less, split, got⟩ := bitsFrom_get (bytesOfWord x) 0 r inside
  rw [List.map_take] at split
  rw [bits, got, Nat.zero_add, selectInWord_eq x (length ▸ within) less split]

end Lexindex.Mphf

/-!
## Selecting from a sample is exact

From the position of one of the stream's ones the `skip`-th one after it is found, in the window of
words counted through or past it.
-/

namespace Lexindex

/-! ### Streams cut at a bit -/

theorem streamBit_drop (words : List Word) (w q : Nat) :
    streamBit (words.drop w) q = streamBit words (w * 64 + q) := by
  have place : (w * 64 + q) / 64 = w + q / 64 := by omega
  have bit : (w * 64 + q) % 64 = q % 64 := by omega
  rw [streamBit, streamBit, place, bit, List.getD_eq_getElem?_getD, List.getElem?_drop,
    ← List.getD_eq_getElem?_getD]

/-- A mask over the first word clears what is below its bit. -/
theorem streamBit_masked (words : List Word) {o : Nat} (short : o < 64) (q : Nat) :
    streamBit (words.modify 0 (· &&& (BitVec.allOnes 64 <<< o))) q = (decide (o ≤ q) && streamBit words q) := by
  cases words with
  | nil => simp [streamBit]
  | cons x words =>
      rw [List.modify_zero_cons, streamBit, streamBit]
      by_cases first : q < 64
      · have place : q / 64 = 0 := by omega
        have bit : q % 64 = q := by omega
        rw [place, bit, List.getD_cons_zero, List.getD_cons_zero, BitVec.getLsbD_and, Bool.and_comm,
          BitVec.getLsbD_shiftLeft, BitVec.getLsbD_allOnes]
        congr 1
        by_cases low : o ≤ q
        · simp [low, first]
          omega
        · simp [low]
      · obtain ⟨k, place⟩ : ∃ k, q / 64 = k + 1 := ⟨q / 64 - 1, by omega⟩
        rw [place, List.getD_cons_succ, List.getD_cons_succ, decide_eq_true (by omega), Bool.true_and]

end Lexindex

namespace Lexindex.Mphf.Remap

/-- Word by word, a one is where the counts leave it. -/
theorem beyondFrom_exact (words : List Word) : ∀ {w r p : Nat}, (streamOnesFrom w words)[r]? = some p →
    beyondFrom words w r = p := by
  induction words with
  | nil =>
      intro w r p got
      cases got
  | cons x words ih =>
      intro w r p got
      rw [streamOnesFrom] at got
      rw [beyondFrom]
      by_cases here : r < x.countOnes
      · rw [List.getElem?_append_left (by rwa [List.length_map]), List.getElem?_map, selectInWord_exact here,
          Option.map_some, Option.some.injEq] at got
        rw [if_pos here, got]
      · rw [List.getElem?_append_right (by rw [List.length_map]; exact Nat.le_of_not_lt here),
          List.length_map] at got
        rw [if_neg here]
        exact ih got

/-- Four words counted through at once are a walk over them. -/
theorem window_eq (a b c d : Word) (rest : List Word) (w0 skip : Nat) :
    (if skip < onesBefore [a, b, c, d] selectWords then do
      let w := ((List.range' 1 (selectWords - 1)).filter fun w => onesBefore [a, b, c, d] w ≤ skip).length
      let word ← [a, b, c, d][w]?
      pure ((w0 + w) * 64 + selectInWord word (skip - onesBefore [a, b, c, d] w))
    else some (beyondFrom rest (w0 + selectWords) (skip - onesBefore [a, b, c, d] selectWords)) : Option Nat) =
      some (beyondFrom (a :: b :: c :: d :: rest) w0 skip) := by
  have none_ : onesBefore [a, b, c, d] 0 = 0 := rfl
  have one : onesBefore [a, b, c, d] 1 = a.countOnes := by simp [onesBefore]
  have two : onesBefore [a, b, c, d] 2 = a.countOnes + b.countOnes := by simp [onesBefore]
  have three : onesBefore [a, b, c, d] 3 = a.countOnes + b.countOnes + c.countOnes := by
    simp [onesBefore, Nat.add_assoc]
  have four : onesBefore [a, b, c, d] selectWords =
      a.countOnes + b.countOnes + c.countOnes + d.countOnes := by
    simp [onesBefore, selectWords, Nat.add_assoc]
  have counted : ∀ w ≤ 3, (∀ v ∈ [1, 2, 3], onesBefore [a, b, c, d] v ≤ skip ↔ v ≤ w) →
      ((List.range' 1 (selectWords - 1)).filter fun w => onesBefore [a, b, c, d] w ≤ skip).length = w := by
    intro w most told
    have same : ((List.range' 1 (selectWords - 1)).filter fun w => onesBefore [a, b, c, d] w ≤ skip) =
        [1, 2, 3].filter fun v => v ≤ w :=
      List.filter_congr fun v member => decide_eq_decide.mpr (told v member)
    rw [same]
    interval_cases w <;> rfl
  simp only [List.mem_cons, List.not_mem_nil, or_false, forall_eq_or_imp, forall_eq, one, two, three] at counted
  simp only [beyondFrom]
  by_cases inA : skip < a.countOnes
  · rw [if_pos (by omega), if_pos inA, counted 0 (by decide) (by omega)]
    rfl
  rw [if_neg inA]
  by_cases inB : skip - a.countOnes < b.countOnes
  · rw [if_pos (by omega), if_pos inB, counted 1 (by decide) (by omega), one]
    rfl
  rw [if_neg inB]
  by_cases inC : skip - a.countOnes - b.countOnes < c.countOnes
  · rw [if_pos (by omega), if_pos inC, counted 2 (by decide) (by omega), two, ← Nat.sub_sub]
    rfl
  rw [if_neg inC]
  by_cases inD : skip - a.countOnes - b.countOnes - c.countOnes < d.countOnes
  · rw [if_pos (by omega), if_pos inD, counted 3 (by decide) (by omega), three, ← Nat.sub_sub, ← Nat.sub_sub]
    rfl
  · rw [if_neg (by omega), if_neg inD, four, ← Nat.sub_sub, ← Nat.sub_sub, ← Nat.sub_sub]
    rfl

/-- The window and what is past it are one walk over the words, the first of them masked. -/
theorem selectFrom_eq {r : Remap} {s : Nat} (inside : s / 64 + selectWords ≤ r.high.length) (skip : Nat) :
    r.selectFrom s skip = some (beyondFrom
      ((r.high.drop (s / 64)).modify 0 (· &&& (BitVec.allOnes 64 <<< (s % 64)))) (s / 64) skip) := by
  have read := window_some inside
  obtain ⟨a, b, c, d, rest, held⟩ : ∃ a b c d rest, r.high.drop (s / 64) = a :: b :: c :: d :: rest := by
    have length : selectWords ≤ (r.high.drop (s / 64)).length := by
      rw [List.length_drop]
      omega
    match r.high.drop (s / 64), length with
    | a :: b :: c :: d :: rest, _ => exact ⟨a, b, c, d, rest, rfl⟩
  have past : r.high.drop (s / 64 + selectWords) = rest := by
    rw [← List.drop_drop, held]
    rfl
  have walked := window_eq (a &&& (BitVec.allOnes 64 <<< (s % 64))) b c d rest (s / 64) skip
  rw [← past] at walked
  rw [held] at read ⊢
  rw [selectFrom, read, List.modify_zero_cons, ← past, ← walked]
  rfl

/-- The ones from a position on. -/
theorem streamOnes_from (words : List Word) (s : Nat) :
    streamOnesFrom (s / 64) ((words.drop (s / 64)).modify 0 (· &&& (BitVec.allOnes 64 <<< (s % 64)))) =
      (streamOnes words).filter fun p => decide (s ≤ p) := by
  refine List.Pairwise.eq_of_mem_iff (streamOnesFrom_sorted _ _) ((streamOnes_sorted words).filter _) fun p => ?_
  have low := Nat.mod_lt s (show 0 < 64 by decide)
  rw [List.mem_filter, mem_streamOnes, decide_eq_true_eq]
  constructor
  · intro member
    have start := (streamOnesFrom_bounds _ _ p member).1
    obtain ⟨q, rfl⟩ : ∃ q, p = s / 64 * 64 + q := ⟨p - s / 64 * 64, by omega⟩
    rw [mem_streamOnesFrom, streamBit_masked _ low, streamBit_drop, Bool.and_eq_true,
      decide_eq_true_eq] at member
    exact ⟨member.2, by omega⟩
  · rintro ⟨set, past⟩
    obtain ⟨q, rfl⟩ : ∃ q, p = s / 64 * 64 + q := ⟨p - s / 64 * 64, by omega⟩
    rw [mem_streamOnesFrom, streamBit_masked _ low, streamBit_drop, Bool.and_eq_true, decide_eq_true_eq]
    exact ⟨by omega, set⟩

/-- Those are the ones after the one at the position. -/
theorem filter_eq_drop {ones : List Nat} (sorted : ones.Pairwise (· < ·)) {i s : Nat} (here : ones[i]? = some s) :
    (ones.filter fun p => decide (s ≤ p)) = ones.drop i := by
  obtain ⟨inside, same⟩ := List.getElem?_eq_some_iff.mp here
  have before : (ones.take i).filter (fun p => decide (s ≤ p)) = [] := by
    rw [List.filter_eq_nil_iff]
    intro p member
    obtain ⟨j, short, rfl⟩ := List.mem_take_iff_getElem.mp member
    have less := List.pairwise_iff_getElem.mp sorted j i (by omega) inside (by omega)
    rw [decide_eq_true_eq]
    omega
  have after : (ones.drop i).filter (fun p => decide (s ≤ p)) = ones.drop i := by
    rw [List.filter_eq_self]
    intro p member
    obtain ⟨j, long, rfl⟩ := List.mem_drop_iff_getElem.mp member
    rw [decide_eq_true_eq]
    rcases Nat.eq_zero_or_pos j with rfl | positive
    · simp only [Nat.add_zero]
      omega
    · have less := List.pairwise_iff_getElem.mp sorted i (i + j) inside (by omega) (by omega)
      omega
  conv_lhs => rw [← List.take_append_drop i ones]
  rw [List.filter_append, before, after, List.nil_append]

/-- **Selecting from a sample is exact**, inside the window and past it. -/
theorem selectFrom_exact {r : Remap} {i s skip p : Nat} (inside : s / 64 + selectWords ≤ r.high.length)
    (sample : (streamOnes r.high)[i]? = some s) (wanted : (streamOnes r.high)[i + skip]? = some p) :
    r.selectFrom s skip = some p := by
  rw [selectFrom_eq inside]
  congr 1
  apply beyondFrom_exact
  rw [streamOnes_from, filter_eq_drop (streamOnes_sorted _) sample, List.getElem?_drop, wanted]

end Lexindex.Mphf.Remap
