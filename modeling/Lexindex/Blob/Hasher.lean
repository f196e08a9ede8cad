import Mathlib
import Lexindex.Blob
import Lexindex.Lib.Bits

/-!
# Checksums taken a part at a time

A payload is hashed as it is written.  Where a part ends inside a word, its bytes wait for those of
the next part, so the checksum does not say where the parts ended.
-/

set_option autoImplicit false

namespace Lexindex.Blob

/-- What a hasher keeps: the bytes of a word that is not whole yet are in `buf`. -/
structure BlockHasher where
  h : Nat
  buf : List UInt8
  total : Nat

namespace BlockHasher

/-- What an empty payload starts from. -/
def basis : Nat := 0x9e3779b97f4a7c15

def new : BlockHasher where
  h := basis
  buf := []
  total := 0

/-- The whole words of `bytes`, and what is left of it. -/
def words (s : BlockHasher) (bytes : List UInt8) : BlockHasher :=
  { s with
    h := (leWords 8 (bytes.length / 8) bytes).foldl hashWord s.h
    buf := bytes.drop (8 * (bytes.length / 8)) }

def update (s : BlockHasher) (bytes : List UInt8) : BlockHasher :=
  let s := { s with total := s.total + bytes.length }
  if 0 < s.buf.length then
    let take := min bytes.length (8 - s.buf.length)
    let buf := s.buf ++ bytes.take take
    if buf.length < 8 then { s with buf }
    else words { s with h := hashWord s.h (leNat buf), buf := [] } (bytes.drop take)
  else words s bytes

def finish (s : BlockHasher) : Nat :=
  let h :=
    if 0 < s.buf.length then
      hashWord s.h (leNat (s.buf ++ List.replicate (8 - s.buf.length) 0))
    else s.h
  finalize (h ^^^ s.total)

/-- The hasher has taken `bytes`: the whole words of it, and the rest waits. -/
structure Taken (s : BlockHasher) (bytes : List UInt8) : Prop where
  words : ∃ front count, bytes = front ++ s.buf ∧ front.length = 8 * count ∧
    s.h = (leWords 8 count front).foldl hashWord basis
  short : s.buf.length < 8
  total : s.total = bytes.length

theorem leWords_append (count : Nat) : ∀ {front back : List UInt8} {more : Nat},
    front.length = 8 * count →
      leWords 8 (count + more) (front ++ back) = leWords 8 count front ++ leWords 8 more back := by
  induction count with
  | zero =>
      intro front back more length
      obtain rfl : front = [] := List.eq_nil_of_length_eq_zero length
      rw [Nat.zero_add]
      rfl
  | succ count ih =>
      intro front back more length
      have first : count + 1 + more = count + more + 1 := by omega
      rw [first, leWords, leWords, List.take_append_of_le_length (by omega),
        List.drop_append_of_le_length (by omega),
        ih (by rw [List.length_drop]; omega), List.cons_append]

theorem leNat_zeros (bytes : List UInt8) (count : Nat) :
    leNat (bytes ++ List.replicate count 0) = leNat bytes := by
  induction bytes with
  | nil =>
      rw [List.nil_append]
      induction count with
      | zero => rfl
      | succ count ih =>
          change (0 : UInt8).toNat + 256 * leNat (List.replicate count 0) = 0
          rw [ih]
          rfl
  | cons byte bytes ih => rw [List.cons_append, leNat, leNat, ih]

theorem new_taken : Taken new [] where
  words := ⟨[], 0, rfl, rfl, rfl⟩
  short := by decide
  total := rfl

variable {s : BlockHasher} {bytes : List UInt8}

/-- Between words, a hasher takes what comes word by word. -/
theorem words_taken {front more : List UInt8} {count : Nat} (length : front.length = 8 * count)
    (hashed : s.h = (leWords 8 count front).foldl hashWord basis)
    (total : s.total = (front ++ more).length) : Taken (words s more) (front ++ more) where
  words := by
    refine ⟨front ++ more.take (8 * (more.length / 8)), count + more.length / 8, ?_, ?_, ?_⟩
    · rw [List.append_assoc, words, List.take_append_drop]
    · rw [List.length_append, length, List.length_take]
      omega
    · have cut : leWords 8 (more.length / 8) more =
          leWords 8 (more.length / 8) (more.take (8 * (more.length / 8))) := by
        have taken : (more.take (8 * (more.length / 8))).length = 8 * (more.length / 8) := by
          rw [List.length_take]
          omega
        have whole := @leWords_append (more.length / 8) (more.take (8 * (more.length / 8)))
          (more.drop (8 * (more.length / 8))) 0 taken
        rwa [Nat.add_zero, List.take_append_drop, leWords, List.append_nil] at whole
      rw [leWords_append count length, List.foldl_append, ← hashed, words, cut]
  short := by
    rw [words, List.length_drop]
    omega
  total := total

/-- What is taken goes on from what was. -/
theorem update_taken (taken : Taken s bytes) (more : List UInt8) :
    Taken (s.update more) (bytes ++ more) := by
  obtain ⟨⟨front, count, rfl, length, hashed⟩, short, total⟩ := taken
  rw [update]
  simp only
  split
  · next waiting =>
    split
    · next still =>
      rw [List.length_append, List.length_take] at still
      have all : more.take (min more.length (8 - s.buf.length)) = more :=
        List.take_of_length_le (by omega)
      refine ⟨⟨front, count, ?_, length, hashed⟩, ?_, ?_⟩
      · rw [all, List.append_assoc]
      · rw [all, List.length_append]
        omega
      · rw [List.length_append, total]
    · next full =>
      rw [List.length_append, List.length_take] at full
      have whole : front ++ s.buf ++ more =
          (front ++ (s.buf ++ more.take (min more.length (8 - s.buf.length)))) ++
            more.drop (min more.length (8 - s.buf.length)) := by
        simp only [List.append_assoc, List.take_append_drop]
      have eight : (s.buf ++ more.take (min more.length (8 - s.buf.length))).length = 8 := by
        rw [List.length_append, List.length_take]
        omega
      have lengths := congrArg List.length whole
      rw [whole]
      refine @words_taken _ _ _ (count + 1) ?_ ?_ ?_
      · rw [List.length_append, eight, length]
        omega
      · rw [leWords_append count length, List.foldl_append, ← hashed]
        have one : leWords 8 1 (s.buf ++ more.take (min more.length (8 - s.buf.length))) =
            [leNat (s.buf ++ more.take (min more.length (8 - s.buf.length)))] := by
          rw [leWords, leWords, List.take_of_length_le eight.le]
        rw [one, List.foldl_cons, List.foldl_nil]
      · rw [← lengths, List.length_append, total]
  · next empty =>
    have none : s.buf = [] := List.eq_nil_of_length_eq_zero (by omega)
    rw [none, List.append_nil]
    refine words_taken length hashed ?_
    rw [none, List.append_nil] at total
    rw [List.length_append, total]

theorem finish_taken (taken : Taken s bytes) : s.finish = hashBlock bytes := by
  obtain ⟨⟨front, count, rfl, length, hashed⟩, short, total⟩ := taken
  have whole : (front ++ s.buf).length = 8 * count + s.buf.length := by
    rw [List.length_append, length]
  rw [basis] at hashed
  rw [finish, hashBlock, total]
  split
  · next waiting =>
    have words : ((front ++ s.buf).length + 7) / 8 = count + 1 := by omega
    have last : leWords 8 1 s.buf = [leNat s.buf] := by
      rw [leWords, leWords, List.take_of_length_le short.le]
    rw [words, leWords_append count length, List.foldl_append, last, ← hashed, leNat_zeros, List.foldl_cons,
      List.foldl_nil]
  · next empty =>
    have none : s.buf = [] := List.eq_nil_of_length_eq_zero (by omega)
    have words : ((front ++ s.buf).length + 7) / 8 = count := by omega
    rw [words, none, List.append_nil, ← hashed]

/-- However a payload is cut, its checksum is that of the whole. -/
theorem finish_updates (parts : List (List UInt8)) :
    (parts.foldl update new).finish = hashBlock parts.flatten := by
  have taken : ∀ {s : BlockHasher} {bytes : List UInt8} (parts : List (List UInt8)),
      Taken s bytes → Taken (parts.foldl update s) (bytes ++ parts.flatten) := by
    intro s bytes parts
    induction parts generalizing s bytes with
    | nil => exact fun taken => (List.append_nil bytes).symm ▸ taken
    | cons part parts ih =>
        intro taken
        rw [List.foldl_cons, List.flatten_cons, ← List.append_assoc]
        exact ih (update_taken taken part)
  exact finish_taken (taken parts new_taken)

end BlockHasher

end Lexindex.Blob

/-!
## One word changed

Each step of the payload's checksum keeps apart two states that differ, and two words that differ: an
odd factor has an inverse, and a word that is mixed with its own upper bits is found again from the
top.  So two payloads that differ inside one word have different checksums, whatever follows it.
-/

namespace Lexindex.Blob

/-- The upper bits are there, and each bit below is found from one further up. -/
theorem xorShift_inj {s x y : Nat} (some_ : 0 < s) (high : x / 2 ^ 64 = y / 2 ^ 64)
    (same : (x ^^^ (x >>> s)) % 2 ^ 64 = (y ^^^ (y >>> s)) % 2 ^ 64) : x = y := by
  have above : ∀ i, 64 ≤ i → x.testBit i = y.testBit i := by
    intro i top
    obtain ⟨k, rfl⟩ := Nat.exists_eq_add_of_le top
    rw [Nat.add_comm, ← Nat.testBit_div_two_pow, ← Nat.testBit_div_two_pow, high]
  have down : ∀ k i, 64 ≤ i + k → x.testBit i = y.testBit i := by
    intro k
    induction k with
    | zero => exact above
    | succ k ih =>
        intro i reach
        rcases Nat.lt_or_ge i 64 with low | top
        · have bits := congrArg (fun z => z.testBit i) same
          simp only [Nat.testBit_mod_two_pow, Nat.testBit_xor, Nat.testBit_shiftRight, low,
            decide_true, Bool.true_and] at bits
          rw [ih (s + i) (by omega)] at bits
          exact Bool.xor_left_inj.mp bits
        · exact above i top
  exact Nat.eq_of_testBit_eq fun i => down 64 i (Nat.le_add_left ..)

theorem xorShift_inj_word {s x y : Nat} (some_ : 0 < s) (xLt : x < 2 ^ 64) (yLt : y < 2 ^ 64)
    (same : x ^^^ (x >>> s) = y ^^^ (y >>> s)) : x = y := by
  refine xorShift_inj some_ ?_ (congrArg (· % 2 ^ 64) same)
  rw [Nat.div_eq_of_lt xLt, Nat.div_eq_of_lt yLt]

theorem mul_inj {c x y : Nat} (odd : Nat.Coprime (2 ^ 64) c) (same : x * c % 2 ^ 64 = y * c % 2 ^ 64) :
    x % 2 ^ 64 = y % 2 ^ 64 :=
  Nat.ModEq.cancel_right_of_coprime odd same

theorem hashWord_lt (h w : Nat) : hashWord h w < 2 ^ 64 := by
  rw [hashWord]
  refine Nat.xor_lt_two_pow (Nat.mod_lt _ (by decide)) ?_
  rw [Nat.shiftRight_eq_div_pow]
  exact (Nat.div_le_self ..).trans_lt (Nat.mod_lt _ (by decide))

/-- What goes into a step comes out of it. -/
theorem hashWord_inj {h w h' w' : Nat} (hLt : h < 2 ^ 64) (wLt : w < 2 ^ 64) (hLt' : h' < 2 ^ 64)
    (wLt' : w' < 2 ^ 64) (same : hashWord h w = hashWord h' w') : h ^^^ w = h' ^^^ w' := by
  have mixed := mul_inj (by decide)
    (xorShift_inj_word (by decide) (Nat.mod_lt _ (by decide)) (Nat.mod_lt _ (by decide)) same)
  rwa [Nat.mod_eq_of_lt (Nat.xor_lt_two_pow hLt wLt), Nat.mod_eq_of_lt (Nat.xor_lt_two_pow hLt' wLt')]
    at mixed

theorem foldl_hashWord_lt {h : Nat} (hLt : h < 2 ^ 64) (words : List Nat) :
    words.foldl hashWord h < 2 ^ 64 := by
  induction words generalizing h with
  | nil => exact hLt
  | cons w words ih => exact ih (hashWord_lt h w)

/-- Later words do not bring two states together. -/
theorem foldl_hashWord_inj {words : List Nat} (small : ∀ w ∈ words, w < 2 ^ 64) : ∀ {h h' : Nat},
    h < 2 ^ 64 → h' < 2 ^ 64 → words.foldl hashWord h = words.foldl hashWord h' → h = h' := by
  induction words with
  | nil => exact fun _ _ same => same
  | cons w words ih =>
      intro h h' hLt hLt' same
      obtain ⟨wLt, small⟩ := List.forall_mem_cons.mp small
      have states := ih small (hashWord_lt h w) (hashWord_lt h' w) same
      exact Nat.xor_left_injective (hashWord_inj hLt wLt hLt' wLt states)

theorem finalize_inj {x y : Nat} (high : x / 2 ^ 64 = y / 2 ^ 64) (same : finalize x = finalize y) :
    x = y := by
  have second := mul_inj (by decide)
    (xorShift_inj_word (by decide) (Nat.mod_lt _ (by decide)) (Nat.mod_lt _ (by decide)) same)
  have first := mul_inj (by decide) (xorShift_inj (by decide)
    (by rw [Nat.div_eq_of_lt (Nat.mod_lt _ (by decide)), Nat.div_eq_of_lt (Nat.mod_lt _ (by decide))])
    second)
  exact xorShift_inj (by decide) high first

theorem finalize_lt (h : Nat) : finalize h < 2 ^ 64 := by
  rw [finalize]
  refine Nat.xor_lt_two_pow (Nat.mod_lt _ (by decide)) ?_
  rw [Nat.shiftRight_eq_div_pow]
  exact (Nat.div_le_self ..).trans_lt (Nat.mod_lt _ (by decide))

/-! ### Payloads -/

/-- A payload cut at one word: those before it, the word, and those after it. -/
theorem foldl_words {front word back : List UInt8} {count : Nat} (length : front.length = 8 * count)
    (some_ : 0 < word.length) (short : word.length ≤ 8) (last : word.length = 8 ∨ back = []) (h : Nat) :
    (leWords 8 (((front ++ word ++ back).length + 7) / 8) (front ++ word ++ back)).foldl hashWord h =
      (leWords 8 ((back.length + 7) / 8) back).foldl hashWord
        (hashWord ((leWords 8 count front).foldl hashWord h) (leNat word)) := by
  have counts : ((front ++ word ++ back).length + 7) / 8 = count + (1 + (back.length + 7) / 8) := by
    rw [List.length_append, List.length_append, length]
    rcases last with whole | rfl
    · omega
    · rw [List.length_nil]
      omega
  have one : leWords 8 (1 + (back.length + 7) / 8) (word ++ back) =
      leNat word :: leWords 8 ((back.length + 7) / 8) back := by
    rw [Nat.add_comm 1, leWords]
    rcases last with whole | rfl
    · rw [List.take_left' whole, List.drop_left' whole]
    · rw [List.append_nil, List.take_of_length_le short, List.drop_eq_nil_of_le short]
  rw [counts, List.append_assoc, BlockHasher.leWords_append count length, one, List.foldl_append,
    List.foldl_cons]

/-- Payloads that differ inside one word have different checksums. -/
theorem hashBlock_ne {front word word' back : List UInt8} {count : Nat}
    (length : front.length = 8 * count) (same : word.length = word'.length) (short : word.length ≤ 8)
    (last : word.length = 8 ∨ back = []) (apart : word ≠ word') :
    hashBlock (front ++ word ++ back) ≠ hashBlock (front ++ word' ++ back) := by
  have some_ : 0 < word.length := by
    rw [List.length_pos_iff]
    rintro rfl
    exact apart (List.eq_nil_of_length_eq_zero same.symm).symm
  have total : (front ++ word ++ back).length = (front ++ word' ++ back).length := by
    simp only [List.length_append, same]
  have small : ∀ {bytes : List UInt8}, bytes.length ≤ 8 → leNat bytes < 2 ^ 64 := by
    intro bytes few
    exact (leNat_lt bytes).trans_le (Nat.pow_le_pow_right (by decide) few)
  have basisLt : 0x9e3779b97f4a7c15 < 2 ^ 64 := by decide
  intro equal
  rw [hashBlock, hashBlock, foldl_words length some_ short last,
    foldl_words length (same ▸ some_) (same ▸ short) (same ▸ last), ← total] at equal
  have before := foldl_hashWord_lt basisLt (leWords 8 count front)
  generalize (leWords 8 count front).foldl hashWord 0x9e3779b97f4a7c15 = h at equal before
  have words : ∀ w ∈ leWords 8 ((back.length + 7) / 8) back, w < 2 ^ 64 := fun w member =>
    leWords_lt 8 _ _ w member
  have lower : ∀ w, (leWords 8 ((back.length + 7) / 8) back).foldl hashWord (hashWord h w) < 2 ^ 64 :=
    fun w => foldl_hashWord_lt (hashWord_lt h w) _
  generalize (front ++ word ++ back).length = size at equal
  have high : ∀ w, ((leWords 8 ((back.length + 7) / 8) back).foldl hashWord (hashWord h w) ^^^ size) / 2 ^ 64 =
      size / 2 ^ 64 := by
    intro w
    rw [Nat.xor_div_two_pow, Nat.div_eq_of_lt (lower w), Nat.zero_xor]
  have folded := Nat.xor_left_injective (finalize_inj ((high _).trans (high _).symm) equal)
  have mixed := foldl_hashWord_inj words (hashWord_lt ..) (hashWord_lt ..) folded
  have word_ := hashWord_inj before (small short) before (small (same ▸ short)) mixed
  exact apart (leNat_inj same (Nat.xor_right_injective word_))

/-- The same of payloads compared byte by byte. -/
theorem hashBlock_ne_of_word {bytes others : List UInt8} (word : Nat)
    (length : bytes.length = others.length) (same : ∀ i, i / 8 ≠ word → bytes[i]? = others[i]?) (apart : bytes ≠ others) :
    hashBlock bytes ≠ hashBlock others := by
  have front : bytes.take (8 * word) = others.take (8 * word) := by
    refine List.ext_getElem? fun i => ?_
    rw [List.getElem?_take, List.getElem?_take]
    split
    · exact same i (by omega)
    · rfl
  have back : bytes.drop (8 * word + 8) = others.drop (8 * word + 8) := by
    refine List.ext_getElem? fun i => ?_
    rw [List.getElem?_drop, List.getElem?_drop]
    exact same _ (by omega)
  have cut : ∀ bytes : List UInt8, bytes =
      bytes.take (8 * word) ++ (bytes.drop (8 * word)).take 8 ++ bytes.drop (8 * word + 8) := by
    intro bytes
    rw [List.append_assoc, ← List.drop_drop, List.take_append_drop, List.take_append_drop]
  have sizes : ((bytes.drop (8 * word)).take 8).length = ((others.drop (8 * word)).take 8).length := by
    simp only [List.length_take, List.length_drop, length]
  have middle : (bytes.drop (8 * word)).take 8 ≠ (others.drop (8 * word)).take 8 := by
    intro equal
    refine apart ?_
    rw [cut bytes, cut others, front, equal, back]
  have reach : 8 * word ≤ bytes.length := by
    by_contra past
    refine middle ?_
    rw [List.drop_eq_nil_of_le (by omega), List.drop_eq_nil_of_le (by omega)]
  have count : (bytes.take (8 * word)).length = 8 * word := by
    rw [List.length_take, Nat.min_eq_left reach]
  have last : ((bytes.drop (8 * word)).take 8).length = 8 ∨ bytes.drop (8 * word + 8) = [] := by
    rw [List.length_take, List.length_drop, List.drop_eq_nil_iff]
    omega
  rw [cut bytes, cut others, ← front, ← back]
  exact hashBlock_ne count sizes (List.length_take_le ..) last middle

end Lexindex.Blob
