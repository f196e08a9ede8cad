import Mathlib
import Lexindex.DictIndex.Lcp
import Lexindex.Lib.Bits
import Lexindex.Lib.Utf8

/-!
# Comparing a word at a time

A scan compares an entry's suffix with what is left of the probe a word at a time, as the suffix
is decoded.  The probe's bytes are one load where eight remain; past its last whole word they are
its last eight bytes, taken once a walk and shifted down, with zeros above them.  The mask keeps
those zeros, and what a word holds above its own bytes, out of the answer.
-/

set_option autoImplicit false

namespace Lexindex.DictIndex

open Fsst (lowMask foldl_or_eq)

/-- A key's last eight bytes in a word, or the whole key when it is shorter. -/
def tailWord (key : List UInt8) : Nat :=
  if 8 ≤ key.length then leNat (key.drop (key.length - 8))
  else key.zipIdx.foldl (fun w (b, k) => w ||| b.toNat <<< (8 * k)) 0

/-- What a compare has left of the probe: the whole key, and where the compare starts. -/
structure Rest where
  key : List UInt8
  at_ : Nat
  /-- The key's last word, read once a walk. -/
  tail : Nat
  inside : at_ ≤ key.length
  told : tail = tailWord key

def Rest.len (rest : Rest) : Nat :=
  rest.key.length - rest.at_

/-- The eight bytes at `at + c`, with zeros past the key. -/
def Rest.word (rest : Rest) (c : Nat) : Nat :=
  let i := rest.at_ + c
  if i + 8 ≤ rest.key.length then leNat ((rest.key.drop i).take 8)
  else
    let shift := 8 * (i - (rest.key.length - 8))
    if shift < 64 then rest.tail >>> shift else 0

def Rest.bytes (rest : Rest) : List UInt8 :=
  rest.key.drop rest.at_

/-- The suffix's next `len` bytes against the probe from `c`: none while they agree, and how far
that is, or the answer. -/
def compareWord (word len : Nat) (rest : Rest) (c : Nat) : Option (Nat × Ordering) × Nat :=
  let m := min len (rest.len - c)
  let theirs := rest.word c
  let x := (word ^^^ theirs) &&& lowMask m
  if x ≠ 0 then
    let d := trailingZeros x / 8
    (some (c + d, compare ((word >>> (8 * d)) % 256) ((theirs >>> (8 * d)) % 256)), c)
  else if m < len then (some (c + m, .gt), c + m)
  else (none, c + m)

/-- The words of a suffix in turn, until one decides. -/
def compareFrom : List (Nat × Nat) → Rest → Nat → Option (Nat × Ordering) × Nat
  | [], _, c => (none, c)
  | (word, len) :: words, rest, c =>
      match compareWord word len rest c with
      | (some answer, c) => (some answer, c)
      | (none, c) => compareFrom words rest c

/-- How a suffix that ran out orders. -/
def ended (c : Nat) (rest : Rest) : Nat × Ordering :=
  (c, if c = rest.len then .eq else .lt)

/-- A whole suffix against the probe. -/
def compareWords (words : List (Nat × Nat)) (rest : Rest) : Nat × Ordering :=
  match compareFrom words rest 0 with
  | (some answer, _) => answer
  | (none, c) => ended c rest

/-! ## Byte by byte -/

/-- A suffix cut into words of up to eight bytes.  What a word holds above its own is anything. -/
inductive Cut : List (Nat × Nat) → List UInt8 → Prop
  | nil : Cut [] []
  | cons {word len : Nat} {part suffix : List UInt8} {words : List (Nat × Nat)}
      (sized : part.length = len) (short : len ≤ 8) (fits : word < 2 ^ 64)
      (low : word % 2 ^ (8 * len) = leNat part) (later : Cut words suffix) :
      Cut ((word, len) :: words) (part ++ suffix)

def byteOrder (a b : List UInt8) : Ordering :=
  if a < b then .lt else if a = b then .eq else .gt

theorem byteOrder_append (front a b : List UInt8) :
    byteOrder (front ++ a) (front ++ b) = byteOrder a b := by
  simp only [byteOrder, append_lt_append_iff, List.append_cancel_left_eq]

theorem byteOrder_cons {x y : UInt8} (apart : x ≠ y) (a b : List UInt8) :
    byteOrder (x :: a) (y :: b) = compare x.toNat y.toNat := by
  have numbers : x.toNat ≠ y.toNat := fun same => apart (UInt8.toNat_inj.mp same)
  have below : x :: a < y :: b ↔ x.toNat < y.toNat := by
    rw [List.cons_lt_cons_iff, UInt8.lt_iff_toNat_lt]
    exact ⟨fun either => either.resolve_right fun same => apart same.1, .inl⟩
  have other : x :: a ≠ y :: b := fun same => apart (List.cons.inj same).1
  rw [byteOrder]
  by_cases less : x.toNat < y.toNat
  · rw [if_pos (below.mpr less), Nat.compare_eq_lt.mpr less]
  · rw [if_neg (fun lower => less (below.mp lower)), if_neg other, Nat.compare_eq_gt.mpr (by omega)]

theorem byteOrder_front {front a : List UInt8} (some_ : a ≠ []) : byteOrder (front ++ a) front = .gt := by
  have cut := byteOrder_append front a []
  rw [List.append_nil] at cut
  rw [cut, byteOrder, if_neg (List.not_lt_nil a), if_neg some_]

theorem common_append (front a b : List UInt8) :
    common (front ++ a) (front ++ b) = front.length + common a b := by
  induction front with
  | nil => rw [List.nil_append, List.nil_append, List.length_nil, Nat.zero_add]
  | cons x front ih =>
      rw [List.cons_append, List.cons_append, common, if_pos rfl, ih, List.length_cons]
      omega

theorem common_front (front a : List UInt8) : common (front ++ a) front = front.length := by
  have cut := common_append front a []
  rw [List.append_nil] at cut
  rw [cut]
  cases a <;> rfl

theorem front_common (front a : List UInt8) : common front (front ++ a) = front.length := by
  rw [common_comm, common_front]

/-- Where the first bytes that differ stand, and in what order. -/
theorem first_apart {a b : List UInt8} {d : Nat} (same : a.take d = b.take d) (left : d < a.length)
    (right : d < b.length) (apart : a[d] ≠ b[d]) :
    common a b = d ∧ byteOrder a b = compare a[d].toNat b[d].toNat := by
  have cutA : a = a.take d ++ a[d] :: a.drop (d + 1) := by
    rw [List.cons_getElem_drop_succ, List.take_append_drop]
  have cutB : b = a.take d ++ b[d] :: b.drop (d + 1) := by
    rw [same, List.cons_getElem_drop_succ, List.take_append_drop]
  have front : (a.take d).length = d := List.length_take_of_le left.le
  constructor
  · calc common a b
        = common (a.take d ++ a[d] :: a.drop (d + 1)) (a.take d ++ b[d] :: b.drop (d + 1)) := by
          rw [← cutA, ← cutB]
      _ = d := by rw [common_append, front, common, if_neg apart, Nat.add_zero]
  · calc byteOrder a b
        = byteOrder (a.take d ++ a[d] :: a.drop (d + 1)) (a.take d ++ b[d] :: b.drop (d + 1)) := by
          rw [← cutA, ← cutB]
      _ = _ := by rw [byteOrder_append, byteOrder_cons apart]

/-! ## Words of the probe -/

theorem tailWord_eq (key : List UInt8) : tailWord key = leNat (key.drop (key.length - 8)) := by
  rw [tailWord]
  split
  · rfl
  · next short =>
      rw [foldl_or_eq _ (show 0 < 256 ^ 0 by decide), pow_zero, one_mul, Nat.zero_add,
        Nat.sub_eq_zero_of_le (by omega), List.drop_zero]

/-- The bytes of the probe from a place on, however the word is loaded. -/
theorem Rest.word_eq (rest : Rest) {c : Nat} (inside : c ≤ rest.len) :
    rest.word c = leNat ((rest.bytes.drop c).take 8) := by
  have start := rest.inside
  rw [Rest.len] at inside
  rw [Rest.word, Rest.bytes, List.drop_drop]
  by_cases whole : rest.at_ + c + 8 ≤ rest.key.length
  · rw [if_pos whole]
  rw [if_neg whole]
  have few : ((rest.key.drop (rest.at_ + c)).take 8) = rest.key.drop (rest.at_ + c) := by
    apply List.take_of_length_le
    rw [List.length_drop]
    omega
  rw [few]
  have reach : rest.key.length - 8 + (rest.at_ + c - (rest.key.length - 8)) = rest.at_ + c := by omega
  by_cases near : 8 * (rest.at_ + c - (rest.key.length - 8)) < 64
  · rw [if_pos near, rest.told, tailWord_eq, ← leNat_drop, List.drop_drop, reach]
  · rw [if_neg near, List.drop_eq_nil_of_le (by omega)]
    rfl

theorem lowMask_and (x : Nat) {m : Nat} (short : m ≤ 8) : x &&& lowMask m = x % 2 ^ (8 * m) := by
  rw [lowMask, Nat.min_eq_left short, show (256 : Nat) = 2 ^ 8 by decide, ← pow_mul,
    Nat.and_two_pow_sub_one_eq_mod]

/-- The masked difference shows the bytes in which a part and the probe differ. -/
theorem shows_compared {word len m : Nat} {part bytes : List UInt8} (sized : part.length = len)
    (short : len ≤ 8) (low : word % 2 ^ (8 * len) = leNat part) (fewer : m = min len bytes.length) :
    Shows part bytes m 0 ((word ^^^ leNat (bytes.take 8)) &&& lowMask m) := by
  have most : m ≤ 8 := by omega
  rw [lowMask_and _ most]
  refine ⟨?_, fun k j small near => ?_⟩
  · exact (Nat.mod_lt _ (by positivity)).trans_le (Nat.pow_le_pow_right (by decide) (by omega))
  rw [Nat.testBit_mod_two_pow, Nat.zero_add]
  by_cases within : k < m
  · have mine : word.testBit (8 * k + j) = (part.getD k 0).toNat.testBit j := by
      rw [← leNat_testBit part k j small, ← low, Nat.testBit_mod_two_pow,
        decide_eq_true (show 8 * k + j < 8 * len by omega), Bool.true_and]
    have theirs : (leNat (bytes.take 8)).testBit (8 * k + j) = (bytes.getD k 0).toNat.testBit j := by
      rw [leNat_testBit _ k j small, List.getD_eq_getElem?_getD, List.getElem?_take_of_lt near,
        ← List.getD_eq_getElem?_getD]
    rw [decide_eq_true (show 8 * k + j < 8 * m by omega), decide_eq_true within, Bool.true_and,
      Bool.true_and, Nat.testBit_xor, mine, theirs, differ, Nat.testBit_xor]
  · rw [decide_eq_false (show ¬ 8 * k + j < 8 * m by omega), decide_eq_false within, Bool.false_and,
      Bool.false_and]

theorem byte_of_word {word len d : Nat} {part : List UInt8} (sized : part.length = len)
    (low : word % 2 ^ (8 * len) = leNat part) (inside : d < part.length) :
    (word >>> (8 * d)) % 256 = part[d].toNat := by
  refine Nat.eq_of_testBit_eq fun j => ?_
  rw [show (256 : Nat) = 2 ^ 8 by decide, Nat.testBit_mod_two_pow, Nat.testBit_shiftRight]
  by_cases small : j < 8
  · have bit := leNat_testBit part d j small
    rw [List.getD_eq_getElem _ _ inside] at bit
    rw [decide_eq_true small, Bool.true_and, ← bit, ← low, Nat.testBit_mod_two_pow,
      decide_eq_true (show 8 * d + j < 8 * len by omega), Bool.true_and]
  · rw [decide_eq_false small, Bool.false_and, Nat.testBit_lt_two_pow]
    exact part[d].toNat_lt.trans_le (Nat.pow_le_pow_right (by decide) (by omega))

/-! ## One word and a run of them -/

/-- What a compare of `suffix` with `bytes` may come to, from `c` on. -/
def Answers (suffix bytes : List UInt8) (c : Nat) : Option (Nat × Ordering) × Nat → Prop
  | (some (n, order), _) => n = c + common suffix bytes ∧ order = byteOrder suffix bytes
  | (none, c') => c' = c + suffix.length ∧ suffix <+: bytes

/-- One word decides the order, or has the part in front of the probe. -/
theorem compareWord_spec (rest : Rest) {word len c : Nat} {part : List UInt8}
    (sized : part.length = len) (short : len ≤ 8) (low : word % 2 ^ (8 * len) = leNat part)
    (inside : c ≤ rest.len) (suffix : List UInt8) :
    (∃ answer c', compareWord word len rest c = (some answer, c') ∧
      Answers (part ++ suffix) (rest.bytes.drop c) c (some answer, c')) ∨
    compareWord word len rest c = (none, c + len) ∧ part <+: rest.bytes.drop c := by
  have left : (rest.bytes.drop c).length = rest.len - c := by
    rw [List.length_drop, Rest.bytes, List.length_drop, Rest.len]
  rw [compareWord, rest.word_eq inside, ← left]
  generalize rest.bytes.drop c = bytes
  have shows_ := @shows_compared word len _ part bytes sized short low rfl
  generalize (word ^^^ leNat (bytes.take 8)) &&& lowMask (min len bytes.length) = x at shows_
  by_cases differs : x = 0
  · subst differs
    rw [if_neg (fun other => other rfl)]
    have agree : part.take (min len bytes.length) = bytes.take (min len bytes.length) := by
      apply List.ext_getElem
      · rw [List.length_take, List.length_take]
        omega
      · intro k here there
        rw [List.length_take] at here there
        have byte := shows_.same (k := k) (by omega) (by omega)
        rw [Nat.zero_add, List.getD_eq_getElem _ _ (by omega), List.getD_eq_getElem _ _ (by omega)] at byte
        rwa [List.getElem_take, List.getElem_take]
    by_cases outruns : min len bytes.length < len
    · -- The probe ends inside the part.
      rw [if_pos outruns]
      refine .inl ⟨_, _, rfl, ?_⟩
      have ends_ : min len bytes.length = bytes.length := by omega
      rw [ends_, List.take_of_length_le (Nat.le_refl bytes.length)] at agree
      have cut : part ++ suffix = bytes ++ (part.drop bytes.length ++ suffix) := by
        rw [← List.append_assoc]
        congr 1
        conv_lhs => rw [← List.take_append_drop bytes.length part, agree]
      have more : part.drop bytes.length ++ suffix ≠ [] := by
        intro none_
        have length := congrArg List.length none_
        rw [List.length_append, List.length_drop, List.length_nil] at length
        omega
      rw [cut, ends_]
      exact ⟨by rw [common_front], (byteOrder_front more).symm⟩
    · rw [if_neg outruns]
      have whole : min len bytes.length = len := by omega
      rw [whole, List.take_of_length_le sized.le] at agree
      refine .inr ⟨by rw [whole], ?_⟩
      rw [agree]
      exact List.take_prefix len bytes
  · rw [if_pos differs]
    refine .inl ⟨_, _, rfl, ?_⟩
    obtain ⟨within, apart, before⟩ := shows_.first differs
    rw [Nat.zero_add] at within apart
    generalize trailingZeros x / 8 = d at within apart before
    have mine : d < part.length := by omega
    have theirs : d < bytes.length := by omega
    rw [List.getD_eq_getElem _ _ mine, List.getD_eq_getElem _ _ theirs] at apart
    have agree : (part ++ suffix).take d = bytes.take d := by
      rw [List.take_append_of_le_length mine.le]
      apply List.ext_getElem
      · rw [List.length_take, List.length_take]
        omega
      · intro k here there
        rw [List.length_take] at here there
        have byte := before k (by omega)
        rw [Nat.zero_add, List.getD_eq_getElem _ _ (by omega), List.getD_eq_getElem _ _ (by omega)] at byte
        rwa [List.getElem_take, List.getElem_take]
    have inJoined : d < (part ++ suffix).length := by
      rw [List.length_append]
      omega
    have joined : (part ++ suffix)[d] = part[d] := List.getElem_append_left mine
    obtain ⟨length, order⟩ := first_apart agree inJoined theirs
      (by rw [joined]; exact apart)
    have taken : d < (bytes.take 8).length := by
      rw [List.length_take]
      omega
    have window : leNat (bytes.take 8) % 2 ^ (8 * (bytes.take 8).length) = leNat (bytes.take 8) :=
      Nat.mod_eq_of_lt (leNat_lt_bits _)
    refine ⟨by rw [length], ?_⟩
    rw [order, joined, byte_of_word sized low mine, byte_of_word rfl window taken, List.getElem_take]

theorem compareFrom_spec (rest : Rest) {words : List (Nat × Nat)} {suffix : List UInt8}
    (cut : Cut words suffix) : ∀ {c : Nat}, c ≤ rest.len →
      Answers suffix (rest.bytes.drop c) c (compareFrom words rest c) := by
  induction cut with
  | nil =>
      intro c _
      exact ⟨rfl, List.nil_prefix⟩
  | @cons word len part suffix words sized short fits low later ih =>
      intro c inside
      rw [compareFrom]
      obtain ⟨answer, c', decided, answers⟩ | ⟨goesOn, front⟩ :=
        compareWord_spec rest sized short low inside suffix
      · rw [decided]
        exact answers
      · rw [goesOn]
        obtain ⟨left, same⟩ := front
        have length := congrArg List.length same
        rw [List.length_append, List.length_drop, Rest.bytes, List.length_drop] at length
        have further : c + len ≤ rest.len := by
          rw [Rest.len] at inside ⊢
          omega
        have after : rest.bytes.drop (c + len) = left := by
          rw [← List.drop_drop, ← same, ← sized, List.drop_left]
        have answers := ih further
        rw [after] at answers
        rw [← same]
        change Answers (part ++ suffix) (part ++ left) c (compareFrom words rest (c + len))
        generalize compareFrom words rest (c + len) = result at answers
        obtain ⟨_ | ⟨n, order⟩, c'⟩ := result
        · refine ⟨?_, (List.prefix_append_right_inj part).mpr answers.2⟩
          rw [answers.1, List.length_append, sized]
          omega
        · refine ⟨?_, ?_⟩
          · rw [answers.1, common_append, sized]
            omega
          · rw [answers.2, byteOrder_append]

/-- A whole suffix's answer: what it shares with the probe, and how the two order. -/
theorem compareWords_eq (rest : Rest) {words : List (Nat × Nat)} {suffix : List UInt8}
    (cut : Cut words suffix) :
    compareWords words rest = (common suffix rest.bytes, byteOrder suffix rest.bytes) := by
  have answers := compareFrom_spec rest cut (Nat.zero_le _)
  rw [List.drop_zero] at answers
  rw [compareWords]
  generalize compareFrom words rest 0 = result at answers
  obtain ⟨_ | ⟨n, order⟩, c⟩ := result
  · obtain ⟨ran, left, same⟩ := answers
    rw [Nat.zero_add] at ran
    have length : rest.len = suffix.length + left.length := by
      rw [Rest.len, ← List.length_drop, ← List.length_append, same, Rest.bytes]
    have order := byteOrder_append suffix [] left
    rw [List.append_nil] at order
    change ended c rest = _
    rw [← same, front_common, order, ended, ran, length]
    cases left with
    | nil => rw [List.length_nil, Nat.add_zero, if_pos rfl]; rfl
    | cons byte left => rw [List.length_cons, if_neg (by omega), byteOrder, if_pos (List.nil_lt_cons _ _)]
  · change (n, order) = _
    rw [answers.1, answers.2, Nat.zero_add]

/-- **Comparing by words is comparing by bytes.**  `lcp` is what two keys share, and a suffix cut
into words in any way answers, where it decides, what it shares with the rest of the probe and
their order, and otherwise is in front of it. -/
theorem words_compare_bytes :
    (∀ a b : List UInt8, lcp a b = common a b) ∧
    ∀ (rest : Rest) (words : List (Nat × Nat)) (suffix : List UInt8), Cut words suffix →
      Answers suffix rest.bytes 0 (compareFrom words rest 0) ∧
      compareWords words rest = (common suffix rest.bytes, byteOrder suffix rest.bytes) := by
  refine ⟨lcp_eq, fun rest words suffix cut => ⟨?_, compareWords_eq rest cut⟩⟩
  have answers := compareFrom_spec rest cut (Nat.zero_le _)
  rwa [List.drop_zero] at answers

/-- The probe `x\x00y` from its second byte, against a NUL and the zeros above it. -/
theorem words_compare_bytes_nul :
    lcp [120, 0] [120] = common [120, 0] [120] ∧
    ∃ rest : Rest, rest.bytes = [0, 121] ∧
      compareWords [(0, 1), (0, 0), (0, 1)] rest =
        (common [0, 0] rest.bytes, byteOrder [0, 0] rest.bytes) := by
  refine ⟨words_compare_bytes.1 _ _,
    ⟨[120, 0, 121], 1, tailWord [120, 0, 121], by decide, rfl⟩, rfl, ?_⟩
  exact (words_compare_bytes.2 _ _ ([0] ++ ([] ++ ([0] ++ [])))
    (.cons rfl (by decide) (by decide) (by decide)
      (.cons rfl (by decide) (by decide) (by decide)
        (.cons rfl (by decide) (by decide) (by decide) .nil)))).2

end Lexindex.DictIndex
