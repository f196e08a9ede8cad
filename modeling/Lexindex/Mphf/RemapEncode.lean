import Mathlib
import Lexindex.Mphf.SelectFrom

/-!
# What a remap was laid out from is what it answers

The loop keeps what the tables hold of the entries so far: a one for each in the stream, its low bits
in their field, and the samples of the blocks it opened.
-/

set_option autoImplicit false

namespace Lexindex

/-- A word or-ed into a stream. -/
theorem streamBit_modify_or {words : List Word} {w : Nat} (inside : w < words.length) (x : Word) (q : Nat) :
    streamBit (words.modify w (· ||| x)) q =
      ((decide (q / 64 = w) && x.getLsbD (q % 64)) || streamBit words q) := by
  rw [streamBit, getD_modify inside]
  by_cases here : q / 64 = w
  · rw [if_pos here, BitVec.getLsbD_or, decide_eq_true here, Bool.true_and, Bool.or_comm]
    rfl
  · rw [if_neg here, decide_eq_false here, Bool.false_and, Bool.false_or]
    rfl

end Lexindex

namespace Lexindex.Mphf.Remap

/-! ## Low bits -/

/-- An entry's low bits are or-ed into its own field, across a word's end too. -/
theorem streamBit_putLow (low : List Word) {lowBits j : Nat} (v : Nat) (positive : 0 < lowBits)
    (short : lowBits < 64) (room : j * lowBits + lowBits ≤ 64 * low.length) (q : Nat) :
    streamBit (putLow low lowBits j v) q =
      ((decide (q / lowBits = j) && v.testBit (q % lowBits)) || streamBit low q) := by
  have field := Nat.div_add_mod q lowBits
  have inField := Nat.mod_lt q positive
  have place := Nat.div_add_mod (j * lowBits) 64
  have bit := Nat.mod_lt (j * lowBits) (show 0 < 64 by decide)
  have mine : q / lowBits = j ↔ j * lowBits ≤ q ∧ q < j * lowBits + lowBits := by
    rw [Nat.div_eq_iff positive, Nat.lt_iff_le_pred (by omega)]
  have inside : j * lowBits / 64 < low.length := by omega
  -- The part as the two words hold it.
  have part : ∀ i, (BitVec.ofNat 64 (v % 2 ^ lowBits)).getLsbD i =
      (decide (i < lowBits) && v.testBit i) := by
    intro i
    rw [BitVec.getLsbD_ofNat, Nat.testBit_mod_two_pow]
    by_cases small : i < lowBits
    · rw [decide_eq_true small, decide_eq_true (show i < 64 by omega), Bool.true_and]
    · rw [decide_eq_false small, Bool.false_and, Bool.and_false]
  have first : ∀ i < 64, (BitVec.ofNat 64 (v % 2 ^ lowBits) <<< (j * lowBits % 64)).getLsbD i =
      (decide (j * lowBits % 64 ≤ i ∧ i - j * lowBits % 64 < lowBits) && v.testBit (i - j * lowBits % 64)) := by
    intro i small
    rw [BitVec.getLsbD_shiftLeft, part, decide_eq_true small, Bool.true_and]
    by_cases past : j * lowBits % 64 ≤ i
    · simp [past]
    · simp [past]
  have second : ∀ i, (BitVec.ofNat 64 (v % 2 ^ lowBits) >>> (64 - j * lowBits % 64)).getLsbD i =
      (decide (64 - j * lowBits % 64 + i < lowBits) && v.testBit (64 - j * lowBits % 64 + i)) := by
    intro i
    rw [BitVec.getLsbD_ushiftRight, part]
  have moved : (decide (q / lowBits = j) && v.testBit (q % lowBits)) =
      (decide (j * lowBits ≤ q ∧ q < j * lowBits + lowBits) && v.testBit (q - j * lowBits)) := by
    rw [decide_eq_decide.mpr mine]
    by_cases here : j * lowBits ≤ q ∧ q < j * lowBits + lowBits
    · rw [mine.mpr here, Nat.mul_comm] at field
      rw [show q - j * lowBits = q % lowBits by omega]
    · rw [decide_eq_false here, Bool.false_and, Bool.false_and]
  have low_ := Nat.mod_lt q (show 0 < 64 by decide)
  have word := Nat.div_add_mod q 64
  rw [moved, putLow, if_neg (by omega)]
  dsimp only
  generalize j * lowBits / 64 = w at *
  generalize j * lowBits % 64 = o at *
  generalize BitVec.ofNat 64 (v % 2 ^ lowBits) = p at *
  -- What the first word takes, and the next one where the field straddles.
  have head := first (q % 64) low_
  have tail := second (q % 64)
  by_cases straddles : o + lowBits > 64
  · rw [if_pos straddles, streamBit_modify_or (by rw [List.length_modify]; omega),
      streamBit_modify_or inside, head, tail, ← Bool.or_assoc]
    congr 1
    by_cases here : q / 64 = w
    · rw [decide_eq_true here, decide_eq_false (show ¬ q / 64 = w + 1 by omega), Bool.false_and,
        Bool.false_or, Bool.true_and]
      rw [show q % 64 - o = q - j * lowBits by omega]
      congr 1
      rw [decide_eq_decide]
      omega
    · rw [decide_eq_false here, Bool.false_and, Bool.or_false]
      by_cases next : q / 64 = w + 1
      · rw [decide_eq_true next, Bool.true_and, show 64 - o + q % 64 = q - j * lowBits by omega]
        congr 1
        rw [decide_eq_decide]
        omega
      · rw [decide_eq_false next, Bool.false_and, decide_eq_false (by omega), Bool.false_and]
  · rw [if_neg straddles, streamBit_modify_or inside, head]
    congr 1
    by_cases here : q / 64 = w
    · rw [decide_eq_true here, Bool.true_and, show q % 64 - o = q - j * lowBits by omega]
      congr 1
      rw [decide_eq_decide]
      omega
    · rw [decide_eq_false here, Bool.false_and, decide_eq_false (by omega), Bool.false_and]

/-! ## The loop -/

/-- Where entry `j`'s one stands. -/
def oneAt (values : List Nat) (lowBits j : Nat) : Nat :=
  (values.getD j 0 >>> lowBits) + j

section Entered

variable {values : List Nat} {u : Nat} {b r r' : Remap} {k : Nat}

theorem oneAt_lt (sorted : values.Pairwise (· ≤ ·)) (lowBits : Nat) {i j : Nat} (less : i < j)
    (inside : j < values.length) : oneAt values lowBits i < oneAt values lowBits j := by
  have upTo := List.pairwise_iff_getElem.mp sorted i j (by omega) inside less
  rw [oneAt, oneAt, List.getD_eq_getElem _ _ inside, List.getD_eq_getElem _ _ (by omega),
    Nat.shiftRight_eq_div_pow, Nat.shiftRight_eq_div_pow]
  exact Nat.add_lt_add_of_le_of_lt (Nat.div_le_div_right upTo) less

theorem oneAt_le (sorted : values.Pairwise (· ≤ ·)) (lowBits : Nat) {i j : Nat} (upTo : i ≤ j)
    (inside : j < values.length) : oneAt values lowBits i ≤ oneAt values lowBits j := by
  rcases Nat.lt_or_eq_of_le upTo with less | rfl
  · exact (oneAt_lt sorted lowBits less inside).le
  · exact Nat.le_refl _

/-- The tables, laid out as `b` is, once the first `k` entries are in them. -/
structure Entered (values : List Nat) (b : Remap) (k : Nat) (r : Remap) : Prop where
  len : r.len = b.len
  lowBits : r.lowBits = b.lowBits
  lowLength : r.low.length = b.low.length
  highLength : r.high.length = b.high.length
  supersLength : r.supers.length = b.supers.length
  subsLength : r.subs.length = b.subs.length
  ones : ∀ p, streamBit r.high p = true ↔ ∃ i < k, p = oneAt values b.lowBits i
  lows : 0 < b.lowBits → ∀ q, streamBit r.low q =
    (decide (q / b.lowBits < k) && (values.getD (q / b.lowBits) 0).testBit (q % b.lowBits))
  supers : ∀ a, a * super < k → r.supers.getD a 0 = oneAt values b.lowBits (a * super)
  subs : ∀ a, a * block < k → r.supers.getD (a * block / super) 0 + r.subs.getD a 0 =
    oneAt values b.lowBits (a * block)

/-- What the zeroed tables are. -/
structure Blank (values : List Nat) (u : Nat) (b : Remap) : Prop where
  len : b.len = values.length
  lowBits : b.lowBits = naturalLowBits values.length u
  low : some b.low.length = lowWords values.length b.lowBits
  high : some b.high.length = (highWords values.length u b.lowBits).bind (heldWords values.length)
  supers : b.supers.length = superCount values.length
  subs : b.subs.length = subCount values.length
  lowZero : ∀ p, streamBit b.low p = false
  highZero : ∀ p, streamBit b.high p = false

theorem streamBit_zeros (n p : Nat) : streamBit (List.replicate n 0#64) p = false := by
  have zero : (List.replicate n 0#64).getD (p / 64) 0#64 = 0#64 := by
    rw [List.getD_eq_getElem?_getD, List.getElem?_replicate]
    split <;> rfl
  rw [streamBit, zero, BitVec.getLsbD_zero]

theorem blank_spec (made : blank values.length u = .ok b) : Blank values u b := by
  simp only [blank, bind_eq_ok, okOr_eq_ok, pure_eq_ok] at made
  obtain ⟨held, high, lowLen, low, rfl⟩ := made
  refine ⟨rfl, rfl, ?_, ?_, List.length_replicate, List.length_replicate, streamBit_zeros _, streamBit_zeros _⟩
  · rw [List.length_replicate, low]
  · rw [List.length_replicate, high]

theorem Blank.lowBits_lt (blank : Blank values u b) (word : u < 2 ^ 64) : b.lowBits < 64 := by
  rw [blank.lowBits, naturalLowBits]
  split
  · decide
  · rw [Nat.log2_lt (by omega)]
    have less := Nat.div_le_self u values.length
    omega

/-- Every one is inside the stored stream. -/
theorem Blank.one_inside (blank : Blank values u b) (below : ∀ v ∈ values, v < u) {i : Nat}
    (inside : i < values.length) : oneAt values b.lowBits i < 64 * (b.high.length - selectWords) := by
  have high := blank.high
  rw [eq_comm, Option.bind_eq_some_iff] at high
  obtain ⟨stored, words, held⟩ := high
  rw [highWords, if_neg (by omega), Option.map_eq_some_iff] at words
  obtain ⟨bits, sum, rfl⟩ := words
  rw [heldWords, if_neg (by omega), checkedAdd_eq_some] at held
  have total := (checkedAdd_eq_some.mp sum).2
  have room := le_mul_divCeil bits 64 (by decide)
  have small := below _ (List.getElem_mem inside)
  have part : values.getD i 0 >>> b.lowBits ≤ (u - 1) >>> b.lowBits := by
    rw [List.getD_eq_getElem _ _ inside, Nat.shiftRight_eq_div_pow, Nat.shiftRight_eq_div_pow]
    exact Nat.div_le_div_right (by omega)
  rw [oneAt]
  omega

/-- A field is inside the low words. -/
theorem Blank.field_inside (blank : Blank values u b) {j : Nat} (inside : j < values.length) :
    j * b.lowBits + b.lowBits ≤ 64 * b.low.length := by
  have low := blank.low
  rw [eq_comm, lowWords, Option.map_eq_some_iff] at low
  obtain ⟨bits, product, words⟩ := low
  have whole := (checkedMul_eq_some.mp product).2
  have room := le_mul_divCeil bits 64 (by decide)
  have next : (j + 1) * b.lowBits = j * b.lowBits + b.lowBits := Nat.succ_mul j b.lowBits
  have reach : (j + 1) * b.lowBits ≤ values.length * b.lowBits := Nat.mul_le_mul_right _ inside
  omega

theorem Blank.entered (blank : Blank values u b) : Entered values b 0 b := by
  refine ⟨rfl, rfl, rfl, rfl, rfl, rfl, fun p => ?_, fun _ q => ?_, fun a less => ?_, fun a less => ?_⟩
  · rw [blank.highZero]
    exact iff_of_false Bool.false_ne_true fun ⟨i, less, _⟩ => absurd less (Nat.not_lt_zero i)
  · rw [blank.lowZero, decide_eq_false (Nat.not_lt_zero _), Bool.false_and]
  · exact absurd less (Nat.not_lt_zero _)
  · exact absurd less (Nat.not_lt_zero _)

theorem getD_set {xs : List Nat} {i j v : Nat} (inside : i < xs.length) :
    (xs.set i v).getD j 0 = if j = i then v else xs.getD j 0 := by
  rw [List.getD_eq_getElem?_getD, List.getElem?_set, List.getD_eq_getElem?_getD]
  by_cases here : i = j
  · rw [if_pos here, if_pos inside, if_pos here.symm]
    rfl
  · rw [if_neg here, if_neg (fun same => here same.symm)]

/-- One entry more. -/
theorem Entered.step (blank : Blank values u b) (sorted : values.Pairwise (· ≤ ·))
    (below : ∀ v ∈ values, v < u) (word : u < 2 ^ 64) (entered : Entered values b k r)
    (inside : k < values.length) (entry : encodeEntry r k (values.getD k 0) = .ok r') :
    Entered values b (k + 1) r' := by
  have short := blank.lowBits_lt word
  have one := blank.one_inside below inside
  simp only [encodeEntry, bind_eq_ok, pure_eq_ok] at entry
  obtain ⟨supers, super_, subs, sub_, rfl⟩ := entry
  rw [entered.lowBits] at super_ sub_
  have superInside : k / super < r.supers.length := by
    rw [entered.supersLength, blank.supers]
    exact div_lt_divCeil (by decide) inside
  have blockInside : k / block < r.subs.length := by
    rw [entered.subsLength, blank.subs]
    exact div_lt_divCeil (by decide) inside
  -- The super-samples: the one of a block that opens here, and those before it.
  have superAll : supers.length = r.supers.length ∧
      ∀ a, a * super < k + 1 → supers.getD a 0 = oneAt values b.lowBits (a * super) := by
    rw [sampleSuper] at super_
    by_cases opens : k % super = 0
    · rw [if_pos opens] at super_
      simp only [bind_eq_ok, refuse_eq_ok, pure_eq_ok] at super_
      obtain ⟨-, -, rfl⟩ := super_
      refine ⟨List.length_set, fun a less => ?_⟩
      rw [getD_set superInside]
      by_cases here : a = k / super
      · have start : a * super = k := by
          rw [super] at opens here ⊢
          omega
        rw [if_pos here, start]
        rfl
      · rw [if_neg here]
        refine entered.supers a ?_
        rw [super] at opens here less ⊢
        omega
    · rw [if_neg opens, Except.ok.injEq] at super_
      rw [← super_]
      refine ⟨rfl, fun a less => entered.supers a ?_⟩
      rw [super] at opens less ⊢
      omega
  have base : supers.getD (k / super) 0 = oneAt values b.lowBits (k / super * super) :=
    superAll.2 _ (Nat.lt_succ_of_le (Nat.div_mul_le_self k super))
  have upTo : oneAt values b.lowBits (k / super * super) ≤ oneAt values b.lowBits k :=
    oneAt_le sorted _ (Nat.div_mul_le_self k super) inside
  have subAll : subs.length = r.subs.length ∧ ∀ a, a * block < k + 1 →
      supers.getD (a * block / super) 0 + subs.getD a 0 = oneAt values b.lowBits (a * block) := by
    have before : ∀ a, a * block < k → supers.getD (a * block / super) 0 + r.subs.getD a 0 =
        oneAt values b.lowBits (a * block) := fun a less => by
      have same : supers.getD (a * block / super) 0 = r.supers.getD (a * block / super) 0 := by
        have start := Nat.div_mul_le_self (a * block) super
        rw [superAll.2 _ (by omega), entered.supers _ (by omega)]
      rw [same, entered.subs a less]
    rw [sampleBlock] at sub_
    by_cases opens : k % block = 0
    · rw [if_pos opens] at sub_
      simp only [bind_eq_ok, refuse_eq_ok, pure_eq_ok] at sub_
      obtain ⟨-, -, rfl⟩ := sub_
      refine ⟨List.length_set, fun a less => ?_⟩
      rw [getD_set blockInside]
      by_cases here : a = k / block
      · have start : a * block = k := by
          rw [block] at opens here ⊢
          omega
        rw [if_pos here, start, base]
        change oneAt values b.lowBits (k / super * super) +
          (oneAt values b.lowBits k - oneAt values b.lowBits (k / super * super)) = _
        omega
      · rw [if_neg here]
        refine before a ?_
        rw [block] at opens here less ⊢
        omega
    · rw [if_neg opens, Except.ok.injEq] at sub_
      rw [← sub_]
      refine ⟨rfl, fun a less => before a ?_⟩
      rw [block] at opens less ⊢
      omega
  have highInside : oneAt values b.lowBits k / 64 < r.high.length := by
    rw [entered.highLength]
    omega
  refine ⟨entered.len, entered.lowBits, ?_, ?_, superAll.1.trans entered.supersLength,
    subAll.1.trans entered.subsLength, fun p => ?_, fun positive q => ?_, superAll.2, subAll.2⟩
  · have same : (putLow r.low r.lowBits k (values.getD k 0)).length = r.low.length := by
      rw [putLow]
      split
      · rfl
      · dsimp only
        split <;> simp only [List.length_modify]
    exact same.trans entered.lowLength
  · exact (List.length_modify ..).trans entered.highLength
  · change streamBit (setBit r.high ((values.getD k 0 >>> r.lowBits) + k)) p = true ↔ _
    rw [entered.lowBits]
    change streamBit (setBit r.high (oneAt values b.lowBits k)) p = true ↔ _
    rw [streamBit_setBit highInside, Bool.or_eq_true, decide_eq_true_eq, entered.ones]
    constructor
    · rintro (rfl | ⟨i, less, rfl⟩)
      · exact ⟨k, Nat.lt_succ_self k, rfl⟩
      · exact ⟨i, Nat.lt_succ_of_lt less, rfl⟩
    · rintro ⟨i, less, rfl⟩
      rcases Nat.lt_succ_iff_lt_or_eq.mp less with before | rfl
      · exact .inr ⟨i, before, rfl⟩
      · exact .inl rfl
  · change streamBit (putLow r.low r.lowBits k (values.getD k 0)) q = _
    have room := blank.field_inside inside
    rw [← entered.lowLength] at room
    rw [entered.lowBits, streamBit_putLow r.low _ positive short room, entered.lows positive]
    by_cases here : q / b.lowBits = k
    · rw [decide_eq_true here, decide_eq_false (show ¬ q / b.lowBits < k by omega), Bool.true_and,
        Bool.false_and, Bool.or_false, decide_eq_true (show q / b.lowBits < k + 1 by omega), Bool.true_and, here]
    · rw [decide_eq_false here, Bool.false_and, Bool.false_or]
      congr 1
      rw [decide_eq_decide]
      omega

/-- Every entry. -/
theorem Entered.run (blank : Blank values u b) (sorted : values.Pairwise (· ≤ ·))
    (below : ∀ v ∈ values, v < u) (word : u < 2 ^ 64) (rest : List Nat) :
    ∀ {k : Nat} {r : Remap}, values.drop k = rest → Entered values b k r → k ≤ values.length →
      encodeFrom r k rest = .ok r' → Entered values b values.length r' := by
  induction rest with
  | nil =>
      intro k r left entered most encoded
      have all : k = values.length := by
        have count := congrArg List.length left
        rw [List.length_drop, List.length_nil] at count
        omega
      rw [encodeFrom, Except.ok.injEq] at encoded
      rw [← encoded, ← all]
      exact entered
  | cons v rest ih =>
      intro k r left entered most encoded
      have inside : k < values.length := by
        have count := congrArg List.length left
        rw [List.length_drop, List.length_cons] at count
        omega
      rw [List.drop_eq_getElem_cons inside] at left
      obtain ⟨here, later⟩ := List.cons.inj left
      have value : values.getD k 0 = v := by rw [List.getD_eq_getElem _ _ inside, here]
      rw [encodeFrom, bind_eq_ok] at encoded
      obtain ⟨next, entry, encoded⟩ := encoded
      rw [← value] at entry
      exact ih later (entered.step blank sorted below word inside entry) inside encoded

end Entered

/-! ## Reading the entries back -/

section Read

variable {values : List Nat} {u : Nat} {b r : Remap}

theorem passOver_of (r : Remap) (ones : List Nat) : ∀ first : Nat,
    (∀ i (inside : i < ones.length), r.oneAgrees (first + i) ones[i]) →
      r.passOver first ones = some (first + ones.length) := by
  induction ones with
  | nil => exact fun first _ => rfl
  | cons p rest ih =>
      intro first agrees
      have here := agrees 0 (Nat.succ_pos _)
      rw [Nat.add_zero, List.getElem_cons_zero] at here
      rw [passOver, if_pos here, ih (first + 1) fun i inside => by
        have later := agrees (i + 1) (Nat.succ_lt_succ inside)
        rwa [List.getElem_cons_succ, ← Nat.add_assoc, Nat.add_right_comm] at later]
      rw [List.length_cons, Nat.add_right_comm, Nat.add_assoc]

/-- The stream's ones are the entries', in order. -/
theorem ones_eq (sorted : values.Pairwise (· ≤ ·)) {words : List Word} {lowBits : Nat}
    (told : ∀ p, streamBit words p = true ↔ ∃ i < values.length, p = oneAt values lowBits i) :
    streamOnes words = (List.range values.length).map (oneAt values lowBits) := by
  refine List.Pairwise.eq_of_mem_iff (streamOnes_sorted words) ?_ fun p => ?_
  · rw [List.pairwise_map]
    exact List.pairwise_lt_range.imp_of_mem fun _ inside less =>
      oneAt_lt sorted lowBits less (List.mem_range.mp inside)
  · rw [mem_streamOnes, told, List.mem_map]
    simp only [List.mem_range, eq_comm]

/-- The stored part of the stream holds every one, and what is past it none. -/
theorem Entered.stored (blank : Blank values u b) (below : ∀ v ∈ values, v < u)
    (entered : Entered values b values.length r) :
    (∀ p, streamBit r.storedHigh p = streamBit r.high p) ∧
      (r.high.drop r.storedHigh.length).all (· = 0#64) = true := by
  have stored : r.storedHigh.length = b.high.length - selectWords := by
    rw [storedHigh, List.length_take, entered.highLength]
    omega
  have past : ∀ p, b.high.length - selectWords ≤ p / 64 → streamBit r.high p = false := fun p far => by
    rw [Bool.eq_false_iff]
    intro set
    obtain ⟨i, inside, rfl⟩ := (entered.ones p).mp set
    have near := blank.one_inside below inside
    omega
  constructor
  · intro p
    by_cases near : p / 64 < b.high.length - selectWords
    · rw [streamBit, streamBit, storedHigh, List.getD_eq_getElem?_getD, List.getElem?_take,
        if_pos (by rw [entered.highLength]; exact near), ← List.getD_eq_getElem?_getD]
    · rw [past p (by omega), streamBit, List.getD_eq_getElem?_getD, List.getElem?_eq_none (by omega)]
      exact BitVec.getLsbD_zero
  · rw [List.all_eq_true]
    intro word member
    obtain ⟨k, inside, rfl⟩ := List.mem_iff_getElem.mp member
    rw [decide_eq_true_eq]
    refine BitVec.eq_of_getLsbD_eq fun i small => ?_
    rw [BitVec.getLsbD_zero, List.getElem_drop]
    have bit := past ((r.storedHigh.length + k) * 64 + i) (by omega)
    have place : ((r.storedHigh.length + k) * 64 + i) / 64 = r.storedHigh.length + k := by omega
    have low : ((r.storedHigh.length + k) * 64 + i) % 64 = i := by omega
    rw [List.length_drop] at inside
    rwa [streamBit, place, low, List.getD_eq_getElem _ _ (by omega)] at bit

/-- The tables pass what a loader checks before it reads an entry. -/
theorem Entered.laid (blank : Blank values u b) (sorted : values.Pairwise (· ≤ ·))
    (below : ∀ v ∈ values, v < u) (word : u < 2 ^ 64) (entered : Entered values b values.length r) :
    r.Laid u := by
  obtain ⟨same, padding⟩ := entered.stored blank below
  have ones := ones_eq sorted fun p => by rw [same p, entered.ones p]
  have len : r.len = values.length := entered.len.trans blank.len
  refine ⟨⟨?_, ?_, ?_, ?_, ?_, padding⟩, ?_⟩
  · rw [entered.lowBits]
    exact blank.lowBits_lt word
  · rw [entered.lowLength, len, entered.lowBits, blank.low]
  · rw [entered.highLength, len, entered.lowBits, blank.high]
  · rw [entered.supersLength, len, blank.supers]
  · rw [entered.subsLength, len, blank.subs]
  · have count : (streamOnes r.storedHigh).length = values.length := by
      rw [ones, List.length_map, List.length_range]
    rw [passOver_of r _ 0, count, len, Nat.zero_add]
    intro i inside
    have small : i < values.length := count ▸ inside
    have one : (streamOnes r.storedHigh)[i] = oneAt values b.lowBits i := by
      simp only [ones, List.getElem_map, List.getElem_range]
    rw [Nat.zero_add, one]
    refine ⟨by omega, Nat.le_add_left i _, fun opens => ⟨fun first => ?_, ?_⟩⟩
    · have start : i / super * super = i := Nat.div_mul_cancel (Nat.dvd_of_mod_eq_zero first)
      rw [entered.supers _ (by omega), start]
    · have start : i / block * block = i := Nat.div_mul_cancel (Nat.dvd_of_mod_eq_zero opens)
      have sampled := entered.subs (i / block) (by omega)
      rwa [start] at sampled

/-- The low bits of an entry are read from its field. -/
theorem Entered.lowPart_eq (blank : Blank values u b) (word : u < 2 ^ 64)
    (entered : Entered values b values.length r) {j : Nat} (inside : j < values.length) :
    r.lowPart j = some (values.getD j 0 % 2 ^ b.lowBits) := by
  have short := blank.lowBits_lt word
  have room := blank.field_inside inside
  rw [← entered.lowLength] at room
  rw [lowPart, entered.lowBits]
  by_cases none_ : b.lowBits = 0
  · rw [if_pos none_, none_, pow_zero, Nat.mod_one]
  rw [if_neg none_]
  have positive : 0 < b.lowBits := Nat.pos_of_ne_zero none_
  have held : ∀ i < b.lowBits, streamBit r.low (j * b.lowBits + i) = (values.getD j 0).testBit i := by
    intro i small
    have field : (j * b.lowBits + i) / b.lowBits = j := by
      rw [Nat.mul_comm, Nat.mul_add_div positive, Nat.div_eq_of_lt small, Nat.add_zero]
    have bit : (j * b.lowBits + i) % b.lowBits = i := by
      rw [Nat.mul_comm, Nat.mul_add_mod, Nat.mod_eq_of_lt small]
    rw [entered.lows positive, field, bit, decide_eq_true inside, Bool.true_and]
  have place := Nat.div_add_mod (j * b.lowBits) 64
  have low := Nat.mod_lt (j * b.lowBits) (show 0 < 64 by decide)
  generalize j * b.lowBits / 64 = w at *
  generalize j * b.lowBits % 64 = o at *
  have first : w < r.low.length := by omega
  dsimp only
  rw [List.getElem?_eq_getElem first]
  -- A bit of the entry is in its word, or in the next one where the field straddles.
  have inWord : ∀ i, o + i < 64 → i < b.lowBits → r.low[w].getLsbD (o + i) = (values.getD j 0).testBit i := by
    intro i near small
    rw [← held i small, streamBit, show (j * b.lowBits + i) / 64 = w by omega,
      show (j * b.lowBits + i) % 64 = o + i by omega, List.getD_eq_getElem _ _ first]
  have finish : ∀ x : Word, (∀ i < b.lowBits, x.getLsbD i = (values.getD j 0).testBit i) →
      x.toNat % 2 ^ b.lowBits = values.getD j 0 % 2 ^ b.lowBits := by
    intro x bits
    refine Nat.eq_of_testBit_eq fun i => ?_
    rw [Nat.testBit_mod_two_pow, Nat.testBit_mod_two_pow]
    by_cases small : i < b.lowBits
    · rw [BitVec.testBit_toNat, bits i small]
    · rw [decide_eq_false small, Bool.false_and, Bool.false_and]
  by_cases straddles : o + b.lowBits > 64
  · have second : w + 1 < r.low.length := by omega
    simp only [Option.bind_eq_bind, Option.bind_some, if_pos straddles, List.getElem?_eq_getElem second,
      Option.pure_def, Option.some.injEq]
    refine finish _ fun i small => ?_
    rw [BitVec.getLsbD_or, BitVec.getLsbD_ushiftRight, BitVec.getLsbD_shiftLeft]
    by_cases near : o + i < 64
    · rw [inWord i near small, decide_eq_true (show i < 64 - o by omega), Bool.not_true, Bool.and_false,
        Bool.false_and, Bool.or_false]
    · rw [BitVec.getLsbD_of_ge _ _ (by omega), Bool.false_or, decide_eq_true (show i < 64 by omega),
        decide_eq_false (show ¬ i < 64 - o by omega), ← held i small, streamBit,
        show (j * b.lowBits + i) / 64 = w + 1 by omega,
        show (j * b.lowBits + i) % 64 = i - (64 - o) by omega, List.getD_eq_getElem _ _ second]
      rfl
  · simp only [Option.bind_eq_bind, Option.bind_some, if_neg straddles, Option.pure_def, Option.some.injEq]
    refine finish _ fun i small => ?_
    rw [BitVec.getLsbD_ushiftRight, inWord i (by omega) small]

/-- An entry is its one's place less its index, over its low bits. -/
theorem Entered.get_eq (blank : Blank values u b) (sorted : values.Pairwise (· ≤ ·))
    (below : ∀ v ∈ values, v < u) (word : u < 2 ^ 64) (entered : Entered values b values.length r)
    {j : Nat} (inside : j < values.length) : r.get j = some (values.getD j 0) := by
  have laid := entered.laid blank sorted below word
  have len : r.len = values.length := entered.len.trans blank.len
  have read : j < r.len := by omega
  obtain ⟨first, listed, sampled⟩ := laid.sample_exact read
  obtain ⟨same, -⟩ := entered.stored blank below
  have stored := streamOnes_lt (List.mem_of_getElem? listed)
  have held := laid.held (by omega)
  have storedOnes := ones_eq sorted fun p => by rw [same p, entered.ones p]
  have allOnes := ones_eq sorted entered.ones
  rw [storedOnes, ← allOnes] at listed
  have wanted : (streamOnes r.high)[j - j % block + j % block]? = some (oneAt values b.lowBits j) := by
    rw [Nat.sub_add_cancel (Nat.mod_le j block), allOnes, List.getElem?_map, List.getElem?_range inside]
    rfl
  have selected := selectFrom_exact (by omega) listed wanted
  have small := below _ (List.getElem_mem inside)
  rw [← List.getD_eq_getElem _ 0 inside] at small
  rw [get, if_neg (by omega), laid.supers_some read, laid.subs_some read]
  simp only [Option.bind_eq_bind, Option.bind_some, sampled, selected, entered.lowPart_eq blank word inside,
    Option.pure_def, entered.lowBits, Option.some.injEq]
  rw [oneAt]
  generalize values.getD j 0 = v at *
  have whole := Nat.div_add_mod' v (2 ^ b.lowBits)
  have part : v >>> b.lowBits ≤ v := by
    rw [Nat.shiftRight_eq_div_pow]
    exact Nat.div_le_self ..
  have high : ∀ x ≤ v, (x + j + 2 ^ 64 - j) % 2 ^ 64 = x := fun x upTo => by
    rw [Nat.add_right_comm, Nat.add_sub_cancel, Nat.add_mod_right]
    exact Nat.mod_eq_of_lt (by omega)
  have moved : (v >>> b.lowBits) <<< b.lowBits = v / 2 ^ b.lowBits * 2 ^ b.lowBits := by
    rw [Nat.shiftLeft_eq, Nat.shiftRight_eq_div_pow]
  have fits : (v >>> b.lowBits) <<< b.lowBits < 2 ^ 64 := by
    rw [moved]
    omega
  rw [high _ part, Nat.mod_eq_of_lt fits, ← Nat.shiftLeft_add_eq_or_of_lt (Nat.mod_lt _ (by positivity)), moved]
  exact whole

end Read

/-- **A remap is exact.**  What a non-decreasing list below `u` was laid out as is what a loader
accepts, and it answers every entry of the list, whether the block's one is in the window of its sample
or past it. -/
theorem encode_exact {values : List Nat} {u : Nat} (sorted : values.Pairwise (· ≤ ·))
    (below : ∀ v ∈ values, v < u) (word : u < 2 ^ 64) {r : Remap} (encoded : encode values u = .ok r) :
    r.validate u = true ∧ ∀ j (inside : j < values.length), r.get j = some values[j] := by
  rw [encode, bind_eq_ok] at encoded
  obtain ⟨b, made, encoded⟩ := encoded
  have blank := blank_spec made
  have entered := Entered.run blank sorted below word values rfl blank.entered (Nat.zero_le _) encoded
  have laid := entered.laid blank sorted below word
  have len : r.len = values.length := entered.len.trans blank.len
  have each : ∀ j (inside : j < values.length), r.get j = some values[j] := fun j inside => by
    rw [entered.get_eq blank sorted below word inside, List.getD_eq_getElem _ _ inside]
  refine ⟨?_, each⟩
  rw [validate, decide_eq_true laid.lengths, decide_eq_true laid.pass, Bool.true_and, Bool.true_and,
    List.all_eq_true]
  intro j member
  have inside : j < values.length := by
    rw [List.mem_range] at member
    omega
  rw [each j inside, Option.all_some, decide_eq_true_eq]
  exact below _ (List.getElem_mem inside)

/-- Three hundred values of which all but the first ten are the last: the block they begin is past its
window from there on. -/
theorem encode_exact_past : ∃ r, encode (List.range 10 ++ List.replicate 290 299) 300 = .ok r ∧
    r.validate 300 = true ∧ r.get 9 = some 9 ∧ r.get 10 = some 299 := by
  obtain ⟨r, made⟩ : ∃ r, encode (List.range 10 ++ List.replicate 290 299) 300 = .ok r := by
    have accepted : (encode (List.range 10 ++ List.replicate 290 299) 300).isOk = true := by decide +kernel
    cases built : encode (List.range 10 ++ List.replicate 290 299) 300 with
    | ok r => exact ⟨r, rfl⟩
    | error error =>
        rw [built] at accepted
        cases accepted
  have members : ∀ v ∈ List.range 10 ++ List.replicate 290 299, v < 10 ∨ v = 299 := fun v member =>
    (List.mem_append.mp member).imp List.mem_range.mp List.eq_of_mem_replicate
  have sorted : (List.range 10 ++ List.replicate 290 299).Pairwise (· ≤ ·) := by
    refine List.pairwise_append.mpr ⟨by decide, List.pairwise_replicate.mpr (.inr (Nat.le_refl _)), ?_⟩
    intro v first w last
    rw [List.mem_range] at first
    rw [List.eq_of_mem_replicate last]
    omega
  obtain ⟨valid, each⟩ := encode_exact sorted
    (fun v member => by have either := members v member; omega) (by decide) made
  have length : (List.range 10 ++ List.replicate 290 299).length = 300 := by
    rw [List.length_append, List.length_range, List.length_replicate]
  have before := each 9 (by omega)
  have after := each 10 (by omega)
  rw [List.getElem_append_left (by decide), List.getElem_range] at before
  rw [List.getElem_append_right (by decide), List.getElem_replicate] at after
  exact ⟨r, made, valid, before, after⟩

end Lexindex.Mphf.Remap
