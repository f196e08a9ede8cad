import Mathlib
import Lexindex.CompactHash.ValueTable
import Lexindex.Lib.Fields

/-!
# The value table is exact

A write enters one field and leaves every other bit, so a table does not depend on the order of
its writes, and a table of a multiple of eight slots ends on a byte.
-/

set_option autoImplicit false

namespace Lexindex.CompactHash

open Faulting (mul mul_eq bytesBetween bytesBetween_length)
open Mphf (IndexError)

variable {ε : Type} {bytes : List UInt8} {bits slot m : Nat} {value : Nat → Nat} {entered : List Nat}

/-! ## Writing -/

theorem copyTo_eq {start : Nat} {part : List UInt8} (fits : start + part.length ≤ bytes.length) :
    (copyTo bytes start part : Faulting ε (List UInt8)) = .ok (overwrite bytes start part) :=
  if_pos fits

theorem orAt_eq {i : Nat} {b : UInt8} (inside : i < bytes.length) :
    (orAt bytes i b : Faulting ε (List UInt8)) = .ok (bytes.modify i (· ||| b)) :=
  if_pos inside

/-- A byte-wide value is copied whole, by whichever store. -/
theorem writeFp_bytes {k fp : Nat} (wide : bits = 8 * k) (some_ : 1 ≤ k) (most : k ≤ 8) (fits : fp < 2 ^ bits)
    (product : slot * k < 2 ^ 64) :
    (writeFp bytes slot bits fp : Faulting ε (List UInt8)) = copyTo bytes (slot * k) (leBytes k fp) := by
  have quotient : bits / 8 = k := by omega
  have whole : fp < 256 ^ k := by
    rwa [show (256 : Nat) = 2 ^ 8 by decide, ← pow_mul, ← wide]
  have taken : (leBytes 8 fp).take k = leBytes k fp := by
    refine leNat_inj ?_ ?_
    · rw [List.length_take, leBytes_length, leBytes_length]
      omega
    · rw [← leNat_mod, leNat_leBytes 8 fp (whole.trans_le (Nat.pow_le_pow_right (by decide) most)),
        leNat_leBytes k fp whole, Nat.mod_eq_of_lt whole]
  rw [writeFp, if_pos (by omega), quotient]
  dsimp only
  rw [mul_eq product]
  subst wide
  interval_cases k
  · change copyTo bytes _ (leBytes 1 (fp % 2 ^ 8)) = _
    rw [show fp % 2 ^ 8 = fp from Nat.mod_eq_of_lt fits]
  · change copyTo bytes _ (leBytes 2 (fp % 2 ^ 16)) = _
    rw [show fp % 2 ^ 16 = fp from Nat.mod_eq_of_lt fits]
  · change copyTo bytes _ ((leBytes 8 fp).take _) = _
    rw [taken]
  · change copyTo bytes _ (leBytes 4 (fp % 2 ^ 32)) = _
    rw [show fp % 2 ^ 32 = fp from Nat.mod_eq_of_lt fits]
  all_goals
    change copyTo bytes _ ((leBytes 8 fp).take _) = _
    rw [taken]

/-- Two parts of a shifted value: what a word keeps, and the ninth byte. -/
theorem shifted_testBit {fp byte off : Nat} (near : off < 8) (fits : fp < 2 ^ bits) (most : bits ≤ 64) (p : Nat) :
    (fp <<< (8 * byte + off)).testBit p =
      (((fp <<< off % 2 ^ 64) <<< (8 * byte)).testBit p ||
        (decide (p / 8 = byte + 8) && (UInt8.ofNat (fp >>> (64 - off))).toNat.testBit (p % 8))) := by
  have split := Nat.div_add_mod p 8
  have low := Nat.mod_lt p (show 0 < 8 by decide)
  rw [Nat.testBit_shiftLeft, Nat.testBit_shiftLeft, Nat.testBit_mod_two_pow, Nat.testBit_shiftLeft,
    UInt8.toNat_ofNat', Nat.testBit_mod_two_pow, decide_eq_true low, Bool.true_and, Nat.testBit_shiftRight]
  by_cases before : p < 8 * byte + 64
  · rw [decide_eq_false (show ¬ p / 8 = byte + 8 by omega), Bool.false_and, Bool.or_false,
      decide_eq_true (show p - 8 * byte < 64 by omega), Bool.true_and, Nat.sub_sub]
    by_cases start : 8 * byte + off ≤ p
    · rw [decide_eq_true (show p ≥ 8 * byte + off by omega), decide_eq_true (show p ≥ 8 * byte by omega),
        decide_eq_true (show p - 8 * byte ≥ off by omega)]
      simp
    · rw [decide_eq_false (show ¬ p ≥ 8 * byte + off by omega), Bool.false_and]
      by_cases byteStart : 8 * byte ≤ p
      · rw [decide_eq_false (show ¬ p - 8 * byte ≥ off by omega), Bool.false_and, Bool.and_false]
      · rw [decide_eq_false (show ¬ p ≥ 8 * byte by omega), Bool.false_and]
  · rw [decide_eq_false (show ¬ p - 8 * byte < 64 by omega), Bool.false_and, Bool.and_false, Bool.false_or,
      decide_eq_true (show p ≥ 8 * byte + off by omega), Bool.true_and]
    by_cases ninth : p / 8 = byte + 8
    · rw [decide_eq_true ninth, Bool.true_and]
      congr 1
      omega
    · have high : fp < 2 ^ (p - (8 * byte + off)) :=
        fits.trans_le (Nat.pow_le_pow_right (by decide) (by omega))
      rw [decide_eq_false ninth, Bool.false_and, Nat.testBit_lt_two_pow high]

/-- The other widths are or'ed in, and nothing of the value falls past the table. -/
theorem writeFp_or {fp : Nat} (narrow : bits % 8 ≠ 0) (most : bits ≤ 64) (fits : fp < 2 ^ bits)
    (product : slot * bits < 2 ^ 64) (room : (slot + 1) * bits ≤ 8 * bytes.length) :
    ∃ after, (writeFp bytes slot bits fp : Faulting ε (List UInt8)) = .ok after ∧
      after.length = bytes.length ∧
      ∀ p, (leNat after).testBit p = ((leNat bytes).testBit p || (fp <<< (slot * bits)).testBit p) := by
  have parts := Nat.div_add_mod (slot * bits) 8
  have near := Nat.mod_lt (slot * bits) (show 0 < 8 by decide)
  have next : (slot + 1) * bits = slot * bits + bits := Nat.succ_mul slot bits
  rw [writeFp, if_neg narrow]
  dsimp only
  rw [mul_eq product]
  change ∃ after, (if 0 < slot * bits % 8 ∧ 64 < slot * bits % 8 + bits then
      orAt (orBytes bytes (slot * bits / 8) (fp <<< (slot * bits % 8) % 2 ^ 64)) (slot * bits / 8 + 8)
        (UInt8.ofNat (fp >>> (64 - slot * bits % 8)))
    else .ok (orBytes bytes (slot * bits / 8) (fp <<< (slot * bits % 8) % 2 ^ 64)) :
      Faulting ε (List UInt8)) = .ok after ∧ _
  have pieces := @shifted_testBit bits fp (slot * bits / 8) _ near fits most
  have inside : ∀ p, (fp <<< (slot * bits)).testBit p = true → p < 8 * bytes.length := by
    intro p set
    rw [Nat.testBit_shiftLeft, Bool.and_eq_true, decide_eq_true_eq] at set
    by_contra past
    have high : fp < 2 ^ (p - slot * bits) :=
      fits.trans_le (Nat.pow_le_pow_right (by decide) (by omega))
    rw [Nat.testBit_lt_two_pow high] at set
    exact Bool.false_ne_true set.2
  rw [parts] at pieces
  generalize slot * bits / 8 = byte at *
  generalize slot * bits % 8 = off at *
  have word : leNat (leBytes 8 (fp <<< off % 2 ^ 64)) = fp <<< off % 2 ^ 64 :=
    leNat_leBytes 8 _ ((Nat.mod_lt _ (by positivity)).trans_le (by decide))
  have ored := leNat_orBytes_testBit (leBytes 8 (fp <<< off % 2 ^ 64)) byte 0 bytes
  have length : (orBytes bytes byte (fp <<< off % 2 ^ 64)).length = bytes.length := orBytes_length ..
  rw [word] at ored
  change ∀ p, (leNat (orBytes bytes byte (fp <<< off % 2 ^ 64))).testBit p = _ at ored
  by_cases ninth : 0 < off ∧ 64 < off + bits
  · rw [if_pos ninth, orAt_eq (by omega)]
    refine ⟨_, rfl, by rw [List.length_modify, length], fun p => ?_⟩
    rw [leNat_modify_testBit, length, ored p, pieces p]
    have within := inside p
    rw [pieces p] at within
    rw [Nat.add_zero]
    generalize ((fp <<< off % 2 ^ 64) <<< (8 * byte)).testBit p = first at *
    generalize (decide (p / 8 = byte + 8) && (UInt8.ofNat (fp >>> (64 - off))).toNat.testBit (p % 8)) = last at *
    by_cases covered : p < 8 * bytes.length
    · rw [decide_eq_true covered, Bool.true_and, Bool.true_and, Bool.or_assoc]
    · cases first <;> cases last <;> simp_all
  · rw [if_neg ninth]
    refine ⟨_, rfl, length, fun p => ?_⟩
    have single : (fp <<< off % 2 ^ 64) <<< (8 * byte) = fp <<< (slot * bits) := by
      have small : fp <<< off < 2 ^ 64 := by
        rw [Nat.shiftLeft_eq]
        rcases Nat.eq_zero_or_pos off with rfl | positive
        · rw [pow_zero, Nat.mul_one]
          exact fits.trans_le (Nat.pow_le_pow_right (by decide) most)
        · calc fp * 2 ^ off < 2 ^ bits * 2 ^ off := Nat.mul_lt_mul_of_pos_right fits (by positivity)
            _ = 2 ^ (bits + off) := (pow_add ..).symm
            _ ≤ 2 ^ 64 := Nat.pow_le_pow_right (by decide) (by omega)
      rw [Nat.mod_eq_of_lt small, ← Nat.shiftLeft_add, Nat.add_comm, parts]
    rw [ored p, Nat.add_zero, single]
    by_cases covered : p < 8 * bytes.length
    · rw [decide_eq_true covered, Bool.true_and]
    · rw [decide_eq_false covered, Bool.false_and]
      cases held : (fp <<< (slot * bits)).testBit p
      · rfl
      · exact absurd (inside p held) covered

/-- A write enters one field. -/
theorem writeFp_spec (least : 1 ≤ bits) (most : bits ≤ 64) (fits : value slot < 2 ^ bits)
    (product : slot * bits < 2 ^ 64) (room : (slot + 1) * bits ≤ 8 * bytes.length)
    (fields : Fields bits value entered (leNat bytes)) :
    ∃ after, (writeFp bytes slot bits (value slot) : Faulting ε (List UInt8)) = .ok after ∧
      after.length = bytes.length ∧ Fields bits value (slot :: entered) (leNat after) := by
  by_cases wide : bits % 8 = 0
  · obtain ⟨k, rfl⟩ : ∃ k, bits = 8 * k := ⟨bits / 8, by omega⟩
    have start : slot * (8 * k) = 8 * (slot * k) := Nat.mul_left_comm ..
    have stop : (slot + 1) * (8 * k) = 8 * (slot * k) + 8 * k := by rw [Nat.succ_mul, start]
    have fitsBytes : slot * k + (leBytes k (value slot)).length ≤ bytes.length := by
      rw [leBytes_length]
      omega
    rw [writeFp_bytes rfl (by omega) (by omega) fits (by omega), copyTo_eq fitsBytes]
    refine ⟨_, rfl, overwrite_length fitsBytes, fields.replace (by omega) fun p => ?_⟩
    have whole : value slot < 256 ^ k := by
      rwa [show (256 : Nat) = 2 ^ 8 by decide, ← pow_mul]
    rw [leNat_overwrite_testBit fitsBytes, leBytes_length, leNat_leBytes k _ whole, start, stop,
      Nat.mul_add]
  · obtain ⟨after, written, length, held⟩ := writeFp_or (ε := ε) wide most fits product room
    exact ⟨after, written, length, fields.enter fits held⟩

theorem writeAll_spec (least : 1 ≤ bits) (most : bits ≤ 64) (fits : ∀ s, s < m → value s < 2 ^ bits)
    (total : m * bits < 2 ^ 64) (order : List Nat) : ∀ {bytes : List UInt8} {entered : List Nat},
    (∀ s ∈ order, s < m) → m * bits ≤ 8 * bytes.length → Fields bits value entered (leNat bytes) →
    ∃ after later, (writeAll bytes bits (order.map fun s => (s, value s)) : Faulting ε (List UInt8)) = .ok after ∧
      after.length = bytes.length ∧ Fields bits value later (leNat after) ∧
      ∀ s, s ∈ later ↔ s ∈ entered ∨ s ∈ order := by
  induction order with
  | nil =>
      intro bytes entered _ _ fields
      exact ⟨bytes, entered, rfl, rfl, fields, fun s => ⟨.inl, fun either => either.resolve_right List.not_mem_nil⟩⟩
  | cons slot order ih =>
      intro bytes entered inside room fields
      have here := inside slot List.mem_cons_self
      have reach : (slot + 1) * bits ≤ m * bits := Nat.mul_le_mul_right _ here
      have start : slot * bits ≤ m * bits := Nat.mul_le_mul_right _ here.le
      obtain ⟨next, written, length, fields⟩ := writeFp_spec (ε := ε) least most (fits slot here)
        (by omega) (by omega) fields
      obtain ⟨after, later, run, whole, fields, members⟩ := @ih next _
        (fun s member => inside s (List.mem_cons_of_mem _ member)) (by omega) fields
      refine ⟨after, later, ?_, whole.trans length, fields, fun s => ?_⟩
      · rw [List.map_cons, writeAll, List.foldlM_cons]
        change Except.bind (writeFp bytes slot bits (value slot)) _ = _
        rw [written]
        exact run
      · rw [members, List.mem_cons, List.mem_cons, or_assoc, or_left_comm]

/-! ## Reading -/

/-- A table of `m` values of `bits` bits, every slot entered. -/
structure Filled (m bits : Nat) (value : Nat → Nat) (bytes : List UInt8) : Prop where
  least : 1 ≤ bits
  most : bits ≤ 64
  fits : ∀ s, s < m → value s < 2 ^ bits
  total : m * bits < 2 ^ 64
  length : bytes.length = (m * bits + 7) / 8
  fields : ∃ entered, Fields bits value entered (leNat bytes) ∧ ∀ s, s ∈ entered ↔ s < m

theorem and_fpMask (v : Nat) (least : 1 ≤ bits) (most : bits ≤ 64) : v &&& fpMask bits = v % 2 ^ bits := by
  have mask : fpMask bits = 2 ^ bits - 1 := by
    rw [fpMask]
    interval_cases bits <;> rfl
  rw [mask, Nat.and_two_pow_sub_one_eq_mod]

theorem getWord_eq {lo size : Nat} (inside : lo + size ≤ bytes.length) :
    getWord bytes lo size = some (leNat bytes >>> (8 * lo) % 2 ^ (8 * size)) := by
  rw [getWord, if_pos inside, leNat_between]

/-- A byte of the buffer. -/
theorem byte_eq {i : Nat} (inside : i < bytes.length) :
    (bytes[i]?).map UInt8.toNat = some (leNat bytes >>> (8 * i) % 2 ^ 8) := by
  have one := leNat_between bytes i 1
  rw [bytesBetween, Nat.add_sub_cancel_left, List.drop_eq_getElem_cons inside, List.take_succ_cons,
    List.take_zero, leNat, leNat, Nat.mul_zero, Nat.add_zero] at one
  rw [List.getElem?_eq_getElem inside, Option.map_some, one]

/-- The bytes near the end make the number they are. -/
theorem tailBytes_eq {byte last : Nat} (inside : last < bytes.length) :
    tailBytes bytes byte last = some (leNat bytes >>> (8 * byte) % 2 ^ (8 * (last + 1 - byte))) := by
  have run : ∀ count, byte + count ≤ bytes.length ∨ count = 0 →
      (List.range count).foldlM (fun v j => do
        let b ← bytes[byte + j]?
        some (v ||| b.toNat <<< (8 * j))) 0 = some (leNat bytes >>> (8 * byte) % 2 ^ (8 * count)) := by
    intro count
    induction count with
    | zero =>
        intro _
        rw [Nat.mul_zero, pow_zero, Nat.mod_one]
        rfl
    | succ count ih =>
        intro room
        have next := @byte_eq bytes (byte + count) (by omega)
        rw [List.getElem?_eq_getElem (by omega), Option.map_some, Option.some.injEq] at next
        rw [List.range_succ, List.foldlM_append, ih (by omega), Option.bind_eq_bind, Option.bind_some,
          List.foldlM_cons, List.getElem?_eq_getElem (by omega)]
        change some _ = some _
        rw [next]
        congr 1
        refine Nat.eq_of_testBit_eq fun p => ?_
        rw [Nat.testBit_or, Nat.testBit_shiftLeft, Nat.testBit_mod_two_pow, Nat.testBit_mod_two_pow,
          Nat.testBit_mod_two_pow, Nat.testBit_shiftRight, Nat.testBit_shiftRight]
        by_cases before : p < 8 * count
        · rw [decide_eq_true before, decide_eq_true (show p < 8 * (count + 1) by omega),
            decide_eq_false (show ¬ p ≥ 8 * count by omega)]
          simp
        · rw [decide_eq_false before, Bool.false_and, Bool.false_or,
            decide_eq_true (show p ≥ 8 * count by omega), Bool.true_and,
            decide_eq_decide.mpr (show p - 8 * count < 8 ↔ p < 8 * (count + 1) by omega)]
          congr 2
          omega
  rw [tailBytes]
  exact run _ (by omega)

/-- A word and its ninth byte hold what the word's shift pushes out. -/
theorem word_and_ninth (number byte : Nat) {off : Nat} (near : off < 8) (most : bits ≤ 64)
    (long : 64 < off + bits) :
    ((number >>> (8 * byte) % 2 ^ 64) >>> off |||
      (number >>> (8 * (byte + 8)) % 2 ^ 8) <<< (64 - off) % 2 ^ 64) % 2 ^ bits =
      number >>> (8 * byte + off) % 2 ^ bits := by
  refine Nat.eq_of_testBit_eq fun j => ?_
  rw [Nat.testBit_mod_two_pow, Nat.testBit_mod_two_pow]
  by_cases low : j < bits
  · rw [decide_eq_true low, Bool.true_and, Bool.true_and, Nat.testBit_or, Nat.testBit_shiftRight,
      Nat.testBit_mod_two_pow, Nat.testBit_shiftRight, Nat.testBit_mod_two_pow, Nat.testBit_shiftLeft,
      Nat.testBit_mod_two_pow, Nat.testBit_shiftRight, Nat.testBit_shiftRight,
      decide_eq_true (show j < 64 by omega), Bool.true_and]
    by_cases first : off + j < 64
    · rw [decide_eq_true first, Bool.true_and, decide_eq_false (show ¬ j ≥ 64 - off by omega),
        Bool.false_and, Bool.or_false, Nat.add_assoc]
    · rw [decide_eq_false first, Bool.false_and, Bool.false_or,
        decide_eq_true (show j ≥ 64 - off by omega), Bool.true_and,
        decide_eq_true (show j - (64 - off) < 8 by omega), Bool.true_and]
      congr 1
      omega
  · rw [decide_eq_false low, Bool.false_and, Bool.false_and]

namespace Filled

/-- The bits of a slot. -/
theorem slot_eq (filled : Filled m bits value bytes) (inside : slot < m) :
    leNat bytes >>> (slot * bits) % 2 ^ bits = value slot := by
  obtain ⟨entered, fields, all⟩ := filled.fields
  exact fields.read ((all slot).mpr inside) (filled.fits slot inside)

/-- A slot ends inside the table. -/
theorem room (filled : Filled m bits value bytes) (inside : slot < m) :
    slot * bits + bits ≤ m * bits ∧ slot * bits + bits ≤ 8 * bytes.length := by
  have reach : (slot + 1) * bits ≤ m * bits := Nat.mul_le_mul_right _ inside
  have next : (slot + 1) * bits = slot * bits + bits := Nat.succ_mul slot bits
  have length := filled.length
  omega

theorem readFpBits_eq (filled : Filled m bits value bytes) (inside : slot < m) :
    readFpBits bytes slot bits = some (value slot) := by
  have least := filled.least
  have most := filled.most
  have total := filled.total
  obtain ⟨upTo, room⟩ := filled.room inside
  have held := filled.slot_eq inside
  have parts := Nat.div_add_mod (slot * bits) 8
  have near := Nat.mod_lt (slot * bits) (show 0 < 8 by decide)
  rw [readFpBits, checkedMul, if_pos (by omega)]
  rw [Option.bind_eq_bind, Option.bind_some]
  dsimp only
  by_cases whole : slot * bits / 8 + 8 ≤ bytes.length
  · rw [getWord_eq whole]
    change (if slot * bits % 8 + bits ≤ 64 then _ else _) = _
    by_cases one : slot * bits % 8 + bits ≤ 64
    · rw [if_pos one, and_fpMask _ least most, word_field _ _ one, parts, held]
    · have ninth := @byte_eq bytes (slot * bits / 8 + 8) (by omega)
      rw [List.getElem?_eq_getElem (by omega), Option.map_some, Option.some.injEq] at ninth
      rw [if_neg one, List.getElem?_eq_getElem (by omega)]
      change some _ = some _
      rw [ninth, and_fpMask _ least most, word_and_ninth _ _ near most (by omega), parts, held]
  · have short : getWord bytes (slot * bits / 8) 8 = none := if_neg whole
    rw [short, tailBytes_eq (show (slot * bits + bits - 1) / 8 < bytes.length by omega)]
    change some _ = some _
    rw [and_fpMask _ least most, word_field _ _ (by omega), parts, held]

theorem readFp_eq (filled : Filled m bits value bytes) (inside : slot < m) :
    readFp bytes slot bits = some (value slot) := by
  have most := filled.most
  have total := filled.total
  obtain ⟨upTo, room⟩ := filled.room inside
  have held := filled.slot_eq inside
  have bitsRead := filled.readFpBits_eq inside
  rw [readFp, show (7 : Nat) = 2 ^ 3 - 1 by decide, Nat.and_two_pow_sub_one_eq_mod]
  by_cases wide : bits % 2 ^ 3 = 0
  · obtain ⟨k, rfl⟩ : ∃ k, bits = 8 * k := ⟨bits / 8, by omega⟩
    have start : slot * (8 * k) = 8 * (slot * k) := Nat.mul_left_comm ..
    have word := @getWord_eq bytes (slot * k) k (by omega)
    rw [← start, held] at word
    rw [if_pos wide]
    dsimp only
    rw [Nat.mul_div_cancel_left k (by decide), checkedMul, if_pos (by omega)]
    have single := @byte_eq bytes (slot * k) (by have := filled.least; omega)
    rw [← start] at single
    rw [Option.bind_eq_bind, Option.bind_some]
    split
    · rw [single]
      exact congrArg some held
    · exact word
    · exact word
    · exact word
    · exact bitsRead
  · rw [if_neg wide]
    exact bitsRead

/-- The dictionary's value, one load or the end's read. -/
theorem value_eq (filled : Filled m bits value bytes) (inside : slot < m) :
    ((⟨bytes, bits⟩ : HashedDict.Ranks).value slot : Faulting ε Nat) = .ok (value slot) := by
  have total := filled.total
  obtain ⟨upTo, room⟩ := filled.room inside
  have parts := Nat.div_add_mod (slot * bits) 8
  have product : slot * bits < 2 ^ 64 := by omega
  rw [HashedDict.Ranks.value]
  change Except.bind (mul slot bits) _ = _
  rw [mul_eq product]
  change (if slot * bits / 8 + 8 ≤ bytes.length ∧ bits ≤ 57 then _ else _) = _
  by_cases one : slot * bits / 8 + 8 ≤ bytes.length ∧ bits ≤ 57
  · rw [if_pos one]
    change Except.ok _ = _
    rw [leNat_between, and_fpMask _ filled.least filled.most, word_field _ _ (by omega), parts,
      filled.slot_eq inside]
  · rw [if_neg one]
    change Except.ok ((readFp bytes slot bits).getD 0) = _
    rw [filled.readFp_eq inside]
    rfl

end Filled

/-! ## Whole tables and ranges -/

theorem fpTableLen_eq (total : m * bits < 2 ^ 64) : fpTableLen m bits = .ok ((m * bits + 7) / 8) := by
  rw [fpTableLen, mul_eq total]
  rfl

/-- Every slot written once, in any order. -/
theorem written_filled (least : 1 ≤ bits) (most : bits ≤ 64) (fits : ∀ s, s < m → value s < 2 ^ bits)
    (total : m * bits < 2 ^ 64) {order : List Nat} (once : order.Perm (List.range m)) :
    ∃ table, (writeAll (List.replicate ((m * bits + 7) / 8) 0) bits (order.map fun s => (s, value s)) :
      Faulting ε (List UInt8)) = .ok table ∧ Filled m bits value table := by
  have members : ∀ s, s ∈ order ↔ s < m := fun s => by rw [once.mem_iff, List.mem_range]
  obtain ⟨table, entered, run, length, fields, written⟩ := @writeAll_spec ε bits m value least most fits total order
    (List.replicate ((m * bits + 7) / 8) 0) []
    (fun s member => (members s).mp member) (by rw [List.length_replicate]; omega)
    (by rw [leNat_replicate]; exact fields_zero)
  rw [List.length_replicate] at length
  refine ⟨table, run, least, most, fits, total, length, entered, fields, fun s => ?_⟩
  rw [written, members]
  exact ⟨fun either => either.resolve_left List.not_mem_nil, .inr⟩

/-- A table in front of another, on a byte. -/
theorem Fields.joined {front back : List UInt8} {n : Nat} {entered later : List Nat} (positive : 0 < bits)
    (ends : n * bits = 8 * front.length) (first : Fields bits value entered (leNat front))
    (members : ∀ s, s ∈ entered ↔ s < n) (second : Fields bits (fun s => value (n + s)) later (leNat back)) :
    Fields bits value (entered ++ later.map (n + ·)) (leNat (front ++ back)) := by
  intro p
  have parts := Nat.div_add_mod p bits
  have low := Nat.mod_lt p positive
  rw [leNat_joined_testBit, ← ends]
  by_cases before : p < n * bits
  · have here : p / bits < n := Nat.div_lt_of_lt_mul (by rwa [Nat.mul_comm])
    have mine : p / bits ∈ entered := (members _).mpr here
    rw [if_pos before, first p, decide_eq_true mine, decide_eq_true (List.mem_append_left _ mine)]
  · have moved : p = p - n * bits + n * bits := by omega
    have slot_ : p / bits = n + (p - n * bits) / bits := by
      conv_lhs => rw [moved]
      rw [Nat.add_mul_div_right _ _ positive, Nat.add_comm]
    have bit : p % bits = (p - n * bits) % bits := by
      conv_lhs => rw [moved]
      rw [Nat.add_mul_mod_self_right]
    rw [if_neg before, second (p - n * bits), slot_, bit]
    dsimp only
    congr 1
    rw [decide_eq_decide, List.mem_append, members]
    refine ⟨fun member => .inr (List.mem_map_of_mem member), fun either => ?_⟩
    obtain ⟨s, member, same⟩ := List.mem_map.mp (either.resolve_left (Nat.not_lt.mpr (Nat.le_add_right n _)))
    rwa [← Nat.add_left_cancel same]

/-- Ranges of slots, each but the last a multiple of eight, end to end. -/
theorem segments_spec (least : 1 ≤ bits) (most : bits ≤ 64) (value : Nat → Nat) (ranges : List (List Nat)) :
    ∀ {base m : Nat}, m = (ranges.map List.length).sum → (∀ s, s < m → value (base + s) < 2 ^ bits) →
    m * bits < 2 ^ 64 → (∀ order ∈ ranges, order.Perm (List.range order.length)) →
    (∀ order ∈ ranges.dropLast, 8 ∣ order.length) →
    ∃ bytes entered, segments bits value base ranges = .ok bytes ∧ bytes.length = (m * bits + 7) / 8 ∧
      Fields bits (fun s => value (base + s)) entered (leNat bytes) ∧ ∀ s, s ∈ entered ↔ s < m := by
  induction ranges with
  | nil =>
      rintro base m rfl _ _ _ _
      refine ⟨[], [], rfl, ?_, fields_zero, fun s => ?_⟩
      · rw [List.map_nil, List.sum_nil, Nat.zero_mul]
        rfl
      · exact ⟨fun member => absurd member List.not_mem_nil, fun less => absurd less (Nat.not_lt_zero s)⟩
  | cons order ranges ih =>
      intro base m count fits total once aligned
      rw [List.map_cons, List.sum_cons] at count
      generalize rest_ : (ranges.map List.length).sum = rest at count
      have product : m * bits = order.length * bits + rest * bits := by rw [count, Nat.add_mul]
      have perm := once order List.mem_cons_self
      obtain ⟨segment, run, filled⟩ := @written_filled IndexError bits order.length
        (fun s => value (base + s)) least most (fun s inside => fits s (by omega)) (by omega) order perm
      obtain ⟨entered, fields, all⟩ := filled.fields
      have size := @fpTableLen_eq bits order.length (by omega)
      have later : ∀ back, segments bits value (base + order.length) ranges = .ok back →
          segments bits value base (order :: ranges) = .ok (segment ++ back) := by
        intro back ran
        rw [segments, size]
        change Except.bind (writeAll _ _ _) _ = _
        rw [run]
        change Except.bind (segments bits value (base + order.length) ranges) _ = _
        rw [ran]
        rfl
      cases ranges with
      | nil =>
          rw [List.map_nil, List.sum_nil] at rest_
          have alone : m = order.length := by omega
          subst alone
          refine ⟨segment, entered, ?_, filled.length, fields, all⟩
          rw [later [] rfl, List.append_nil]
      | cons next ranges =>
          have eight := aligned order (by rw [List.dropLast_cons₂]; exact List.mem_cons_self)
          obtain ⟨back, others, ran, length, held, members⟩ := @ih (base + order.length) rest
            rest_.symm (fun s inside => by rw [Nat.add_assoc]; exact fits _ (by omega)) (by omega)
            (fun other member => once other (List.mem_cons_of_mem _ member))
            (fun other member => aligned other (by
              rw [List.dropLast_cons₂]
              exact List.mem_cons_of_mem _ member))
          obtain ⟨k, groups⟩ := eight
          have bytes_ : order.length * bits = 8 * (k * bits) := by rw [groups, Nat.mul_assoc]
          have front := filled.length
          refine ⟨segment ++ back, entered ++ others.map (order.length + ·), later back ran, ?_, ?_, fun s => ?_⟩
          · rw [List.length_append, front, length]
            omega
          · refine Fields.joined least (by omega) fields all ?_
            simpa only [Nat.add_assoc] using held
          · rw [List.mem_append, all, List.mem_map]
            constructor
            · rintro (first | ⟨t, member, rfl⟩)
              · omega
              · have inside := (members t).mp member
                omega
            · intro inside
              by_cases first : s < order.length
              · exact .inl first
              · exact .inr ⟨s - order.length, (members _).mpr (by omega), by omega⟩

/-- **The value table is exact.**  Every slot written once, in any order, is read back by the table's
reader and by the dictionary's, no write or read leaves the table, and ranges of a multiple of eight
slots written apart are, end to end, the same bytes. -/
theorem value_table_exact (width m : Nat) (least : 1 ≤ width) (most : width ≤ 64) (value : Nat → Nat)
    (fits : ∀ s, s < m → value s < 2 ^ width) (total : m * width < 2 ^ 64) (order : List Nat)
    (once : order.Perm (List.range m)) :
    ∃ size table, fpTableLen m width = .ok size ∧ size = (m * width + 7) / 8 ∧
      (writeAll (List.replicate size 0) width (order.map fun s => (s, value s)) : Faulting ε (List UInt8)) =
        .ok table ∧
      table.length = size ∧
      (∀ s, s < m → readFp table s width = some (value s) ∧
        ((⟨table, width⟩ : HashedDict.Ranks).value s : Faulting ε Nat) = .ok (value s)) ∧
      ∀ ranges : List (List Nat), (ranges.map List.length).sum = m →
        (∀ part ∈ ranges, part.Perm (List.range part.length)) →
        (∀ part ∈ ranges.dropLast, 8 ∣ part.length) → segments width value 0 ranges = .ok table := by
  obtain ⟨table, run, filled⟩ := written_filled (ε := ε) least most fits total once
  refine ⟨_, table, fpTableLen_eq total, rfl, run, filled.length,
    fun s inside => ⟨filled.readFp_eq inside, filled.value_eq inside⟩, fun ranges count parts aligned => ?_⟩
  obtain ⟨entered, fields, all⟩ := filled.fields
  obtain ⟨bytes, others, ran, length, held, members⟩ := @segments_spec width least most value ranges 0
    m count.symm (fun s inside => by rw [Nat.zero_add]; exact fits s inside) total parts aligned
  simp only [Nat.zero_add] at held
  have same : leNat bytes = leNat table := held.unique fields fun s => by rw [members, all]
  rw [ran, leNat_inj (length.trans filled.length.symm) same]

/-- Nine values of three bits, in falling order and as two ranges. -/
theorem value_table_exact_nine :
    ∃ table, (writeAll (List.replicate 4 0) 3 ((List.range 9).reverse.map fun s => (s, s % 8)) :
        Faulting Empty (List UInt8)) = .ok table ∧
      readFp table 8 3 = some 0 ∧ segments 3 (· % 8) 0 [List.range 8, [0]] = .ok table := by
  obtain ⟨size, table, -, rfl, run, -, reads, ranges⟩ := value_table_exact (ε := Empty) 3 9 (by decide)
    (by decide) (· % 8) (fun s _ => Nat.mod_lt s (by decide)) (by decide) (List.range 9).reverse
    (List.reverse_perm _)
  exact ⟨table, run, (reads 8 (by decide)).1,
    ranges [List.range 8, [0]] rfl (by decide) (by decide)⟩

end Lexindex.CompactHash
