import Mathlib
import Lexindex.StringIndex.NodeBytes

/-!
# What the check accepts can be stepped

A step measures the node again as it reads it.  Where the bytes the check added up lie below the
node, every place the step computes lies between them and the node, so that nothing is read outside
and no address falls below zero.
-/

set_option autoImplicit false

namespace Lexindex.FstWalk

open Faulting

/-! ## Numbers and searches -/

/-- The number packed in the `n` bytes at `start`. -/
def field (bytes : List UInt8) (start n : Nat) : Nat :=
  leNat (bytesBetween bytes start (start + n))

/-- Where a delta leads from a node that ends at `stop`. -/
def led (delta stop : Nat) : Nat :=
  if delta = EMPTY then EMPTY else stop - delta

/-- The word is folded from its last byte. -/
theorem foldl_reverse_eq (bytes : List UInt8) (short : bytes.length ≤ 8) :
    bytes.reverse.foldl (fun v byte => (v <<< 8) % 2 ^ 64 ||| byte.toNat) 0 = leNat bytes := by
  rw [List.foldl_reverse]
  induction bytes with
  | nil => rfl
  | cons byte rest ih =>
      have small : byte.toNat < 2 ^ 8 := byte.toNat_lt
      have fits : leNat rest <<< 8 < 2 ^ 64 := by
        have bound := leNat_lt rest
        have wide : 256 ^ rest.length ≤ 256 ^ 7 :=
          Nat.pow_le_pow_right (by omega) (by rw [List.length_cons] at short; omega)
        rw [Nat.shiftLeft_eq]
        omega
      rw [List.foldr_cons, ih (by rw [List.length_cons] at short; omega), Nat.mod_eq_of_lt fits,
        ← Nat.shiftLeft_add_eq_or_of_lt small, Nat.shiftLeft_eq, leNat]
      omega

theorem bytesBetween_take (bytes : List UInt8) {start n wide : Nat} (le : n ≤ wide) :
    (bytesBetween bytes start (start + wide)).take n = bytesBetween bytes start (start + n) := by
  rw [bytesBetween, bytesBetween, List.take_take]
  congr 1
  omega

/-- A range past the word's end is none, as one past the bytes' is. -/
theorem getRange_wrapping {bytes part : List UInt8} {start wide : Nat} (word : start < 2 ^ 64)
    (narrow : wide ≤ 32)
    (got : getRange bytes start ((start + wide) % 2 ^ 64) = some part) :
    part = bytesBetween bytes start (start + wide) := by
  rw [getRange, Option.ite_none_right_eq_some, Option.some.injEq] at got
  have exact : (start + wide) % 2 ^ 64 = start + wide := by
    apply Nat.mod_eq_of_lt
    omega
  rw [← got.2, exact]

section Reads

variable {bytes : List UInt8} {start n : Nat} (inside : start + n ≤ bytes.length)
  (word : start + n < 2 ^ 64)
include inside word

/-- A load of eight bytes, masked, is the number as the loop reads it. -/
theorem uint_eq (small : n ≤ 8) : uint bytes start n = .ok (field bytes start n) := by
  rw [uint]
  split
  · next zero =>
    rw [zero, field, bytesBetween, Nat.add_zero, Nat.sub_self, List.take_zero]
    rfl
  · next positive =>
    split
    · next part got =>
      have whole := getRange_wrapping (by omega) (by omega) got
      have masked : n &&& 15 = n := by
        rw [Nat.and_two_pow_sub_one_eq_mod n 4]
        omega
      have mask : low n = 2 ^ (8 * n) - 1 := by
        rw [low]
        split
        · rw [Nat.shiftLeft_eq, one_mul]
        · next full => rw [show n = 8 by omega]
      rw [masked, mask, Nat.and_two_pow_sub_one_eq_mod, pow_mul, whole,
        show (2 : Nat) ^ 8 = 256 from rfl, leNat_mod, bytesBetween_take bytes small]
      rfl
    · have length : (bytesBetween bytes start (start + n)).length = start + n - start :=
        bytesBetween_length (by omega) inside
      rw [add_eq word]
      simp only [bind, Except.bind]
      rw [slice_eq (by omega) inside]
      simp only [pure, Except.pure]
      rw [foldl_reverse_eq _ (by omega)]
      rfl

theorem target_eq (small : n ≤ 8) {stop : Nat}
    (fits : field bytes start n = EMPTY ∨ field bytes start n ≤ stop) :
    target bytes start n stop = .ok (led (field bytes start n) stop) := by
  rw [target, uint_eq inside word small, led]
  simp only [bind, Except.bind]
  split
  · rfl
  · next other => exact sub_eq (fits.resolve_left other)

/-- The compares at once find what the search one by one finds. -/
theorem position_eq (b : UInt8) :
    position bytes start n b =
      .ok ((bytesBetween bytes start (start + n)).findIdx? (· == b)) := by
  rw [position]
  split
  · next window got =>
    obtain ⟨got, short⟩ := Option.filter_eq_some_iff.mp got
    rw [decide_eq_true_eq] at short
    have whole := getRange_wrapping (by omega) (by split <;> omega) got
    rw [firstEqual, whole, bytesBetween_take bytes]
    split <;> omega
  · rw [add_eq word]
    simp only [bind, Except.bind]
    rw [slice_eq (by omega) inside]
    rfl

end Reads

theorem deltasFit_spec {bytes : List UInt8} {first count size stop i : Nat}
    (fit : deltasFit bytes first count size stop = true) (here : i < count) :
    i * size ≤ first ∧ (field bytes (first - i * size) size = EMPTY ∨
      field bytes (first - i * size) size ≤ stop) := by
  have one := List.all_eq_true.mp fit i (List.mem_range.mpr here)
  rw [checkedSub] at one
  split at one
  · cases one
  · next start known =>
    rw [Option.ite_none_right_eq_some, Option.some.injEq] at known
    obtain ⟨le, rfl⟩ := known
    refine ⟨le, ?_⟩
    split at one
    · cases one
    · next delta read =>
      rw [unpack, Option.bind_eq_bind, Option.bind_eq_some_iff] at read
      obtain ⟨stop', sum, read⟩ := read
      rw [checkedAdd_eq_some] at sum
      obtain ⟨part, got, same⟩ := Option.bind_eq_some_iff.mp read
      rw [getRange, Option.ite_none_right_eq_some, Option.some.injEq] at got
      rw [Option.pure_def, Option.some.injEq] at same
      have value : field bytes (first - i * size) size = delta := by
        rw [field, sum.2, got.2, same]
      rw [value]
      simpa using one

/-! ## Steps -/

/-- How many bytes a state leaves the input, or the count, of a node. -/
def ownLen (state : UInt8) : Nat :=
  if lowBits state = 0 then 1 else 0

/-- The input of a node with one transition. -/
def inputOf (bytes : List UInt8) (addr : Nat) (state : UInt8) : UInt8 :=
  if lowBits state = 0 then bytes.getD (addr - 1) 0 else COMMON_INPUTS.getD (lowBits state - 1) 0

/-- How many transitions a node with any number of them has. -/
def transitionsOf (bytes : List UInt8) (addr : Nat) (state : UInt8) : Nat :=
  if lowBits state = 0 then countOf (bytes.getD (addr - 1) 0) else lowBits state

/-- The byte of the sizes of a node. -/
def packedOf (bytes : List UInt8) (addr : Nat) (state : UInt8) : UInt8 :=
  bytes.getD (addr - ownLen state - 1) 0

/-- The transition the index, or the search, names. -/
def foundIn (bytes : List UInt8) (sizes indexLen inputs ntrans : Nat) (b : UInt8) : Option Nat :=
  if indexLen ≠ 0 then
    if (bytes.getD (sizes - 256 + b.toNat) 0).toNat < ntrans then
      some (bytes.getD (sizes - 256 + b.toNat) 0).toNat
    else none
  else ((bytesBetween bytes inputs (inputs + ntrans)).findIdx? (· == b)).map (ntrans - · - 1)

theorem lowBits_lt (state : UInt8) : lowBits state < 64 := by
  have bound := UInt8.toNat_and state 0b00111111
  have le := @Nat.and_le_right state.toNat 0b00111111
  rw [lowBits, bound]
  exact Nat.lt_of_le_of_lt le (by decide)

theorem transitionsOf_le (bytes : List UInt8) (addr : Nat) (state : UInt8) :
    transitionsOf bytes addr state ≤ 256 := by
  rw [transitionsOf, countOf]
  have few := lowBits_lt state
  have small : (bytes.getD (addr - 1) 0).toNat < 256 := (bytes.getD (addr - 1) 0).toNat_lt
  split
  · split <;> omega
  · omega

theorem index_getD {bytes : List UInt8} {i : Nat} (inside : i < bytes.length) :
    (index bytes i : Faulting Unit UInt8) = .ok (bytes.getD i 0) := by
  rw [index_eq inside, List.getD_eq_getElem?_getD, List.getElem?_eq_getElem inside]
  rfl

/-- A transition that is found is one of the node's. -/
theorem foundIn_lt {bytes : List UInt8} {sizes indexLen inputs ntrans i : Nat} {b : UInt8}
    (found : foundIn bytes sizes indexLen inputs ntrans b = some i) : i < ntrans := by
  rw [foundIn] at found
  split at found
  · split at found
    · next small => exact Option.some.inj found ▸ small
    · cases found
  · obtain ⟨p, at_, rfl⟩ := Option.map_eq_some_iff.mp found
    obtain ⟨within, -⟩ := List.findIdx?_eq_some_iff_getElem.mp at_
    rw [bytesBetween, List.length_take] at within
    omega

section Steps

variable {bytes : List UInt8} {addr : Nat} {state : UInt8} (inside : addr < bytes.length)
include inside

theorem oneInput_eq (room : ownLen state ≤ addr) :
    oneInput bytes addr state = .ok (inputOf bytes addr state, ownLen state) := by
  rw [ownLen] at room
  rw [oneInput, inputOf, ownLen]
  split
  · next own =>
    rw [if_pos own] at room
    rw [sub_eq room]
    simp only [bind, Except.bind]
    rw [index_getD (by omega)]
    rfl
  · have fewer := lowBits_lt state
    rw [index_getD (show lowBits state - 1 < COMMON_INPUTS.length by
      rw [show COMMON_INPUTS.length = 63 from rfl]; omega)]
    rfl

theorem stepNext_eq (input : Option UInt8) (room : ownLen state < addr) :
    stepNext bytes addr state input =
      .ok (none, if input = some (inputOf bytes addr state) then
        some (addr - ownLen state - 1, 0) else none) := by
  rw [stepNext, oneInput_eq inside (Nat.le_of_lt room)]
  simp only [bind, Except.bind]
  split
  · rw [sub_eq (Nat.le_of_lt room)]
    simp only
    rw [sub_eq (by omega)]
    rfl
  · rfl

theorem countFor_eq (room : ownLen state ≤ addr) :
    countFor bytes addr state = .ok (transitionsOf bytes addr state, ownLen state) := by
  rw [ownLen] at room
  rw [countFor, transitionsOf, ownLen]
  split
  · next own =>
    rw [if_pos own] at room
    rw [sub_eq room]
    simp only [bind, Except.bind]
    rw [index_getD (by omega)]
    rfl
  · rfl

variable (word : addr < 2 ^ 64)
include word

/-- The step of a node whose packed address and output lie below it. -/
theorem stepOne_eq (input : Option UInt8) {tsize osize stop : Nat}
    (sized : sizesOf (packedOf bytes addr state) = (tsize, osize)) (tSmall : tsize ≤ 8)
    (oSmall : osize ≤ 8) (room : ownLen state + 1 + tsize + osize + stop = addr)
    (fits : field bytes (stop + osize) tsize = EMPTY ∨ field bytes (stop + osize) tsize ≤ stop) :
    stepOne bytes addr state input =
      .ok (none, if input = some (inputOf bytes addr state) then
        some (led (field bytes (stop + osize) tsize) stop, field bytes stop osize) else none) := by
  rw [stepOne, oneInput_eq inside (by omega)]
  simp only [bind, Except.bind]
  split
  · rfl
  · next same =>
    have first : addr - ownLen state - 1 - tsize = stop + osize := by omega
    rw [if_pos (not_not.mp same), sub_eq (by omega)]
    simp only
    rw [sub_eq (by omega)]
    simp only
    rw [index_getD (by omega)]
    simp only
    rw [packedOf] at sized
    rw [sized]
    simp only
    rw [sub_eq (by omega)]
    simp only
    rw [first, sub_eq (by omega), Nat.add_sub_cancel]
    simp only
    rw [target_eq (by omega) (by omega) tSmall fits]
    simp only
    rw [uint_eq (by omega) (by omega) oSmall]
    rfl

theorem findInput_eq {sizes indexLen inputs ntrans : Nat} (b : UInt8)
    (below : inputs + ntrans + indexLen = sizes) (indexed : indexLen = 0 ∨ indexLen = 256)
    (under : sizes ≤ addr) :
    findInput bytes sizes indexLen inputs ntrans b =
      .ok (foundIn bytes sizes indexLen inputs ntrans b) := by
  rw [findInput, foundIn]
  split
  · next some_ =>
    have small : b.toNat < 256 := b.toNat_lt
    rw [sub_eq (by omega)]
    simp only [bind, Except.bind]
    rw [add_eq (by omega)]
    simp only
    rw [index_getD (by omega)]
    rfl
  · rw [position_eq (by omega) (by omega)]
    simp only [bind, Except.bind]
    cases found : (bytesBetween bytes inputs (inputs + ntrans)).findIdx? (· == b) with
    | none => rfl
    | some p =>
        obtain ⟨within, -⟩ := List.findIdx?_eq_some_iff_getElem.mp found
        rw [bytesBetween, List.length_take] at within
        simp only
        rw [sub_eq (by omega)]
        simp only
        rw [sub_eq (by omega)]
        rfl

/-- The step of a node with any number of transitions, where all that is packed lies below it. -/
theorem stepAny_eq (layout : Layout) (final : Bool) (input : Option UInt8)
    {ntrans tsize osize indexLen inputs outputs stop : Nat}
    (counted : transitionsOf bytes addr state = ntrans)
    (sized : sizesOf (packedOf bytes addr state) = (tsize, osize)) (oSmall : osize ≤ 8)
    (tSmall : 0 < ntrans → tsize ≤ 8)
    (indexed : (if layout.indexedAbove < ntrans then 256 else 0) = indexLen)
    (inputsAt : inputs + ntrans + indexLen + 1 + ownLen state = addr)
    (outputsAt : outputs + ntrans * tsize = inputs)
    (stopAt : stop + (if isFinal state then osize else 0) + ntrans * osize = outputs)
    (fits : ∀ i < ntrans, field bytes (inputs - (i + 1) * tsize) tsize = EMPTY ∨
      field bytes (inputs - (i + 1) * tsize) tsize ≤ stop) :
    stepAny layout final bytes addr state input =
      .ok (if final && isFinal state then some (field bytes stop osize) else none,
        input.bind fun b =>
          (foundIn bytes (inputs + ntrans + indexLen) indexLen inputs ntrans b).map fun i =>
            (led (field bytes (inputs - (i + 1) * tsize) tsize) stop,
              field bytes (outputs - (i + 1) * osize) osize)) := by
  have sizesAt : addr - ownLen state - 1 = inputs + ntrans + indexLen := by omega
  rw [packedOf, sizesAt] at sized
  rw [stepAny, countFor_eq inside (by omega), counted]
  simp only [bind, Except.bind]
  rw [sub_eq (by omega)]
  simp only
  rw [sub_eq (by omega), sizesAt]
  simp only
  rw [index_getD (by omega)]
  simp only
  rw [sized, indexed]
  simp only
  rw [sub_eq (by omega)]
  simp only
  rw [sub_eq (by omega), show inputs + ntrans + indexLen - indexLen - ntrans = inputs by omega]
  simp only
  rw [sub_eq (by omega), show inputs - ntrans * tsize = outputs by omega]
  simp only
  have finally_ : (if (final && isFinal state) = true then (do
        let start ← sub outputs ((ntrans + 1) * osize)
        let out ← uint bytes start osize
        pure (some out))
      else pure none : Faulting Unit (Option Nat)) =
      .ok (if final && isFinal state then some (field bytes stop osize) else none) := by
    split
    · next both =>
      rw [Bool.and_eq_true] at both
      rw [if_pos both.2] at stopAt
      have sum : (ntrans + 1) * osize = ntrans * osize + osize := Nat.succ_mul ..
      rw [sub_eq (by omega), show outputs - (ntrans + 1) * osize = stop by omega]
      simp only [bind, Except.bind]
      rw [uint_eq (by omega) (by omega) oSmall]
      rfl
    · rfl
  simp only [bind, Except.bind] at finally_
  rw [finally_]
  simp only
  cases input with
  | none => rfl
  | some b =>
      simp only [Option.bind_some]
      rw [findInput_eq inside word b rfl (by rw [← indexed]; split <;> simp) (by omega)]
      simp only
      cases found : foundIn bytes (inputs + ntrans + indexLen) indexLen inputs ntrans b with
      | none => rfl
      | some i =>
          have small := foundIn_lt found
          have tPlace : (i + 1) * tsize ≤ ntrans * tsize := Nat.mul_le_mul_right _ small
          have oPlace : (i + 1) * osize ≤ ntrans * osize := Nat.mul_le_mul_right _ small
          have tSum : (i + 1) * tsize = i * tsize + tsize := Nat.succ_mul ..
          have oSum : (i + 1) * osize = i * osize + osize := Nat.succ_mul ..
          simp only [Option.map_some]
          rw [sub_eq (by omega)]
          simp only
          rw [sub_eq (by omega),
            show outputs - ntrans * osize - (if isFinal state = true then osize else 0) = stop by
              omega]
          simp only
          rw [sub_eq (by omega)]
          simp only
          rw [target_eq (by omega) (by omega) (tSmall (by omega)) (fits i small)]
          simp only
          rw [sub_eq (by omega)]
          simp only
          rw [uint_eq (by omega) (by omega) oSmall]
          rfl

/-- A node that fits holds the sizes it packs its only transition in. -/
theorem stepOne_ok (input : Option UInt8) (fits : oneFits bytes addr (ownLen state) = true) :
    ∃ answer, stepOne bytes addr state input = .ok answer := by
  rw [oneFits] at fits
  split at fits
  · cases fits
  · next packed read =>
    rw [checkedSub, Option.bind_eq_some_iff] at read
    obtain ⟨sizes, below, read⟩ := read
    rw [Option.ite_none_right_eq_some, Option.some.injEq] at below
    obtain ⟨le, rfl⟩ := below
    have packed_eq : packedOf bytes addr state = packed := by
      rw [packedOf, Nat.sub_sub, List.getD_eq_getElem?_getD, read]
      rfl
    cases sized : sizesOf packed with
    | mk tsize osize =>
        rw [sized] at fits
        simp only at fits
        split at fits
        · cases fits
        · next sizes =>
          split at fits
          · cases fits
          · next stop known =>
            rw [checkedSub, Option.ite_none_right_eq_some, Option.some.injEq] at known
            have delta := (deltasFit_spec fits Nat.zero_lt_one).2
            rw [Nat.zero_mul, Nat.sub_zero,
              show addr - ownLen state - 1 - tsize = stop + osize by omega] at delta
            have answered := stepOne_eq inside word input (packed_eq ▸ sized) (by omega) (by omega)
              (by omega) delta
            exact ⟨_, answered⟩

omit inside word in
/-- Both count the transitions of a node the same way to say whether there is an index. -/
theorem indexed_same (version ntrans : Nat) (few : ntrans ≤ 256) :
    (if indexedAboveOf version < ntrans then 256 else 0) =
      (if 2 ≤ version ∧ INDEXED < ntrans then 256 else 0) := by
  rw [indexedAboveOf, INDEXED]
  split
  · next recent => simp [recent]
  · next old => rw [if_neg (by omega), if_neg fun both => old both.1]

/-- A node that fits has room below it for all the transitions it counts. -/
theorem stepAny_ok {version : Nat} (final : Bool) (root : Nat) (input : Option UInt8)
    (fits : anyFits bytes version addr state = true) :
    ∃ answer, stepAny ⟨root, indexedAboveOf version⟩ final bytes addr state input = .ok answer := by
  rw [anyFits] at fits
  simp only at fits
  rw [show (if lowBits state = 0 then 1 else 0) = ownLen state from rfl] at fits
  split at fits
  · cases fits
  · next packed read =>
    rw [checkedSub, Option.bind_eq_some_iff] at read
    obtain ⟨sizes, below, read⟩ := read
    rw [Option.ite_none_right_eq_some, Option.some.injEq] at below
    obtain ⟨le, rfl⟩ := below
    have packed_eq : packedOf bytes addr state = packed := by
      rw [packedOf, Nat.sub_sub, List.getD_eq_getElem?_getD, read]
      rfl
    split at fits
    · cases fits
    · next ntrans counted =>
      have counted : transitionsOf bytes addr state = ntrans := by
        rw [transitionsOf]
        by_cases own : lowBits state = 0
        · rw [ownLen, if_pos own] at counted
          rw [if_pos own]
          obtain ⟨count, read, rfl⟩ := Option.map_eq_some_iff.mp counted
          obtain ⟨start, below, read⟩ := Option.bind_eq_some_iff.mp read
          rw [checkedSub, Option.ite_none_right_eq_some, Option.some.injEq] at below
          rw [below.2, List.getD_eq_getElem?_getD, read]
          rfl
        · rw [ownLen, if_neg own] at counted
          rw [if_neg own]
          exact Option.some.inj counted
      split at fits
      · cases fits
      · next sizes =>
        split at fits
        · cases fits
        · next stop known =>
          rw [checkedSub, Option.ite_none_right_eq_some, Option.some.injEq] at known
          cases sized : sizesOf packed with
          | mk tsize osize =>
              rw [sized] at known fits sizes
              simp only at known fits sizes
              have few : ntrans ≤ 256 := counted ▸ transitionsOf_le bytes addr state
              have indexed := indexed_same version ntrans few
              generalize (if 2 ≤ version ∧ INDEXED < ntrans then 256 else 0) = indexLen
                at known fits indexed
              obtain ⟨outputs, stopAt⟩ :
                  ∃ outputs, stop + (if isFinal state then osize else 0) + ntrans * osize = outputs :=
                ⟨_, rfl⟩
              obtain ⟨inputs, outputsAt⟩ : ∃ inputs, outputs + ntrans * tsize = inputs := ⟨_, rfl⟩
              have delta : ∀ i < ntrans, field bytes (inputs - (i + 1) * tsize) tsize = EMPTY ∨
                  field bytes (inputs - (i + 1) * tsize) tsize ≤ stop := by
                intro i here
                rw [Bool.or_eq_true, beq_iff_eq] at fits
                have one := (deltasFit_spec (fits.resolve_left (by omega)) here).2
                have sum : (i + 1) * tsize = i * tsize + tsize := Nat.succ_mul ..
                rwa [show addr - ownLen state - 1 - indexLen - ntrans - tsize - i * tsize =
                  inputs - (i + 1) * tsize by omega] at one
              have answered := stepAny_eq inside word ⟨root, indexedAboveOf version⟩ final input
                counted (packed_eq ▸ sized) (by omega) (by omega) indexed (by omega) outputsAt stopAt
                delta
              exact ⟨_, answered⟩

end Steps

/-! ## The check is enough -/

/-- Where a node fits, a step from it answers, whatever the input and whether or not the final
output is asked for: no read is outside the bytes, and no address falls below zero. -/
theorem step_of_nodeFits (bytes : List UInt8) (version : Nat) (addr : UInt64) (root : Nat)
    (final : Bool) (input : Option UInt8) (fits : nodeFits bytes version addr.toNat = true) :
    ∃ answer, Layout.step ⟨root, indexedAboveOf version⟩ final bytes addr.toNat input =
      .ok answer := by
  have word : addr.toNat < 2 ^ 64 := addr.toNat_lt
  generalize addr.toNat = addr at fits word
  rw [nodeFits] at fits
  rw [Layout.step]
  split at fits
  · next empty => exact ⟨_, if_pos empty⟩
  · next positive =>
    rw [if_neg positive]
    split at fits
    · cases fits
    · next state here =>
      obtain ⟨inside, at_⟩ := List.getElem?_eq_some_iff.mp here
      rw [index_eq inside, List.get_eq_getElem, at_]
      simp only [bind, Except.bind]
      change (if state >>> 6 = 0b11 then decide (ownLen state < addr)
        else if state >>> 6 = 0b10 then oneFits bytes addr (ownLen state)
        else anyFits bytes version addr state) = true at fits
      split at fits
      · next next_ =>
        rw [if_pos next_, stepNext_eq inside input (of_decide_eq_true fits)]
        exact ⟨_, rfl⟩
      · next notNext =>
        rw [if_neg notNext]
        split at fits
        · next one =>
          rw [if_pos one]
          exact stepOne_ok inside word input fits
        · next notOne =>
          rw [if_neg notOne]
          exact stepAny_ok inside word final root input fits

theorem step_of_nodeFits_next :
    ∃ answer, Layout.step ⟨1, indexedAboveOf 3⟩ true [0, 0xC1] 1 (some 0x74) = .ok answer :=
  step_of_nodeFits [0, 0xC1] 3 1 1 true (some 0x74) (by decide)

end Lexindex.FstWalk
