import Mathlib
import Lexindex.Arena.WriteSound

/-!
# The layout of an arena

A prefix and a tail made from the lengths alone frame the same bytes as the arena laid out from
the strings, and say of each slot where its string is.
-/

set_option autoImplicit false

namespace Lexindex.Arena

open Faulting

section Layout

variable {lens : List Nat} {fps : Option (List UInt8)} {limit : Nat} {tag : UInt8} {size i : Nat}

theorem frontOf_head : (leBytes 8 (lens.length + 1) ++ [tag]).length = HEADER := by
  rw [List.length_append, leBytes_length]
  rfl

/-- The count of a prefix is one less than its first word. -/
theorem readU64_front (few : lens.length < 2 ^ 32) :
    readU64 (frontOf tag lens fps) 0 = .ok (lens.length + 1) := by
  have fits : lens.length + 1 < 256 ^ WIDE := Nat.lt_trans (Nat.succ_lt_succ few) (by decide)
  refine readOffset_of (.inr rfl) ?_ (by decide) ?_ fits
  · rw [frontOf, List.length_append, frontOf_head]
    exact Nat.le_add_right _ _ |>.trans' (by decide)
  · rw [frontOf, List.append_assoc]
    exact @bytesBetween_part (leBytes WIDE (lens.length + 1)) [] _ 0 _ rfl
      (by rw [leBytes_length])

theorem prefixLen_some_block {slots width n : Nat}
    (shape : BlockLayout (split tag).layout slots width) (few : n < 2 ^ 32) :
    ∃ size, prefixLen tag n = some size := by
  have bases := split_base tag
  have fp : (split tag).fp ≤ 1 := by
    rw [split_fp]
    split <;> decide
  have bytes : blockBytes slots width (split tag).base (split tag).fp ≤ 2 ^ 12 := by
    obtain ⟨-, rfl, rfl⟩ | ⟨-, rfl, rfl⟩ := shape <;>
      simp only [blockBytes, B_U8, B_U16] <;> omega
  have blocks : divCeil n slots ≤ 2 ^ 32 := by
    obtain ⟨-, rfl, rfl⟩ | ⟨-, rfl, rfl⟩ := shape <;>
      simp only [divCeil, B_U8, B_U16] <;> omega
  have whole := Nat.mul_le_mul blocks bytes
  have nine : HEADER = 9 := rfl
  rw [prefixLen_block shape, checkedMul_eq_some.mpr ⟨by omega, rfl⟩]
  exact ⟨_, checkedAdd_eq_some.mpr ⟨by omega, rfl⟩⟩

/-- A count of 32 bits has a table, whatever the encoding. -/
theorem prefixLen_some {base : Nat} (chosen : Chosen lens (if fps.isSome then 1 else 0) base tag)
    (few : lens.length < 2 ^ 32) : ∃ size, prefixLen tag lens.length = some size := by
  rcases chosen.kind with ⟨slots, width, most, shape, -⟩ | ⟨layout, bases, -⟩
  · exact prefixLen_some_block shape few
  · have u8 : (split tag).layout ≠ BLOCK_U8 := by
      rw [layout]
      rcases bases with rfl | rfl <;> decide
    have u16 : (split tag).layout ≠ BLOCK_U16 := by
      rw [layout]
      rcases bases with rfl | rfl <;> decide
    have width : (split tag).layout.toNat ≤ 8 := by
      rw [layout]
      rcases bases with rfl | rfl <;> decide
    have fp : (split tag).fp ≤ 1 := by
      rw [split_fp]
      split <;> decide
    have rows : lens.length * ((split tag).layout.toNat + (split tag).fp) ≤ 2 ^ 32 * 9 :=
      Nat.mul_le_mul few.le (by omega)
    have nine : HEADER = 9 := rfl
    rw [prefixLen]
    simp only [if_neg u8, if_neg u16]
    have product : checkedMul lens.length ((split tag).layout.toNat + (split tag).fp) =
        some (lens.length * ((split tag).layout.toNat + (split tag).fp)) :=
      checkedMul_eq_some.mpr ⟨by omega, rfl⟩
    generalize lens.length * ((split tag).layout.toNat + (split tag).fp) = whole at product rows
    have table : checkedAdd whole (split tag).layout.toNat =
        some (whole + (split tag).layout.toNat) := checkedAdd_eq_some.mpr ⟨by omega, rfl⟩
    simp only [product, table, Option.bind_eq_bind, Option.bind_some]
    exact ⟨_, checkedAdd_eq_some.mpr ⟨by omega, rfl⟩⟩

/-- Every slot of a written prefix starts where the lengths before it end. -/
theorem spanAt_written {ε : Type} (narrow : limit ≤ NARROW_LIMIT)
    (sized : ∀ prints, fps = some prints → prints.length = lens.length)
    (few : lens.length < 2 ^ 32) (sum : lens.sum < 2 ^ 64) (slot : i < lens.length) :
    spanAt (frontOf (tagFor lens lens.sum fps.isSome limit) lens fps)
        (tailOf (tagFor lens lens.sum fps.isSome limit) lens)
        (tagFor lens lens.sum fps.isSome limit) i =
      (.ok ((lens.take i).sum, (lens.take (i + 1)).sum) : Faulting ε _) := by
  have chosen := @tagFor_chosen lens lens.sum limit fps.isSome
  obtain ⟨size, table⟩ := prefixLen_some chosen few
  generalize tagFor lens lens.sum fps.isSome limit = tag at *
  have limits : NARROW_LIMIT = 2 ^ 32 - 1 := rfl
  have bases : (if limit < lens.sum then 8 else 4) = 4 ∨
      (if limit < lens.sum then 8 else 4) = 8 := by
    split
    · exact .inr rfl
    · exact .inl rfl
  have fits : lens.sum < 256 ^ (if limit < lens.sum then 8 else 4) := by
    split <;> omega
  generalize (if limit < lens.sum then 8 else 4) = base at *
  have found : ∃ byte, entryOf (frontOf tag lens fps)
      (slice (tailOf tag lens) 0 ((tailOf tag lens).length - TRAILER)) tag lens.length i none =
        .ok (((lens.take i).sum, (lens.take (i + 1)).sum), byte) := by
    rcases chosen.kind with ⟨slots, width, most, shape, most_eq, same, bit⟩ | ⟨layout, -, -⟩
    · have read := @entryOf_block_written lens fps tag size i _ slots width most
        (@frontOf_head lens tag) shape most_eq chosen.fp bit table few (same.symm ▸ fits) slot
      have other : ¬ BLOCK_U16 = BLOCK_U8 := by decide
      obtain ⟨u8, rfl, rfl⟩ | ⟨u16, rfl, rfl⟩ := shape
      · obtain rfl : most = 255 := by omega
        rw [frontOf, tableOf, tailOf, if_pos u8, if_pos u8]
        exact read
      · obtain rfl : most = 65535 := by omega
        rw [frontOf, tableOf, tailOf, u16, if_neg other, if_neg other, if_pos rfl, if_pos rfl]
        exact read
    · have read := @entryOf_flat_written lens fps tag size base i _
        (slice (tailOf tag lens) 0 ((tailOf tag lens).length - TRAILER)) (@frontOf_head lens tag)
        bases layout chosen.fp sized table fits slot
      have u8 : (split tag).layout ≠ BLOCK_U8 := by
        rw [layout]
        rcases bases with rfl | rfl <;> decide
      have u16 : (split tag).layout ≠ BLOCK_U16 := by
        rw [layout]
        rcases bases with rfl | rfl <;> decide
      rw [frontOf, tableOf, if_neg u8, if_neg u16]
      exact read
  obtain ⟨byte, found⟩ := found
  rw [spanAt, readU64_front few]
  change (attempt (entryOf _ _ tag lens.length i none) >>= _) = _
  rw [found]
  rfl

/-- The arena laid out from the strings is the prefix, the strings in a row and the tail. -/
theorem layOutBlocked_eq {items : List String}
    (lengths : lens = items.map fun item => (bytesOf item).length)
    (sized : ∀ prints, fps = some prints → prints.length = lens.length)
    (few : lens.length < 2 ^ 32) (short : ∀ len ∈ lens, len < 2 ^ 32) :
    layOutBlocked items fps limit =
      some (frontOf (tagFor lens lens.sum fps.isSome limit) lens fps ++ items.flatMap bytesOf ++
        tailOf (tagFor lens lens.sum fps.isSome limit) lens) := by
  have count : items.length = lens.length := by rw [lengths, List.length_map]
  have whole : (items.flatMap bytesOf).length = lens.sum := by
    rw [lengths, List.length_flatMap]
  have chosen := @tagFor_chosen lens lens.sum limit fps.isSome
  obtain ⟨needed, table⟩ := prefixLen_some chosen few
  have guessed : BlockLayout (split (tagWith (BLOCK_U8 |||
      if limit < lens.sum then WIDE_BASE else 0) fps.isSome)).layout B_U8 1 := by
    refine .inl ⟨?_, rfl, rfl⟩
    split <;> cases fps.isSome <;> decide
  obtain ⟨optimistic, guess⟩ := prefixLen_some_block guessed few
  have none_long : lens.any (2 ^ 32 ≤ ·) = false := by
    rw [List.any_eq_false]
    intro len member
    simpa using short len member
  have laid : (List.replicate optimistic (0 : UInt8)).length = optimistic := List.length_replicate
  have written : (List.replicate optimistic 0 ++ items.flatMap bytesOf).length - optimistic =
      lens.sum := by
    rw [List.length_append, laid, whole, Nat.add_sub_cancel_left]
  rw [layOutBlocked]
  simp only [← lengths, count, guess, none_long, Option.bind_eq_bind, Option.bind_some, written,
    table, Bool.false_eq_true, if_false]
  change some _ = some _
  -- Moved or not, the data stands where the table ends.
  obtain ⟨room, data⟩ : needed ≤ (if needed ≠ optimistic then
      moveData (List.replicate optimistic 0 ++ items.flatMap bytesOf) optimistic lens.sum needed
      else List.replicate optimistic 0 ++ items.flatMap bytesOf).length ∧
      (if needed ≠ optimistic then
        moveData (List.replicate optimistic 0 ++ items.flatMap bytesOf) optimistic lens.sum needed
        else List.replicate optimistic 0 ++ items.flatMap bytesOf).drop needed =
        items.flatMap bytesOf := by
    split
    · have moved := @moveData_drop (List.replicate optimistic 0) (items.flatMap bytesOf) needed
      rwa [laid, whole] at moved
    · next same =>
      rw [not_not] at same
      rw [same]
      exact ⟨by rw [List.length_append, laid]; omega, List.drop_left' laid⟩
  rw [written_over chosen sized table room, data]

end Layout

end Lexindex.Arena
