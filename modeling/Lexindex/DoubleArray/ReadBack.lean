import Mathlib
import Lexindex.DoubleArray.Build
import Lexindex.DoubleArray.Safe

/-!
# Reading back what was written

A blob that was written and loads is read back as what was written, field by field.
-/

set_option autoImplicit false

namespace Lexindex.DoubleArray

open Mphf (IndexError)

/-- A pair of four-byte numbers, as one of eight. -/
theorem leBytes_pair (low high : Nat) (lowFits : low < 2 ^ 32) :
    leBytes 4 low ++ leBytes 4 high = leBytes 8 (low + 2 ^ 32 * high) := by
  simp only [leBytes, List.cons_append, List.nil_append, List.cons.injEq, and_true]
  refine ⟨?_, ?_, ?_, ?_, ?_, ?_, ?_, ?_⟩ <;> congr 1 <;> omega

section Header

theorem u64At_past {front tail : List UInt8} (size k : Nat) (sized : front.length = size) :
    u64At (front ++ tail) (size + k) = u64At tail k := by
  rw [u64At, u64At, ← List.drop_drop, ← sized, List.drop_left]

theorem u32At_past {front tail : List UInt8} (size k : Nat) (sized : front.length = size) :
    u32At (front ++ tail) (size + k) = u32At tail k := by
  rw [u32At, u32At, ← List.drop_drop, ← sized, List.drop_left]

theorem u64At_here {value : Nat} {tail : List UInt8} (fits : value < 256 ^ 8) :
    u64At (leBytes 8 value ++ tail) 0 = value := by
  rw [u64At, List.drop_zero, List.take_left' (leBytes_length ..), leNat_leBytes 8 value fits]

theorem u32At_here {value : Nat} {tail : List UInt8} (fits : value < 256 ^ 4) :
    u32At (leBytes 4 value ++ tail) 0 = value := by
  rw [u32At, List.drop_zero, List.take_left' (leBytes_length ..), leNat_leBytes 4 value fits]

variable {n nSlots table supp maxLabel payload : Nat} {empty : Option Nat} {body : List UInt8}

theorem headerBytes_length :
    (headerBytes n empty nSlots table supp maxLabel payload).length = HEADER := by
  simp [headerBytes, MAGIC, CHECKED, RESERVED, HEADER]

/-- The fields of a header, where a load reads them. -/
theorem header_fields (nFits : n < 256 ^ 8) (emptyFits : empty.getD (2 ^ 64 - 1) < 256 ^ 8)
    (slotsFit : nSlots < 256 ^ 8) (tableFits : table < 256 ^ 4) (suppFits : supp < 256 ^ 4)
    (labelFits : maxLabel < 256 ^ 4) {bytes : List UInt8}
    (whole : bytes = headerBytes n empty nSlots table supp maxLabel payload ++ body) :
    u64At bytes 4 = n ∧ u64At bytes 12 = empty.getD (2 ^ 64 - 1) ∧ u64At bytes 20 = nSlots ∧
      u32At bytes 28 = table ∧ u32At bytes 32 = supp ∧ u32At bytes 36 = maxLabel := by
  simp only [headerBytes, List.append_assoc] at whole
  have eight (value : Nat) : (leBytes 8 value).length = 8 := leBytes_length ..
  have four (value : Nat) : (leBytes 4 value).length = 4 := leBytes_length ..
  have magic : MAGIC.length = 4 := rfl
  rw [whole]
  refine ⟨?_, ?_, ?_, ?_, ?_, ?_⟩
  · exact (u64At_past 4 0 magic).trans (u64At_here nFits)
  · exact (u64At_past 4 8 magic).trans ((u64At_past 8 0 (eight _)).trans (u64At_here emptyFits))
  · exact (u64At_past 4 16 magic).trans ((u64At_past 8 8 (eight _)).trans
      ((u64At_past 8 0 (eight _)).trans (u64At_here slotsFit)))
  · exact (u32At_past 4 24 magic).trans ((u32At_past 8 16 (eight _)).trans
      ((u32At_past 8 8 (eight _)).trans ((u32At_past 8 0 (eight _)).trans (u32At_here tableFits))))
  · exact (u32At_past 4 28 magic).trans ((u32At_past 8 20 (eight _)).trans
      ((u32At_past 8 12 (eight _)).trans ((u32At_past 8 4 (eight _)).trans
      ((u32At_past 4 0 (four _)).trans (u32At_here suppFits)))))
  · exact (u32At_past 4 32 magic).trans ((u32At_past 8 24 (eight _)).trans
      ((u32At_past 8 16 (eight _)).trans ((u32At_past 8 8 (eight _)).trans
      ((u32At_past 4 4 (four _)).trans ((u32At_past 4 0 (four _)).trans (u32At_here labelFits))))))

end Header

/-- The sections of a body, where a load reads them. -/
theorem body_sections (slots table : List Nat) (supp : List (Nat × Nat))
    (slotWords : ∀ v ∈ slots, v < 2 ^ 64) (tableWords : ∀ x ∈ table, x < 2 ^ 16)
    (suppWords : ∀ e ∈ supp, e.1 < 2 ^ 32 ∧ e.2 < 2 ^ 16) :
    leWords 8 slots.length (bodyBytes slots table supp) = slots ∧
      leWords 2 table.length ((bodyBytes slots table supp).drop (8 * slots.length)) = table ∧
      leWords 8 supp.length
          ((bodyBytes slots table supp).drop (8 * slots.length + 2 * table.length)) =
        supp.map fun e => e.1 + 2 ^ 32 * e.2 := by
  have entries : (supp.flatMap fun e => leBytes 4 e.1 ++ leBytes 4 e.2) =
      (supp.map fun e => e.1 + 2 ^ 32 * e.2).flatMap (leBytes 8) := by
    rw [List.flatMap_map]
    refine List.flatMap_congr fun e member => ?_
    exact leBytes_pair _ _ (suppWords e member).1
  have words : ∀ w ∈ supp.map (fun e => e.1 + 2 ^ 32 * e.2), w < 256 ^ 8 := by
    intro w member
    obtain ⟨e, eIn, rfl⟩ := List.mem_map.mp member
    have small := suppWords e eIn
    omega
  have slotBytes : (slots.flatMap (leBytes 8)).length = 8 * slots.length :=
    flatMap_leBytes_length 8 slots
  have tableBytes : (table.flatMap (leBytes 2)).length = 2 * table.length :=
    flatMap_leBytes_length 2 table
  rw [bodyBytes, entries, List.append_assoc]
  refine ⟨leWords_flatMap slots _ slotWords, ?_, ?_⟩
  · rw [← slotBytes, List.drop_left]
    exact leWords_flatMap table _ tableWords
  · rw [← List.drop_drop, ← slotBytes, List.drop_left, ← tableBytes, List.drop_left]
    have read := leWords_flatMap _ [] words
    rw [List.length_map, List.append_nil] at read
    exact read

end Lexindex.DoubleArray
