import Mathlib
import Lexindex.Lib.Faults

/-!
# Buffers

Parts of a buffer: what stands between two positions, a part written over what was there, and
pieces of one size in a row.
-/

set_option autoImplicit false

namespace Lexindex

open Faulting (bytesBetween bytesBetween_length)

/-- `part` over what was at `start`. -/
def overwrite (bytes : List UInt8) (start : Nat) (part : List UInt8) : List UInt8 :=
  bytes.take start ++ part ++ bytes.drop (start + part.length)

section Parts

variable {bytes part front back : List UInt8} {start : Nat}

theorem overwrite_length (fits : start + part.length ≤ bytes.length) :
    (overwrite bytes start part).length = bytes.length := by
  rw [overwrite, List.length_append, List.length_append, List.length_take, List.length_drop]
  omega

theorem bytesBetween_part {stop : Nat} (from_ : front.length = start)
    (upTo : start + part.length = stop) : bytesBetween (front ++ part ++ back) start stop = part := by
  rw [bytesBetween, List.append_assoc, List.drop_append_of_le_length (by omega),
    List.drop_of_length_le (by omega), List.nil_append, ← upTo, Nat.add_sub_cancel_left,
    List.take_left']
  rfl

theorem overwrite_part {old : List UInt8} (from_ : front.length = start)
    (same : old.length = part.length) :
    overwrite (front ++ old ++ back) start part = front ++ part ++ back := by
  have first : (front ++ old ++ back).take start = front := by
    rw [List.append_assoc, List.take_left' from_]
  have last : (front ++ old ++ back).drop (start + part.length) = back := by
    rw [List.drop_left']
    rw [List.length_append, from_, same]
  rw [overwrite, first, last]

end Parts

section Pieces

variable {α : Type} {f : α → List UInt8} {size : Nat}

theorem flatMap_uniform_length {xs : List α} (sized : ∀ x ∈ xs, (f x).length = size) :
    (xs.flatMap f).length = xs.length * size := by
  induction xs with
  | nil => simp
  | cons x xs ih =>
      obtain ⟨first, rest⟩ := List.forall_mem_cons.mp sized
      rw [List.flatMap_cons, List.length_append, first, ih rest, List.length_cons, Nat.succ_mul]
      omega

/-- The `k`-th of pieces of one size is between `k` sizes and the next. -/
theorem bytesBetween_piece {xs : List α} (sized : ∀ x ∈ xs, (f x).length = size) {k : Nat} {x : α}
    (here : xs[k]? = some x) {front back : List UInt8} {start stop : Nat}
    (from_ : start = front.length + k * size) (upTo : stop = start + size) :
    bytesBetween (front ++ xs.flatMap f ++ back) start stop = f x := by
  obtain ⟨inside, rfl⟩ := List.getElem?_eq_some_iff.mp here
  have cut : xs.flatMap f =
      (xs.take k).flatMap f ++ f xs[k] ++ (xs.drop (k + 1)).flatMap f := by
    conv => lhs; rw [← List.take_append_drop k xs, ← List.cons_getElem_drop_succ (h := inside)]
    rw [List.flatMap_append, List.flatMap_cons, List.append_assoc]
  have before : ((xs.take k).flatMap f).length = k * size := by
    rw [flatMap_uniform_length fun x member => sized x (List.mem_of_mem_take member),
      List.length_take, Nat.min_eq_left inside.le]
  rw [cut]
  have whole : front ++ ((xs.take k).flatMap f ++ f xs[k] ++ (xs.drop (k + 1)).flatMap f) ++ back =
      (front ++ (xs.take k).flatMap f) ++ f xs[k] ++ ((xs.drop (k + 1)).flatMap f ++ back) := by
    simp only [List.append_assoc]
  rw [whole]
  refine bytesBetween_part ?_ ?_
  · rw [List.length_append, before, from_]
  · rw [sized _ (List.getElem_mem inside), upTo]

end Pieces

end Lexindex
