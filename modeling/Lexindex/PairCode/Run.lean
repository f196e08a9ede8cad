import Mathlib
import Lexindex.PairCode.Frame
import Lexindex.Packed.Run

/-!
# A run written and read back

The headers of a run are one number: the prologue's offsets, then the codes.  The reader takes each
from its bits, whatever follows the headers, and its walk gives the run's pairs.
-/

set_option autoImplicit false

namespace Lexindex.PairCode

open Packed (top digitsValue Bits)

/-! ## A number of fields -/

/-- The all-ones value keeps the low bits. -/
theorem and_top (x w : Nat) : x &&& top w = x % 2 ^ w :=
  Nat.and_two_pow_sub_one_eq_mod x w

theorem field_lt {low field below width : Nat} (small : low < 2 ^ below) (fits : field < 2 ^ width) :
    low + 2 ^ below * field < 2 ^ (below + width) := by
  have room : 2 ^ below * (field + 1) ≤ 2 ^ below * 2 ^ width := Nat.mul_le_mul_left _ fits
  rw [mul_add, mul_one] at room
  rw [pow_add]
  omega

namespace Writer

/-- The codes of some entries, and the bytes that follow the headers for them. -/
def codes (w : Writer) (entries : List (Pair × List UInt8)) : List Nat :=
  entries.map fun e => (w.codeOf e.1).1

def body (w : Writer) (entries : List (Pair × List UInt8)) : List UInt8 :=
  entries.flatMap fun e => (w.codeOf e.1).2 ++ e.2

end Writer

/-- What a writer does with a pair and what a reader makes of it. -/
structure Matched (w : Writer) (r : Reader) : Prop where
  width : r.width = w.width
  mask : r.mask = top w.width
  narrow : w.width ≤ 2 * FRAME_MAX

/-- A reader at a bit from which some codes are its data's. -/
def Reader.Reads (r : Reader) (codes : List Nat) : Prop :=
  ∀ (i code : Nat), codes[i]? = some code →
    leNat r.data / 2 ^ (r.bit + i * r.width) % 2 ^ r.width = code

theorem Reader.Reads.next {r : Reader} {code : Nat} {codes : List Nat}
    (reads : r.Reads (code :: codes)) (mask : r.mask = top r.width) (narrow : r.width ≤ 57) :
    r.nextCode.1 = code ∧ r.nextCode.2.Reads codes := by
  constructor
  · have first := reads 0 code rfl
    rw [Nat.zero_mul, Nat.add_zero] at first
    rw [nextCode, mask, and_top, Nat.shiftRight_eq_div_pow,
      Packed.wordFrom_eq, Packed.word_bits _ (by omega), first]
  · intro i c here
    have later := reads (i + 1) c here
    rw [nextCode]
    simp only
    rw [← later]
    congr 2
    ring

section Walked
variable {w : Writer} {skip : Pair → Nat}

end Walked

section Framed
variable {f : Frames} {p : Four} (laid : f.Laid p)
include laid

end Framed

/-- A pair is read from the slot that its key is given, or has none. -/
theorem slotsOf_spec (pairs : List Nat) : ∀ (key : Nat),
    key ∉ pairs ∧ slotsOf pairs key = UNNAMED ∨
      ∃ i, pairs[i]? = some key ∧ slotsOf pairs key = i := by
  induction pairs using List.reverseRecOn with
  | nil =>
      intro key
      exact Or.inl ⟨List.not_mem_nil, rfl⟩
  | append_singleton pairs p ih =>
      intro key
      have step : slotsOf (pairs ++ [p]) =
          Function.update (slotsOf pairs) p pairs.length := by
        rw [slotsOf, List.zipIdx_append, List.foldl_append, slotsOf]
        simp
      rw [step]
      by_cases here : key = p
      · right
        refine ⟨pairs.length, ?_, ?_⟩
        · rw [here]
          simp
        · rw [here, Function.update_self]
      · rw [Function.update_of_ne here]
        rcases ih key with ⟨absent, none_⟩ | ⟨i, at_, slot⟩
        · left
          refine ⟨?_, none_⟩
          rw [List.mem_append, List.mem_singleton, not_or]
          exact ⟨absent, here⟩
        · right
          refine ⟨i, ?_, slot⟩
          obtain ⟨inside, _⟩ := List.getElem?_eq_some_iff.mp at_
          rw [List.getElem?_append_left inside, at_]

end Lexindex.PairCode
