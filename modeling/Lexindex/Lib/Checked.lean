import Mathlib

/-!
# Fallible steps

A loader is a chain of refusals and of additions and products that may leave the
machine word.  The lemmas here take such a chain apart from its success, one
step at a time, so that no proof about a loader unfolds its monad.
-/

set_option autoImplicit false

namespace Lexindex

section Refusal

variable {ε α β : Type}

/-- Refuse with `error` when `bad` holds. -/
def refuse (bad : Prop) [Decidable bad] (error : ε) : Except ε Unit :=
  if bad then .error error else .ok ()

/-- The value of an option, or the refusal `error`. -/
def okOr (value : Option α) (error : ε) : Except ε α :=
  match value with
  | some value => .ok value
  | none => .error error

theorem bind_eq_ok {step : Except ε α} {next : α → Except ε β} {result : β} :
    (step >>= next) = .ok result ↔ ∃ value, step = .ok value ∧ next value = .ok result := by
  cases step <;> simp [bind, Except.bind]

theorem pure_eq_ok {value result : α} :
    (pure value : Except ε α) = .ok result ↔ value = result := by
  simp [pure, Except.pure]

@[simp] theorem refuse_eq_ok {bad : Prop} [Decidable bad] {error : ε} {accepted : Unit} :
    refuse bad error = .ok accepted ↔ ¬ bad := by
  by_cases held : bad <;> simp [refuse, held]

@[simp] theorem okOr_eq_ok {value : Option α} {error : ε} {result : α} :
    okOr value error = .ok result ↔ value = some result := by
  cases value <;> simp [okOr]

end Refusal

section Mapped

variable {α β : Type} {f : α → Option β}

theorem mapM_some {g : α → β} : ∀ {items : List α},
    (∀ item ∈ items, f item = some (g item)) → items.mapM f = some (items.map g) := by
  intro items
  induction items with
  | nil => intro _; rfl
  | cons item rest ih =>
      intro each
      rw [List.mapM_cons, each item (List.mem_cons_self ..),
        ih fun other member => each other (List.mem_cons_of_mem _ member)]
      rfl

/-- Where every step succeeds with a value that meets `spec`, the whole does and its values do. -/
theorem mapM_spec {spec : β → Prop} {items : List α}
    (each : ∀ item ∈ items, ∃ value, f item = some value ∧ spec value) :
    ∃ values, items.mapM f = some values ∧ ∀ value ∈ values, spec value := by
  induction items with
  | nil => exact ⟨[], rfl, by simp⟩
  | cons item rest ih =>
      obtain ⟨value, read, held⟩ := each item (List.mem_cons_self ..)
      obtain ⟨values, rest_read, rest_held⟩ :=
        ih fun other member => each other (List.mem_cons_of_mem _ member)
      refine ⟨value :: values, ?_, List.forall_mem_cons.mpr ⟨held, rest_held⟩⟩
      rw [List.mapM_cons, read, rest_read]
      rfl

theorem mapM_cons_some {item : α} {items : List α} {values : List β}
    (read : (item :: items).mapM f = some values) :
    ∃ value rest, f item = some value ∧ items.mapM f = some rest ∧ values = value :: rest := by
  rw [List.mapM_cons] at read
  obtain ⟨value, here, read⟩ := Option.bind_eq_some_iff.mp read
  obtain ⟨rest, later, read⟩ := Option.bind_eq_some_iff.mp read
  rw [Option.pure_def, Option.some.injEq] at read
  exact ⟨value, rest, here, later, read.symm⟩

end Mapped

section Checked

/-- Addition in a 64-bit word, `none` where it overflows. -/
def checkedAdd (a b : Nat) : Option Nat :=
  if a + b < 2 ^ 64 then some (a + b) else none

/-- Product in a 64-bit word, `none` where it overflows. -/
def checkedMul (a b : Nat) : Option Nat :=
  if a * b < 2 ^ 64 then some (a * b) else none

@[simp] theorem checkedAdd_eq_some {a b sum : Nat} :
    checkedAdd a b = some sum ↔ a + b < 2 ^ 64 ∧ a + b = sum := by
  simp [checkedAdd]

@[simp] theorem checkedMul_eq_some {a b product : Nat} :
    checkedMul a b = some product ↔ a * b < 2 ^ 64 ∧ a * b = product := by
  simp [checkedMul]

/-- `⌈a / b⌉`. -/
def divCeil (a b : Nat) : Nat :=
  (a + b - 1) / b

theorem le_mul_divCeil (a b : Nat) (positive : 0 < b) : a ≤ b * divCeil a b := by
  have split := Nat.div_add_mod (a + b - 1) b
  have small := Nat.mod_lt (a + b - 1) positive
  unfold divCeil
  omega

theorem lt_divCeil_of_mul_lt {a b q : Nat} (positive : 0 < b) (below : b * q < a) :
    q < divCeil a b := by
  unfold divCeil
  rw [Nat.lt_iff_add_one_le, Nat.le_div_iff_mul_le positive]
  have rewritten : (q + 1) * b = b * q + b := by ring
  omega

theorem mul_lt_of_lt_divCeil {a b q : Nat} (positive : 0 < b) (below : q < divCeil a b) :
    b * q < a := by
  unfold divCeil at below
  rw [Nat.lt_iff_add_one_le, Nat.le_div_iff_mul_le positive] at below
  have rewritten : (q + 1) * b = b * q + b := by ring
  omega

end Checked

end Lexindex
