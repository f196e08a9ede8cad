import Mathlib
import Lexindex.Lib.Front

/-!
# The ranking of a plan

A plan ranks its candidates by its objective and reads the front off them.  What a candidate is modelled
to cost is a parameter, as are the numbers it is counted in.
-/

set_option autoImplicit false

namespace Lexindex.Plan

/-- What a plan ranks by. -/
inductive Objective (Workload : Type) where
  | memory
  | latency
  | balanced
  | workload (workload : Workload)

/-- What one index is expected to cost: its bytes, and what else its cost is modelled from. -/
structure Estimate (Rest : Type) where
  bytes : Nat
  rest : Rest

variable {Workload Rest Cost : Type} [Field Cost] [LinearOrder Cost] [IsStrictOrderedRing Cost]

section Rank

variable (nanos : Estimate Rest → Cost)

/-- The fewest bytes of any, at least one. -/
def smallest (estimates : List (Estimate Rest)) : Cost :=
  ((max (((estimates.map Estimate.bytes).min?).getD 0) 1 : Nat) : Cost)

/-- The lowest cost of any, at least one. -/
def fastest (estimates : List (Estimate Rest)) : Cost :=
  max (((estimates.map nanos).min?).getD 1) 1

/-- What a candidate gives up on the objective it does worse on. -/
def worse (estimates : List (Estimate Rest)) (e : Estimate Rest) : Cost :=
  max ((e.bytes : Cost) / smallest estimates) (nanos e / fastest nanos estimates)

end Rank

variable (nanosOf : Objective Workload → Estimate Rest → Cost)

/-- The candidates in the objective's order, best first. -/
def rank (estimates : List (Estimate Rest)) (objective : Objective Workload) : List (Estimate Rest) :=
  let nanos := nanosOf objective
  match objective with
  | .memory => sortByKey (fun e => toLex (e.bytes, nanos e)) estimates
  | .latency | .workload _ => sortByKey (fun e => toLex (nanos e, e.bytes)) estimates
  | .balanced => sortByKey (fun e => toLex (worse nanos estimates e, toLex (e.bytes, nanos e))) estimates

/-- Every candidate, ranked, and what they are ranked by. -/
structure Plan (Workload Rest : Type) where
  estimates : List (Estimate Rest)
  objective : Objective Workload

/-- The candidates no other beats on both size and speed, smallest first. -/
def Plan.pareto (plan : Plan Workload Rest) : List (Estimate Rest) :=
  front Estimate.bytes (nanosOf plan.objective) plan.estimates

/-- The plan of some candidates. -/
def planOf (estimates : List (Estimate Rest)) (objective : Objective Workload) : Plan Workload Rest :=
  { estimates := rank nanosOf estimates objective, objective }

/-! ## The order of the ranking -/

section Order

variable (nanos : Estimate Rest → Cost) {a b : Estimate Rest}

theorem smallest_pos (estimates : List (Estimate Rest)) : (0 : Cost) < smallest estimates := by
  rw [smallest, Nat.cast_pos]
  exact lt_max_of_lt_right Nat.one_pos

theorem fastest_pos (estimates : List (Estimate Rest)) : 0 < fastest nanos estimates :=
  lt_max_of_lt_right one_pos

variable {nanos}

/-- What beats a candidate is no worse where that candidate is at its worst. -/
theorem worse_le (beats : Beats Estimate.bytes nanos a b) (estimates : List (Estimate Rest)) :
    worse nanos estimates a ≤ worse nanos estimates b := by
  obtain ⟨small, cheap, -⟩ := beats
  refine max_le_max ?_ ?_
  · exact div_le_div_of_nonneg_right (Nat.cast_le.mpr small) (smallest_pos estimates).le
  · exact div_le_div_of_nonneg_right cheap (fastest_pos nanos estimates).le

theorem memory_less (beats : Beats Estimate.bytes nanos a b) :
    toLex (a.bytes, nanos a) < toLex (b.bytes, nanos b) :=
  beats.less

theorem latency_less (beats : Beats Estimate.bytes nanos a b) :
    toLex (nanos a, a.bytes) < toLex (nanos b, b.bytes) := by
  obtain ⟨small, cheap, strict⟩ := beats
  exact Beats.less (⟨cheap, small, strict.symm⟩ : Beats nanos Estimate.bytes a b)

theorem balanced_less (beats : Beats Estimate.bytes nanos a b) (estimates : List (Estimate Rest)) :
    toLex (worse nanos estimates a, toLex (a.bytes, nanos a)) <
      toLex (worse nanos estimates b, toLex (b.bytes, nanos b)) := by
  rw [Prod.Lex.toLex_lt_toLex]
  rcases (worse_le beats estimates).lt_or_eq with less | same
  · exact .inl less
  · exact .inr ⟨same, memory_less beats⟩

end Order

theorem rank_perm (estimates : List (Estimate Rest)) (objective : Objective Workload) :
    (rank nanosOf estimates objective).Perm estimates := by
  cases objective <;> exact sortByKey_perm ..

/-- Whatever the objective, the first of its ranking is on the front. -/
theorem best_mem_pareto {estimates : List (Estimate Rest)} {objective : Objective Workload}
    {best : Estimate Rest} (head : (rank nanosOf estimates objective).head? = some best) :
    best ∈ (planOf nanosOf estimates objective).pareto nanosOf := by
  rw [Plan.pareto, planOf]
  cases objective with
  | memory => exact head_mem_front (fun a b => memory_less) (sortByKey_sorted ..) head
  | latency => exact head_mem_front (fun a b => latency_less) (sortByKey_sorted ..) head
  | workload workload => exact head_mem_front (fun a b => latency_less) (sortByKey_sorted ..) head
  | balanced =>
      exact head_mem_front (fun a b beats => balanced_less beats estimates) (sortByKey_sorted ..) head

/-- The front is exact: the candidates no other beats, one for each pair of size and cost, the first of
them in the ranking, in ascending size and descending cost, and the ranking's first is among them. -/
theorem pareto_exact (estimates : List (Estimate Rest)) (some_ : estimates ≠ [])
    (objective : Objective Workload) :
    (rank nanosOf estimates objective).Perm estimates ∧
    (∀ e, e ∈ (planOf nanosOf estimates objective).pareto nanosOf ↔
      (∀ a ∈ estimates, ¬ Beats Estimate.bytes (nanosOf objective) a e) ∧
        (rank nanosOf estimates objective).find? (fun a =>
          decide (a.bytes = e.bytes ∧ nanosOf objective a = nanosOf objective e)) = some e) ∧
    ((planOf nanosOf estimates objective).pareto nanosOf).Pairwise (fun a b =>
      a.bytes < b.bytes ∧ nanosOf objective b < nanosOf objective a) ∧
    ∃ best, (rank nanosOf estimates objective).head? = some best ∧
      best ∈ (planOf nanosOf estimates objective).pareto nanosOf := by
  have perm := rank_perm nanosOf estimates objective
  refine ⟨perm, fun e => ?_, front_ascending _, ?_⟩
  · rw [Plan.pareto, planOf, mem_front]
    refine and_congr ⟨fun all a member => all a (perm.mem_iff.mpr member), fun all a member =>
      all a (perm.mem_iff.mp member)⟩ ?_
    simp only [sizeThenCost_eq]
  · cases head : (rank nanosOf estimates objective).head? with
    | none =>
        rw [List.head?_eq_none_iff] at head
        rw [head] at perm
        exact absurd perm.symm.eq_nil some_
    | some best => exact ⟨best, rfl, best_mem_pareto nanosOf head⟩

/-- Two that are equal on both and one that both beat. -/
theorem pareto_exact_three :
    (rank (fun (_ : Objective Empty) (e : Estimate (Nat × Rat)) => e.rest.2)
      [⟨3, 0, 5⟩, ⟨3, 1, 5⟩, ⟨4, 2, 6⟩] .balanced).Perm [⟨3, 0, 5⟩, ⟨3, 1, 5⟩, ⟨4, 2, 6⟩] :=
  (pareto_exact _ _ (List.cons_ne_nil _ _) .balanced).1

end Lexindex.Plan
