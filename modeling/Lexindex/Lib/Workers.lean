import Mathlib

/-!
# Workers over one shared state

Each worker runs a list of instructions.  An instruction is one step on the shared state and may
put more in front of what its worker has left; one with no outcome is a panic, and its worker stops
there.  Workers take turns in any order.
-/

set_option autoImplicit false

namespace Lexindex

universe u v

/-- Workers, each with the instructions it has left, over one shared state. -/
structure Pool (S : Type u) (I : Type v) where
  shared : S
  programs : List (List I)

namespace Pool

variable {S : Type u} {I : Type v} (exec : I → S → Option (S × List I))

/-- Some worker runs its next instruction. -/
inductive Step : Pool S I → Pool S I → Prop
  | run {p : Pool S I} {w : Nat} {instr : I} {rest more : List I} {s : S}
      (here : p.programs[w]? = some (instr :: rest))
      (ran : exec instr p.shared = some (s, more)) :
      Step p { shared := s, programs := p.programs.set w (more ++ rest) }

/-- A run of so many steps. -/
inductive Runs : Nat → Pool S I → Pool S I → Prop
  | refl (p : Pool S I) : Runs 0 p p
  | step {count : Nat} {p q r : Pool S I} (run : Runs count p q) (next : Step exec q r) :
      Runs (count + 1) p r

/-- Every worker is through its program. -/
def Finished (p : Pool S I) : Prop :=
  ∀ program ∈ p.programs, program = []

/-- Some worker's next instruction has no outcome. -/
def Panics (p : Pool S I) : Prop :=
  ∃ (w : Nat) (instr : I) (rest : List I),
    p.programs[w]? = some (instr :: rest) ∧ exec instr p.shared = none

variable {exec}

theorem Runs.trans {a b : Nat} {p q r : Pool S I} (first : Runs exec a p q)
    (second : Runs exec b q r) : Runs exec (a + b) p r := by
  induction second with
  | refl => exact first
  | step run next ih => exact (ih first).step next

/-- What holds at the start and is kept by every step holds wherever a run gets. -/
theorem Runs.keeps {P : Pool S I → Prop} (kept : ∀ {p q}, P p → Step exec p q → P q) {count : Nat}
    {p q : Pool S I} (run : Runs exec count p q) (start : P p) : P q := by
  induction run with
  | refl => exact start
  | step run next ih => exact kept (ih start) next

/-- A pool that is not through goes on or panics. -/
theorem goes_on {p : Pool S I} (unfinished : ¬ p.Finished) :
    (∃ q, Step exec p q) ∨ p.Panics exec := by
  rw [Finished] at unfinished
  push Not at unfinished
  obtain ⟨program, member, some_left⟩ := unfinished
  obtain ⟨w, here⟩ := List.mem_iff_getElem?.mp member
  cases program with
  | nil => exact absurd rfl some_left
  | cons instr rest =>
      cases ran : exec instr p.shared with
      | none => exact .inr ⟨w, instr, rest, here, ran⟩
      | some out => exact .inl ⟨_, .run here ran⟩

/-- Where every step leaves fewer to take, a run takes no more than there were. -/
theorem Runs.bounded {P : Nat → Pool S I → Prop}
    (less : ∀ {left p q}, P left p → Step exec p q → ∃ fewer < left, P fewer q) {count left : Nat}
    {p q : Pool S I} (run : Runs exec count p q) (start : P left p) :
    ∃ fewer, count + fewer ≤ left ∧ P fewer q := by
  induction run with
  | refl => exact ⟨left, by omega, start⟩
  | step run next ih =>
      obtain ⟨fewer, bounded, kept⟩ := ih start
      obtain ⟨least, smaller, still⟩ := less kept next
      exact ⟨least, by omega, still⟩

/-- Where every step leaves fewer to take, a run can be gone on with until the pool is through or
panics. -/
theorem ends {P : Nat → Pool S I → Prop}
    (less : ∀ {left p q}, P left p → Step exec p q → ∃ fewer < left, P fewer q) (left : Nat) :
    ∀ {p : Pool S I}, P left p → ∃ count q, Runs exec count p q ∧ (q.Finished ∨ q.Panics exec) := by
  induction left using Nat.strong_induction_on with
  | h left ih =>
      intro p start
      by_cases finished : p.Finished
      · exact ⟨0, p, .refl p, .inl finished⟩
      · rcases @goes_on S I exec p finished with ⟨q, next⟩ | panics
        · obtain ⟨fewer, smaller, kept⟩ := less start next
          obtain ⟨count, r, run, outcome⟩ := ih fewer smaller kept
          exact ⟨1 + count, r, ((Runs.refl p).step next).trans run, outcome⟩
        · exact ⟨0, p, .refl p, .inr panics⟩

end Pool

end Lexindex
