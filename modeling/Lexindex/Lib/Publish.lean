import Mathlib

/-!
# Publishing a file

A file is written beside its path and renamed over it.  Whatever fails before the rename
leaves what was at the path.
-/

set_option autoImplicit false

namespace Lexindex

variable {ε α : Type}

/-- `write_atomically_with`: what the closure writes goes to a temporary beside the path, and a
rename puts it there once it is whole and on the disk.  `disk` is how the system's steps end. -/
def writeAtomically (written : Except ε α) (disk : Except ε Unit) (target : Option α) :
    Except ε Unit × Option α :=
  match (do let contents ← written; disk; pure contents : Except ε α) with
  | .error e => (.error e, target)
  | .ok contents => (.ok (), some contents)

@[simp] theorem writeAtomically_error (e : ε) (disk : Except ε Unit) (target : Option α) :
    writeAtomically (.error e) disk target = (.error e, target) := rfl

@[simp] theorem writeAtomically_disk (contents : α) (e : ε) (target : Option α) :
    writeAtomically (.ok contents) (.error e) target = (.error e, target) := rfl

@[simp] theorem writeAtomically_ok (contents : α) (target : Option α) :
    writeAtomically (.ok contents) (.ok ()) target = ((.ok (), some contents) : Except ε Unit × _) :=
  rfl

/-- Nothing is published but what was written, and only without an error. -/
theorem writeAtomically_cases (written : Except ε α) (disk : Except ε Unit) (target : Option α) :
    (∃ contents, written = .ok contents ∧ disk = .ok () ∧
        writeAtomically written disk target = (.ok (), some contents)) ∨
      ∃ e, writeAtomically written disk target = (.error e, target) := by
  cases written with
  | error e => exact .inr ⟨e, rfl⟩
  | ok contents =>
      cases disk with
      | error e => exact .inr ⟨e, rfl⟩
      | ok done => exact .inl ⟨contents, rfl, rfl, rfl⟩

end Lexindex
