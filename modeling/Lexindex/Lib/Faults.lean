import Mathlib
import Lexindex.Lib.Bytes
import Lexindex.Lib.Checked

/-!
# Faults

Code that skips a check is right only where nothing goes wrong that the check would have caught.
A computation here answers, refuses of its own, or faults: arithmetic leaves the word, an index
leaves its slice, or an unchecked read leaves the buffer.  A faultless one only answers or refuses.
-/

set_option autoImplicit false

namespace Lexindex

inductive Stop (ε : Type)
  | refused (error : ε)
  /-- Arithmetic left the 64-bit word. -/
  | wrapped
  /-- An index or a range left its slice. -/
  | panicked
  /-- An unchecked read left the buffer. -/
  | outside
deriving DecidableEq, Repr

/-- What a computation comes to. -/
abbrev Faulting (ε α : Type) :=
  Except (Stop ε) α

namespace Faulting

variable {ε δ α β : Type}

def refuse (error : ε) : Faulting ε α :=
  .error (.refused error)

/-- The value of an option, or a refusal. -/
def ofOption (error : ε) : Option α → Faulting ε α
  | some value => .ok value
  | none => refuse error

def refuseIf (bad : Prop) [Decidable bad] (error : ε) : Faulting ε Unit :=
  if bad then refuse error else .ok ()

/-- A refusal for another's. -/
def recast (error : δ) : Faulting ε α → Faulting δ α
  | .ok value => .ok value
  | .error (.refused _) => refuse error
  | .error .wrapped => .error .wrapped
  | .error .panicked => .error .panicked
  | .error .outside => .error .outside

/-- An answer or none, the refusal caught. -/
def attempt : Faulting ε α → Faulting δ (Option α)
  | .ok value => .ok (some value)
  | .error (.refused _) => .ok none
  | .error .wrapped => .error .wrapped
  | .error .panicked => .error .panicked
  | .error .outside => .error .outside

def add (a b : Nat) : Faulting ε Nat :=
  if a + b < 2 ^ 64 then .ok (a + b) else .error .wrapped

def mul (a b : Nat) : Faulting ε Nat :=
  if a * b < 2 ^ 64 then .ok (a * b) else .error .wrapped

def sub (a b : Nat) : Faulting ε Nat :=
  if b ≤ a then .ok (a - b) else .error .wrapped

def shiftLeft (a by_ : Nat) : Faulting ε Nat :=
  if by_ < 64 then .ok (a <<< by_ % 2 ^ 64) else .error .wrapped

def shiftRight (a by_ : Nat) : Faulting ε Nat :=
  if by_ < 64 then .ok (a >>> by_) else .error .wrapped

/-- The bytes from `lo` to `hi`. -/
def bytesBetween (bytes : List UInt8) (lo hi : Nat) : List UInt8 :=
  (bytes.drop lo).take (hi - lo)

/-- `bytes[lo..hi]`. -/
def slice (bytes : List UInt8) (lo hi : Nat) : Faulting ε (List UInt8) :=
  if lo ≤ hi ∧ hi ≤ bytes.length then .ok (bytesBetween bytes lo hi) else .error .panicked

/-- `bytes[i]`. -/
def index (bytes : List UInt8) (i : Nat) : Faulting ε UInt8 :=
  match bytes[i]? with
  | some byte => .ok byte
  | none => .error .panicked

/-- `bytes.get(lo..hi)`. -/
def get (error : ε) (bytes : List UInt8) (lo hi : Nat) : Faulting ε (List UInt8) :=
  if lo ≤ hi ∧ hi ≤ bytes.length then .ok (bytesBetween bytes lo hi) else refuse error

/-- `from_le_bytes` of an array of `size` bytes. -/
def word (size : Nat) (bytes : List UInt8) : Faulting ε Nat :=
  if bytes.length = size then .ok (leNat bytes) else .error .panicked

/-- `bytes.get_unchecked(lo..hi)`. -/
def getUnchecked (bytes : List UInt8) (lo hi : Nat) : Faulting ε (List UInt8) :=
  if lo ≤ hi ∧ hi ≤ bytes.length then .ok (bytesBetween bytes lo hi) else .error .outside

/-- `*bytes.get_unchecked(i)`. -/
def byteUnchecked (bytes : List UInt8) (i : Nat) : Faulting ε UInt8 :=
  match bytes[i]? with
  | some byte => .ok byte
  | none => .error .outside

/-- Where each next step answers as another's does under a condition, so does the whole. -/
theorem bind_matching {run : Faulting ε α} {f g : α → Faulting ε β} {answer : β} {condition : Prop}
    (each : ∀ value, f value = .ok answer ↔ g value = .ok answer ∧ condition) :
    (run >>= f) = .ok answer ↔ (run >>= g) = .ok answer ∧ condition := by
  rw [bind_eq_ok, bind_eq_ok]
  constructor
  · rintro ⟨value, ran, answered⟩
    exact ⟨⟨value, ran, ((each value).mp answered).1⟩, ((each value).mp answered).2⟩
  · rintro ⟨⟨value, ran, answered⟩, held⟩
    exact ⟨value, ran, (each value).mpr ⟨answered, held⟩⟩

/-! ## Faultless computations -/

/-- Nothing faults, and an answer is one that `post` holds of. -/
def Faultless (run : Faulting ε α) (post : α → Prop) : Prop :=
  match run with
  | .ok value => post value
  | .error (.refused _) => True
  | .error _ => False

section Rules

variable {run : Faulting ε α} {Q weaker : α → Prop}

theorem Faultless.ok {value : α} (held : Q value) :
    Faultless (.ok value : Faulting ε α) Q :=
  held

theorem Faultless.refused {error : ε} : Faultless (refuse error : Faulting ε α) Q :=
  trivial

theorem Faultless.mono (faultless : Faultless run Q) (weaken : ∀ value, Q value → weaker value) :
    Faultless run weaker := by
  cases run with
  | ok value => exact weaken value faultless
  | error stop => cases stop <;> exact faultless

/-- Steps in a row. -/
theorem Faultless.bind {next : α → Faulting ε β} {after : β → Prop} (first : Faultless run Q)
    (then_ : ∀ value, Q value → Faultless (next value) after) :
    Faultless (run >>= next) after := by
  cases run with
  | ok value => exact then_ value first
  | error stop => cases stop <;> exact first

/-- A step whose answer is known. -/
theorem Faultless.step {value : α} {next : α → Faulting ε β} {after : β → Prop}
    (known : run = .ok value) (then_ : Faultless (next value) after) :
    Faultless (run >>= next) after := by
  rw [known]
  exact then_

theorem Faultless.answer (faultless : Faultless run Q) {value : α} (answered : run = .ok value) :
    Q value := by
  rw [answered] at faultless
  exact faultless

/-- What is caught of a faultless computation is an answer that `Q` holds of, or a refusal. -/
theorem Faultless.attempt (faultless : Faultless run Q) :
    (∃ value, run = .ok value ∧ Q value ∧
        (Faulting.attempt run : Faulting δ (Option α)) = .ok (some value)) ∨
      ((∃ error, run = .error (.refused error)) ∧
        (Faulting.attempt run : Faulting δ (Option α)) = .ok none) := by
  cases run with
  | ok value => exact .inl ⟨value, rfl, faultless, rfl⟩
  | error stop =>
      cases stop with
      | refused error => exact .inr ⟨⟨error, rfl⟩, rfl⟩
      | wrapped => exact absurd faultless id
      | panicked => exact absurd faultless id
      | outside => exact absurd faultless id

theorem Faultless.ofOption {error : ε} {option : Option α}
    (held : ∀ value, option = some value → Q value) :
    Faultless (Faulting.ofOption error option) Q := by
  cases option with
  | some value => exact held value rfl
  | none => trivial

theorem Faultless.refuseIf {bad : Prop} [Decidable bad] {error : ε} :
    Faultless (Faulting.refuseIf bad error) fun _ => ¬ bad := by
  rw [Faulting.refuseIf]
  split
  · trivial
  · next fine => exact fine

theorem Faultless.recast {error : δ} (faultless : Faultless run Q) :
    Faultless (Faulting.recast error run) Q := by
  cases run with
  | ok value => exact faultless
  | error stop => cases stop <;> exact faultless

theorem Faultless.get {error : ε} {bytes : List UInt8} {lo hi : Nat} :
    Faultless (Faulting.get error bytes lo hi) fun part =>
      lo ≤ hi ∧ hi ≤ bytes.length ∧ part = bytesBetween bytes lo hi := by
  rw [Faulting.get]
  split
  · next inside => exact ⟨inside.1, inside.2, rfl⟩
  · trivial

end Rules

section Steps

variable {a b lo hi i : Nat} {bytes : List UInt8}

theorem add_eq (fits : a + b < 2 ^ 64) : (add a b : Faulting ε Nat) = .ok (a + b) :=
  if_pos fits

theorem mul_eq (fits : a * b < 2 ^ 64) : (mul a b : Faulting ε Nat) = .ok (a * b) :=
  if_pos fits

theorem sub_eq (le : b ≤ a) : (sub a b : Faulting ε Nat) = .ok (a - b) :=
  if_pos le

theorem slice_eq (le : lo ≤ hi) (inside : hi ≤ bytes.length) :
    (slice bytes lo hi : Faulting ε (List UInt8)) = .ok (bytesBetween bytes lo hi) :=
  if_pos ⟨le, inside⟩

theorem get_eq {error : ε} (le : lo ≤ hi) (inside : hi ≤ bytes.length) :
    get error bytes lo hi = .ok (bytesBetween bytes lo hi) :=
  if_pos ⟨le, inside⟩

theorem getUnchecked_eq (le : lo ≤ hi) (inside : hi ≤ bytes.length) :
    (getUnchecked bytes lo hi : Faulting ε (List UInt8)) = .ok (bytesBetween bytes lo hi) :=
  if_pos ⟨le, inside⟩

theorem refuseIf_eq {bad : Prop} [Decidable bad] {error : ε} (fine : ¬ bad) :
    refuseIf bad error = .ok () :=
  if_neg fine

theorem shiftLeft_eq (small : b < 64) : (shiftLeft a b : Faulting ε Nat) = .ok (a <<< b % 2 ^ 64) :=
  if_pos small

theorem shiftRight_eq (small : b < 64) : (shiftRight a b : Faulting ε Nat) = .ok (a >>> b) :=
  if_pos small

theorem word_eq {size : Nat} (sized : bytes.length = size) :
    (word size bytes : Faulting ε Nat) = .ok (leNat bytes) :=
  if_pos sized

theorem index_eq (inside : i < bytes.length) :
    (index bytes i : Faulting ε UInt8) = .ok (bytes.get ⟨i, inside⟩) := by
  rw [index, List.getElem?_eq_getElem inside]
  rfl

theorem byteUnchecked_eq (inside : i < bytes.length) :
    (byteUnchecked bytes i : Faulting ε UInt8) = .ok (bytes.get ⟨i, inside⟩) := by
  rw [byteUnchecked, List.getElem?_eq_getElem inside]
  rfl

theorem bytesBetween_length (le : lo ≤ hi) (inside : hi ≤ bytes.length) :
    (bytesBetween bytes lo hi).length = hi - lo := by
  rw [bytesBetween, List.length_take, List.length_drop]
  omega

end Steps

end Faulting

end Lexindex
