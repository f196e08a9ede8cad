import Mathlib
import Lexindex.DoubleArray.Occupancy

/-!
# The phrases as a parse walks them

One edge a byte, in a double array: a node is a slot, and its child on a byte is the slot that many
above its base, where that slot's check names the node.  The nodes are numbered as the phrases are
inserted and laid out breadth first, every one at the lowest base whose slots are all free.
-/

set_option autoImplicit false

namespace Lexindex.Phrase

/-- The longest label of a dictionary past its phrases, and as far as a parse looks ahead. -/
def LABEL_MAX : Nat := 255

/-- The ids a dictionary may name, phrases and labels together. -/
def IDS_MAX : Nat := 2 ^ 22

structure Slot where
  base : Nat
  /-- The parent of the node in this slot. -/
  check : Nat
  /-- The phrase the node in this slot ends, plus one; zero for a node that ends none. -/
  phrase : Nat
deriving DecidableEq, Repr

/-- A slot no node occupies.  The check of the root's too: no node has that number. -/
def VACANT : Slot :=
  { base := 0, check := 2 ^ 32 - 1, phrase := 0 }

structure Trie where
  slots : List Slot
deriving DecidableEq, Repr

/-! ## Inserting -/

structure Link where
  parent : Nat
  byte : UInt8
  child : Nat
deriving DecidableEq, Repr

/-- The nodes by number, each with the phrase it ends plus one, and the edges between them. -/
structure Grown where
  ends : List Nat
  links : List Link
deriving DecidableEq, Repr

namespace Grown

/-- The child the edges give a node and a byte. -/
def child (g : Grown) (node : Nat) (b : UInt8) : Option Nat :=
  (g.links.find? fun link => link.parent = node && link.byte = b).map Link.child

/-- One byte of a phrase. -/
def grow (at_ : Grown × Nat) (b : UInt8) : Grown × Nat :=
  match at_.1.child at_.2 b with
  | some c => (at_.1, c)
  | none =>
      let c := at_.1.ends.length
      ({ ends := at_.1.ends ++ [0], links := at_.1.links ++ [⟨at_.2, b, c⟩] }, c)

def insert (g : Grown) (phrase : List UInt8 × Nat) : Grown :=
  let at_ := phrase.1.foldl grow (g, 0)
  { at_.1 with ends := at_.1.ends.set at_.2 (phrase.2 + 1) }

def of (phrases : List (List UInt8)) : Grown :=
  phrases.zipIdx.foldl insert { ends := [0], links := [] }

end Grown

def Link.le (a b : Link) : Bool :=
  decide (a.parent < b.parent ∨ (a.parent = b.parent ∧
    (a.byte.toNat < b.byte.toNat ∨ (a.byte.toNat = b.byte.toNat ∧ a.child ≤ b.child))))

/-- A node's edges, by byte. -/
def Grown.kids (g : Grown) (node : Nat) : List Link :=
  (g.links.mergeSort Link.le).filter fun link => link.parent = node

/-! ## Laying out -/

/-- `Vec::resize`. -/
def resize {α : Type} (items : List α) (size : Nat) (fill : α) : List α :=
  items.take size ++ List.replicate (size - items.length) fill

structure Laying where
  slots : List Slot
  /-- One bit a slot; a slot past the end is free. -/
  taken : List Word
  /-- The lowest free slot past the first 256, where every search starts. -/
  lowest : Nat

/-- The lowest free slot of the words from `slot`'s on. -/
def freeIn : List Word → Nat → Nat
  | [], slot => slot
  | word :: words, slot =>
      let rest := ~~~word >>> (slot % 64)
      if rest ≠ 0#64 then slot + rest.ctz.toNat else freeIn words ((slot / 64 + 1) * 64)

def freeFrom (taken : List Word) (slot : Nat) : Nat :=
  freeIn (taken.drop (slot / 64)) slot

/-- The 64 bits of the map from `slot` up, a slot past the end free. -/
def window (taken : List Word) (slot : Nat) : Word :=
  DoubleArray.window taken (slot / 64) (slot % 64)

/-- Of 64 slots for the first child, those whose siblings' slots are free too. -/
def narrow (taken : List Word) (f : Nat) (first : UInt8) : List Link → Word → Word
  | [], fits => fits
  | kid :: kids, fits =>
      let fits := fits &&& ~~~window taken (f + (kid.byte.toNat - first.toNat))
      if fits = 0#64 then fits else narrow taken f first kids fits

/-- The base whose slots are all free, from a slot for the first child on. -/
def firstFit (taken : List Word) (first : UInt8) (kids : List Link) : Nat → Nat → Option Nat
  | 0, _ => none
  | fuel + 1, f =>
      let fits := narrow taken f first kids (BitVec.allOnes 64)
      if fits ≠ 0#64 then some (f + fits.ctz.toNat - first.toNat)
      else firstFit taken first kids fuel (f + 64)

namespace Laying

def start (g : Grown) : Laying :=
  { slots := [{ VACANT with phrase := g.ends.getD 0 0 }], taken := [1#64], lowest := 256 }

/-- A node's base. -/
def baseFor (l : Laying) (first : UInt8) : List Link → Option Nat
  | [_] => some (freeFrom l.taken l.lowest - first.toNat)
  | kids => firstFit l.taken first kids (l.taken.length + 1) l.lowest

def setBase (l : Laying) (parent base : Nat) : Laying :=
  { l with slots := l.slots.modify parent fun slot => { slot with base } }

/-- A child put in its slot. -/
def put (g : Grown) (parent base : Nat) (l : Laying) (kid : Link) : Laying :=
  let s := base + kid.byte.toNat
  let slots := if l.slots.length ≤ s then resize l.slots (s + 1) VACANT else l.slots
  let taken := if l.slots.length ≤ s then resize l.taken (s / 64 + 1) 0#64 else l.taken
  { l with
    slots := slots.modify s fun slot =>
      { slot with check := parent, phrase := g.ends.getD kid.child 0 }
    taken := setBit taken s }

/-- A node's children placed; none where a slot's number would leave its 32 bits. -/
def place (g : Grown) (l : Laying) (parent : Nat) (kids : List Link) : Option (Laying × Nat) :=
  match kids with
  | [] => none
  | kid :: _ =>
      match l.baseFor kid.byte kids with
      | none => none
      | some base =>
          if base + 255 < 2 ^ 32 - 1 then
            let placed := kids.foldl (put g parent base) (l.setBase parent base)
            some ({ placed with lowest := freeFrom placed.taken placed.lowest }, base)
          else none

end Laying

/-- The nodes left to lay out, each with its slot. -/
def layOut (g : Grown) : Nat → List (Nat × Nat) → Laying → Option Laying
  | _, [], l => some l
  | 0, _ :: _, _ => none
  | fuel + 1, (old, parent) :: rest, l =>
      let kids := g.kids old
      if kids = [] then layOut g fuel rest l
      else
        match l.place g parent kids with
        | none => none
        | some (l, base) =>
            layOut g fuel (rest ++ kids.map fun kid => (kid.child, base + kid.byte.toNat)) l

namespace Trie

/-- The array padded, so that a step from any base it holds stays inside. -/
def padded (slots : List Slot) : List Slot :=
  let need := (slots.map Slot.base).foldl max 0 + 256
  if slots.length < need then resize slots need VACANT else slots

def of (phrases : List (List UInt8)) : Option Trie :=
  let g := Grown.of phrases
  (layOut g g.ends.length [(0, 0)] (Laying.start g)).map fun l => { slots := padded l.slots }

def root (trie : Trie) : Nat :=
  (trie.slots.getD 0 VACANT).base

/-- The child of a node on a byte, with its own base and the phrase it ends plus one, given the
node's base. -/
def step (trie : Trie) (node base : Nat) (b : UInt8) : Option (Nat × Nat × Nat) :=
  let slot := base + b.toNat
  let child := trie.slots.getD slot VACANT
  if child.check = node then some (slot, child.base, child.phrase) else none

end Trie

end Lexindex.Phrase

/-!
## Where a node's children fit

The slots a search answers are free, and it answers one no further than the first that no other search
could have passed: the end of the array.
-/

namespace Lexindex.Phrase

open DoubleArray (ctz_lt window_getLsbD)

/-! ### One slot -/

theorem freeIn_spec (taken : List Word) (words : List Word) : ∀ {slot : Nat},
    taken.drop (slot / 64) = words →
      slot ≤ freeIn words slot ∧ streamBit taken (freeIn words slot) = false ∧
        ∀ p, slot ≤ p → streamBit taken p = false → freeIn words slot ≤ p := by
  induction words with
  | nil =>
      intro slot rest
      rw [freeIn]
      have past := List.drop_eq_nil_iff.mp rest
      refine ⟨Nat.le_refl slot, ?_, fun p least _ => least⟩
      rw [streamBit, List.getD_eq_getElem?_getD, List.getElem?_eq_none (by omega)]
      exact BitVec.getLsbD_zero
  | cons word words ih =>
      intro slot rest
      have inside : slot / 64 < taken.length := by
        by_contra past
        rw [List.drop_eq_nil_of_le (by omega)] at rest
        cases rest
      have here : taken.getD (slot / 64) 0#64 = word := by
        rw [List.drop_eq_getElem_cons inside, List.cons.injEq] at rest
        rw [List.getD_eq_getElem?_getD, List.getElem?_eq_getElem inside, Option.getD_some, rest.1]
      have bit : ∀ j, slot % 64 + j < 64 →
          (~~~word >>> (slot % 64)).getLsbD j = !streamBit taken (slot + j) := by
        intro j small
        have wordOf : (slot + j) / 64 = slot / 64 := by omega
        have bitOf : (slot + j) % 64 = slot % 64 + j := by omega
        rw [BitVec.getLsbD_ushiftRight, BitVec.getLsbD_not, streamBit, wordOf, bitOf, here]
        simp [small]
      rw [freeIn]
      split
      · next some_ =>
        have set := BitVec.getLsbD_true_ctz_of_ne_zero some_
        have low : ∀ j, j < (~~~word >>> (slot % 64)).ctz.toNat →
            (~~~word >>> (slot % 64)).getLsbD j = false :=
          fun j small => BitVec.getLsbD_false_of_lt_ctz small
        generalize (~~~word >>> (slot % 64)).ctz.toNat = c at set low
        have small : slot % 64 + c < 64 := by
          have below := BitVec.lt_of_getLsbD set
          rw [BitVec.getLsbD_ushiftRight] at set
          exact BitVec.lt_of_getLsbD set
        rw [bit c small, Bool.not_eq_true'] at set
        refine ⟨Nat.le_add_right .., set, ?_⟩
        intro p least free
        by_contra more
        obtain ⟨j, rfl⟩ := Nat.exists_eq_add_of_le least
        have zero := low j (by omega)
        rw [bit j (by omega), free] at zero
        cases zero
      · next none_ =>
        rw [ne_eq, not_not] at none_
        have full : ∀ j, slot % 64 + j < 64 → streamBit taken (slot + j) = true := by
          intro j small
          have zero := bit j small
          rw [none_, BitVec.getLsbD_zero] at zero
          simpa using zero.symm
        have next : ((slot / 64 + 1) * 64) / 64 = slot / 64 + 1 := by omega
        obtain ⟨least, free, lowest⟩ := @ih ((slot / 64 + 1) * 64) (by
          rw [next, ← List.drop_drop, rest]
          rfl)
        refine ⟨by omega, free, ?_⟩
        intro p above free'
        apply lowest p ?_ free'
        by_contra below
        obtain ⟨j, rfl⟩ := Nat.exists_eq_add_of_le above
        rw [full j (by omega)] at free'
        cases free'

/-- A free slot, no lower than asked, and no free one is passed over. -/
theorem freeFrom_spec (taken : List Word) (slot : Nat) :
    slot ≤ freeFrom taken slot ∧ streamBit taken (freeFrom taken slot) = false ∧
      ∀ p, slot ≤ p → streamBit taken p = false → freeFrom taken slot ≤ p :=
  freeIn_spec taken _ rfl

/-! ### Several -/

theorem window_bit (taken : List Word) (slot : Nat) {t : Nat} (small : t < 64) :
    (window taken slot).getLsbD t = streamBit taken (slot + t) := by
  rw [window, window_getLsbD (Nat.mod_lt _ (by decide)) small]
  congr 1
  omega

/-- The children's slots where the first child's is `f`. -/
def slotFor (first : UInt8) (f : Nat) (kid : Link) : Nat :=
  f + (kid.byte.toNat - first.toNat)

theorem narrow_bit (taken : List Word) (f : Nat) (first : UInt8) (kids : List Link) {t : Nat}
    (small : t < 64) : ∀ (fits : Word), (narrow taken f first kids fits).getLsbD t = true ↔
      fits.getLsbD t = true ∧ ∀ kid ∈ kids, streamBit taken (slotFor first f kid + t) = false := by
  induction kids with
  | nil => simp [narrow]
  | cons kid kids ih =>
      intro fits
      have here : (fits &&& ~~~window taken (f + (kid.byte.toNat - first.toNat))).getLsbD t = true ↔
          fits.getLsbD t = true ∧ streamBit taken (slotFor first f kid + t) = false := by
        rw [BitVec.getLsbD_and, BitVec.getLsbD_not, window_bit _ _ small, slotFor]
        simp [small]
      rw [narrow, List.forall_mem_cons, ← and_assoc, ← here]
      split
      · next none_ =>
        rw [none_]
        simp
      · exact ih _

theorem ones_bit {t : Nat} (small : t < 64) : (BitVec.allOnes 64).getLsbD t = true := by
  rw [BitVec.getLsbD_allOnes]
  exact decide_eq_true small

/-- Where none of a window's slots fits, something past it is taken. -/
theorem narrow_zero {taken : List Word} {first : UInt8} {kids : List Link} {size f : Nat}
    (free : ∀ s, size ≤ s → streamBit taken s = false)
    (none_ : narrow taken f first kids (BitVec.allOnes 64) = 0#64) : f + 64 ≤ size := by
  by_contra past
  have bit := (narrow_bit taken f first kids (t := 63) (by decide) (BitVec.allOnes 64)).mpr
    ⟨ones_bit (by decide), fun kid _ => free _ (by rw [slotFor]; omega)⟩
  rw [none_, BitVec.getLsbD_zero] at bit
  cases bit

/-- What a first fit answers: a base whose slots are all free, not far past where the search started or
the last slot that is taken. -/
theorem firstFit_spec (taken : List Word) (first : UInt8) (kids : List Link) {size : Nat}
    (free : ∀ s, size ≤ s → streamBit taken s = false) : ∀ (fuel : Nat) {f base : Nat},
      firstFit taken first kids fuel f = some base → ∃ s, f ≤ s ∧ base = s - first.toNat ∧
        s ≤ max f size + 63 ∧ ∀ kid ∈ kids, streamBit taken (slotFor first s kid) = false := by
  intro fuel
  induction fuel with
  | zero =>
      intro f base found
      cases found
  | succ fuel ih =>
      intro f base found
      rw [firstFit] at found
      split at found
      · next some_ =>
        have small := ctz_lt some_
        have set := BitVec.getLsbD_true_ctz_of_ne_zero some_
        rw [Option.some.injEq] at found
        obtain ⟨-, fits⟩ := (narrow_bit taken f first kids small _).mp set
        refine ⟨f + (narrow taken f first kids (BitVec.allOnes 64)).ctz.toNat, Nat.le_add_right ..,
          found.symm, by omega, ?_⟩
        intro kid member
        have bit := fits kid member
        rw [slotFor] at bit ⊢
        rw [← bit]
        congr 1
        omega
      · next none_ =>
        rw [ne_eq, not_not] at none_
        have last := narrow_zero free none_
        obtain ⟨s, above, isBase, most, fits⟩ := ih found
        exact ⟨s, by omega, isBase, by omega, fits⟩

/-- A first fit is found within as many windows as reach the last slot that is taken. -/
theorem firstFit_some {taken : List Word} {first : UInt8} {kids : List Link} {size : Nat}
    (free : ∀ s, size ≤ s → streamBit taken s = false) : ∀ (fuel : Nat) {f : Nat}, 0 < fuel →
      size < f + 64 * fuel → ∃ base, firstFit taken first kids fuel f = some base := by
  intro fuel
  induction fuel with
  | zero =>
      intro f positive
      omega
  | succ fuel ih =>
      intro f _ enough
      rw [firstFit]
      split
      · exact ⟨_, rfl⟩
      · next none_ =>
        rw [ne_eq, not_not] at none_
        have last := narrow_zero free none_
        exact ih (by omega) (by omega)

end Lexindex.Phrase
