import Mathlib
import Lexindex.Lib.Checked
import Lexindex.Lib.Word
import Lexindex.Mphf.Law

/-!
# The order a run takes its buckets in

Buckets are taken from a window that starts at the lowest one still unplaced, by
priority: a class's term less 1024 per bucket of index, the lower bucket first
between two equal.  Negated and cut at multiples of 1024, a priority is a slot and
a place in the slot that only the class fixes, so the queue is a bitmap of a bit a
class a slot, and the next bucket its lowest set bit.
-/

set_option autoImplicit false

namespace Lexindex.Mphf

/-- Size classes of the placement order (`CLASSES`). -/
def classes : Nat := 16

/-- Buckets the placement order may look ahead (`WINDOW`). -/
def runWindow : Nat := 512

/-- Bucket-size term of the priority for sizes 1 to 7 (`WEIGHTS`). -/
def weights : List Int :=
  [-50137, 65904, 111782, 139890, 159029, 175922, 186995]

/-- Bucket-size term of the placement priority, scaled with the slice. -/
def ell (k slice : Nat) : Int :=
  let w := fun i => weights.getD i 0
  let term :=
    if k = 0 then w 0 else if k ≤ 7 then w (k - 1) else w 6 + (w 6 - w 5) * ((k : Int) - 7)
  (term * slice).tdiv 1024

namespace Priority

def term (slice c : Nat) : Int :=
  ell (c + 1) slice

/-- The order of pairs. -/
def Before (a b : Int × Nat) : Prop :=
  a.1 < b.1 ∨ a.1 = b.1 ∧ a.2 < b.2

instance (a b : Int × Nat) : Decidable (Before a b) := by
  unfold Before
  infer_instance

/-- How many classes' keys are before that of class `c`. -/
def countBefore (key : Nat → Int × Nat) (c : Nat) : Nat :=
  ((Finset.range classes).filter fun d => Before (key d) (key c)).card

/-- A class's place within its slot: its term's remainder, then its rank by term. -/
def within (slice c : Nat) : Int × Nat :=
  ((-term slice c) % 1024, countBefore (fun d => (term slice d, d)) c)

/-- A class's lag in buckets. -/
def lag (slice c : Nat) : Int :=
  (-term slice c) / 1024

def least (slice : Nat) : Int :=
  ((List.range classes).map (lag slice)).foldl min (lag slice 0)

def place (slice c : Nat) : Nat :=
  countBefore (within slice) c

def backOf (slice c : Nat) : Nat :=
  (lag slice c - least slice).toNat

/-- How many slots back of its own a place's bucket is. -/
def back (slice : Nat) : List Nat :=
  (List.range classes).foldl (fun back c => back.set (place slice c) (backOf slice c))
    (List.replicate classes 0)

/-- A class's bit less `classes` per bucket of index. -/
def at_ (slice c : Nat) : Nat :=
  backOf slice c * classes + place slice c

def lead (slice : Nat) : Nat :=
  (back slice).foldl max 0

/-- The bit of bucket `b` in the queue. -/
def bitFor (slice : Nat) (size : Nat → Nat) (b : Nat) : Nat :=
  b * classes + at_ slice (min (size b) classes - 1)

end Priority

structure Queue where
  /-- The lowest bucket queued when the round began. -/
  front : Nat
  pushed : Nat
  /-- A word no set bit of the queue is before. -/
  cursor : Nat
  queue : List Word
  /-- The buckets queued, by index. -/
  live : List Word

namespace Queue

open Priority

def start (slice last : Nat) : Queue :=
  { front := 0, pushed := 0, cursor := 0
    queue := List.replicate (divCeil ((last + lead slice) * classes) 64) 0#64
    live := List.replicate (last / 64 + 1) 0#64 }

/-- The first word from `w` on with a bucket queued, `word` read for word `w`. -/
def firstLive (live : List Word) (pushed w : Nat) (word : Word) : Nat × Word :=
  if word = 0#64 ∧ (w + 1) * 64 < pushed then
    firstLive live pushed (w + 1) (live.getD (w + 1) 0#64)
  else (w, word)
termination_by pushed - w * 64

/-- The first bucket from `pushed` on with keys. -/
def skipEmpty (size : Nat → Nat) (last pushed : Nat) : Nat :=
  if pushed < last ∧ size pushed = 0 then skipEmpty size last (pushed + 1) else pushed
termination_by last - pushed

/-- The lowest bucket queued, else the first with keys among those not yet pushed. -/
def advance (size : Nat → Nat) (last : Nat) (q : Queue) : Queue :=
  let found := firstLive q.live q.pushed (q.front / 64)
    (q.live.getD (q.front / 64) 0#64 &&& (BitVec.allOnes 64 <<< (q.front % 64)))
  if found.2 = 0#64 then
    let pushed := skipEmpty size last q.pushed
    { q with front := pushed, pushed }
  else { q with front := found.1 * 64 + found.2.ctz.toNat }

def push (slice : Nat) (size : Nat → Nat) (q : Queue) : Queue :=
  if size q.pushed = 0 then { q with pushed := q.pushed + 1 }
  else
    { q with
      pushed := q.pushed + 1
      queue := setBit q.queue (bitFor slice size q.pushed)
      cursor := min q.cursor (bitFor slice size q.pushed / 64)
      live := setBit q.live q.pushed }

def pushTo (slice : Nat) (size : Nat → Nat) : Nat → Queue → Queue
  | 0, q => q
  | count + 1, q => pushTo slice size count (q.push slice size)

/-- The first word from `cursor` on with a set bit; `none` past the queue's end. -/
def firstSet (queue : List Word) (cursor : Nat) : Option Nat :=
  if cursor < queue.length then
    if queue.getD cursor 0#64 = 0#64 then firstSet queue (cursor + 1) else some cursor
  else none
termination_by queue.length - cursor

/-- Take the lowest set bit of the queue's first nonempty word. -/
def take (slice : Nat) (q : Queue) : Option (Nat × Queue) := do
  let cursor ← firstSet q.queue q.cursor
  let word := q.queue.getD cursor 0#64
  let bit := cursor * 64 + word.ctz.toNat
  let b := bit / classes - (back slice).getD (bit % classes) 0
  pure (b, { q with
    cursor
    queue := q.queue.set cursor (word &&& (word - 1#64))
    live := clearBit q.live b })

/-- One round: `none` inside once no bucket is left. -/
def pop (slice : Nat) (size : Nat → Nat) (last : Nat) (q : Queue) :
    Option (Option (Nat × Queue)) :=
  let q := q.advance size last
  if q.front = last then some none
  else
    let limit := min last (q.front + runWindow)
    ((q.pushTo slice size (limit - q.pushed)).take slice).map some

end Queue

/-! ## The places of the classes -/

namespace Priority

theorem before_trans {a b c : Int × Nat} (ab : Before a b) (bc : Before b c) : Before a c := by
  unfold Before at *
  omega

theorem before_irrefl (a : Int × Nat) : ¬ Before a a := by
  unfold Before
  omega

theorem before_total {a b : Int × Nat} (apart : a ≠ b) : Before a b ∨ Before b a := by
  obtain ⟨a1, a2⟩ := a
  obtain ⟨b1, b2⟩ := b
  rw [ne_eq, Prod.mk.injEq] at apart
  unfold Before
  omega

theorem countBefore_lt (key : Nat → Int × Nat) {c : Nat} (cLt : c < classes) :
    countBefore key c < classes := by
  have strict : (Finset.range classes).filter (fun d => Before (key d) (key c)) ⊂
      Finset.range classes := by
    refine Finset.filter_ssubset.mpr ⟨c, Finset.mem_range.mpr cLt, before_irrefl _⟩
  simpa [countBefore] using Finset.card_lt_card strict

theorem countBefore_lt_of_before {key : Nat → Int × Nat} {c d : Nat} (cLt : c < classes)
    (before : Before (key c) (key d)) : countBefore key c < countBefore key d := by
  apply Finset.card_lt_card
  rw [Finset.ssubset_iff_of_subset]
  · refine ⟨c, ?_, ?_⟩
    · exact Finset.mem_filter.mpr ⟨Finset.mem_range.mpr cLt, before⟩
    · intro member
      exact before_irrefl _ (Finset.mem_filter.mp member).2
  · intro e member
    rw [Finset.mem_filter] at member ⊢
    exact ⟨member.1, before_trans member.2 before⟩

theorem countBefore_inj {key : Nat → Int × Nat} (keyInj : ∀ c d, key c = key d → c = d) {c d : Nat}
    (cLt : c < classes) (dLt : d < classes) (same : countBefore key c = countBefore key d) :
    c = d := by
  by_contra apart
  rcases before_total (fun keys => apart (keyInj c d keys)) with before | before
  · exact absurd same (Nat.ne_of_lt (countBefore_lt_of_before cLt before))
  · exact absurd same.symm (Nat.ne_of_lt (countBefore_lt_of_before dLt before))

theorem place_lt (slice : Nat) {c : Nat} (cLt : c < classes) : place slice c < classes :=
  countBefore_lt _ cLt

theorem place_inj {slice c d : Nat} (cLt : c < classes) (dLt : d < classes)
    (same : place slice c = place slice d) : c = d := by
  have rankInj : ∀ c < classes, ∀ d < classes, within slice c = within slice d → c = d := by
    intro c cLt d dLt same
    have ranks := congrArg Prod.snd same
    refine countBefore_inj ?_ cLt dLt ranks
    intro c d keys
    exact congrArg Prod.snd keys
  by_contra apart
  rcases before_total (fun keys => apart (rankInj c cLt d dLt keys)) with before | before
  · exact absurd same (Nat.ne_of_lt (countBefore_lt_of_before cLt before))
  · exact absurd same.symm (Nat.ne_of_lt (countBefore_lt_of_before dLt before))

theorem foldl_set_length (slice : Nat) (cs start : List Nat) :
    (cs.foldl (fun back c => back.set (place slice c) (backOf slice c)) start).length =
      start.length := by
  induction cs generalizing start with
  | nil => rfl
  | cons c rest ih => rw [List.foldl_cons, ih, List.length_set]

theorem back_place (slice : Nat) {c : Nat} (cLt : c < classes) :
    (back slice)[place slice c]? = some (backOf slice c) := by
  have folded : ∀ (cs : List Nat) (start : List Nat), start.length = classes →
      (∀ d ∈ cs, d < classes) → c ∈ cs →
      (cs.foldl (fun back d => back.set (place slice d) (backOf slice d)) start)[place slice c]? =
        some (backOf slice c) := by
    intro cs
    induction cs using List.reverseRecOn with
    | nil =>
        intro start _ _ member
        cases member
    | append_singleton cs d ih =>
        intro start length small member
        rw [List.foldl_append, List.foldl_cons, List.foldl_nil, List.getElem?_set]
        by_cases same : place slice d = place slice c
        · have dIs : d = c := place_inj (small d (by simp)) cLt same
          have inside := place_lt slice (small d (by simp))
          rw [← length, ← foldl_set_length slice cs] at inside
          rw [if_pos same, if_pos inside, dIs]
        · rw [if_neg same]
          apply ih start length fun e eMember => small e (List.mem_append_left _ eMember)
          rcases List.mem_append.mp member with earlier | last
          · exact earlier
          · rw [List.mem_singleton.mp last] at same
            exact absurd rfl same
  exact folded _ _ (List.length_replicate ..) (by simp) (by simpa using cLt)

theorem backOf_le_lead (slice : Nat) {c : Nat} (cLt : c < classes) :
    backOf slice c ≤ lead slice := by
  have member := List.mem_of_getElem? (back_place slice cLt)
  have folded : ∀ (backs : List Nat) (start : Nat),
      start ≤ backs.foldl max start ∧ ∀ x ∈ backs, x ≤ backs.foldl max start := by
    intro backs
    induction backs with
    | nil => simp
    | cons y rest ih =>
        intro start
        obtain ⟨startLe, restLe⟩ := ih (max start y)
        rw [List.foldl_cons]
        refine ⟨by omega, ?_⟩
        intro x xMember
        rcases List.mem_cons.mp xMember with rfl | later
        · omega
        · exact restLe x later
  exact (folded _ 0).2 _ member

theorem class_lt (size : Nat) : min size classes - 1 < classes := by
  simp only [classes]
  omega

theorem bitFor_parts (slice : Nat) (size : Nat → Nat) (b : Nat) :
    bitFor slice size b / classes = b + backOf slice (min (size b) classes - 1) ∧
      bitFor slice size b % classes = place slice (min (size b) classes - 1) := by
  have small := place_lt slice (class_lt (size b))
  simp only [bitFor, at_, classes] at *
  omega

theorem bitFor_inj {slice : Nat} {size : Nat → Nat} {b c : Nat}
    (same : bitFor slice size b = bitFor slice size c) : b = c := by
  obtain ⟨bSlot, bPlace⟩ := bitFor_parts slice size b
  obtain ⟨cSlot, cPlace⟩ := bitFor_parts slice size c
  rw [same] at bSlot bPlace
  have sameClass := place_inj (class_lt (size b)) (class_lt (size c)) (bPlace.symm.trans cPlace)
  rw [sameClass] at bSlot
  omega

theorem bitFor_back (slice : Nat) (size : Nat → Nat) (b : Nat) :
    bitFor slice size b / classes -
      (back slice).getD (bitFor slice size b % classes) 0 = b := by
  obtain ⟨slot, placed⟩ := bitFor_parts slice size b
  rw [slot, placed, List.getD_eq_getElem?_getD, back_place slice (class_lt (size b)),
    Option.getD_some, Nat.add_sub_cancel]

theorem bitFor_inside {slice : Nat} {size : Nat → Nat} {b last : Nat} (bLt : b < last) :
    bitFor slice size b / 64 < divCeil ((last + lead slice) * classes) 64 := by
  obtain ⟨slot, placed⟩ := bitFor_parts slice size b
  have backLe := backOf_le_lead slice (class_lt (size b))
  apply lt_divCeil_of_mul_lt (by decide)
  simp only [classes] at *
  omega

end Priority

end Lexindex.Mphf
