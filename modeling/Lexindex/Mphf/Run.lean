import Mathlib
import Lexindex.Mphf.LaneSound
import Lexindex.Mphf.QueueOrder

/-!
# Seeding the buckets of a run

A run is a stretch of a level's buckets with their keys, grouped by bucket.  Its
buckets are seeded one after another against one occupancy map, in the order of
the queue.  A seeded run has put every key of every bucket it did not bump on a
value of its own, none of them marked before, and marked them all.
-/

set_option autoImplicit false

namespace Lexindex.Mphf

/-- What a placement pass reads: a level's shape and its keys, grouped by bucket. -/
structure Run where
  level : Level
  keys : List Nat
  /-- Where the keys of each bucket begin, and where the last one's end. -/
  start : List Nat

namespace Run

def size (run : Run) (b : Nat) : Nat :=
  run.start.getD (b + 1) 0 - run.start.getD b 0

def keysOf (run : Run) (b : Nat) : List Nat :=
  (run.keys.drop (run.start.getD b 0)).take (run.size b)

/-- What a run carries from bucket to bucket. -/
structure Seeding where
  seeds : List UInt8
  taken : Map
  scratch : LaneScratch

section Score

variable (log2 : Nat → Nat)

def seedOne (run : Run) (origin : Nat) (s : Seeding) (b : Nat) : Seeding :=
  let out := run.level.seedOneBucket log2 (run.keysOf b) s.taken origin s.scratch
  { seeds := s.seeds.set b (UInt8.ofNat out.1.1), taken := out.1.2, scratch := out.2 }

/-- The rounds of a run; each takes a bucket off the queue, so `fuel` bounds them. -/
def seedFrom (run : Run) (origin last : Nat) : Nat → Queue → Seeding → Option Seeding
  | 0, _, _ => none
  | fuel + 1, q, s => do
      match ← q.pop run.level.slice run.size last with
      | none => pure s
      | some (b, q) => seedFrom run origin last fuel q (run.seedOne log2 origin s b)

/-- Seed the buckets of a run against `taken`, whose bit 0 is value `origin`. -/
def seedRun (run : Run) (seeds : List UInt8) (taken : Map) (origin : Nat) :
    Option (List UInt8 × Map) :=
  (run.seedFrom log2 origin seeds.length (seeds.length + 1)
    (Queue.start run.level.slice seeds.length) { seeds, taken, scratch := LaneScratch.new }).map
      fun s => (s.seeds, s.taken)

theorem seedFrom_eq (run : Run) (origin last : Nat) :
    ∀ (fuel : Nat) (q : Queue) (s : Seeding), run.seedFrom log2 origin last fuel q s =
      (q.orderFrom run.level.slice run.size last fuel).map
        fun taken => taken.foldl (run.seedOne log2 origin) s := by
  intro fuel
  induction fuel with
  | zero =>
      intro q s
      rfl
  | succ fuel ih =>
      intro q s
      rw [seedFrom, Queue.orderFrom]
      cases q.pop run.level.slice run.size last with
      | none => rfl
      | some popped =>
          cases popped with
          | none => rfl
          | some taken =>
              simp only [Option.bind_eq_bind, Option.bind_some, Option.pure_def, ih]
              cases Queue.orderFrom run.level.slice run.size last fuel taken.2 <;> rfl

/-- A run seeds the buckets with keys, each once, in some order. -/
theorem seedRun_eq (run : Run) (seeds : List UInt8) (taken : Map) (origin : Nat) :
    ∃ order : List Nat, order.Nodup ∧ (∀ b, b ∈ order ↔ b < seeds.length ∧ run.size b ≠ 0) ∧
      Queue.order run.level.slice run.size seeds.length = some order ∧
      run.seedRun log2 seeds taken origin =
        some ((order.foldl (run.seedOne log2 origin)
            { seeds, taken, scratch := LaneScratch.new }).seeds,
          (order.foldl (run.seedOne log2 origin)
            { seeds, taken, scratch := LaneScratch.new }).taken) := by
  obtain ⟨order, ordered, nodup, members⟩ :=
    Queue.order_exact run.level.slice run.size seeds.length
  refine ⟨order, nodup, members, ordered, ?_⟩
  rw [Queue.order] at ordered
  rw [seedRun, seedFrom_eq, ordered]
  rfl

end Score

end Run

/-! ## Where a seed puts a key -/

/-- The map has room for every value the key can take, at or past its bit 0; only a
map from value 0 is one the key may wrap on. -/
structure Level.Room (l : Level) (origin : Nat) (taken : Map) (h : Nat) : Prop where
  above : origin ≤ scale h l.n
  unfolded : origin = 0 ∨ scale h l.n + l.slice ≤ l.n
  covered : ∀ x < l.slice, taken.Covers (wrapped (scale h l.n + x) l.n - origin)

section Value

variable {l : Level} (strided : l.Strided) (narrow : l.shift + 6 ≤ 62)
include strided

include narrow in
theorem Level.Strided.value_eq (h : Nat) {mode t : Nat} (tLt : t < 64) :
    l.value h (mode * 64 + t) =
      wrapped (scale h l.n +
        ((l.offset h mode + (t <<< l.shift)) &&& (l.slice - 1))) l.n := by
  have shiftIs : (mode * 64 + t) &&& 63 = t := by
    rw [show 63 = 2 ^ 6 - 1 from rfl, and_mask]
    omega
  have fieldIs : seedReadsField (mode * 64 + t) = 8 * mode := by
    rw [seedReadsField, Nat.shiftRight_eq_div_pow]
    simp only [shippedModeBits]
    omega
  have bits : 8 - l.form.modeBits = 6 := by
    change 8 - l.modeBits = 6
    rw [strided.modes]
    rfl
  have modes : l.form.modeBits = shippedModeBits := strided.modes
  have stepSmall : t * 2 ^ l.shift < 2 ^ 64 := by
    calc
      t * 2 ^ l.shift < 2 ^ 6 * 2 ^ l.shift :=
        Nat.mul_lt_mul_of_pos_right tLt (Nat.two_pow_pos _)
      _ = 2 ^ (l.shift + 6) := by rw [Nat.pow_add, Nat.mul_comm]
      _ ≤ 2 ^ 64 := Nat.pow_le_pow_right (by decide) (by omega)
  rw [Level.value, Level.valueIn]
  simp only [bits, if_pos modes, fieldIs]
  rw [show 2 ^ 6 - 1 = 63 from rfl, shiftIs]
  change wrapped (_ + (_ &&& (l.slice - 1))) _ = _
  congr 2
  rw [Level.offset, strided.slice, and_mask, and_mask, and_mask]
  change (h >>> (8 * mode) + t <<< l.shift % 2 ^ 64) % 2 ^ 64 % _ = _
  rw [Nat.shiftLeft_eq, Nat.mod_eq_of_lt stepSmall, Nat.mod_mod_of_dvd _ (Nat.pow_dvd_pow 2 (by omega)),
    Nat.mod_add_mod]

theorem Level.Strided.turned_lt (h mode t : Nat) :
    (l.offset h mode + (t <<< l.shift)) &&& (l.slice - 1) < l.slice :=
  and_pred_lt (Nat.lt_of_le_of_lt (Nat.zero_le _) (strided.offset_lt h mode))

include narrow in
/-- A key's place on a map with room is its value, counted from the map's origin. -/
theorem Level.Strided.placeOn_eq {origin h mode t : Nat} {taken : Map}
    (room : l.Room origin taken h) (tLt : t < 64) :
    l.placeOn origin mode h t + origin = l.value h (mode * 64 + t) := by
  have turnedLt := strided.turned_lt h mode t
  have above := room.above
  rw [strided.value_eq narrow h tLt, Level.placeOn, Level.foldOn, Level.startOn]
  unfold wrapped
  rcases room.unfolded with whole | inside
  · subst whole
    simp only [Nat.sub_zero, Nat.add_zero]
  · rw [if_neg (by omega), if_neg (by omega)]
    omega

include narrow in
theorem Level.Strided.value_covered {origin h mode t : Nat} {taken : Map}
    (room : l.Room origin taken h) (tLt : t < 64) :
    taken.Covers (l.value h (mode * 64 + t) - origin) := by
  rw [strided.value_eq narrow h tLt]
  exact room.covered _ (strided.turned_lt h mode t)

end Value

end Lexindex.Mphf
