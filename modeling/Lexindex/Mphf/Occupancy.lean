import Mathlib
import Lexindex.Lib.Word

/-!
# The occupancy map

Value `v` of a level is bit `v >>> shift` of plane `v % 2 ^ shift`, so the values a
key takes under consecutive shifts are consecutive bits of one plane, and a search
reads 64 of them in one window.
-/

set_option autoImplicit false

namespace Lexindex.Mphf

structure Map where
  shift : Nat
  /-- Words per plane, with spare words at each plane's end. -/
  plane : Nat
  words : List Word
  sized : words.length = plane * 2 ^ shift
  deriving DecidableEq

namespace Map

def new (values shift : Nat) : Map :=
  let plane := (values >>> shift) / 64 + 3
  { shift, plane, words := List.replicate (plane * 2 ^ shift) 0#64, sized := by simp }

/-- The word offset of the plane of `v`. -/
def planeOf (m : Map) (v : Nat) : Nat :=
  v % 2 ^ m.shift * m.plane

/-- The bit of `v` within its plane. -/
def bitOf (m : Map) (v : Nat) : Nat :=
  v >>> m.shift

/-- Bit `i` of the plane at word offset `p`. -/
def planeBit (m : Map) (p i : Nat) : Bool :=
  (m.words.getD (p + i / 64) 0#64).getLsbD (i % 64)

def get (m : Map) (v : Nat) : Bool :=
  m.planeBit (m.planeOf v) (m.bitOf v)

/-- The map with word `w` changed by `change`. -/
def modifyWord (m : Map) (w : Nat) (change : Word → Word) : Map :=
  { m with words := m.words.modify w change, sized := by simpa using m.sized }

def set (m : Map) (v : Nat) : Map :=
  m.modifyWord (m.planeOf v + m.bitOf v / 64) (· ||| (1#64 <<< (m.bitOf v % 64)))

def clear (m : Map) (v : Nat) : Map :=
  m.modifyWord (m.planeOf v + m.bitOf v / 64) (· &&& ~~~(1#64 <<< (m.bitOf v % 64)))

/-- 64 bits of the plane at word offset `p`, from bit `i`. -/
def window (m : Map) (p i : Nat) : Word :=
  let w := p + i / 64
  let o := i % 64
  (m.words.getD w 0#64 >>> o) ||| (m.words.getD (w + 1) 0#64 <<< 1 <<< (63 - o))

/-- The bits of word `w` that some plane has free. -/
def freeWord (m : Map) (w : Nat) : Word :=
  (List.range (2 ^ m.shift)).foldl
    (fun free p => free ||| ~~~(m.words.getD (p * m.plane + w) 0#64)) 0#64

/-- The values below `n` no key landed on, in order: a word of every plane at a
time, their zero bits merged in bit order. -/
def holes (m : Map) (n : Nat) : List Nat :=
  let words := if n = 0 then 0 else ((n - 1) >>> m.shift) / 64 + 1
  (List.range words).flatMap fun w =>
    (m.freeWord w).ones.flatMap fun j =>
      (List.range (2 ^ m.shift)).filterMap fun p =>
        let v := (w * 64 + j) * 2 ^ m.shift + p
        if v < n ∧ (m.words.getD (p * m.plane + w) 0#64).getLsbD j = false then some v else none

/-- The word of `other` that word `index` of `m` takes in a merge at `at_`, if any:
`other`'s first word is word `at_` of each plane of `m`. -/
def mergedWord (m other : Map) (at_ : Int) (index : Nat) : Word :=
  let p := index / m.plane
  let k := index % m.plane
  if at_ ≤ k ∧ (k : Int) < at_ + other.plane then
    other.words.getD (p * other.plane + ((k : Int) - at_).toNat) 0#64
  else 0#64

/-- OR `other` into `m`, plane by plane; only the words both have are touched. -/
def merge (m other : Map) (at_ : Int) : Map :=
  { m with
    words := m.words.mapIdx fun index word => word ||| m.mergedWord other at_ index
    sized := by simpa using m.sized }

/-! ## What the operations do to the values -/

/-- The word of `v` is inside its plane. -/
def Covers (m : Map) (v : Nat) : Prop :=
  m.bitOf v / 64 < m.plane

instance (m : Map) (v : Nat) : Decidable (m.Covers v) :=
  inferInstanceAs (Decidable (m.bitOf v / 64 < m.plane))

theorem planeOf_add {m : Map} (v t : Nat) : m.planeOf (v + t * 2 ^ m.shift) = m.planeOf v := by
  rw [planeOf, planeOf, Nat.add_mul_mod_self_right]

theorem bitOf_add {m : Map} (v t : Nat) : m.bitOf (v + t * 2 ^ m.shift) = m.bitOf v + t := by
  rw [bitOf, bitOf, Nat.shiftRight_eq_div_pow, Nat.shiftRight_eq_div_pow,
    Nat.add_mul_div_right _ _ (Nat.two_pow_pos _)]

theorem value_eq_of_plane_bit {m : Map} {v w : Nat} (plane : v % 2 ^ m.shift = w % 2 ^ m.shift)
    (bit : m.bitOf v = m.bitOf w) : v = w := by
  rw [bitOf, bitOf, Nat.shiftRight_eq_div_pow, Nat.shiftRight_eq_div_pow] at bit
  rw [← Nat.div_add_mod v (2 ^ m.shift), ← Nat.div_add_mod w (2 ^ m.shift), plane, bit]

/-- Two covered values in one word are in one plane. -/
theorem word_inj {plane a b i j : Nat} (iLt : i < plane) (jLt : j < plane)
    (same : a * plane + i = b * plane + j) : a = b ∧ i = j := by
  have aIs : (a * plane + i) / plane = a := by
    rw [Nat.mul_comm, Nat.mul_add_div (by omega), Nat.div_eq_of_lt iLt, Nat.add_zero]
  have bIs : (b * plane + j) / plane = b := by
    rw [Nat.mul_comm, Nat.mul_add_div (by omega), Nat.div_eq_of_lt jLt, Nat.add_zero]
  have planes : a = b := by rw [← aIs, ← bIs, same]
  subst planes
  exact ⟨rfl, by omega⟩

theorem word_lt {m : Map} {v : Nat} (covered : m.Covers v) :
    m.planeOf v + m.bitOf v / 64 < m.words.length := by
  rw [m.sized, planeOf]
  have planeLt : v % 2 ^ m.shift < 2 ^ m.shift := Nat.mod_lt _ (Nat.two_pow_pos _)
  calc
    v % 2 ^ m.shift * m.plane + m.bitOf v / 64 < v % 2 ^ m.shift * m.plane + m.plane := by
      have inside : m.bitOf v / 64 < m.plane := covered
      omega
    _ = (v % 2 ^ m.shift + 1) * m.plane := by rw [Nat.succ_mul]
    _ ≤ 2 ^ m.shift * m.plane := Nat.mul_le_mul_right _ planeLt
    _ = m.plane * 2 ^ m.shift := Nat.mul_comm ..

@[simp] theorem new_get (values shift v : Nat) : (new values shift).get v = false := by
  simp only [get, planeBit, new]
  rw [List.getD_eq_getElem?_getD, List.getElem?_replicate]
  split <;> simp

section Update

variable {m : Map} {v w : Nat}

/-- Two covered values share a word's bit only when they are one value. -/
theorem same_word_bit (vCovered : m.Covers v) (wCovered : m.Covers w)
    (sameWord : m.planeOf w + m.bitOf w / 64 = m.planeOf v + m.bitOf v / 64)
    (sameBit : m.bitOf w % 64 = m.bitOf v % 64) : w = v := by
  obtain ⟨planes, words⟩ := word_inj wCovered vCovered sameWord
  apply value_eq_of_plane_bit planes
  rw [← Nat.div_add_mod (m.bitOf w) 64, ← Nat.div_add_mod (m.bitOf v) 64, words, sameBit]

theorem set_get (vCovered : m.Covers v) (wCovered : m.Covers w) :
    (m.set v).get w = (decide (w = v) || m.get w) := by
  change ((m.words.modify _ _).getD (m.planeOf w + m.bitOf w / 64) 0#64).getLsbD (m.bitOf w % 64) = _
  rw [getD_modify (word_lt vCovered)]
  by_cases sameWord : m.planeOf w + m.bitOf w / 64 = m.planeOf v + m.bitOf v / 64
  · rw [if_pos sameWord, BitVec.getLsbD_or, one_shift_getLsbD (Nat.mod_lt _ (by decide))]
    by_cases sameBit : m.bitOf w % 64 = m.bitOf v % 64
    · have same := same_word_bit vCovered wCovered sameWord sameBit
      simp [same]
    · have apart : ¬ w = v := fun same => sameBit (by rw [same])
      simp [sameBit, apart, get, planeBit]
  · have apart : ¬ w = v := fun same => sameWord (by rw [same])
    rw [if_neg sameWord]
    simp [apart, get, planeBit]

theorem clear_get (vCovered : m.Covers v) (wCovered : m.Covers w) :
    (m.clear v).get w = (!decide (w = v) && m.get w) := by
  change ((m.words.modify _ _).getD (m.planeOf w + m.bitOf w / 64) 0#64).getLsbD (m.bitOf w % 64) = _
  rw [getD_modify (word_lt vCovered)]
  by_cases sameWord : m.planeOf w + m.bitOf w / 64 = m.planeOf v + m.bitOf v / 64
  · have bitLt : m.bitOf w % 64 < 64 := Nat.mod_lt _ (by decide)
    rw [if_pos sameWord, BitVec.getLsbD_and, BitVec.getLsbD_not,
      one_shift_getLsbD (Nat.mod_lt _ (by decide))]
    by_cases sameBit : m.bitOf w % 64 = m.bitOf v % 64
    · have same := same_word_bit vCovered wCovered sameWord sameBit
      simp [same]
    · have apart : ¬ w = v := fun same => sameBit (by rw [same])
      simp [sameBit, apart, get, planeBit, bitLt]
  · have apart : ¬ w = v := fun same => sameWord (by rw [same])
    rw [if_neg sameWord]
    simp [apart, get, planeBit]

end Update

@[simp] theorem set_shift (m : Map) (v : Nat) : (m.set v).shift = m.shift := rfl
@[simp] theorem set_plane (m : Map) (v : Nat) : (m.set v).plane = m.plane := rfl
@[simp] theorem clear_shift (m : Map) (v : Nat) : (m.clear v).shift = m.shift := rfl
@[simp] theorem clear_plane (m : Map) (v : Nat) : (m.clear v).plane = m.plane := rfl
@[simp] theorem merge_shift (m other : Map) (at_ : Int) : (m.merge other at_).shift = m.shift := rfl
@[simp] theorem merge_plane (m other : Map) (at_ : Int) : (m.merge other at_).plane = m.plane := rfl

theorem covers_new {values shift v : Nat} (below : v ≤ values) : (new values shift).Covers v := by
  have bits : v >>> shift ≤ values >>> shift := by
    rw [Nat.shiftRight_eq_div_pow, Nat.shiftRight_eq_div_pow]
    exact Nat.div_le_div_right below
  change (v >>> shift) / 64 < (values >>> shift) / 64 + 3
  omega

/-- A window is the 64 bits of its plane from where it starts. -/
theorem window_getLsbD (m : Map) (p i t : Nat) (small : t < 64) :
    (m.window p i).getLsbD t = m.planeBit p (i + t) := by
  rw [window, planeBit]
  simp only [BitVec.getLsbD_or, BitVec.getLsbD_ushiftRight, BitVec.getLsbD_shiftLeft]
  by_cases inFirst : i % 64 + t < 64
  · have wordIs : p + (i + t) / 64 = p + i / 64 := by omega
    have bitIs : (i + t) % 64 = i % 64 + t := by omega
    have belowNext : t < 63 - i % 64 ∨ t - (63 - i % 64) < 1 := by omega
    rw [wordIs, bitIs]
    rcases belowNext with below | below <;> simp [below]
  · have wordIs : p + (i + t) / 64 = p + i / 64 + 1 := by omega
    have bitIs : (i + t) % 64 = t - (63 - i % 64) - 1 := by omega
    have past : (m.words.getD (p + i / 64) 0#64).getLsbD (i % 64 + t) = false :=
      BitVec.getLsbD_of_ge _ _ (by omega)
    have inNext : ¬ t < 63 - i % 64 := by omega
    have inNext' : ¬ t - (63 - i % 64) < 1 := by omega
    have inWord : t - (63 - i % 64) < 64 := by omega
    rw [wordIs, bitIs, past]
    simp [small, inNext, inNext', inWord]

/-! ## Merging -/

/-- `origin` is the first value of a word of every plane. -/
def Aligned (shift origin : Nat) : Prop :=
  64 * 2 ^ shift ∣ origin

/-- The word of an origin, as a merge counts it. -/
def originWord (shift origin : Nat) : Nat :=
  (origin >>> shift) / 64

/-- The absolute value `v` is marked in the map whose bit 0 is value `origin`. -/
def holds (m : Map) (origin v : Nat) : Bool :=
  decide (origin ≤ v ∧ m.Covers (v - origin)) && m.get (v - origin)

theorem holds_eq_get {m : Map} {origin v : Nat} (covered : m.Covers v) :
    m.holds origin (v + origin) = m.get v := by
  simp [holds, covered]

theorem aligned_split {shift origin v : Nat} (aligned : Aligned shift origin) (above : origin ≤ v) :
    (v - origin) % 2 ^ shift = v % 2 ^ shift ∧
      (v - origin) >>> shift + 64 * originWord shift origin = v >>> shift := by
  obtain ⟨k, rfl⟩ := aligned
  have word : originWord shift (64 * 2 ^ shift * k) = k := by
    rw [originWord, Nat.shiftRight_eq_div_pow, Nat.mul_comm 64, Nat.mul_assoc,
      Nat.mul_div_cancel_left _ (Nat.two_pow_pos _), Nat.mul_div_cancel_left _ (by decide)]
  have whole : v = v - 64 * 2 ^ shift * k + 2 ^ shift * (64 * k) := by
    have product : 64 * 2 ^ shift * k = 2 ^ shift * (64 * k) := by ring
    omega
  rw [word]
  constructor
  · conv_rhs => rw [whole, Nat.add_mul_mod_self_left]
  · rw [Nat.shiftRight_eq_div_pow, Nat.shiftRight_eq_div_pow]
    conv_rhs => rw [whole, Nat.add_mul_div_left _ _ (Nat.two_pow_pos _)]

theorem getD_mapIdx {words : List Word} {change : Nat → Word → Word} {i : Nat}
    (inside : i < words.length) :
    (words.mapIdx change).getD i 0#64 = change i (words.getD i 0#64) := by
  rw [List.getD_eq_getElem?_getD, List.getElem?_mapIdx, List.getD_eq_getElem?_getD,
    List.getElem?_eq_getElem inside]
  rfl

/-- A merge adds what the other map holds, at the same absolute values. -/
theorem merge_get {m other : Map} {origin otherOrigin v : Nat} (shifts : other.shift = m.shift)
    (aligned : Aligned m.shift origin) (otherAligned : Aligned m.shift otherOrigin)
    (covered : m.Covers v) :
    (m.merge other ((originWord m.shift otherOrigin : Int) - originWord m.shift origin)).get v =
      (m.get v || other.holds otherOrigin (v + origin)) := by
  have inside := word_lt covered
  have planePositive : 0 < m.plane := Nat.lt_of_le_of_lt (Nat.zero_le _) covered
  change ((m.words.mapIdx _).getD (m.planeOf v + m.bitOf v / 64) 0#64).getLsbD (m.bitOf v % 64) = _
  rw [getD_mapIdx inside, BitVec.getLsbD_or]
  congr 1
  have planeIs : (m.planeOf v + m.bitOf v / 64) / m.plane = v % 2 ^ m.shift := by
    rw [planeOf, Nat.mul_comm, Nat.mul_add_div planePositive, Nat.div_eq_of_lt covered,
      Nat.add_zero]
  have wordIs : (m.planeOf v + m.bitOf v / 64) % m.plane = m.bitOf v / 64 := by
    rw [planeOf, Nat.mul_comm, Nat.mul_add_mod, Nat.mod_eq_of_lt covered]
  have here := aligned_split aligned (Nat.le_add_left origin v)
  rw [Nat.add_sub_cancel] at here
  rw [mergedWord, planeIs, wordIs]
  by_cases above : otherOrigin ≤ v + origin
  · have there := aligned_split otherAligned above
    have bits : (v + origin - otherOrigin) >>> m.shift + 64 * originWord m.shift otherOrigin =
        m.bitOf v + 64 * originWord m.shift origin := by
      rw [there.2, ← here.2]
      rfl
    have otherBit : other.bitOf (v + origin - otherOrigin) =
        (v + origin - otherOrigin) >>> m.shift := by rw [bitOf, shifts]
    by_cases reached : other.Covers (v + origin - otherOrigin)
    · have inRange : (originWord m.shift otherOrigin : Int) - originWord m.shift origin ≤
            (m.bitOf v / 64 : Nat) ∧
          ((m.bitOf v / 64 : Nat) : Int) <
            (originWord m.shift otherOrigin : Int) - originWord m.shift origin + other.plane := by
        have coverage : other.bitOf (v + origin - otherOrigin) / 64 < other.plane := reached
        rw [otherBit] at coverage
        omega
      have offset : (((m.bitOf v / 64 : Nat) : Int) -
          ((originWord m.shift otherOrigin : Int) - originWord m.shift origin)).toNat =
          (v + origin - otherOrigin) >>> m.shift / 64 := by
        omega
      have bitIs : m.bitOf v % 64 = (v + origin - otherOrigin) >>> m.shift % 64 := by
        omega
      rw [if_pos inRange, offset, bitIs]
      simp [holds, above, reached, get, planeBit, planeOf, otherBit, shifts, there.1, here.1]
    · have outOfRange : ¬ ((originWord m.shift otherOrigin : Int) - originWord m.shift origin ≤
            (m.bitOf v / 64 : Nat) ∧
          ((m.bitOf v / 64 : Nat) : Int) <
            (originWord m.shift otherOrigin : Int) - originWord m.shift origin + other.plane) := by
        have coverage : ¬ other.bitOf (v + origin - otherOrigin) / 64 < other.plane := reached
        rw [otherBit] at coverage
        omega
      rw [if_neg outOfRange]
      simp [holds, reached]
  · have ordered : v + origin < otherOrigin := by omega
    have outOfRange : ¬ ((originWord m.shift otherOrigin : Int) - originWord m.shift origin ≤
          (m.bitOf v / 64 : Nat) ∧
        ((m.bitOf v / 64 : Nat) : Int) <
          (originWord m.shift otherOrigin : Int) - originWord m.shift origin + other.plane) := by
      have later := aligned_split otherAligned (Nat.le_refl otherOrigin)
      rw [Nat.sub_self, Nat.zero_shiftRight, Nat.zero_add] at later
      have before : (v + origin) >>> m.shift < otherOrigin >>> m.shift := by
        obtain ⟨k, rfl⟩ := otherAligned
        rw [Nat.shiftRight_eq_div_pow, Nat.shiftRight_eq_div_pow, Nat.mul_comm 64, Nat.mul_assoc,
          Nat.mul_div_cancel_left _ (Nat.two_pow_pos _), Nat.div_lt_iff_lt_mul (Nat.two_pow_pos _)]
        rw [Nat.mul_comm 64, Nat.mul_assoc] at ordered
        rwa [Nat.mul_comm (64 * k)]
      rw [← later.2, ← here.2] at before
      change m.bitOf v + _ < _ at before
      omega
    rw [if_neg outOfRange]
    simp [holds, above]

/-! ## The holes -/

theorem freeWord_getLsbD (m : Map) (w j : Nat) (small : j < 64) :
    (m.freeWord w).getLsbD j =
      (List.range (2 ^ m.shift)).any fun p =>
        !(m.words.getD (p * m.plane + w) 0#64).getLsbD j := by
  have folded : ∀ (planes : List Nat) (start : Word),
      (planes.foldl (fun free p => free ||| ~~~(m.words.getD (p * m.plane + w) 0#64)) start).getLsbD
          j = (start.getLsbD j || planes.any fun p =>
            !(m.words.getD (p * m.plane + w) 0#64).getLsbD j) := by
    intro planes
    induction planes with
    | nil => intro start; simp
    | cons p rest ih =>
        intro start
        rw [List.foldl_cons, ih, BitVec.getLsbD_or, BitVec.getLsbD_not, List.any_cons]
        simp [small, Bool.or_assoc]
  rw [freeWord, folded]
  simp

/-- A value of a level split into its word, its bit and its plane. -/
theorem value_parts (shift v : Nat) :
    (v >>> shift / 64 * 64 + v >>> shift % 64) * 2 ^ shift + v % 2 ^ shift = v := by
  rw [Nat.div_add_mod', Nat.shiftRight_eq_div_pow, Nat.div_add_mod']

theorem parts_of_value {shift w j p : Nat} (jLt : j < 64) (pLt : p < 2 ^ shift) :
    ((w * 64 + j) * 2 ^ shift + p) % 2 ^ shift = p ∧
      ((w * 64 + j) * 2 ^ shift + p) >>> shift / 64 = w ∧
      ((w * 64 + j) * 2 ^ shift + p) >>> shift % 64 = j := by
  have bit : ((w * 64 + j) * 2 ^ shift + p) >>> shift = w * 64 + j := by
    rw [Nat.shiftRight_eq_div_pow, Nat.mul_comm, Nat.mul_add_div (Nat.two_pow_pos _),
      Nat.div_eq_of_lt pLt, Nat.add_zero]
  rw [bit]
  refine ⟨?_, by omega, by omega⟩
  rw [Nat.mul_comm, Nat.mul_add_mod, Nat.mod_eq_of_lt pLt]

theorem mem_holes {m : Map} {n v : Nat} : v ∈ m.holes n ↔ v < n ∧ m.get v = false := by
  simp only [holes, List.mem_flatMap, List.mem_range, List.mem_filterMap, Option.ite_none_right_eq_some,
    Option.some.injEq, Word.mem_ones]
  constructor
  · rintro ⟨w, _, j, free, p, pLt, ⟨below, unset⟩, rfl⟩
    have jLt : j < 64 := BitVec.lt_of_getLsbD free
    obtain ⟨plane, word, bit⟩ := parts_of_value (w := w) jLt pLt
    refine ⟨below, ?_⟩
    rw [get, planeBit, planeOf, bitOf, plane, word, bit]
    exact unset
  · rintro ⟨below, unset⟩
    have bitLt : v >>> m.shift % 64 < 64 := Nat.mod_lt _ (by decide)
    have planeLt : v % 2 ^ m.shift < 2 ^ m.shift := Nat.mod_lt _ (Nat.two_pow_pos _)
    have wordUnset : (m.words.getD (v % 2 ^ m.shift * m.plane + v >>> m.shift / 64) 0#64).getLsbD
        (v >>> m.shift % 64) = false := unset
    refine ⟨v >>> m.shift / 64, ?_, v >>> m.shift % 64, ?_, v % 2 ^ m.shift, planeLt, ?_,
      value_parts m.shift v⟩
    · have ordered : v >>> m.shift ≤ (n - 1) >>> m.shift := by
        rw [Nat.shiftRight_eq_div_pow, Nat.shiftRight_eq_div_pow]
        exact Nat.div_le_div_right (by omega)
      rw [if_neg (by omega)]
      omega
    · rw [freeWord_getLsbD _ _ _ bitLt, List.any_eq_true]
      exact ⟨v % 2 ^ m.shift, List.mem_range.mpr planeLt, by rw [wordUnset]; rfl⟩
    · rw [value_parts]
      exact ⟨below, wordUnset⟩

theorem holes_sorted (m : Map) (n : Nat) : (m.holes n).Pairwise (· < ·) := by
  have within : ∀ (w j : Nat), ∀ v ∈ ((List.range (2 ^ m.shift)).filterMap fun p =>
      if (w * 64 + j) * 2 ^ m.shift + p < n ∧
          (m.words.getD (p * m.plane + w) 0#64).getLsbD j = false then
        some ((w * 64 + j) * 2 ^ m.shift + p) else none),
      (w * 64 + j) * 2 ^ m.shift ≤ v ∧ v < (w * 64 + j + 1) * 2 ^ m.shift := by
    intro w j v member
    simp only [List.mem_filterMap, List.mem_range, Option.ite_none_right_eq_some,
      Option.some.injEq] at member
    obtain ⟨p, pLt, _, rfl⟩ := member
    rw [Nat.succ_mul]
    omega
  have stepUp : ∀ {a b : Nat}, a < b → (a + 1) * 2 ^ m.shift ≤ b * 2 ^ m.shift := fun lt =>
    Nat.mul_le_mul_right _ lt
  simp only [holes, List.pairwise_flatMap]
  refine ⟨?_, ?_⟩
  · intro w _
    refine ⟨?_, ?_⟩
    · intro j _
      rw [List.pairwise_filterMap]
      refine List.pairwise_lt_range.imp ?_
      intro a b lt v vIs u uIs
      simp only [Option.ite_none_right_eq_some, Option.some.injEq] at vIs uIs
      omega
    · refine (Word.ones_sorted _).imp ?_
      intro a b lt v vIn u uIn
      have vBound := (within w a v vIn).2
      have uBound := (within w b u uIn).1
      have step := stepUp (show w * 64 + a < w * 64 + b by omega)
      omega
  · refine List.pairwise_lt_range.imp ?_
    intro a b lt v vIn u uIn
    obtain ⟨i, iIn, vIn⟩ := List.mem_flatMap.mp vIn
    obtain ⟨j, jIn, uIn⟩ := List.mem_flatMap.mp uIn
    have iLt := Word.ones_lt iIn
    have vBound := (within a i v vIn).2
    have uBound := (within b j u uIn).1
    have step := stepUp (show a * 64 + i < b * 64 + j by omega)
    omega

end Map

end Lexindex.Mphf
