import Mathlib
import Lexindex.Offsets.Pack
import Lexindex.Lib.Fields

/-!
# Packed offsets are exact

The deltas are fields of one width.  A word holds a field after a shift of at most seven, since a
width is at most fifty-six, and two of them where the pair's read takes both from it.
-/

set_option autoImplicit false

namespace Lexindex.Offsets

open Faulting (slice word sub shiftLeft bytesBetween slice_eq word_eq sub_eq shiftLeft_eq
  bytesBetween_length)

variable {ε : Type}

/-! ## Writing -/

/-- A value moved into its word, in the bits of the buffer. -/
theorem orWord_spec {deltas : List UInt8} {bit v : Nat} (room : bit / 8 + 8 ≤ deltas.length)
    (fits : v < 2 ^ 56) : ∃ after, (orWord deltas bit v : Faulting ε (List UInt8)) = .ok after ∧
      after.length = deltas.length ∧
      ∀ p, (leNat after).testBit p = ((leNat deltas).testBit p || (v <<< bit).testBit p) := by
  have sized : (bytesBetween deltas (bit / 8) (bit / 8 + 8)).length = 8 := by
    rw [bytesBetween_length (by omega) room, Nat.add_sub_cancel_left]
  have moved : v <<< (bit % 8) < 2 ^ 64 := by
    rw [Nat.shiftLeft_eq]
    calc v * 2 ^ (bit % 8) < 2 ^ 56 * 2 ^ (bit % 8) := Nat.mul_lt_mul_of_pos_right fits (by positivity)
      _ ≤ 2 ^ 56 * 2 ^ 8 := Nat.mul_le_mul_left _ (Nat.pow_le_pow_right (by decide) (by omega))
      _ = 2 ^ 64 := by decide
  have old := leNat_between deltas (bit / 8) 8
  have whole : leNat deltas >>> (8 * (bit / 8)) % 2 ^ (8 * 8) ||| v <<< (bit % 8) < 2 ^ 64 :=
    Nat.or_lt_two_pow (Nat.mod_lt _ (by positivity)) moved
  have written : ∀ x, (leBytes 8 x).length = 8 := fun x => leBytes_length 8 x
  refine ⟨overwrite deltas (bit / 8) (leBytes 8 (leNat deltas >>> (8 * (bit / 8)) % 2 ^ (8 * 8) |||
    v <<< (bit % 8))), ?_, ?_, fun p => ?_⟩
  · rw [orWord, slice_eq (by omega) room]
    change Except.bind (word 8 _) _ = _
    rw [word_eq sized, old, Nat.mod_eq_of_lt moved]
    rfl
  · rw [overwrite_length (by rw [written]; exact room)]
  · rw [leNat_overwrite_testBit (by rw [written]; exact room), written,
      leNat_leBytes 8 _ (whole.trans_le (by decide)), Nat.testBit_or, Nat.testBit_mod_two_pow,
      Nat.testBit_shiftRight, Nat.testBit_shiftLeft, Nat.testBit_shiftLeft]
    have parts := Nat.div_add_mod bit 8
    by_cases within : 8 * (bit / 8) ≤ p ∧ p < 8 * (bit / 8 + 8)
    · rw [if_pos within, decide_eq_true (show p - 8 * (bit / 8) < 8 * 8 by omega), Bool.true_and,
        Nat.add_sub_cancel' within.1,
        show p - 8 * (bit / 8) - bit % 8 = p - bit by omega,
        decide_eq_decide.mpr (show p - 8 * (bit / 8) ≥ bit % 8 ↔ p ≥ bit by omega)]
    · rw [if_neg within]
      by_cases past : p ≥ bit
      · have high : v < 2 ^ (p - bit) := fits.trans_le (Nat.pow_le_pow_right (by decide) (by omega))
        rw [Nat.testBit_lt_two_pow high, Bool.and_false, Bool.or_false]
      · rw [decide_eq_false past, Bool.false_and, Bool.or_false]

/-- The fields a loop enters from its `k`-th entry on. -/
theorem entries_spec {value : Nat → Nat} {width n : Nat} (narrow : width ≤ 56)
    (fits : ∀ i, i < n → value i < 2 ^ width)
    {step : List UInt8 → Nat × Nat → Faulting ε (List UInt8)} (back : List Nat) :
    ∀ (k : Nat) (deltas : List UInt8) (entered : List Nat), k + back.length = n →
    (∀ v i, (v, i) ∈ back.zipIdx k → ∀ deltas, step deltas (v, i) = orWord deltas (i * width) (value i)) →
    deltas.length = deltasLen n width → Fields width value entered (leNat deltas) →
    ∃ after later, (back.zipIdx k).foldlM step deltas = .ok after ∧ after.length = deltasLen n width ∧
      Fields width value later (leNat after) ∧ ∀ s, s ∈ later ↔ s ∈ entered ∨ k ≤ s ∧ s < n := by
  induction back with
  | nil =>
      intro k deltas entered total _ sized fields
      refine ⟨deltas, entered, rfl, sized, fields, fun s => ?_⟩
      rw [List.length_nil] at total
      exact ⟨.inl, fun either => either.resolve_right (by omega)⟩
  | cons v back ih =>
      intro k deltas entered total each sized fields
      rw [List.length_cons] at total
      have small := fits k (by omega)
      have reach : k * width / 8 + 8 ≤ deltas.length := by
        rw [sized, deltasLen, if_neg (by omega)]
        have less : k * width ≤ n * width := Nat.mul_le_mul_right _ (by omega)
        omega
      obtain ⟨next, entry, length, bits⟩ := orWord_spec (ε := ε) (v := value k) reach
        (small.trans_le (Nat.pow_le_pow_right (by decide) narrow))
      obtain ⟨after, later, run, whole, held, members⟩ := ih (k + 1) next (k :: entered) (by omega)
        (fun v i member => each v i (by rw [List.zipIdx_cons]; exact List.mem_cons_of_mem _ member))
        (length.trans sized) (fields.enter small bits)
      refine ⟨after, later, ?_, whole, held, fun s => ?_⟩
      · rw [List.zipIdx_cons, List.foldlM_cons,
          each v k (by rw [List.zipIdx_cons]; exact List.mem_cons_self) deltas, entry]
        exact run
      · rw [members, List.mem_cons, or_assoc, or_left_comm]
        refine or_congr_right ⟨?_, ?_⟩ <;> omega

/-- What the loop over a whole array leaves. -/
theorem packed_fields {value : Nat → Nat} {width : Nat} (values : List Nat) (narrow : width ≤ 56)
    (fits : ∀ i, i < values.length → value i < 2 ^ width)
    {step : List UInt8 → Nat × Nat → Faulting ε (List UInt8)}
    (each : ∀ v i, (v, i) ∈ values.zipIdx → ∀ deltas, step deltas (v, i) = orWord deltas (i * width) (value i)) :
    ∃ deltas entered,
      values.zipIdx.foldlM step (List.replicate (deltasLen values.length width) 0) = .ok deltas ∧
      deltas.length = deltasLen values.length width ∧ Fields width value entered (leNat deltas) ∧
      ∀ s, s < values.length → s ∈ entered := by
  obtain ⟨deltas, entered, run, length, fields, members⟩ := entries_spec narrow fits values 0
    (List.replicate (deltasLen values.length width) 0) [] (Nat.zero_add _) each
    (List.length_replicate ..) (by rw [leNat_replicate]; exact fields_zero)
  exact ⟨deltas, entered, run, length, fields, fun s less => (members s).mpr (.inr ⟨Nat.zero_le s, less⟩)⟩

/-! ## Reading -/

theorem wordFrom_eq {bytes : List UInt8} {at_ : Nat} (room : at_ + 8 ≤ bytes.length) :
    (wordFrom bytes at_ : Faulting ε Nat) = .ok (leNat bytes >>> (8 * at_) % 2 ^ 64) := by
  have sized : (bytesBetween bytes at_ (at_ + 8)).length = 8 := by
    rw [bytesBetween_length (by omega) room, Nat.add_sub_cancel_left]
  rw [wordFrom, slice_eq (by omega) room]
  change (word 8 _ : Faulting ε Nat) = _
  rw [word_eq sized, leNat_between]

theorem maskOf_eq {width : Nat} (narrow : width ≤ 56) :
    (maskOf width : Faulting ε Nat) = .ok (2 ^ width - 1) := by
  have small : 2 ^ width < 2 ^ 64 := Nat.pow_lt_pow_right (by decide) (by omega)
  rw [maskOf, shiftLeft_eq (by omega), Nat.shiftLeft_eq, Nat.one_mul, Nat.mod_eq_of_lt small]
  exact sub_eq Nat.one_le_two_pow

/-- A buffer of `n` fields of up to fifty-six bits, and the tail. -/
structure Laid (n width : Nat) (value : Nat → Nat) (deltas : List UInt8) : Prop where
  narrow : width ≤ 56
  fits : ∀ i, i < n → value i < 2 ^ width
  length : deltas.length = deltasLen n width
  fields : ∃ entered, Fields width value entered (leNat deltas) ∧ ∀ i, i < n → i ∈ entered

namespace Laid

variable {n width i : Nat} {value : Nat → Nat} {deltas : List UInt8}

theorem room (laid : Laid n width value deltas) (inside : i < n) : i * width / 8 + 8 ≤ deltas.length := by
  rw [laid.length, deltasLen, if_neg (by omega)]
  have less : i * width ≤ n * width := Nat.mul_le_mul_right _ inside.le
  omega

/-- A field in the word at any bit not past it, where the word reaches its end. -/
theorem field (laid : Laid n width value deltas) {at_ off : Nat} (inside : i < n)
    (place : 8 * at_ + off = i * width) (reach : off + width ≤ 64) :
    (leNat deltas >>> (8 * at_) % 2 ^ 64) >>> off &&& (2 ^ width - 1) = value i := by
  obtain ⟨entered, fields, all⟩ := laid.fields
  rw [Nat.and_two_pow_sub_one_eq_mod, word_field _ _ reach, place]
  exact fields.read (all i inside) (laid.fits i inside)

/-- The entry in its own word. -/
theorem own (laid : Laid n width value deltas) (inside : i < n) :
    (leNat deltas >>> (8 * (i * width / 8)) % 2 ^ 64) >>> (i * width % 8) &&& (2 ^ width - 1) = value i := by
  have narrow := laid.narrow
  exact laid.field inside (Nat.div_add_mod _ 8) (by omega)

/-- The entry after it in the same word. -/
theorem next (laid : Laid n width value deltas) (inside : i + 1 < n) (both : ¬ 64 < 2 * width + 7) :
    (leNat deltas >>> (8 * (i * width / 8)) % 2 ^ 64) >>> (i * width % 8) >>> width &&& (2 ^ width - 1) =
      value (i + 1) := by
  rw [← Nat.shiftRight_add]
  refine laid.field inside ?_ (by omega)
  have parts := Nat.div_add_mod (i * width) 8
  have step : (i + 1) * width = i * width + width := Nat.succ_mul i width
  omega

end Laid

section Packed

variable {n : Nat} {value : Nat → Nat} {p : Packed} {i : Nat}

theorem Packed.entry_eq (laid : Laid n p.width value p.deltas) (inside : i < n) :
    (p.at_ i : Faulting ε Nat) = .ok (value i) := by
  rw [Packed.at_, wordFrom_eq (laid.room inside), maskOf_eq laid.narrow, ← laid.own inside]
  rfl

theorem Packed.pair_eq (laid : Laid n p.width value p.deltas) (inside : i + 1 < n) :
    (p.pair i : Faulting ε (Nat × Nat)) = .ok (value i, value (i + 1)) := by
  have here : i < n := by omega
  rw [Packed.pair]
  by_cases wide : 64 < 2 * p.width + 7
  · rw [if_pos wide, Packed.entry_eq laid here, Packed.entry_eq laid inside]
    rfl
  · rw [if_neg wide]
    dsimp only
    rw [wordFrom_eq (laid.room here), maskOf_eq laid.narrow, ← laid.own here, ← laid.next inside wide]
    rfl

end Packed

/-! ## Bases -/

section Bases

variable {values : List Nat} {shift width i : Nat}

/-- The first entry of the chunk an entry is in. -/
def baseOf (values : List Nat) (shift i : Nat) : Nat :=
  values.getD ((i >>> shift) <<< shift) 0

theorem base_le (shift i : Nat) : (i >>> shift) <<< shift ≤ i := by
  rw [Nat.shiftRight_eq_div_pow, Nat.shiftLeft_eq]
  exact Nat.div_mul_le_self i _

theorem valueAt_eq (inside : i < values.length) :
    (valueAt values i : Faulting ε Nat) = .ok (values.getD i 0) := by
  rw [valueAt, List.getElem?_eq_getElem inside, List.getD_eq_getElem _ _ inside]

/-- The chunk an entry is in. -/
theorem chunk_reached (inside : i < values.length) :
    i >>> shift < (values.length + (2 ^ shift - 1)) / 2 ^ shift := by
  have positive : 0 < 2 ^ shift := by positivity
  rw [Nat.shiftRight_eq_div_pow, Nat.lt_iff_add_one_le, Nat.le_div_iff_mul_le positive, Nat.succ_mul]
  have least := Nat.div_mul_le_self i (2 ^ shift)
  omega

def basesOf (values : List Nat) (shift : Nat) : List UInt8 :=
  (chunks values shift).flatMap fun chunk => leBytes 8 (chunk.headD 0)

theorem basesOf_length (values : List Nat) (shift : Nat) :
    (basesOf values shift).length = basesLen values.length shift := by
  rw [basesOf, flatMap_uniform_length fun chunk _ => leBytes_length 8 _, chunks, List.length_map,
    List.length_range, basesLen]

theorem base_read (words : ∀ v ∈ values, v < 2 ^ 64) (inside : i < values.length) :
    (wordFrom (basesOf values shift) ((i >>> shift) * 8) : Faulting ε Nat) = .ok (baseOf values shift i) := by
  have reached := @chunk_reached values shift i inside
  have start : (i >>> shift) * 2 ^ shift < values.length := by
    rw [← Nat.shiftLeft_eq]
    exact (base_le shift i).trans_lt inside
  have chunk : (chunks values shift)[i >>> shift]? =
      some ((values.drop ((i >>> shift) * 2 ^ shift)).take (2 ^ shift)) := by
    rw [chunks, List.getElem?_map, List.getElem?_range reached]
    rfl
  have head : ((values.drop ((i >>> shift) * 2 ^ shift)).take (2 ^ shift)).headD 0 = baseOf values shift i := by
    rw [baseOf, Nat.shiftLeft_eq, List.headD_eq_head?_getD, List.head?_take, if_neg (by positivity),
      List.head?_drop, List.getD_eq_getElem?_getD]
  have piece := @bytesBetween_piece _ (fun chunk : List Nat => leBytes 8 (chunk.headD 0)) 8 _
    (fun chunk _ => leBytes_length 8 _) _ _ chunk [] [] ((i >>> shift) * 8) ((i >>> shift) * 8 + 8)
    (by simp) rfl
  rw [List.nil_append, List.append_nil, head] at piece
  have room : (i >>> shift) * 8 + 8 ≤ (basesOf values shift).length := by
    rw [basesOf_length, basesLen]
    omega
  have small : baseOf values shift i < 256 ^ 8 := by
    rw [baseOf, Nat.shiftLeft_eq, List.getD_eq_getElem _ _ start]
    exact (words _ (List.getElem_mem start)).trans_le (by decide)
  rw [wordFrom_eq room, ← leNat_between _ _ 8]
  rw [basesOf, piece, leNat_leBytes 8 _ small]

/-! ## Widths -/

theorem lt_of_width {x width : Nat} (fits : x < 2 ^ 64) (wide : 64 - leadingZeros x ≤ width) : x < 2 ^ width := by
  rw [leadingZeros] at wide
  by_cases zero : x = 0
  · rw [zero]
    positivity
  · rw [if_neg zero] at wide
    have log := (Nat.log2_lt zero).mpr fits
    exact (Nat.log2_lt zero).mp (by omega)

theorem le_foldl_max (values : List Nat) (most : Nat) :
    most ≤ values.foldl max most ∧ ∀ v ∈ values, v ≤ values.foldl max most := by
  induction values generalizing most with
  | nil => exact ⟨Nat.le_refl _, fun v member => absurd member List.not_mem_nil⟩
  | cons v values ih =>
      obtain ⟨least, all⟩ := ih (max most v)
      rw [List.foldl_cons]
      refine ⟨(Nat.le_max_left ..).trans least, fun w member => ?_⟩
      rcases List.mem_cons.mp member with rfl | later
      · exact (Nat.le_max_right ..).trans least
      · exact all w later

theorem foldl_max_lt {bound : Nat} (values : List Nat) {most : Nat} (start : most < bound)
    (small : ∀ v ∈ values, v < bound) : values.foldl max most < bound := by
  induction values generalizing most with
  | nil => exact start
  | cons v values ih =>
      rw [List.foldl_cons]
      exact ih (Nat.max_lt.mpr ⟨start, small v List.mem_cons_self⟩)
        fun w member => small w (List.mem_cons_of_mem _ member)

/-- What a chunk spans. -/
def span (chunk : List Nat) : Nat :=
  chunk.getD (chunk.length - 1) 0 - chunk.getD 0 0

theorem getD_le (sorted : values.Pairwise (· ≤ ·)) {i j : Nat} (upTo : i ≤ j) (inside : j < values.length) :
    values.getD i 0 ≤ values.getD j 0 := by
  rw [List.getD_eq_getElem _ _ (by omega), List.getD_eq_getElem _ _ inside]
  rcases Nat.eq_or_lt_of_le upTo with rfl | less
  · exact Nat.le_refl _
  · exact List.pairwise_iff_getElem.mp sorted i j _ _ less

theorem spanOf_eq {chunk : List Nat} (sorted : chunk.Pairwise (· ≤ ·)) (some_ : 0 < chunk.length) :
    (spanOf chunk : Faulting ε Nat) = .ok (span chunk) := by
  have ascends := getD_le sorted (Nat.zero_le (chunk.length - 1)) (by omega)
  rw [spanOf, valueAt_eq (by omega), valueAt_eq some_]
  exact sub_eq ascends

theorem spans_eq {cut : List (List Nat)}
    (each : ∀ chunk ∈ cut, (spanOf chunk : Faulting ε Nat) = .ok (span chunk)) (most : Nat) :
    cut.foldlM (fun most chunk => do
      let span ← (spanOf chunk : Faulting ε Nat)
      return max most span) most = .ok ((cut.map span).foldl max most) := by
  induction cut generalizing most with
  | nil => rfl
  | cons chunk cut ih =>
      rw [List.foldlM_cons, each chunk List.mem_cons_self]
      exact ih (fun other member => each other (List.mem_cons_of_mem _ member)) (max most (span chunk))

theorem mem_chunks {chunk : List Nat} (member : chunk ∈ chunks values shift) :
    chunk.Sublist values ∧ 0 < chunk.length := by
  obtain ⟨j, reached, rfl⟩ := List.mem_map.mp member
  have positive : 0 < 2 ^ shift := by positivity
  rw [List.mem_range, Nat.lt_iff_add_one_le, Nat.le_div_iff_mul_le positive, Nat.succ_mul] at reached
  refine ⟨(List.take_sublist ..).trans (List.drop_sublist ..), ?_⟩
  rw [List.length_take, List.length_drop]
  omega

/-- An entry's delta is within what its chunk spans. -/
theorem delta_le (sorted : values.Pairwise (· ≤ ·)) (inside : i < values.length) :
    ∃ chunk ∈ chunks values shift, values.getD i 0 - baseOf values shift i ≤ span chunk := by
  have positive : 0 < 2 ^ shift := by positivity
  have parts := Nat.div_add_mod i (2 ^ shift)
  have low := Nat.mod_lt i positive
  have start : (i >>> shift) * 2 ^ shift = 2 ^ shift * (i / 2 ^ shift) := by
    rw [Nat.shiftRight_eq_div_pow, Nat.mul_comm]
  refine ⟨_, List.mem_map.mpr ⟨i >>> shift, List.mem_range.mpr (chunk_reached inside), rfl⟩, ?_⟩
  rw [baseOf, Nat.shiftLeft_eq, span, start]
  generalize 2 ^ shift * (i / 2 ^ shift) = a at *
  have entry : ∀ k, k < min (2 ^ shift) (values.length - a) →
      ((values.drop a).take (2 ^ shift)).getD k 0 = values.getD (a + k) 0 := by
    intro k near
    rw [List.getD_eq_getElem?_getD, List.getElem?_take_of_lt (by omega), List.getElem?_drop,
      ← List.getD_eq_getElem?_getD]
  have length : ((values.drop a).take (2 ^ shift)).length = min (2 ^ shift) (values.length - a) := by
    rw [List.length_take, List.length_drop]
  rw [length, entry _ (by omega), entry 0 (by omega), Nat.add_zero]
  exact Nat.sub_le_sub_right (getD_le sorted (by omega) (by omega)) _

/-- The packed width is that of the widest delta. -/
theorem widthOf_spec (sorted : values.Pairwise (· ≤ ·)) (words : ∀ v ∈ values, v < 2 ^ 64) :
    ∃ w, (widthOf values shift : Faulting ε Nat) = .ok w ∧
      ∀ i, i < values.length → values.getD i 0 - baseOf values shift i < 2 ^ w := by
  have spans := @spans_eq ε (chunks values shift) (fun chunk member =>
    spanOf_eq (sorted.sublist (mem_chunks member).1) (mem_chunks member).2) 0
  refine ⟨64 - leadingZeros (((chunks values shift).map span).foldl max 0), ?_, fun i inside => ?_⟩
  · rw [widthOf, spans]
    rfl
  · have small : ∀ s ∈ (chunks values shift).map span, s < 2 ^ 64 := by
      intro s member
      obtain ⟨chunk, cut, rfl⟩ := List.mem_map.mp member
      obtain ⟨within, some_⟩ := mem_chunks cut
      have last := words _ (within.subset (List.getElem_mem (show chunk.length - 1 < chunk.length by omega)))
      rw [span, List.getD_eq_getElem _ _ (by omega)]
      omega
    obtain ⟨chunk, cut, least⟩ := @delta_le values shift i sorted inside
    have most := (le_foldl_max ((chunks values shift).map span) 0).2 _ (List.mem_map_of_mem cut)
    exact (least.trans most).trans_lt
      (lt_of_width (foldl_max_lt _ (by positivity) small) (Nat.le_refl _))

end Bases

/-! ## Offsets -/

section Offsets

variable {values : List Nat} {shift width i : Nat} {o : Offsets}

/-- Bases and deltas as they are packed. -/
structure Based (values : List Nat) (o : Offsets) : Prop where
  sorted : values.Pairwise (· ≤ ·)
  words : ∀ v ∈ values, v < 2 ^ 64
  bases : o.bases = basesOf values o.shift
  deltas : Laid values.length o.width (fun i => values.getD i 0 - baseOf values o.shift i) o.deltas

/-- A base and its delta are the value. -/
theorem Based.sum (based : Based values o) (inside : i < values.length) :
    (baseOf values o.shift i + (values.getD i 0 - baseOf values o.shift i)) % 2 ^ 64 = values.getD i 0 := by
  have below : baseOf values o.shift i ≤ values.getD i 0 :=
    getD_le based.sorted (base_le o.shift i) inside
  have small := based.words _ (List.getElem_mem inside)
  rw [← List.getD_eq_getElem _ 0 inside] at small
  rw [Nat.add_sub_cancel' below, Nat.mod_eq_of_lt small]

theorem Based.entry (based : Based values o) (inside : i < values.length) :
    (o.at_ i : Faulting ε Nat) = .ok (values.getD i 0) := by
  have base := @base_read ε values o.shift i based.words inside
  have own := based.deltas.own inside
  rw [Offsets.at_, based.bases, base]
  change Except.bind (wordFrom o.deltas (i * o.width / 8)) _ = _
  rw [wordFrom_eq (based.deltas.room inside), maskOf_eq based.deltas.narrow, ← based.sum inside, ← own]
  rfl

theorem Based.pair (based : Based values o) (inside : i + 1 < values.length) :
    (o.pair i : Faulting ε (Nat × Nat)) = .ok (values.getD i 0, values.getD (i + 1) 0) := by
  have here : i < values.length := by omega
  rw [Offsets.pair]
  by_cases wide : 64 < 2 * o.width + 7
  · rw [if_pos wide, based.entry here, based.entry inside]
    rfl
  rw [if_neg wide]
  have first := @base_read ε values o.shift i based.words here
  have second := @base_read ε values o.shift (i + 1) based.words inside
  have own := based.deltas.own here
  have next := based.deltas.next inside wide
  dsimp only at own next ⊢
  rw [based.bases, first]
  change (if i >>> o.shift = (i + 1) >>> o.shift then _ else _) = _
  by_cases one : i >>> o.shift = (i + 1) >>> o.shift
  · have same : baseOf values o.shift (i + 1) = baseOf values o.shift i := by rw [baseOf, baseOf, one]
    rw [if_pos one]
    change Except.bind (wordFrom o.deltas (i * o.width / 8)) _ = _
    rw [wordFrom_eq (based.deltas.room here), maskOf_eq based.deltas.narrow, ← based.sum here,
      ← based.sum inside, ← own, ← next, same]
    rfl
  · rw [if_neg one, second]
    change Except.bind (wordFrom o.deltas (i * o.width / 8)) _ = _
    rw [wordFrom_eq (based.deltas.room here), maskOf_eq based.deltas.narrow, ← based.sum here,
      ← based.sum inside, ← own, ← next]
    rfl

theorem mem_zipIdx_getD {v : Nat} (member : (v, i) ∈ values.zipIdx) :
    i < values.length ∧ v = values.getD i 0 := by
  obtain ⟨-, inside, value⟩ := List.mem_zipIdx member
  rw [Nat.zero_add] at inside
  exact ⟨inside, by rw [value, List.getD_eq_getElem _ _ inside]; rfl⟩

theorem pack_eq (sorted : values.Pairwise (· ≤ ·)) (words : ∀ v ∈ values, v < 2 ^ 64)
    (narrow : width ≤ 56)
    (fits : ∀ i, i < values.length → values.getD i 0 - baseOf values shift i < 2 ^ width) :
    ∃ deltas, (pack values shift width : Faulting ε (List UInt8 × List UInt8)) =
      .ok (basesOf values shift, deltas) ∧ Based values ⟨basesOf values shift, deltas, width, shift⟩ := by
  obtain ⟨deltas, entered, run, length, fields, all⟩ := @packed_fields ε _ _ values narrow fits
    (fun deltas e => do
      let base ← valueAt values ((e.2 >>> shift) <<< shift)
      let delta ← sub e.1 base
      orWord deltas (e.2 * width) delta) fun v i member deltas => by
        obtain ⟨inside, rfl⟩ := mem_zipIdx_getD member
        have below : baseOf values shift i ≤ values.getD i 0 := getD_le sorted (base_le shift i) inside
        dsimp only
        rw [valueAt_eq ((base_le shift i).trans_lt inside)]
        change Except.bind (sub (values.getD i 0) (baseOf values shift i)) _ = _
        rw [sub_eq below]
        rfl
  refine ⟨deltas, ?_, sorted, words, rfl, narrow, fits, length, entered, fields, all⟩
  exact congrArg (fun r => Except.bind r fun deltas => .ok (basesOf values shift, deltas)) run

theorem packedPack_eq (narrow : width ≤ 56) (fits : ∀ v ∈ values, v < 2 ^ width) :
    ∃ deltas, (packedPack values width : Faulting ε (List UInt8)) = .ok deltas ∧
      Laid values.length width (fun i => values.getD i 0) deltas := by
  have each : ∀ i, i < values.length → values.getD i 0 < 2 ^ width := fun i inside => by
    rw [List.getD_eq_getElem _ _ inside]
    exact fits _ (List.getElem_mem inside)
  obtain ⟨deltas, entered, run, length, fields, all⟩ := @packed_fields ε _ _ values narrow each
    (fun deltas e => orWord deltas (e.2 * width) e.1) fun v i member deltas => by
      obtain ⟨-, rfl⟩ := mem_zipIdx_getD member
      rfl
  exact ⟨deltas, run, narrow, each, length, entered, fields, all⟩

/-- **Packed offsets are exact.**  At a width of at most fifty-six bits that is not under the packed
one, every entry and every two neighbours are read back, the last ones from the tail. -/
theorem offsets_exact (values : List Nat) (words : ∀ v ∈ values, v < 2 ^ 64) (width : Nat)
    (narrow : width ≤ MAX_WIDTH) :
    (∀ shift, values.Pairwise (· ≤ ·) → ∃ w, (widthOf values shift : Faulting ε Nat) = .ok w ∧
      (w ≤ width → ∃ bases deltas,
        (pack values shift width : Faulting ε (List UInt8 × List UInt8)) = .ok (bases, deltas) ∧
        bases.length = basesLen values.length shift ∧ deltas.length = deltasLen values.length width ∧
        (∀ i, i < values.length →
          ((⟨bases, deltas, width, shift⟩ : Offsets).at_ i : Faulting ε Nat) = .ok (values.getD i 0)) ∧
        ∀ i, i + 1 < values.length →
          ((⟨bases, deltas, width, shift⟩ : Offsets).pair i : Faulting ε (Nat × Nat)) =
            .ok (values.getD i 0, values.getD (i + 1) 0))) ∧
    (packedWidthOf values ≤ width → ∃ deltas,
      (packedPack values width : Faulting ε (List UInt8)) = .ok deltas ∧
      deltas.length = deltasLen values.length width ∧
      (∀ i, i < values.length →
        ((⟨deltas, width⟩ : Packed).at_ i : Faulting ε Nat) = .ok (values.getD i 0)) ∧
      ∀ i, i + 1 < values.length →
        ((⟨deltas, width⟩ : Packed).pair i : Faulting ε (Nat × Nat)) =
          .ok (values.getD i 0, values.getD (i + 1) 0)) := by
  constructor
  · intro shift sorted
    obtain ⟨w, told, small⟩ := @widthOf_spec ε values shift sorted words
    refine ⟨w, told, fun wide => ?_⟩
    obtain ⟨deltas, packed, based⟩ := pack_eq (ε := ε) sorted words narrow fun i inside =>
      (small i inside).trans_le (Nat.pow_le_pow_right (by decide) wide)
    exact ⟨_, deltas, packed, basesOf_length values shift, based.deltas.length,
      fun i inside => based.entry inside, fun i inside => based.pair inside⟩
  · intro wide
    have most : values.foldl max 0 < 2 ^ 64 := foldl_max_lt values (by positivity) words
    obtain ⟨deltas, packed, laid⟩ := @packedPack_eq ε values width narrow fun v member =>
      ((le_foldl_max values 0).2 v member).trans_lt (lt_of_width most wide)
    refine ⟨deltas, packed, laid.length, fun i inside => ?_, fun i inside => ?_⟩
    · have entry := Packed.entry_eq (ε := ε) (p := ⟨deltas, width⟩) laid inside
      exact entry
    · have pair := Packed.pair_eq (ε := ε) (p := ⟨deltas, width⟩) laid inside
      exact pair

/-- Three entries across two chunks, and three with no base. -/
theorem offsets_exact_three :
    (∃ bases deltas, (pack [3, 5, 9] 1 4 : Faulting Empty (List UInt8 × List UInt8)) = .ok (bases, deltas) ∧
      ((⟨bases, deltas, 4, 1⟩ : Offsets).pair 1 : Faulting Empty (Nat × Nat)) = .ok (5, 9)) ∧
    ∃ deltas, (packedPack [3, 5, 9] 4 : Faulting Empty (List UInt8)) = .ok deltas ∧
      ((⟨deltas, 4⟩ : Packed).pair 1 : Faulting Empty (Nat × Nat)) = .ok (5, 9) := by
  obtain ⟨based, packed⟩ := offsets_exact (ε := Empty) [3, 5, 9] (by decide) 4 (by decide)
  obtain ⟨w, told, exact_⟩ := based 1 (by decide)
  have two : (widthOf [3, 5, 9] 1 : Faulting Empty Nat) = .ok 2 := by decide
  rw [two] at told
  obtain ⟨bases, deltas, laid, -, -, -, pairs⟩ := exact_ (Except.ok.inj told ▸ by decide)
  obtain ⟨flat, laidFlat, -, -, pairsFlat⟩ := packed (by decide)
  exact ⟨⟨bases, deltas, laid, pairs 1 (by decide)⟩, flat, laidFlat, pairsFlat 1 (by decide)⟩

end Offsets

end Lexindex.Offsets
