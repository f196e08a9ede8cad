import Mathlib
import Lexindex.DoubleArray.Build
import Lexindex.DoubleArray.Walk

/-!
# Walks stay inside the array

A blob that loads bounds every row its slots name and every id, so no walk over any
text reads past the slots, and every id it answers is a key's.
-/

set_option autoImplicit false

namespace Lexindex.DoubleArray

open Mphf (IndexError)

section TopBit

theorem sshiftRight_top (x : BitVec 32) :
    x.sshiftRight 31 = if x.msb then BitVec.allOnes 32 else 0#32 := by
  refine BitVec.eq_of_getLsbD_eq fun i small => ?_
  rw [BitVec.getLsbD_sshiftRight]
  cases top : x.msb with
  | true =>
      rw [BitVec.msb_eq_getLsbD_last] at top
      by_cases first : i = 0
      · subst first
        simpa using top
      · rw [if_neg (show ¬ 31 + i < 32 by omega), if_pos rfl, BitVec.getLsbD_allOnes]
        simp [small]
  | false =>
      rw [BitVec.msb_eq_getLsbD_last] at top
      by_cases first : i = 0
      · subst first
        simpa using top
      · rw [if_neg (show ¬ 31 + i < 32 by omega)]
        simp

theorem top_bit (x : BitVec 32) : x >>> 31 ≠ 0#32 ↔ x.msb = true := by
  rw [BitVec.msb_eq_decide, decide_eq_true_iff, Ne, ← BitVec.toNat_inj, BitVec.toNat_ushiftRight,
    Nat.shiftRight_eq_div_pow]
  have bounded := x.isLt
  simp only [BitVec.toNat_ofNat]
  omega

/-- A field of less than 31 bits past its bound sets the top bit of the difference. -/
theorem field_le_of_clear {bound field : BitVec 32} (boundFits : bound.toNat < 2 ^ 31)
    (fieldFits : field.toNat < 2 ^ 31) (clear : (bound - field).msb = false) :
    field.toNat ≤ bound.toNat := by
  rw [BitVec.msb_eq_decide, decide_eq_false_iff_not, BitVec.toNat_sub] at clear
  omega

theorem folded_clear {top : Nat → BitVec 32} {slots : List Nat} {stray : BitVec 32}
    (clear : (slots.foldl (fun stray v => stray ||| top v) stray).msb = false) :
    stray.msb = false ∧ ∀ v ∈ slots, (top v).msb = false := by
  induction slots generalizing stray with
  | nil => exact ⟨clear, by simp⟩
  | cons v slots ih =>
      obtain ⟨both, rest⟩ := ih clear
      rw [BitVec.msb_or, Bool.or_eq_false_iff] at both
      exact ⟨both.1, List.forall_mem_cons.mpr ⟨both.2, rest⟩⟩

end TopBit

section Fields

theorem flag_clear {v k : Nat} : v &&& 1 <<< k = 0 ↔ v.testBit k = false := by
  rw [Nat.one_shiftLeft, Nat.and_two_pow]
  cases v.testBit k <;> simp

theorem low_half_flag {v k : Nat} (small : k < 32) :
    (BitVec.ofNat 32 v <<< (31 - k)).msb = v.testBit k := by
  rw [BitVec.msb_eq_getLsbD_last, BitVec.getLsbD_shiftLeft, BitVec.getLsbD_ofNat]
  have at_ : 32 - 1 - (31 - k) = k := by omega
  rw [at_]
  simp only [small, decide_true, Bool.true_and]
  have above : ¬ 32 - 1 < 31 - k := by omega
  simp [above]

theorem base_field {v : Nat} :
    (BitVec.ofNat 32 v >>> BASE_SHIFT ||| BitVec.ofNat 32 (v >>> 32) <<< (32 - BASE_SHIFT)) &&&
        BitVec.ofNat 32 BASE_MASK =
      BitVec.ofNat 32 (DoubleArrayIndex.baseOf v) := by
  refine BitVec.eq_of_getLsbD_eq fun i small => ?_
  rw [DoubleArrayIndex.baseOf]
  simp only [BitVec.getLsbD_and, BitVec.getLsbD_or, BitVec.getLsbD_ushiftRight,
    BitVec.getLsbD_shiftLeft, BitVec.getLsbD_ofNat, Nat.testBit_and, Nat.testBit_shiftRight, small,
    decide_true, Bool.true_and]
  cases mask : BASE_MASK.testBit i with
  | false => simp
  | true =>
      rw [Bool.and_true, Bool.and_true, BASE_SHIFT]
      by_cases low : 18 + i < 32
      · have past : i < 32 - 18 := by omega
        simp [low, past]
      · have inside : ¬ i < 32 - 18 := by omega
        have same : 32 + (i - (32 - 18)) = 18 + i := by omega
        have fits : i - 14 < 32 := by omega
        simp [low, inside, same, fits]

theorem id_field {v : Nat} (word : v < 2 ^ 64) :
    (BitVec.ofNat 32 (v >>> 32) >>> (ID_SHIFT - 32)).toNat = DoubleArrayIndex.idOf v := by
  have high : v >>> 32 < 2 ^ 32 := by
    rw [Nat.shiftRight_eq_div_pow]
    omega
  rw [BitVec.toNat_ushiftRight, BitVec.toNat_ofNat, Nat.mod_eq_of_lt high, DoubleArrayIndex.idOf,
    ← Nat.shiftRight_add]
  rfl

end Fields

/-- What the walk over the slots lets through. -/
structure SlotSound (n maxLabel nSlots v : Nat) : Prop where
  id : DoubleArrayIndex.endsKey v = true → DoubleArrayIndex.idOf v < n
  base : DoubleArrayIndex.baseOf v ≤ nSlots - (maxLabel + 1)
  leaf : DoubleArrayIndex.continues v = false → DoubleArrayIndex.endsKey v = true

theorem slotSound_of_clear {n maxLabel nSlots v : Nat} (word : v < 2 ^ 64) (keys : n ≤ 2 ^ 23)
    (rows : nSlots ≤ 2 ^ 23)
    (clear : (strayOf (BitVec.ofNat 32 (nSlots - (maxLabel + 1))) (BitVec.ofNat 32 n - 1#32)
      v).msb = false) :
    SlotSound n maxLabel nSlots v := by
  have wordFlag := @low_half_flag v 16 (by decide)
  have leafFlag := @low_half_flag v 17 (by decide)
  have idFits : DoubleArrayIndex.idOf v < 2 ^ 23 := by
    rw [DoubleArrayIndex.idOf, Nat.shiftRight_eq_div_pow, show ID_SHIFT = 41 from rfl]
    omega
  have baseFits : DoubleArrayIndex.baseOf v < 2 ^ 23 :=
    Nat.lt_of_le_of_lt Nat.and_le_right (by decide)
  rw [strayOf] at clear
  simp only [base_field, sshiftRight_top, BitVec.msb_or, Bool.or_eq_false_iff] at clear
  obtain ⟨⟨⟨leafStray, emptyStray⟩, idStray⟩, baseStray⟩ := clear
  rw [show (15 : Nat) = 31 - 16 from rfl, wordFlag] at idStray leafStray emptyStray
  rw [show (14 : Nat) = 31 - 17 from rfl, leafFlag] at baseStray leafStray
  have ends : DoubleArrayIndex.endsKey v = v.testBit 16 := by
    have flag := @flag_clear v 16
    rw [DoubleArrayIndex.endsKey, WORD]
    cases bit : v.testBit 16 <;> simp_all
  have goesOn : DoubleArrayIndex.continues v = !v.testBit 17 := by
    have flag := @flag_clear v 17
    rw [DoubleArrayIndex.continues, LEAF]
    cases bit : v.testBit 17 <;> simp_all
  refine ⟨fun held => ?_, ?_, fun held => ?_⟩
  · rw [ends] at held
    rw [held, if_pos rfl, BitVec.allOnes_and, BitVec.msb_eq_decide, decide_eq_false_iff_not,
      BitVec.toNat_sub, BitVec.toNat_sub, id_field word] at idStray
    simp only [BitVec.toNat_ofNat] at idStray
    omega
  · have exact : (BitVec.ofNat 32 (DoubleArrayIndex.baseOf v)).toNat = DoubleArrayIndex.baseOf v :=
      BitVec.toNat_ofNat .. |>.trans (Nat.mod_eq_of_lt (by omega))
    have last : (BitVec.ofNat 32 (nSlots - (maxLabel + 1))).toNat = nSlots - (maxLabel + 1) :=
      BitVec.toNat_ofNat .. |>.trans (Nat.mod_eq_of_lt (by omega))
    have within : ∀ a b : BitVec 32, (a &&& BitVec.ofNat 32 (nSlots - (maxLabel + 1)) &&& b).toNat ≤
        nSlots - (maxLabel + 1) := by
      intro a b
      rw [BitVec.toNat_and, BitVec.toNat_and, last]
      exact Nat.le_trans Nat.and_le_left Nat.and_le_right
    have bounded := field_le_of_clear
      (Nat.lt_of_le_of_lt (within _ _) (by omega)) (by omega) baseStray
    rw [exact] at bounded
    exact Nat.le_trans bounded (within _ _)
  · rw [goesOn, Bool.not_eq_false'] at held
    rw [ends]
    cases bit : v.testBit 16 with
    | true => rfl
    | false =>
        rw [bit, held] at leafStray
        exact absurd leafStray (by decide)

/-- What a load has checked: no label is past the largest, every slot is sound, and the root's
row fits. -/
structure Sound (idx : DoubleArrayIndex) (maxLabel : Nat) : Prop where
  table : ∀ x ∈ idx.table, x ≤ maxLabel
  supp : ∀ e ∈ idx.supp, e.2 ≤ maxLabel
  root : maxLabel = 0 ∨ maxLabel < idx.slots.length
  slots : ∀ v ∈ idx.slots, SlotSound idx.n maxLabel idx.slots.length v
  empty : ∀ id, idx.empty = some id → id < idx.n

theorem readSupp_labels {maxLabel : Nat} {entries : List Nat} {supp found : List (Nat × Nat)}
    (read : readSupp maxLabel entries supp = .ok found)
    (before : ∀ e ∈ supp, e.2 ≤ maxLabel) : ∀ e ∈ found, e.2 ≤ maxLabel := by
  induction entries generalizing supp with
  | nil =>
      rw [readSupp, Except.ok.injEq] at read
      exact read ▸ before
  | cons e rest ih =>
      simp only [readSupp, bind_eq_ok, refuse_eq_ok] at read
      obtain ⟨-, -, -, inRange, read⟩ := read
      refine ih read fun added member => ?_
      rcases List.mem_append.mp member with member | member
      · exact before added member
      · rw [List.mem_singleton] at member
        rw [member]
        have below : e >>> 32 ≤ maxLabel := by omega
        exact Nat.le_trans (Nat.mod_le _ _) below

theorem le_foldl_max {items : List Nat} {first x : Nat} (member : x = first ∨ x ∈ items) :
    x ≤ items.foldl max first := by
  induction items generalizing first x with
  | nil =>
      rcases member with rfl | member
      · exact Nat.le_refl _
      · exact absurd member List.not_mem_nil
  | cons item rest ih =>
      rw [List.foldl_cons]
      rcases member with rfl | member
      · exact Nat.le_trans (Nat.le_max_left ..) (ih (.inl rfl))
      · rcases List.mem_cons.mp member with rfl | member
        · exact Nat.le_trans (Nat.le_max_right ..) (ih (.inl rfl))
        · exact ih (.inr member)

theorem readEmpty_lt {empty n : Nat} {found : Option Nat} (read : readEmpty empty n = .ok found) :
    ∀ id, found = some id → id < n := by
  intro id held
  subst held
  unfold readEmpty at read
  split at read
  · cases read
  · split at read
    · rw [Except.ok.injEq, Option.some.injEq] at read
      omega
    · cases read

/-- A blob that loads is sound. -/
theorem fromShared_sound {bytes : List UInt8} {verifyPayload : Bool} {idx : DoubleArrayIndex}
    (loaded : fromShared bytes verifyPayload = .ok idx) : ∃ maxLabel, Sound idx maxLabel := by
  simp only [fromShared, bind_eq_ok, refuse_eq_ok, pure_eq_ok] at loaded
  obtain ⟨-, -, -, -, -, -, -, keys, empty, readsEmpty, -, rows, -, -, -, labels, -, -, -, -, -,
    widest, supp, readsSupp, -, malformed, rfl⟩ := loaded
  refine ⟨u32At bytes 36, ?_, readSupp_labels readsSupp (by simp), ?_, ?_,
    readEmpty_lt readsEmpty⟩
  · intro x member
    exact Nat.le_trans (le_foldl_max (.inr member)) (Nat.le_of_not_lt widest)
  · rw [leWords_length]
    omega
  · rw [leWords_length]
    intro v member
    rw [slotsMalformed, top_bit, Bool.not_eq_true] at malformed
    refine slotSound_of_clear (leWords_lt 8 _ _ v member) ?_ ?_ ((folded_clear malformed).2 v member)
    · exact Nat.le_of_not_lt keys
    · exact Nat.le_of_not_lt rows

section Walks

open DoubleArrayIndex

variable {idx : DoubleArrayIndex} {maxLabel : Nat}

/-- A row whose every labelled slot is inside the array. -/
def Row (idx : DoubleArrayIndex) (maxLabel base : Nat) : Prop :=
  maxLabel = 0 ∨ base + maxLabel < idx.slots.length

theorem Sound.root_row (sound : Sound idx maxLabel) : Row idx maxLabel 0 := by
  rw [Row, Nat.zero_add]
  exact sound.root

theorem Sound.label_le (sound : Sound idx maxLabel) (cp : Nat) : idx.label cp ≤ maxLabel := by
  unfold label
  split
  · rename_i x read
    exact sound.table x (List.mem_of_getElem? read)
  · unfold labelPastTable
    split
    · exact Nat.zero_le _
    · rename_i e found
      exact sound.supp e (List.mem_of_find?_eq_some found)

/-- A slot of a row is inside the array, and it names a row again and, where a key ends, an id. -/
theorem Sound.step (sound : Sound idx maxLabel) {base x : Nat} (row : Row idx maxLabel base)
    (nonzero : x ≠ 0) (bounded : x ≤ maxLabel) :
    ∃ taken, idx.step base x = some taken ∧ ∀ v, taken = some v →
      Row idx maxLabel (baseOf v) ∧ (endsKey v = true → idOf v < idx.n) := by
  have inside : base + x < idx.slots.length := by
    rcases row with none_labelled | row
    · omega
    · omega
  refine ⟨_, by rw [DoubleArrayIndex.step, List.getElem?_eq_getElem inside, Option.map_some], ?_⟩
  intro v taken
  have member : v ∈ idx.slots := by
    split at taken
    · rw [Option.some.injEq] at taken
      exact taken ▸ List.getElem_mem inside
    · cases taken
  have slot := sound.slots v member
  refine ⟨.inr ?_, slot.id⟩
  have root := sound.root
  have base_le := slot.base
  omega

theorem Sound.idWalk (sound : Sound idx maxLabel) (chars : List Char) (base : Nat)
    (some_left : chars ≠ []) (row : Row idx maxLabel base) :
    ∃ answer, idx.idWalk chars base = some answer ∧ ∀ id, answer = some id → id < idx.n := by
  induction chars generalizing base with
  | nil => exact absurd rfl some_left
  | cons c rest ih =>
      rw [DoubleArrayIndex.idWalk]
      by_cases absent : idx.label c.toNat = 0
      · exact ⟨none, if_pos absent, by simp⟩
      · obtain ⟨taken, read, slot⟩ := sound.step row absent (sound.label_le _)
        rw [if_neg absent, read, Option.bind_some]
        cases taken with
        | none => exact ⟨none, rfl, by simp⟩
        | some v =>
            obtain ⟨next, bounded⟩ := slot v rfl
            simp only
            by_cases last : rest = []
            · refine ⟨_, if_pos last, fun id found => ?_⟩
              by_cases ends : endsKey v = true
              · rw [if_pos ends, Option.some.injEq] at found
                exact found ▸ bounded ends
              · rw [if_neg ends] at found
                cases found
            · rw [if_neg last]
              by_cases goesOn : continues v = true
              · rw [if_pos goesOn]
                exact ih (baseOf v) last next
              · exact ⟨none, if_neg goesOn, by simp⟩

/-- A prefix the walk reports: a run of the characters read, its end in bytes, and a key's id. -/
def PrefixFound (idx : DoubleArrayIndex) (chars : List Char) (i : Nat) (e : Nat × Nat) : Prop :=
  e.2 < idx.n ∧ ∃ front, front <+: chars ∧ e.1 = i + (front.flatMap String.utf8EncodeChar).length

theorem Sound.prefixWalk (sound : Sound idx maxLabel) (chars : List Char) (i base : Nat)
    (row : Row idx maxLabel base) :
    ∃ found, idx.prefixWalk chars i base = some found ∧
      ∀ e ∈ found, PrefixFound idx chars i e := by
  induction chars generalizing i base with
  | nil => exact ⟨[], rfl, by simp⟩
  | cons c rest ih =>
      rw [DoubleArrayIndex.prefixWalk]
      by_cases absent : idx.label c.toNat = 0
      · exact ⟨[], if_pos absent, by simp⟩
      · obtain ⟨taken, read, slot⟩ := sound.step row absent (sound.label_le _)
        rw [if_neg absent, read, Option.bind_some]
        cases taken with
        | none => exact ⟨[], rfl, by simp⟩
        | some v =>
            obtain ⟨next, bounded⟩ := slot v rfl
            simp only
            have here : ∀ e ∈ if endsKey v = true then
                [(i + (String.utf8EncodeChar c).length, idOf v)] else [],
                PrefixFound idx (c :: rest) i e := by
              intro e member
              by_cases ends : endsKey v = true
              · rw [if_pos ends, List.mem_singleton] at member
                subst member
                refine ⟨bounded ends, [c], ?_, ?_⟩
                · exact List.cons_prefix_cons.mpr ⟨rfl, List.nil_prefix⟩
                · rw [List.flatMap_singleton]
              · rw [if_neg ends] at member
                exact absurd member List.not_mem_nil
            by_cases goesOn : continues v = true
            · obtain ⟨more, walked, held⟩ := ih _ (baseOf v) next
              rw [if_pos goesOn, walked, Option.map_some]
              refine ⟨_, rfl, fun e member => ?_⟩
              rcases List.mem_append.mp member with member | member
              · exact here e member
              · obtain ⟨small, front, taken, exact⟩ := held e member
                refine ⟨small, c :: front, List.cons_prefix_cons.mpr ⟨rfl, taken⟩, ?_⟩
                rw [exact, List.flatMap_cons, List.length_append, Nat.add_assoc]
            · exact ⟨_, if_neg goesOn, here⟩

/-- A match the walk from character `j` reports: it ends among the labels read, at a key's id. -/
def MatchFound (idx : DoubleArrayIndex) (labels : List Nat) (j : Nat) (e : Nat × Nat) : Prop :=
  e.2 < idx.n ∧ e.1 ≤ j + labels.length

theorem Sound.matchesFrom (sound : Sound idx maxLabel) (labels : List Nat) (j base : Nat)
    (bounded : ∀ x ∈ labels, x ≤ maxLabel) (row : Row idx maxLabel base) :
    ∃ found, idx.matchesFrom (labels ++ [0]) j base = some found ∧
      ∀ e ∈ found, MatchFound idx labels j e := by
  induction labels generalizing j base with
  | nil => exact ⟨[], by rw [List.nil_append, DoubleArrayIndex.matchesFrom, if_pos rfl], by simp⟩
  | cons x rest ih =>
      obtain ⟨x_le, rest_le⟩ := List.forall_mem_cons.mp bounded
      rw [List.cons_append, DoubleArrayIndex.matchesFrom]
      by_cases absent : x = 0
      · exact ⟨[], if_pos absent, by simp⟩
      · obtain ⟨taken, read, slot⟩ := sound.step row absent x_le
        rw [if_neg absent, read, Option.bind_some]
        cases taken with
        | none => exact ⟨[], rfl, by simp⟩
        | some v =>
            obtain ⟨next, id_lt⟩ := slot v rfl
            simp only
            have here : ∀ e ∈ if endsKey v = true then [(j + 1, idOf v)] else [],
                MatchFound idx (x :: rest) j e := by
              intro e member
              by_cases ends : endsKey v = true
              · rw [if_pos ends, List.mem_singleton] at member
                subst member
                refine ⟨id_lt ends, ?_⟩
                rw [List.length_cons]
                omega
              · rw [if_neg ends] at member
                exact absurd member List.not_mem_nil
            by_cases goesOn : continues v = true
            · obtain ⟨more, walked, held⟩ := ih (j + 1) (baseOf v) rest_le next
              rw [if_pos goesOn, walked, Option.map_some]
              refine ⟨_, rfl, fun e member => ?_⟩
              rcases List.mem_append.mp member with member | member
              · exact here e member
              · obtain ⟨small, last_le⟩ := held e member
                refine ⟨small, ?_⟩
                rw [List.length_cons]
                omega
            · exact ⟨_, if_neg goesOn, here⟩

theorem Sound.forEachCommonPrefix (sound : Sound idx maxLabel) (query : String) :
    ∃ found, idx.forEachCommonPrefix query = some found ∧
      ∀ e ∈ found, PrefixFound idx query.toList 0 e := by
  obtain ⟨found, walked, held⟩ := sound.prefixWalk query.toList 0 0 sound.root_row
  refine ⟨_, by rw [idx.forEachCommonPrefix_eq, walked, Option.map_some], fun e member => ?_⟩
  rcases List.mem_append.mp member with member | member
  · unfold emptyPrefix at member
    split at member
    · rename_i id empty
      rw [List.mem_singleton] at member
      subst member
      exact ⟨sound.empty id empty, [], List.nil_prefix, rfl⟩
    · exact absurd member List.not_mem_nil
  · exact held e member

theorem PrefixFound.sliced {query : String} {e : Nat × Nat}
    (found : PrefixFound idx query.toList 0 e) : ∃ key, sliced query e.1 = some key := by
  obtain ⟨-, front, taken, exact⟩ := found
  refine ⟨String.ofList front, ?_⟩
  rw [exact, Nat.zero_add]
  exact sliced_prefix taken

theorem Sound.commonPrefix (sound : Sound idx maxLabel) (query : String) :
    ∃ found, idx.commonPrefix query = some found ∧ ∀ e ∈ found, e.2 < idx.n := by
  obtain ⟨found, walked, held⟩ := sound.forEachCommonPrefix query
  rw [DoubleArrayIndex.commonPrefix, walked, Option.bind_some]
  refine mapM_spec fun e member => ?_
  obtain ⟨key, cut⟩ := (held e member).sliced
  exact ⟨(key, e.2), by rw [cut, Option.map_some], (held e member).1⟩

theorem Sound.longestPrefix (sound : Sound idx maxLabel) (query : String) :
    ∃ found, idx.longestPrefix query = some found ∧ ∀ e, found = some e → e.2 < idx.n := by
  obtain ⟨found, walked, held⟩ := sound.forEachCommonPrefix query
  rw [DoubleArrayIndex.longestPrefix, walked, Option.bind_some]
  split
  · exact ⟨none, rfl, by simp⟩
  · rename_i e last
    have member := List.mem_of_getLast? last
    obtain ⟨key, cut⟩ := (held e member).sliced
    refine ⟨some (key, e.2), by rw [cut, Option.map_some], fun answered same => ?_⟩
    rw [Option.some.injEq] at same
    exact same ▸ (held e member).1

theorem Sound.occurrencesAt (sound : Sound idx maxLabel) {text : String} {p : Nat}
    (inside : p < text.toList.length) :
    ∃ found, idx.occurrencesAt text p = some found ∧ ∀ e ∈ found, e.2.2.2.2 < idx.n := by
  have bounded : ∀ x ∈ (idx.textLabels text).drop p, x ≤ maxLabel := by
    intro x member
    obtain ⟨c, -, rfl⟩ := List.mem_map.mp (List.mem_of_mem_drop member)
    exact Nat.le_trans (Nat.mod_le _ _) (sound.label_le _)
  obtain ⟨found, walked, held⟩ := sound.matchesFrom _ p 0 bounded sound.root_row
  rw [DoubleArrayIndex.occurrencesAt, idx.drop_textLabels inside, walked, Option.bind_some]
  refine mapM_spec fun e member => ?_
  obtain ⟨small, last_le⟩ := held e member
  rw [textLabels, List.length_drop, List.length_map] at last_le
  have ends : (0 :: endsOf text.toList 0).length = text.toList.length + 1 := by
    rw [List.length_cons, endsOf_length]
  have start : p < (0 :: endsOf text.toList 0).length := by omega
  have last : e.1 < (0 :: endsOf text.toList 0).length := by omega
  rw [List.getElem?_eq_getElem start, List.getElem?_eq_getElem last, Option.bind_some,
    Option.map_some]
  exact ⟨_, rfl, small⟩

theorem Sound.forEachOccurrence (sound : Sound idx maxLabel) (text : String) :
    ∃ found, idx.forEachOccurrence text = some found ∧ ∀ e ∈ found, e.2.2 < idx.n := by
  have each : ∃ found, (List.range text.toList.length).mapM (idx.occurrencesAt text) = some found ∧
      ∀ at_ ∈ found, ∀ e ∈ at_, e.2.2.2.2 < idx.n :=
    mapM_spec fun p member => sound.occurrencesAt (List.mem_range.mp member)
  obtain ⟨found, walked, held⟩ := each
  refine ⟨_, by rw [DoubleArrayIndex.forEachOccurrence, occurrences_eq, walked, Option.map_some,
    Option.map_some], fun e member => ?_⟩
  obtain ⟨whole, reported, rfl⟩ := List.mem_map.mp member
  obtain ⟨at_, among, reported⟩ := List.mem_flatten.mp reported
  exact held at_ among whole reported

theorem Sound.id (sound : Sound idx maxLabel) (key : String) :
    ∃ answer, idx.id key = some answer ∧ ∀ id, answer = some id → id < idx.n := by
  rw [id_eq_idWalk]
  by_cases bare : key.toList = []
  · exact ⟨idx.empty, if_pos bare, sound.empty⟩
  · rw [if_neg bare]
    exact sound.idWalk key.toList 0 bare sound.root_row

end Walks

/-- No query of a blob that loads reads past its slots, and every id answered is a key's. -/
theorem queries_inside {bytes : List UInt8} {verifyPayload : Bool} {idx : DoubleArrayIndex}
    (loaded : fromShared bytes verifyPayload = .ok idx) (query : String) :
    (∃ answer, idx.id query = some answer ∧ ∀ id, answer = some id → id < idx.n) ∧
      (∃ found, idx.commonPrefix query = some found ∧ ∀ e ∈ found, e.2 < idx.n) ∧
      (∃ found, idx.longestPrefix query = some found ∧ ∀ e, found = some e → e.2 < idx.n) ∧
      ∃ found, idx.forEachOccurrence query = some found ∧ ∀ e ∈ found, e.2.2 < idx.n := by
  obtain ⟨maxLabel, sound⟩ := fromShared_sound loaded
  exact ⟨sound.id query, sound.commonPrefix query, sound.longestPrefix query,
    sound.forEachOccurrence query⟩

/-- The slots and the code table of a blob of one key, the character of code point 0. -/
def oneKeyBody : List UInt8 :=
  leBytes 8 0 ++ leBytes 8 (1 ||| WORD ||| LEAF) ++ leBytes 2 1

def oneKeyBlob : List UInt8 :=
  headerBytes 1 none 2 1 0 1 (Blob.hashBlock oneKeyBody) ++ oneKeyBody

def oneKeyIndex : DoubleArrayIndex :=
  { slots := [0, 1 ||| WORD ||| LEAF], table := [1], supp := [], n := 1, empty := none }

theorem queries_inside_one_key :
    fromShared oneKeyBlob true = .ok oneKeyIndex ∧
      ∃ answer, oneKeyIndex.id "a" = some answer ∧ ∀ id, answer = some id → id < 1 :=
  have loaded : fromShared oneKeyBlob true = .ok oneKeyIndex := by decide +kernel
  ⟨loaded, (queries_inside loaded "a").1⟩

end Lexindex.DoubleArray
