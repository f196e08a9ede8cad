import Mathlib
import Lexindex.Blob.Hasher
import Lexindex.DoubleArray.Answers

/-!
# A blob a build writes is accepted

Every check of a load holds of what a build writes, whether or not the payload is verified: each slot
is a child's, its fields inside their bounds, or empty.
-/

set_option autoImplicit false

namespace Lexindex.DoubleArray

open DoubleArrayIndex (endsKey continues baseOf idOf)
open Mphf (IndexError)

/-! ## Slots -/

/-- A slot whose fields are what a build writes. -/
structure SlotExact (n maxLabel nSlots v : Nat) : Prop where
  word : v < 2 ^ 64
  absent : endsKey v = false → idOf v = 0
  id : endsKey v = true → idOf v < n ∧ v &&& LABEL_MASK ≠ 0
  leaf : continues v = false → endsKey v = true ∧ baseOf v = 0
  blank : v &&& LABEL_MASK = 0 → baseOf v = 0
  base : baseOf v ≤ nSlots - (maxLabel + 1)

theorem slotExact_zero (n maxLabel nSlots : Nat) : SlotExact n maxLabel nSlots 0 := by
  have ends : endsKey 0 = false := by decide
  have goesOn : continues 0 = true := by decide
  have base : baseOf 0 = 0 := by decide
  refine ⟨by decide, fun _ => by decide, fun other => ?_, fun other => ?_, fun _ => base, ?_⟩
  · rw [ends] at other
    cases other
  · rw [goesOn] at other
    cases other
  · rw [base]
    exact Nat.zero_le _

theorem label_clear {v : Nat} :
    BitVec.ofNat 32 v &&& BitVec.ofNat 32 LABEL_MASK = 0#32 ↔ v &&& LABEL_MASK = 0 := by
  have mask : LABEL_MASK = 2 ^ 16 - 1 := rfl
  have low : (BitVec.ofNat 32 v &&& BitVec.ofNat 32 LABEL_MASK).toNat = v % 2 ^ 16 := by
    rw [BitVec.toNat_and, BitVec.toNat_ofNat, BitVec.toNat_ofNat, mask,
      Nat.mod_eq_of_lt (show 2 ^ 16 - 1 < 2 ^ 32 by decide), Nat.and_two_pow_sub_one_eq_mod,
      Nat.mod_mod_of_dvd _ (by decide)]
  rw [← BitVec.toNat_inj, low, mask, Nat.and_two_pow_sub_one_eq_mod]
  rfl

/-- A slot a build writes sets no stray bit. -/
theorem stray_clear {n maxLabel nSlots v : Nat} (slot : SlotExact n maxLabel nSlots v)
    (keys : n ≤ 2 ^ 23) (rows : nSlots ≤ 2 ^ 23) :
    (strayOf (BitVec.ofNat 32 (nSlots - (maxLabel + 1))) (BitVec.ofNat 32 n - 1#32) v).msb = false := by
  have wordFlag := @low_half_flag v 16 (by decide)
  have leafFlag := @low_half_flag v 17 (by decide)
  have ends : v.testBit 16 = endsKey v := by
    have flag := @flag_clear v 16
    rw [endsKey, WORD]
    cases bit : v.testBit 16 <;> simp_all
  have goesOn : v.testBit 17 = !continues v := by
    have flag := @flag_clear v 17
    rw [continues, LEAF]
    cases bit : v.testBit 17 <;> simp_all
  rw [strayOf]
  simp only [base_field, sshiftRight_top, BitVec.msb_or, Bool.or_eq_false_iff]
  rw [show (15 : Nat) = 31 - 16 from rfl, wordFlag, show (14 : Nat) = 31 - 17 from rfl, leafFlag, ends,
    goesOn]
  have idField := id_field slot.word
  have row : baseOf v < 2 ^ 23 := Nat.lt_of_le_of_lt Nat.and_le_right (by decide)
  have rowField : (BitVec.ofNat 32 (baseOf v)).toNat = baseOf v :=
    BitVec.toNat_ofNat .. |>.trans (Nat.mod_eq_of_lt (by omega))
  have last : (BitVec.ofNat 32 (nSlots - (maxLabel + 1))).toNat = nSlots - (maxLabel + 1) :=
    BitVec.toNat_ofNat .. |>.trans (Nat.mod_eq_of_lt (by omega))
  have under : ∀ bound field : BitVec 32, field.toNat ≤ bound.toNat → bound.toNat < 2 ^ 31 →
      (bound - field).msb = false := by
    intro bound field le small
    rw [BitVec.msb_eq_decide, decide_eq_false_iff_not, BitVec.toNat_sub]
    omega
  refine ⟨⟨⟨?_, ?_⟩, ?_⟩, ?_⟩
  · -- A leaf ends a key.
    cases further : continues v with
    | true => simp
    | false =>
        rw [(slot.leaf further).1]
        decide
  · -- A key ends at a label only.
    cases held : endsKey v with
    | false => simp
    | true =>
        have some_label : ¬ BitVec.ofNat 32 v &&& BitVec.ofNat 32 LABEL_MASK = 0#32 := fun blank =>
          (slot.id held).2 (label_clear.mp blank)
        rw [if_neg some_label]
        simp
  · cases held : endsKey v with
    | false =>
        have zero : BitVec.ofNat 32 (v >>> 32) >>> (ID_SHIFT - 32) = 0#32 := by
          rw [← BitVec.toNat_inj, idField, slot.absent held]
          rfl
        rw [zero, if_neg (by simp)]
        simp
    | true =>
        have small := (slot.id held).1
        have lastId : (BitVec.ofNat 32 n - 1#32).toNat = n - 1 := by
          rw [BitVec.toNat_sub, BitVec.toNat_ofNat, BitVec.toNat_ofNat]
          omega
        rw [if_pos rfl, BitVec.allOnes_and]
        refine under _ _ ?_ ?_
        · rw [idField, lastId]
          omega
        · rw [lastId]
          omega
  · by_cases none_ : continues v = false ∨ v &&& LABEL_MASK = 0
    · have zero : baseOf v = 0 := by
        rcases none_ with further | blank
        · exact (slot.leaf further).2
        · exact slot.blank blank
      refine under _ _ (by rw [rowField, zero]; exact Nat.zero_le _) ?_
      rw [BitVec.toNat_and, BitVec.toNat_and, last]
      have small : nSlots - (maxLabel + 1) < 2 ^ 31 := by omega
      exact Nat.lt_of_le_of_lt Nat.and_le_left (Nat.lt_of_le_of_lt Nat.and_le_right small)
    · rw [not_or, Bool.not_eq_false] at none_
      have some_label : ¬ BitVec.ofNat 32 v &&& BitVec.ofNat 32 LABEL_MASK = 0#32 := fun blank =>
        none_.2 (label_clear.mp blank)
      rw [none_.1, if_neg some_label]
      have mask : ~~~(if (!true) = true then BitVec.allOnes 32 else 0#32) &&&
          BitVec.ofNat 32 (nSlots - (maxLabel + 1)) &&& ~~~0#32 =
          BitVec.ofNat 32 (nSlots - (maxLabel + 1)) := by
        rw [Bool.not_true, if_neg Bool.false_ne_true, BitVec.not_zero, BitVec.allOnes_and,
          BitVec.and_allOnes]
      rw [mask]
      refine under _ _ ?_ ?_
      · rw [rowField, last]
        exact slot.base
      · rw [last]
        omega

theorem stray_none {n maxLabel nSlots : Nat} {slots : List Nat} (keys : n ≤ 2 ^ 23) (rows : nSlots ≤ 2 ^ 23)
    (each : ∀ v ∈ slots, SlotExact n maxLabel nSlots v) : ¬ slotsMalformed slots n maxLabel nSlots := by
  rw [slotsMalformed, top_bit, Bool.not_eq_true]
  have clear : (0#32).msb = false := by decide
  generalize 0#32 = stray at clear
  induction slots generalizing stray with
  | nil => exact clear
  | cons v slots ih =>
      obtain ⟨here, each⟩ := List.forall_mem_cons.mp each
      refine ih each _ ?_
      rw [BitVec.msb_or, clear, stray_clear here keys rows]
      rfl

/-- Where no key ends there is no id, and where nothing goes on no base. -/
theorem slot_blank {label key row : Nat} {word leaf : Bool} (labelFits : label < 2 ^ 16)
    (rowFits : row < 2 ^ 23) {v : Nat}
    (slot : v = (label ||| if word then WORD ||| key <<< ID_SHIFT else 0) |||
      if leaf then LEAF else row <<< BASE_SHIFT) :
    (word = false → idOf v = 0) ∧ (leaf = true → baseOf v = 0) := by
  have labelId : label < 2 ^ 41 := by omega
  have labelLow : label < 2 ^ 18 := by omega
  have leafId : LEAF >>> 41 = 0 := by decide
  have leafBase : LEAF >>> 18 = 0 := by decide
  have wordBase : WORD >>> 18 = 0 := by decide
  have rowId : (row <<< 18) >>> 41 = 0 := shiftRight_small (by rw [Nat.shiftLeft_eq]; omega)
  have keyBase : (key <<< 41) >>> 18 = key <<< 23 := by
    rw [show (41 : Nat) = 23 + 18 from rfl, Nat.shiftLeft_add, Nat.shiftLeft_shiftRight]
  have keyMask : key <<< 23 &&& BASE_MASK = 0 := shiftLeft_and_small (by decide)
  constructor
  · intro absent
    rw [idOf, slot, absent, if_neg Bool.false_ne_true, Nat.or_zero, Nat.shiftRight_or_distrib,
      show ID_SHIFT = 41 from rfl, shiftRight_small labelId, Nat.zero_or]
    cases leaf
    · exact rowId
    · exact leafId
  · intro atLeaf
    rw [baseOf, slot, atLeaf, if_pos rfl, Nat.shiftRight_or_distrib, Nat.shiftRight_or_distrib,
      show BASE_SHIFT = 18 from rfl, shiftRight_small labelLow, leafBase, Nat.zero_or, Nat.or_zero]
    cases word
    · rw [if_neg Bool.false_ne_true, Nat.zero_shiftRight, Nat.zero_and]
    · simp only [if_true, Nat.shiftRight_or_distrib, show ID_SHIFT = 41 from rfl, wordBase, keyBase,
        Nat.zero_or, keyMask]

/-- Every slot of a placed trie is one a build writes. -/
theorem slots_exact {order : List Nat} {K : List (List Char)} {low : Nat} {t : Trie}
    {paths : List (List Nat)} {base : List Nat} (laid : Laid order K low t paths base) :
    ∀ v ∈ slotsOf t base (slotCount order base),
      SlotExact K.length order.length (slotCount order base) v := by
  intro v member
  obtain ⟨i, inside, rfl⟩ := List.getElem_of_mem member
  have read := List.getElem?_eq_getElem inside
  rw [slotsOf_eq, writes_length, List.length_replicate] at inside
  obtain ⟨written, empty⟩ := slotsOf_spec laid.trie laid.placement inside
  by_cases some_child : ∃ w kid, w < t.label.length ∧ kid ∈ t.kids w ∧
      i = base.getD w 0 + t.labelOf kid
  · obtain ⟨w, kid, isNode, isKid, at_⟩ := some_child
    rw [Option.some.inj (read.symm.trans (written w kid isNode isKid at_))]
    obtain ⟨p, c, k, isKey, front, label, path⟩ := laid.kidChar isNode isKid
    obtain ⟨key, row, shape⟩ := laid.slotShape path isKey front label
    obtain ⟨labels, ends, goesOn, idIs, rowIs, word⟩ :=
      slot_fields shape.label shape.keyFits shape.rowFits shape.slot
    obtain ⟨absent, bare⟩ := slot_blank shape.label shape.rowFits shape.slot
    have known : c.toNat ∈ order := laid.known isKey front c (by simp)
    have some_label := labelIn_ne_zero.mpr known
    refine ⟨word, fun held => absent (ends ▸ held), fun held => ⟨?_, by rw [labels]; exact some_label⟩,
      fun held => ?_, fun blank => absurd (labels ▸ blank) some_label, ?_⟩
    · have whole : p ++ [c] ∈ K := of_decide_eq_true (ends ▸ held)
      rw [idIs (decide_eq_true whole), shape.keyIs whole]
      exact List.idxOf_lt_length_iff.mpr whole
    · rw [goesOn, Bool.not_eq_false', decide_eq_true_iff] at held
      refine ⟨?_, bare (decide_eq_true held)⟩
      rw [ends, decide_eq_true_iff]
      -- The key a leaf's path starts does not go on.
      by_contra partial_
      exact (laid.kids_iff path isKey front).mpr ⟨k, isKey, front, fun same => partial_ (same ▸ isKey)⟩ held
    · by_cases leaf : t.kids kid = []
      · rw [bare (decide_eq_true leaf)]
        exact Nat.zero_le _
      · rw [rowIs (decide_eq_false leaf), shape.rowIs leaf, slotCount,
          if_neg fun none_ => List.ne_nil_of_mem known (List.eq_nil_of_length_eq_zero none_)]
        have most : base.getD kid 0 ≤ base.foldl max 0 := Laid.base_le kid
        omega
  · rw [Option.some.inj (read.symm.trans (empty fun w kid isNode isKid at_ =>
      some_child ⟨w, kid, isNode, isKid, at_⟩))]
    exact slotExact_zero ..

/-! ## The blob -/

/-- What a build writes. -/
def blobBytes (n : Nat) (empty : Option Nat) (slots table : List Nat) (supp : List (Nat × Nat))
    (maxLabel : Nat) : List UInt8 :=
  headerBytes n empty slots.length table.length supp.length maxLabel
    (Blob.hashBlock (bodyBytes slots table supp)) ++ bodyBytes slots table supp

section Header

variable {n nSlots table supp maxLabel payload : Nat} {empty : Option Nat} {body : List UInt8}

/-- The header's checks hold of a header written. -/
theorem header_checks (payloadFits : payload < 256 ^ 8) {bytes : List UInt8}
    (whole : bytes = headerBytes n empty nSlots table supp maxLabel payload ++ body) :
    bytes.take 4 = MAGIC ∧ u32At bytes CHECKED = Blob.hashBytes (bytes.take CHECKED) % 2 ^ 32 ∧
      ((bytes.take CHECKED).drop RESERVED).any (· ≠ 0) = false ∧ u64At bytes 40 = payload := by
  have eight (value : Nat) : (leBytes 8 value).length = 8 := leBytes_length ..
  have four (value : Nat) : (leBytes 4 value).length = 4 := leBytes_length ..
  have magic : MAGIC.length = 4 := rfl
  rw [headerBytes] at whole
  refine ⟨?_, ?_, ?_, ?_⟩
  · simp only [List.append_assoc] at whole
    rw [whole, ← magic, List.take_left]
  · generalize checked : MAGIC ++ leBytes 8 n ++ leBytes 8 (empty.getD (2 ^ 64 - 1)) ++
      leBytes 8 nSlots ++ leBytes 4 table ++ leBytes 4 supp ++ leBytes 4 maxLabel ++
      leBytes 8 payload ++ List.replicate (CHECKED - RESERVED) 0 = front at whole
    have size : front.length = CHECKED := by
      rw [← checked]
      simp [MAGIC, CHECKED, RESERVED]
    rw [List.append_assoc] at whole
    have sum : Blob.hashBytes front % 2 ^ 32 < 256 ^ 4 := Nat.mod_lt _ (by decide)
    rw [whole, ← size, List.take_left, ← Nat.add_zero front.length, u32At_past _ 0 rfl, u32At_here sum]
  · have front : bytes.take CHECKED = (MAGIC ++ leBytes 8 n ++ leBytes 8 (empty.getD (2 ^ 64 - 1)) ++
        leBytes 8 nSlots ++ leBytes 4 table ++ leBytes 4 supp ++ leBytes 4 maxLabel ++
        leBytes 8 payload) ++ List.replicate (CHECKED - RESERVED) 0 := by
      rw [whole, List.append_assoc, List.take_left']
      simp [MAGIC, CHECKED, RESERVED]
    rw [front, List.drop_left' (by simp [MAGIC, RESERVED])]
    rfl
  · simp only [List.append_assoc] at whole
    rw [whole]
    exact (u64At_past 4 36 magic).trans ((u64At_past 8 28 (eight _)).trans
      ((u64At_past 8 20 (eight _)).trans ((u64At_past 8 12 (eight _)).trans
      ((u64At_past 4 8 (four _)).trans ((u64At_past 4 4 (four _)).trans
      ((u64At_past 4 0 (four _)).trans (u64At_here payloadFits)))))))

end Header

/-- The characters past the table load where they ascend. -/
theorem readSupp_exact {maxLabel : Nat} {supp acc : List (Nat × Nat)}
    (each : ∀ e ∈ supp, (BMP ≤ e.1 ∧ e.1 < 0x110000) ∧ (e.2 ≠ 0 ∧ e.2 ≤ maxLabel) ∧ e.1 < 2 ^ 32 ∧
      e.2 < 2 ^ 16)
    (ascending : (acc ++ supp).Pairwise fun a b => a.1 < b.1) :
    readSupp maxLabel (supp.map fun e => e.1 + 2 ^ 32 * e.2) acc = .ok (acc ++ supp) := by
  induction supp generalizing acc with
  | nil => rw [List.map_nil, readSupp, List.append_nil]
  | cons e supp ih =>
      obtain ⟨⟨inside, label, small, narrow⟩, each⟩ := List.forall_mem_cons.mp each
      have low : (e.1 + 2 ^ 32 * e.2) % 2 ^ 32 = e.1 := by omega
      have high : (e.1 + 2 ^ 32 * e.2) >>> 32 = e.2 := by
        rw [Nat.shiftRight_eq_div_pow]
        omega
      have high16 : e.2 % 2 ^ 16 = e.2 := Nat.mod_eq_of_lt narrow
      have past : (acc.getLast?.all fun prev => prev.1 < e.1) = true := by
        cases last : acc.getLast? with
        | none => rfl
        | some prev =>
            have member := List.mem_of_getLast? last
            exact decide_eq_true ((List.pairwise_append.mp ascending).2.2 prev member e List.mem_cons_self)
      rw [List.append_cons] at ascending ⊢
      simp only [List.map_cons, readSupp, bind_eq_ok, refuse_eq_ok, low, high, high16]
      refine ⟨(), ?_, (), ?_, ih each ascending⟩
      · rintro (outside | below)
        · exact outside inside
        · rw [past] at below
          cases below
      · rintro (bare | above)
        · exact label.1 bare
        · omega

/-- A blob whose parts are what a build writes is accepted, and loads as what was written. -/
theorem fromShared_written {n maxLabel : Nat} {empty : Option Nat} {slots table : List Nat}
    {supp : List (Nat × Nat)} (nFits : n ≤ MAX_KEYS) (emptyFits : ∀ id, empty = some id → id < n)
    (slotsFit : slots.length ≤ MAX_SLOTS) (tableFits : table.length ≤ BMP)
    (suppFits : supp.length ≤ maxLabel) (narrow : maxLabel ≤ MAX_ALPHABET)
    (shape : if maxLabel = 0 then slots.length = 0 else maxLabel < slots.length)
    (slotsExact : ∀ v ∈ slots, SlotExact n maxLabel slots.length v)
    (tableWords : ∀ x ∈ table, x ≤ maxLabel ∧ x < 2 ^ 16)
    (suppWords : ∀ e ∈ supp, (BMP ≤ e.1 ∧ e.1 < 0x110000) ∧ (e.2 ≠ 0 ∧ e.2 ≤ maxLabel) ∧
      e.1 < 2 ^ 32 ∧ e.2 < 2 ^ 16)
    (ascending : supp.Pairwise fun a b => a.1 < b.1) (verifyPayload : Bool) :
    fromShared (blobBytes n empty slots table supp maxLabel) verifyPayload =
      .ok { slots, table, supp, n, empty } := by
  have nSmall : n ≤ 2 ^ 23 := nFits
  have slotsSmall : slots.length ≤ 2 ^ 23 := slotsFit
  have alphabet : maxLabel ≤ 65535 := narrow
  have tableSmall : table.length ≤ 65536 := tableFits
  have bmp : BMP = 65536 := rfl
  have emptyWord : empty.getD (2 ^ 64 - 1) < 256 ^ 8 := by
    cases empty with
    | none => decide
    | some id =>
        have small := emptyFits id rfl
        rw [Option.getD_some]
        omega
  have sections := body_sections slots table supp (fun v member => (slotsExact v member).word)
    (fun x member => (tableWords x member).2) fun e member => (suppWords e member).2.2
  obtain ⟨bytes, whole⟩ : ∃ bytes, bytes = blobBytes n empty slots table supp maxLabel := ⟨_, rfl⟩
  rw [← whole]
  rw [blobBytes] at whole
  have payload : Blob.hashBlock (bodyBytes slots table supp) < 256 ^ 8 := Blob.finalize_lt _
  obtain ⟨magic, check, reserved, payloadAt⟩ := header_checks payload whole
  obtain ⟨nAt, emptyAt, slotsAt, tableAt, suppAt, labelAt⟩ := header_fields
    (show n < 256 ^ 8 by omega) emptyWord (show slots.length < 256 ^ 8 by omega)
    (show table.length < 256 ^ 4 by omega) (show supp.length < 256 ^ 4 by omega)
    (show maxLabel < 256 ^ 4 by omega) whole
  have header : (headerBytes n empty slots.length table.length supp.length maxLabel
      (Blob.hashBlock (bodyBytes slots table supp))).length = HEADER := headerBytes_length
  have bodyAt : ∀ k, bytes.drop (HEADER + k) = (bodyBytes slots table supp).drop k := by
    intro k
    rw [whole, ← List.drop_drop, ← header, List.drop_left]
  have body := bodyAt 0
  rw [Nat.add_zero, List.drop_zero] at body
  have size : bytes.length = HEADER + 8 * slots.length + 2 * table.length + SUPP_ENTRY * supp.length := by
    have pairs : (supp.flatMap fun e => leBytes 4 e.1 ++ leBytes 4 e.2).length = 8 * supp.length := by
      rw [List.length_flatMap]
      simp [Nat.mul_comm]
    rw [whole, List.length_append, header, bodyBytes, List.length_append, List.length_append,
      flatMap_leBytes_length, flatMap_leBytes_length, pairs, SUPP_ENTRY]
    omega
  simp only [fromShared, bind_eq_ok, refuse_eq_ok, pure_eq_ok, nAt, emptyAt, slotsAt, tableAt, suppAt,
    labelAt, payloadAt]
  refine ⟨(), ?_, (), fun other => other check, (), by rw [reserved]; exact Bool.false_ne_true, (),
    Nat.not_lt.mpr nFits, empty, ?_, (), Nat.not_lt.mpr slotsFit, (), by omega, (), ?_, (),
    fun other => other size, (), ?_, (), ?_, supp, ?_, (), ?_, ?_⟩
  · rintro (short | other)
    · rw [size, HEADER] at short
      omega
    · exact other magic
  · unfold readEmpty
    cases empty with
    | none => rfl
    | some id =>
        have small := emptyFits id rfl
        rw [Option.getD_some, if_neg (by omega), if_pos small]
  · rw [MAX_ALPHABET, LABEL_MASK]
    by_cases none_ : maxLabel = 0
    · rw [if_pos none_] at shape
      omega
    · rw [if_neg none_] at shape
      omega
  · rintro ⟨-, other⟩
    rw [body] at other
    exact other rfl
  · rw [bodyAt, sections.2.1, Nat.not_lt]
    have each : ∀ (items : List Nat) (first : Nat), first ≤ maxLabel → (∀ x ∈ items, x ≤ maxLabel) →
        items.foldl max first ≤ maxLabel := by
      intro items
      induction items with
      | nil => exact fun first le _ => le
      | cons x items ih =>
          intro first le bounded
          obtain ⟨here, bounded⟩ := List.forall_mem_cons.mp bounded
          exact ih _ (Nat.max_le.mpr ⟨le, here⟩) bounded
    exact each table 0 (Nat.zero_le _) fun x member => (tableWords x member).1
  · rw [Nat.add_assoc, bodyAt, sections.2.2]
    exact readSupp_exact suppWords ascending
  · rw [body, sections.1]
    exact stray_none nSmall slotsSmall slotsExact
  · rw [body, bodyAt, sections.1, sections.2.1]

end Lexindex.DoubleArray
