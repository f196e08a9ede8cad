import Mathlib
import Lexindex.Arena.Safe
import Lexindex.Arena.Write

/-!
# The written table reads back

What a prefix and a tail say of a slot is where its string starts and ends: the sums of the
lengths before it, and with its own.
-/

set_option autoImplicit false

namespace Lexindex.Arena

open Faulting

/-! ## Running sums -/

section Sums

theorem offsetsFrom_length (count : Nat) : ∀ (off : Nat) (chunk : List Nat),
    (offsetsFrom off count chunk).length = count := by
  induction count with
  | zero => exact fun _ _ => rfl
  | succ count ih => exact fun off chunk => by rw [offsetsFrom, List.length_cons, ih]

theorem offsetsFrom_getElem? (count : Nat) : ∀ (off : Nat) (chunk : List Nat) {k : Nat}, k < count →
    (offsetsFrom off count chunk)[k]? = some (off + (chunk.take k).sum) := by
  induction count with
  | zero => exact fun _ _ _ short => absurd short (Nat.not_lt_zero _)
  | succ count ih =>
      intro off chunk k short
      rw [offsetsFrom]
      cases k with
      | zero => rw [List.getElem?_cons_zero, List.take_zero, List.sum_nil, Nat.add_zero]
      | succ k =>
          rw [List.getElem?_cons_succ, ih _ _ (by omega)]
          cases chunk with
          | nil => simp
          | cons len chunk =>
              rw [List.headD_cons, List.tail_cons, List.take_succ_cons, List.sum_cons, Nat.add_assoc]

theorem sum_take_le (lens : List Nat) (k : Nat) : (lens.take k).sum ≤ lens.sum := by
  conv => rhs; rw [← List.take_append_drop k lens]
  rw [List.sum_append]
  omega

/-- The lengths before a block. -/
def baseAt (slots : Nat) (lens : List Nat) (j : Nat) : Nat :=
  (lens.take (j * slots)).sum

theorem baseAt_add {slots : Nat} (lens : List Nat) {j k : Nat} (short : k ≤ slots) :
    baseAt slots lens j + ((chunkAt slots lens j).take k).sum =
      (lens.take (j * slots + k)).sum := by
  rw [baseAt, chunkAt, List.take_take, Nat.min_eq_left short, List.take_add, List.sum_append]

theorem baseAt_succ (slots : Nat) (lens : List Nat) (j : Nat) :
    baseAt slots lens (j + 1) = baseAt slots lens j + (chunkAt slots lens j).sum := by
  have whole := @baseAt_add slots lens j slots le_rfl
  rw [List.take_of_length_le (by rw [chunkAt]; exact List.length_take_le _ _)] at whole
  rw [whole, baseAt, Nat.succ_mul]

end Sums

/-! ## The blocks that are written -/

section Blocks

variable (slots width most : Nat) (g : Geometry) (lens : List Nat) (fps : Option (List UInt8))

/-- Whether a block's offsets live in the overflow table. -/
def overflows (j : Nat) : Bool :=
  decide (most < (chunkAt slots lens j).sum)

/-- The number of a block's overflow entry. -/
def indexAt (j : Nat) : Nat :=
  (List.range j).countP (overflows slots most lens)

def entryAt (base j : Nat) : List UInt8 :=
  (offsetsFrom 0 (slots + 1) (chunkAt slots lens j)).flatMap (leBytes base)

def overflowAt (base j : Nat) : List UInt8 :=
  ((List.range j).filter (overflows slots most lens)).flatMap (entryAt slots lens base)

def blockAt (j : Nat) : List UInt8 :=
  leBytes g.base (baseAt slots lens j) ++
    blockRow slots width most g.base (indexAt slots most lens j) (chunkAt slots lens j) ++
      blockPrints slots fps j

theorem entryAt_length (base j : Nat) :
    (entryAt slots lens base j).length = (slots + 1) * base := by
  rw [entryAt, flatMap_uniform_length fun _ _ => leBytes_length _ _, offsetsFrom_length]

theorem overflowAt_length (base j : Nat) : (overflowAt slots most lens base j).length =
    indexAt slots most lens j * ((slots + 1) * base) := by
  rw [overflowAt, flatMap_uniform_length fun j _ => entryAt_length slots lens base j, indexAt,
    List.countP_eq_length_filter]

variable {slots width most g lens fps}

theorem blockRow_length {base index : Nat} {chunk : List Nat} (room : base ≤ slots * width) :
    (blockRow slots width most base index chunk).length = (slots + 1) * width := by
  have all : (slots + 1) * width = slots * width + width := Nat.succ_mul ..
  rw [blockRow]
  split
  · rw [List.length_append, List.length_append, List.length_replicate, leBytes_length,
      List.length_replicate]
    omega
  · rw [flatMap_uniform_length fun _ _ => leBytes_length _ _, offsetsFrom_length]

theorem blockPrints_length {fp : Nat} (prints : fp = if fps.isSome then 1 else 0) (j : Nat) :
    (blockPrints slots fps j).length = slots * fp := by
  cases fps with
  | none => simp [blockPrints, prints]
  | some fps => simp [blockPrints, prints]

theorem blockAt_length (room : g.base ≤ slots * width) (prints : g.fp = if fps.isSome then 1 else 0)
    (j : Nat) : (blockAt slots width most g lens fps j).length = blockBytes slots width g.base g.fp := by
  rw [blockAt, List.length_append, List.length_append, leBytes_length, blockRow_length room,
    blockPrints_length prints, blockBytes]

/-- The blocks written so far stand behind the head, over what was there. -/
theorem writeBlocks_fold {blob : List UInt8} (some_base : 0 < g.base) (room : g.base ≤ slots * width)
    (prints : g.fp = if fps.isSome then 1 else 0) (j : Nat)
    (fits : HEADER + j * blockBytes slots width g.base g.fp ≤ blob.length) :
    (List.range j).foldl (writeBlock slots width most g lens fps) ⟨blob, [], 0⟩ =
      { blob := blob.take HEADER ++ (List.range j).flatMap (blockAt slots width most g lens fps) ++
          blob.drop (HEADER + j * blockBytes slots width g.base g.fp)
        overflow := overflowAt slots most lens g.base j
        base := baseAt slots lens j } := by
  induction j with
  | zero => simp [overflowAt, baseAt]
  | succ j ih =>
      have size := fun j => @blockAt_length slots width most g lens fps room prints j
      have next : (j + 1) * blockBytes slots width g.base g.fp =
          j * blockBytes slots width g.base g.fp + blockBytes slots width g.base g.fp :=
        Nat.succ_mul ..
      rw [List.range_succ, List.foldl_append, ih (by omega), List.foldl_cons, List.foldl_nil,
        writeBlock]
      have index : (overflowAt slots most lens g.base j).length / ((slots + 1) * g.base) =
          indexAt slots most lens j := by
        rw [overflowAt_length]
        exact Nat.mul_div_cancel _ (Nat.mul_pos (Nat.succ_pos _) some_base)
      simp only [index]
      have blocks : (List.take HEADER blob ++
          (List.range j).flatMap (blockAt slots width most g lens fps)).length =
            HEADER + j * blockBytes slots width g.base g.fp := by
        rw [List.length_append, List.length_take, flatMap_uniform_length fun j _ => size j,
          List.length_range]
        omega
      have cut : blob.drop (HEADER + j * blockBytes slots width g.base g.fp) =
          (blob.drop (HEADER + j * blockBytes slots width g.base g.fp)).take
              (blockBytes slots width g.base g.fp) ++
            blob.drop (HEADER + (j + 1) * blockBytes slots width g.base g.fp) := by
        conv => lhs; rw [← List.take_append_drop (blockBytes slots width g.base g.fp)
          (blob.drop (HEADER + j * blockBytes slots width g.base g.fp))]
        rw [List.drop_drop, next, Nat.add_assoc]
      congr 1
      · rw [cut, ← List.append_assoc]
        change overwrite _ _ (blockAt slots width most g lens fps j) = _
        rw [overwrite_part blocks]
        · rw [List.flatMap_append, List.flatMap_singleton]
          simp only [List.append_assoc]
        · rw [size, List.length_take, List.length_drop]
          omega
      · rw [overflowAt, overflowAt, List.range_succ, List.filter_append, List.flatMap_append]
        by_cases over_ : most < (chunkAt slots lens j).sum
        · rw [if_pos over_, List.filter_cons_of_pos (by rw [overflows]; exact decide_eq_true over_)]
          simp [entryAt]
        · rw [if_neg over_, List.filter_cons_of_neg (by simp [overflows, over_])]
          simp
      · exact (baseAt_succ slots lens j).symm

end Blocks

/-! ## A block reads back -/

section ReadBack

variable {slots width fp base : Nat}

theorem bytesBetween_inner {bytes : List UInt8} {lo hi start stop : Nat} (le : lo + stop ≤ hi) :
    bytesBetween (bytesBetween bytes lo hi) start stop =
      bytesBetween bytes (lo + start) (lo + stop) := by
  rw [bytesBetween, bytesBetween, bytesBetween, List.drop_take, List.take_take, List.drop_drop]
  congr 1
  omega

theorem readWord_of {bytes : List UInt8} {value : Nat} (bases : base = 4 ∨ base = 8)
    (room : base ≤ bytes.length) (here : bytesBetween bytes 0 base = leBytes base value)
    (fits : value < 256 ^ base) : readWord base bytes = .ok value := by
  have front : ((slice bytes 0 base : Faulting Unit _) >>= fun part => word base part) =
      .ok value := by
    rw [slice_eq (Nat.zero_le _) room, here]
    change word base (leBytes base value) = _
    rw [word_eq (leBytes_length _ _), leNat_leBytes _ _ fits]
  rcases bases with rfl | rfl <;> exact front

theorem word_leBytes {ε : Type} {value : Nat} (fits : value < 256 ^ width) :
    (word width (leBytes width value) : Faulting ε Nat) = .ok value := by
  rw [word_eq (leBytes_length _ _), leNat_leBytes _ _ fits]

theorem leBytes_zero_all (width : Nat) : (leBytes width 0).all (· = 0) = true := by
  induction width with
  | zero => rfl
  | succ width ih =>
      rw [leBytes, Nat.zero_mod, Nat.zero_div, List.all_cons, ih]
      rfl

theorem spanFrom_eq {first lo hi : Nat} (le : lo ≤ hi) (fits : first + hi < 2 ^ 64) :
    spanFrom first lo hi = .ok (first + lo, first + hi) := by
  rw [spanFrom, refuseIf_eq (Nat.not_lt.mpr le), checkedAdd_eq_some.mpr ⟨by omega, rfl⟩,
    checkedAdd_eq_some.mpr ⟨fits, rfl⟩]
  rfl

theorem stamped_none {fingerprint : Faulting Unit UInt8} {span : Faulting Unit (Nat × Nat)}
    {answer : Nat × Nat} (stored : fp = 1 → ∃ byte, fingerprint = .ok byte)
    (spanned : span = .ok answer) :
    ∃ byte, stamped fp fingerprint none span = .ok (answer, byte) := by
  have first : ∃ byte, (if fp = 1 then fingerprint else .ok 0) = .ok byte := by
    split
    · next has => exact stored has
    · exact ⟨0, rfl⟩
  obtain ⟨byte, first⟩ := first
  refine ⟨byte, ?_⟩
  rw [stamped, first, spanned]
  change refuseIf (fp = 1 ∧ Option.any _ none = true) () >>= _ = _
  rw [refuseIf_eq (by simp)]
  rfl

/-- The offset `k` of a row that has the running sums of a chunk. -/
theorem offset_piece {chunk : List Nat} {front back : List UInt8} {k start : Nat}
    (short : k < slots + 1) (from_ : start = front.length + k * width) :
    bytesBetween (front ++ (offsetsFrom 0 (slots + 1) chunk).flatMap (leBytes width) ++ back) start
      (start + width) = leBytes width ((chunk.take k).sum) := by
  have here := offsetsFrom_getElem? (slots + 1) 0 chunk short
  rw [Nat.zero_add] at here
  exact bytesBetween_piece (fun _ _ => leBytes_length _ _) here from_ rfl

variable {most first index k : Nat} {chunk : List Nat} {prints : List UInt8} {i : Nat}
  {overflow : Faulting Unit (List UInt8)}

/-- The bytes of a block, as they were written. -/
def blockOf (slots width most base first index : Nat) (chunk : List Nat) (prints : List UInt8) :
    List UInt8 :=
  leBytes base first ++ blockRow slots width most base index chunk ++ prints

theorem inBlock_written (bases : base = 4 ∨ base = 8) (some_slots : 0 < slots)
    (room : 8 ≤ slots * width) (some_width : 0 < width) (most_eq : most < 256 ^ width)
    (printed : prints.length = slots * fp) (firstFits : first < 256 ^ base)
    (indexFits : index < 256 ^ base) (sum : first + chunk.sum < 2 ^ 64)
    (chunkFits : chunk.sum < 256 ^ base)
    (table : most < chunk.sum → ∃ entries, overflow = .ok entries ∧
      bytesBetween entries (index * ((slots + 1) * base)) ((index + 1) * ((slots + 1) * base)) =
        (offsetsFrom 0 (slots + 1) chunk).flatMap (leBytes base) ∧
      (index + 1) * ((slots + 1) * base) ≤ entries.length ∧ entries.length < 2 ^ 64) :
    ∃ byte, inBlock slots width fp base (blockOf slots width most base first index chunk prints)
        overflow i none =
      .ok ((first + (chunk.take (i % slots)).sum, first + (chunk.take (i % slots + 1)).sum), byte) := by
  have k_lt := Nat.mod_lt i some_slots
  have all : (slots + 1) * width = slots * width + width := Nat.succ_mul ..
  have rowLength : (blockRow slots width most base index chunk).length = (slots + 1) * width :=
    blockRow_length (by omega)
  have length : (blockOf slots width most base first index chunk prints).length =
      base + (slots + 1) * width + slots * fp := by
    rw [blockOf, List.length_append, List.length_append, leBytes_length, rowLength, printed]
  have le : (chunk.take (i % slots)).sum ≤ (chunk.take (i % slots + 1)).sum := by
    have inner := sum_take_le (chunk.take (i % slots + 1)) (i % slots)
    rwa [List.take_take, Nat.min_eq_left (Nat.le_succ _)] at inner
  have last := sum_take_le chunk (i % slots + 1)
  rw [inBlock]
  refine stamped_none (fun has => ?_) ?_
  · rw [has, Nat.mul_one] at length
    exact ⟨_, index_eq (by omega)⟩
  have firstRead : readWord base (blockOf slots width most base first index chunk prints) =
      .ok first := by
    refine readWord_of bases (by omega) ?_ firstFits
    rw [blockOf, List.append_assoc, ← List.nil_append (leBytes base first)]
    exact bytesBetween_part rfl (by rw [leBytes_length, Nat.zero_add])
  rw [firstRead]
  change (slice _ base (base + width) >>= _) = _
  rw [slice_eq (by omega) (by omega)]
  by_cases over_ : most < chunk.sum
  · obtain ⟨entries, sliced, entry, inside, word⟩ := table over_
    have row : blockRow slots width most base index chunk = List.replicate width 0xff ++
        (leBytes base index ++ List.replicate ((slots + 1) * width - (width + base)) 0) := by
      rw [blockRow, if_pos over_, List.append_assoc]
    have marker : bytesBetween (blockOf slots width most base first index chunk prints) base
        (base + width) = List.replicate width 0xff := by
      rw [blockOf, row, ← List.append_assoc, List.append_assoc]
      exact bytesBetween_part (leBytes_length _ _) (by rw [List.length_replicate])
    have marked : ¬ ((List.replicate width (0xff : UInt8)).all (· = 0)) = true := by
      obtain ⟨less, rfl⟩ := Nat.exists_eq_succ_of_ne_zero (Nat.ne_of_gt some_width)
      rw [List.replicate_succ, List.all_cons]
      simp
    rw [marker]
    refine (if_neg marked).trans ?_
    rw [sliced]
    change (slice _ (base + width) _ >>= _) = _
    rw [slice_eq (by omega) le_rfl]
    change overflowSpan base entries _ slots (i % slots) first = _
    have number : readWord base (bytesBetween (blockOf slots width most base first index chunk prints)
        (base + width) (blockOf slots width most base first index chunk prints).length) =
          .ok index := by
      refine readWord_of bases ?_ ?_ indexFits
      · rw [bytesBetween_length (by omega) le_rfl]
        omega
      · rw [bytesBetween_inner (by omega), Nat.add_zero, blockOf, row]
        simp only [← List.append_assoc]
        rw [List.append_assoc _ _ prints]
        exact bytesBetween_part (by rw [List.length_append, leBytes_length, List.length_replicate])
          (by rw [leBytes_length])
    have size : (index + 1) * ((slots + 1) * base) =
        index * ((slots + 1) * base) + (slots + 1) * base := Nat.succ_mul ..
    rw [overflowSpan, number]
    change (ofOption () (checkedMul index ((slots + 1) * base)) >>= _) = _
    rw [checkedMul_eq_some.mpr ⟨by omega, rfl⟩]
    change (ofOption () (checkedAdd (index * ((slots + 1) * base)) ((slots + 1) * base)) >>= _) = _
    rw [checkedAdd_eq_some.mpr ⟨by omega, rfl⟩]
    change (get () entries _ _ >>= _) = _
    rw [get_eq (by omega) (by omega), ← size, entry]
    have entryLength : ((offsetsFrom 0 (slots + 1) chunk).flatMap (leBytes base)).length =
        (slots + 1) * base := by
      rw [flatMap_uniform_length fun _ _ => leBytes_length _ _, offsetsFrom_length]
    have offset : ∀ k, k < slots + 1 →
        ((slice ((offsetsFrom 0 (slots + 1) chunk).flatMap (leBytes base)) (k * base)
            ((offsetsFrom 0 (slots + 1) chunk).flatMap (leBytes base)).length : Faulting Unit _) >>=
          fun part => readWord base part) = .ok (chunk.take k).sum := by
      intro k short
      have upTo : (k + 1) * base ≤ (slots + 1) * base := Nat.mul_le_mul_right _ short
      rw [Nat.succ_mul] at upTo
      rw [slice_eq (by omega) le_rfl]
      refine readWord_of bases ?_ ?_ (Nat.lt_of_le_of_lt (sum_take_le _ _) chunkFits)
      · rw [bytesBetween_length (by omega) le_rfl]
        omega
      · rw [bytesBetween_inner (by omega), Nat.add_zero]
        have piece := @offset_piece slots base chunk [] [] k (k * base) short (by simp)
        rwa [List.nil_append, List.append_nil] at piece
    obtain ⟨loBytes, slicedLo, readLo⟩ := bind_eq_ok.mp (offset (i % slots) (by omega))
    obtain ⟨hiBytes, slicedHi, readHi⟩ := bind_eq_ok.mp (offset (i % slots + 1) (by omega))
    change (slice _ _ _ >>= _) = _
    rw [slicedLo]
    change (readWord base loBytes >>= _) = _
    rw [readLo]
    change (slice _ _ _ >>= _) = _
    rw [slicedHi]
    change (readWord base hiBytes >>= _) = _
    rw [readHi]
    exact spanFrom_eq le (by omega)
  · have row : blockRow slots width most base index chunk =
        (offsetsFrom 0 (slots + 1) chunk).flatMap (leBytes width) := if_neg over_
    have piece : ∀ k, k < slots + 1 → bytesBetween
        (blockOf slots width most base first index chunk prints) (base + k * width)
          (base + (k + 1) * width) = leBytes width ((chunk.take k).sum) := by
      intro k short
      rw [blockOf, row, Nat.succ_mul, ← Nat.add_assoc]
      exact offset_piece short (by rw [leBytes_length])
    have start := piece 0 (Nat.succ_pos _)
    rw [Nat.zero_mul, Nat.add_zero, Nat.zero_add, Nat.one_mul, List.take_zero, List.sum_nil] at start
    rw [start]
    refine (if_pos (leBytes_zero_all width)).trans ?_
    have upTo : (i % slots + 2) * width ≤ (slots + 1) * width := Nat.mul_le_mul_right _ (by omega)
    have next : (i % slots + 2) * width = (i % slots + 1) * width + width := Nat.succ_mul ..
    have here : (i % slots + 1) * width = i % slots * width + width := Nat.succ_mul ..
    rw [slice_eq (by omega) (by omega), piece _ (by omega)]
    change (word width _ >>= _) = _
    rw [word_leBytes (by omega)]
    change (slice _ _ _ >>= _) = _
    rw [slice_eq (by omega) (by omega), piece _ (by omega)]
    change (word width _ >>= _) = _
    rw [word_leBytes (by omega)]
    exact spanFrom_eq le (by omega)

end ReadBack

/-! ## The encoding that is chosen -/

/-- What a chosen tag says of the lengths it was chosen for. -/
structure Chosen (lens : List Nat) (fp base : Nat) (tag : UInt8) : Prop where
  fp : (split tag).fp = fp
  kind : (∃ slots width most, BlockLayout (split tag).layout slots width ∧ most + 1 = 256 ^ width ∧
      (split tag).base = base ∧ (tag &&& OVERFLOW ≠ 0 ↔ 0 < overflowing slots most lens)) ∨
    (split tag).layout = UInt8.ofNat base ∧ (base = 4 ∨ base = 8) ∧ tag &&& OVERFLOW = 0

section Choice

variable {lens : List Nat} {dataLen limit : Nat} {fingerprints : Bool}

theorem kind_cases : ∃ kind, tagFor lens dataLen fingerprints limit = tagWith kind fingerprints ∧
    ∃ wide : UInt8, ∃ base : Nat,
      (limit < dataLen ∧ wide = WIDE_BASE ∧ base = 8 ∨ ¬ limit < dataLen ∧ wide = 0 ∧ base = 4) ∧
      (kind = BLOCK_U8 ||| wide ∧ ¬ 0 < overflowing B_U8 255 lens ∨
        kind = BLOCK_U8 ||| wide ||| OVERFLOW ∧ 0 < overflowing B_U8 255 lens ∨
        kind = BLOCK_U16 ||| wide ∧ ¬ 0 < overflowing B_U16 65535 lens ∨
        kind = BLOCK_U16 ||| wide ||| OVERFLOW ∧ 0 < overflowing B_U16 65535 lens ∨
        kind = UInt8.ofNat base) := by
  refine ⟨_, rfl, if limit < dataLen then WIDE_BASE else 0, if limit < dataLen then WIDE else NARROW,
    ?_, ?_⟩
  · by_cases wide : limit < dataLen
    · exact .inl ⟨wide, if_pos wide, if_pos wide⟩
    · exact .inr ⟨wide, if_neg wide, if_neg wide⟩
  · generalize (if limit < dataLen then WIDE else NARROW) = base
    generalize (if limit < dataLen then WIDE_BASE else 0) = wide
    have u8 : ∀ base fp, (blockedCost B_U8 1 255 base fp lens).2 =
        if 0 < overflowing B_U8 255 lens then OVERFLOW else 0 := fun _ _ => rfl
    have u16 : ∀ base fp, (blockedCost B_U16 2 65535 base fp lens).2 =
        if 0 < overflowing B_U16 65535 lens then OVERFLOW else 0 := fun _ _ => rfl
    simp only [u8, u16]
    generalize (if fingerprints = true then 1 else 0) = fp
    by_cases over8 : 0 < overflowing B_U8 255 lens
    · simp only [if_pos over8, if_neg (show ¬ OVERFLOW = 0 by decide)]
      generalize (blockedCost B_U16 2 65535 base fp lens).1 = cost16
      generalize (blockedCost B_U8 1 255 base fp lens).1 = cost8
      generalize (lens.length + 1) * base + lens.length * fp = flat
      by_cases wider : cost16 < cost8
      · simp only [if_pos wider]
        by_cases flatter : flat < cost16
        · simp only [if_pos flatter]
          exact .inr (.inr (.inr (.inr trivial)))
        · simp only [if_neg flatter]
          by_cases over16 : 0 < overflowing B_U16 65535 lens
          · simp only [if_pos over16]
            exact .inr (.inr (.inr (.inl ⟨trivial, over16⟩)))
          · simp only [if_neg over16]
            exact .inr (.inr (.inl ⟨UInt8.or_zero, over16⟩))
      · simp only [if_neg wider]
        by_cases flatter : flat < cost8
        · simp only [if_pos flatter]
          exact .inr (.inr (.inr (.inr trivial)))
        · simp only [if_neg flatter]
          exact .inr (.inl ⟨trivial, over8⟩)
    · simp only [if_neg over8, if_true]
      exact .inl ⟨trivial, over8⟩

theorem tagFor_chosen : Chosen lens (if fingerprints then 1 else 0)
    (if limit < dataLen then 8 else 4) (tagFor lens dataLen fingerprints limit) := by
  obtain ⟨kind, tag, wide, base, side, cases_⟩ := @kind_cases lens dataLen limit fingerprints
  rw [tag]
  have bases : (if limit < dataLen then 8 else 4) = base := by
    rcases side with ⟨past, -, rfl⟩ | ⟨short, -, rfl⟩
    · exact if_pos past
    · exact if_neg short
  rw [bases]
  have u8 : (255 : Nat) + 1 = 256 ^ 1 := by decide
  have u16 : (65535 : Nat) + 1 = 256 ^ 2 := by decide
  rcases side with ⟨-, rfl, rfl⟩ | ⟨-, rfl, rfl⟩ <;> cases fingerprints <;>
    rcases cases_ with ⟨rfl, over_⟩ | ⟨rfl, over_⟩ | ⟨rfl, over_⟩ | ⟨rfl, over_⟩ | rfl
  all_goals first
    | exact ⟨by decide, .inr ⟨by decide, by decide, by decide⟩⟩
    | exact ⟨by decide, .inl ⟨_, _, _, .inl ⟨by decide, rfl, rfl⟩, u8, by decide,
        iff_of_false (by decide) over_⟩⟩
    | exact ⟨by decide, .inl ⟨_, _, _, .inl ⟨by decide, rfl, rfl⟩, u8, by decide,
        iff_of_true (by decide) over_⟩⟩
    | exact ⟨by decide, .inl ⟨_, _, _, .inr ⟨by decide, rfl, rfl⟩, u16, by decide,
        iff_of_false (by decide) over_⟩⟩
    | exact ⟨by decide, .inl ⟨_, _, _, .inr ⟨by decide, rfl, rfl⟩, u16, by decide,
        iff_of_true (by decide) over_⟩⟩

end Choice

/-! ## The table and the tail -/

/-- The offset structure of a layout of blocks. -/
def blocksOf (slots width most : Nat) (tag : UInt8) (lens : List Nat) (fps : Option (List UInt8)) :
    List UInt8 :=
  (List.range (blockCount slots lens)).flatMap (blockAt slots width most (split tag) lens fps)

/-- The overflow table and its trailer. -/
def tailAt (slots most : Nat) (tag : UInt8) (lens : List Nat) : List UInt8 :=
  let table := overflowAt slots most lens (split tag).base (blockCount slots lens)
  if tag &&& OVERFLOW ≠ 0 then table ++ leBytes 8 table.length else table

def tableOf (tag : UInt8) (lens : List Nat) (fps : Option (List UInt8)) : List UInt8 :=
  if (split tag).layout = BLOCK_U8 then blocksOf B_U8 1 255 tag lens fps
  else if (split tag).layout = BLOCK_U16 then blocksOf B_U16 2 65535 tag lens fps
  else (offsetsFrom 0 (lens.length + 1) lens).flatMap (leBytes (split tag).layout.toNat) ++
    fps.getD []

def tailOf (tag : UInt8) (lens : List Nat) : List UInt8 :=
  if (split tag).layout = BLOCK_U8 then tailAt B_U8 255 tag lens
  else if (split tag).layout = BLOCK_U16 then tailAt B_U16 65535 tag lens
  else []

section Table

variable {lens : List Nat} {fps : Option (List UInt8)} {tag : UInt8} {size base : Nat}

theorem writeBlocks_eq {blob : List UInt8} {slots width most : Nat}
    (shape : BlockLayout (split tag).layout slots width)
    (prints : (split tag).fp = if fps.isSome then 1 else 0)
    (table : prefixLen tag lens.length = some size) (room : size ≤ blob.length) :
    writeBlocks slots width most tag lens fps blob =
      (blob.take HEADER ++ blocksOf slots width most tag lens fps ++ blob.drop size,
        tailAt slots most tag lens) := by
  rw [prefixLen_block shape] at table
  obtain ⟨whole, product, sum⟩ := Option.bind_eq_some_iff.mp table
  obtain ⟨fits, rfl⟩ := checkedMul_eq_some.mp product
  obtain ⟨small, rfl⟩ := checkedAdd_eq_some.mp sum
  have bases := split_base tag
  obtain ⟨some_slots, eight⟩ := shape.sizes
  rw [Nat.add_comm _ HEADER] at room ⊢
  have count : divCeil lens.length slots = blockCount slots lens := rfl
  rw [count] at room ⊢
  rw [writeBlocks, writeBlocks_fold (by omega) (by omega) prints _ room]
  rfl

theorem writeOffsets_eq {blob : List UInt8}
    (chosen : Chosen lens (if fps.isSome then 1 else 0) base tag)
    (sized : ∀ prints, fps = some prints → prints.length = lens.length)
    (table : prefixLen tag lens.length = some size) (room : size ≤ blob.length) :
    writeOffsets blob tag lens fps =
      (blob.take HEADER ++ tableOf tag lens fps ++ blob.drop size, tailOf tag lens) := by
  rw [writeOffsets, tableOf, tailOf]
  by_cases u8 : (split tag).layout = BLOCK_U8
  · simp only [if_pos u8]
    exact writeBlocks_eq (.inl ⟨u8, rfl, rfl⟩) chosen.fp table room
  by_cases u16 : (split tag).layout = BLOCK_U16
  · simp only [if_neg u8, if_pos u16]
    exact writeBlocks_eq (.inr ⟨u16, rfl, rfl⟩) chosen.fp table room
  simp only [if_neg u8, if_neg u16]
  obtain ⟨sum, -⟩ := prefixLen_flat u8 u16 table
  have rows : lens.length * ((split tag).layout.toNat + (split tag).fp) =
      lens.length * (split tag).layout.toNat + lens.length * (split tag).fp := Nat.mul_add ..
  have past : (lens.length + 1) * (split tag).layout.toNat =
      lens.length * (split tag).layout.toNat + (split tag).layout.toNat := Nat.succ_mul ..
  have length : ((offsetsFrom 0 (lens.length + 1) lens).flatMap
      (leBytes (split tag).layout.toNat)).length = (lens.length + 1) * (split tag).layout.toNat := by
    rw [flatMap_uniform_length fun _ _ => leBytes_length _ _, offsetsFrom_length]
  generalize (offsetsFrom 0 (lens.length + 1) lens).flatMap (leBytes (split tag).layout.toNat) =
    offsets at length
  have fp := chosen.fp
  cases fps with
  | none =>
      have none_fp : (split tag).fp = 0 := by simpa using fp
      rw [none_fp, Nat.add_zero] at sum
      rw [overwrite, length, Option.getD_none, List.append_nil]
      have stop : HEADER + (lens.length + 1) * (split tag).layout.toNat = size := by omega
      rw [stop]
  | some prints =>
      have some_fp : (split tag).fp = 1 := by simpa using fp
      rw [some_fp, Nat.mul_add, Nat.mul_one] at sum
      have count := sized prints rfl
      have stop : HEADER + (lens.length + 1) * (split tag).layout.toNat + prints.length = size := by
        omega
      have first : (blob.take HEADER ++ offsets).length =
          HEADER + (lens.length + 1) * (split tag).layout.toNat := by
        rw [List.length_append, List.length_take, length]
        omega
      simp only [Prod.mk.injEq, and_true, Option.getD_some]
      have inner : overwrite blob HEADER offsets = blob.take HEADER ++ offsets ++
          blob.drop (HEADER + (lens.length + 1) * (split tag).layout.toNat) := by
        rw [overwrite, length]
      rw [inner]
      have cut : blob.drop (HEADER + (lens.length + 1) * (split tag).layout.toNat) =
          (blob.drop (HEADER + (lens.length + 1) * (split tag).layout.toNat)).take prints.length ++
            blob.drop size := by
        conv => lhs; rw [← List.take_append_drop prints.length
          (blob.drop (HEADER + (lens.length + 1) * (split tag).layout.toNat))]
        rw [List.drop_drop, stop]
      rw [cut, ← List.append_assoc, overwrite_part first]
      · simp only [List.append_assoc]
      · rw [List.length_take, List.length_drop]
        omega

end Table

/-! ## Spans -/

section Spans

variable {lens : List Nat} {fps : Option (List UInt8)} {tag : UInt8} {size base i : Nat}

theorem filter_range {p : Nat → Bool} {j count : Nat} (held : p j = true) (inside : j < count) :
    ((List.range count).filter p)[(List.range j).countP p]? = some j := by
  obtain ⟨rest, rfl⟩ := Nat.exists_eq_add_of_le (Nat.succ_le_of_lt inside)
  rw [List.range_add, List.range_succ, List.filter_append, List.filter_append, List.append_assoc,
    List.countP_eq_length_filter, List.getElem?_append_right le_rfl, Nat.sub_self,
    List.filter_cons_of_pos held]
  rfl

/-- Where a table of blocks ends the front, slot `i`'s block is where it is read. -/
theorem get_block {head : List UInt8} {slots width most : Nat} (headLength : head.length = HEADER)
    (shape : BlockLayout (split tag).layout slots width)
    (prints : (split tag).fp = if fps.isSome then 1 else 0) (slot : i < lens.length) :
    get () (head ++ blocksOf slots width most tag lens fps)
        (HEADER + i / slots * blockBytes slots width (split tag).base (split tag).fp)
        (HEADER + i / slots * blockBytes slots width (split tag).base (split tag).fp +
          blockBytes slots width (split tag).base (split tag).fp) =
      .ok (blockAt slots width most (split tag) lens fps (i / slots)) := by
  obtain ⟨some_slots, eight⟩ := shape.sizes
  have bases := split_base tag
  have sized : ∀ j ∈ List.range (blockCount slots lens),
      (blockAt slots width most (split tag) lens fps j).length =
        blockBytes slots width (split tag).base (split tag).fp :=
    fun j _ => blockAt_length (by omega) prints j
  have before : i / slots < blockCount slots lens :=
    lt_divCeil_of_mul_lt some_slots (Nat.lt_of_le_of_lt (Nat.mul_div_le i slots) slot)
  have upTo : (i / slots + 1) * blockBytes slots width (split tag).base (split tag).fp ≤
      blockCount slots lens * blockBytes slots width (split tag).base (split tag).fp :=
    Nat.mul_le_mul_right _ before
  rw [Nat.succ_mul] at upTo
  have whole : (blocksOf slots width most tag lens fps).length =
      blockCount slots lens * blockBytes slots width (split tag).base (split tag).fp := by
    rw [blocksOf, flatMap_uniform_length sized, List.length_range]
  rw [get_eq (by omega) (by rw [List.length_append, whole, headLength]; omega)]
  have piece := @bytesBetween_piece _ _ _ (List.range (blockCount slots lens)) sized (i / slots)
    (i / slots) (List.getElem?_range before) head [] _ _ rfl rfl
  rw [List.append_nil, headLength] at piece
  exact congrArg Except.ok piece

theorem tail_sliced {slots most : Nat} {chunk : Nat} (inside : chunk < blockCount slots lens)
    (over_ : most < (chunkAt slots lens chunk).sum)
    (bit : tag &&& OVERFLOW ≠ 0 ↔ 0 < overflowing slots most lens) :
    (slice (tailAt slots most tag lens) 0 ((tailAt slots most tag lens).length - TRAILER) :
        Faulting Unit _) =
      .ok (overflowAt slots most lens (split tag).base (blockCount slots lens)) := by
  have some_over : 0 < overflowing slots most lens :=
    List.countP_pos_iff.mpr ⟨chunk, List.mem_range.mpr inside, decide_eq_true over_⟩
  rw [tailAt]
  simp only [if_pos (bit.mpr some_over), List.length_append, leBytes_length]
  rw [show TRAILER = 8 from rfl, Nat.add_sub_cancel, slice_eq (Nat.zero_le _) (by simp)]
  have part := @bytesBetween_part (overflowAt slots most lens (split tag).base
    (blockCount slots lens)) [] (leBytes 8 (overflowAt slots most lens (split tag).base
      (blockCount slots lens)).length) 0 _ rfl rfl
  rw [List.nil_append, Nat.zero_add] at part
  rw [part]

theorem entryOf_block_written {head : List UInt8} {slots width most : Nat}
    (headLength : head.length = HEADER) (shape : BlockLayout (split tag).layout slots width)
    (most_eq : most + 1 = 256 ^ width) (prints : (split tag).fp = if fps.isSome then 1 else 0)
    (bit : tag &&& OVERFLOW ≠ 0 ↔ 0 < overflowing slots most lens)
    (table : prefixLen tag lens.length = some size) (few : lens.length < 2 ^ 32)
    (sum : lens.sum < 256 ^ (split tag).base) (slot : i < lens.length) :
    ∃ byte, entryOf (head ++ blocksOf slots width most tag lens fps)
        (slice (tailAt slots most tag lens) 0 ((tailAt slots most tag lens).length - TRAILER)) tag
        lens.length i none =
      .ok (((lens.take i).sum, (lens.take (i + 1)).sum), byte) := by
  obtain ⟨some_slots, eight⟩ := shape.sizes
  have bases := split_base tag
  have word : lens.sum < 2 ^ 64 := by
    rcases bases with four | eight
    · rw [four] at sum
      exact Nat.lt_trans sum (by decide)
    · rw [eight] at sum
      exact sum
  have wide : 2 ^ 32 ≤ 256 ^ (split tag).base := by
    rcases bases with four | eight
    · rw [four]
      decide
    · rw [eight]
      decide
  have place : i / slots * slots + i % slots = i := Nat.div_add_mod' i slots
  have k_lt := Nat.mod_lt i some_slots
  have start := @baseAt_add slots lens (i / slots) (i % slots) k_lt.le
  have stop := @baseAt_add slots lens (i / slots) (i % slots + 1) k_lt
  rw [← Nat.add_assoc, place] at stop
  rw [place] at start
  have next := (baseAt_succ slots lens (i / slots)).symm
  have upTo : baseAt slots lens (i / slots + 1) ≤ lens.sum := sum_take_le _ _
  have before : i / slots < blockCount slots lens :=
    lt_divCeil_of_mul_lt some_slots (Nat.lt_of_le_of_lt (Nat.mul_div_le i slots) slot)
  have indexLe : indexAt slots most lens (i / slots) ≤ i / slots := by
    have bound := @List.countP_le_length _ (overflows slots most lens) (List.range (i / slots))
    rwa [List.length_range] at bound
  have quotient := Nat.div_le_self i slots
  have cut := table
  rw [prefixLen_block shape] at cut
  obtain ⟨fits, inside, small⟩ := block_inside some_slots slot cut
  rw [entryOf, entryIn_block shape (offsetsStartIn_block shape fits (by omega)) (by omega),
    get_block headLength shape prints slot]
  have written := @inBlock_written slots width (split tag).fp (split tag).base most
    (baseAt slots lens (i / slots)) (indexAt slots most lens (i / slots))
    (chunkAt slots lens (i / slots)) (blockPrints slots fps (i / slots)) i
    (slice (tailAt slots most tag lens) 0 ((tailAt slots most tag lens).length - TRAILER)) bases
    some_slots eight (by
      obtain ⟨-, -, rfl⟩ | ⟨-, -, rfl⟩ := shape <;> decide) (by omega)
    (blockPrints_length prints _) (by omega) (by omega) (by omega) (by omega) fun over_ => by
      refine ⟨_, tail_sliced before over_ bit, ?_, ?_, ?_⟩
      · have piece := @bytesBetween_piece _ (entryAt slots lens (split tag).base) _ _
          (fun j _ => entryAt_length slots lens (split tag).base j) _ _
          (@filter_range (overflows slots most lens) _ _ (decide_eq_true over_) before) [] []
          (indexAt slots most lens (i / slots) * ((slots + 1) * (split tag).base)) _
          (by rw [List.length_nil, Nat.zero_add]; rfl) rfl
        rw [List.nil_append, List.append_nil] at piece
        rw [Nat.succ_mul (indexAt slots most lens (i / slots))]
        exact piece
      · have at_ := @filter_range (overflows slots most lens) _ _ (decide_eq_true over_) before
        obtain ⟨short, -⟩ := List.getElem?_eq_some_iff.mp at_
        rw [← List.countP_eq_length_filter] at short
        rw [overflowAt_length]
        exact Nat.mul_le_mul_right _ short
      · rw [overflowAt_length]
        have entries : indexAt slots most lens (blockCount slots lens) ≤ blockCount slots lens := by
          have bound := @List.countP_le_length _ (overflows slots most lens)
            (List.range (blockCount slots lens))
          rwa [List.length_range] at bound
        have blocks : blockCount slots lens ≤ lens.length + 1 := by
          rw [blockCount, divCeil]
          refine Nat.div_le_of_le_mul ?_
          have more : slots * (lens.length + 1) = slots * lens.length + slots := Nat.mul_succ ..
          have least : lens.length ≤ slots * lens.length := Nat.le_mul_of_pos_left _ some_slots
          omega
        have each : (slots + 1) * (split tag).base ≤ 257 * 8 := by
          refine Nat.mul_le_mul ?_ (by omega)
          obtain ⟨-, rfl, -⟩ | ⟨-, rfl, -⟩ := shape <;> decide
        exact Nat.lt_of_le_of_lt (Nat.mul_le_mul (entries.trans blocks) each) (by omega)
  obtain ⟨byte, read⟩ := written
  refine ⟨byte, ?_⟩
  rw [start, stop] at read
  exact read

theorem readOffset_of {bytes : List UInt8} {start width value : Nat} (widths : width = 4 ∨ width = 8)
    (room : start + width ≤ bytes.length) (small : start + width < 2 ^ 64)
    (here : bytesBetween bytes start (start + width) = leBytes width value)
    (fits : value < 256 ^ width) : readOffset bytes start width = .ok value := by
  rw [readOffset, checkedAdd_eq_some.mpr ⟨small, rfl⟩]
  change (get _ bytes start (start + width) >>= _) = _
  rw [get_eq (by omega) room, here]
  rcases widths with rfl | rfl
  · change (if 4 = NARROW then word 4 (leBytes 4 value) else word 8 (leBytes 4 value)) = _
    exact (if_pos rfl).trans (word_leBytes fits)
  · change (if 8 = NARROW then word 4 (leBytes 8 value) else word 8 (leBytes 8 value)) = _
    exact (if_neg (by decide)).trans (word_leBytes fits)

theorem entryOf_flat_written {head : List UInt8} {overflow : Faulting Unit (List UInt8)}
    (headLength : head.length = HEADER) (bases : base = 4 ∨ base = 8)
    (flat : (split tag).layout = UInt8.ofNat base)
    (prints : (split tag).fp = if fps.isSome then 1 else 0)
    (sized : ∀ prints, fps = some prints → prints.length = lens.length)
    (table : prefixLen tag lens.length = some size) (sum : lens.sum < 256 ^ base)
    (slot : i < lens.length) :
    ∃ byte, entryOf (head ++ ((offsetsFrom 0 (lens.length + 1) lens).flatMap
        (leBytes (split tag).layout.toNat) ++ fps.getD [])) overflow tag lens.length i none =
      .ok (((lens.take i).sum, (lens.take (i + 1)).sum), byte) := by
  have u8 : (split tag).layout ≠ BLOCK_U8 := by
    rw [flat]
    rcases bases with rfl | rfl <;> decide
  have u16 : (split tag).layout ≠ BLOCK_U16 := by
    rw [flat]
    rcases bases with rfl | rfl <;> decide
  have width : (split tag).layout.toNat = base := by
    rw [flat]
    rcases bases with rfl | rfl <;> decide
  obtain ⟨whole, word⟩ := prefixLen_flat u8 u16 table
  rw [width] at whole ⊢
  have rows : lens.length * (base + (split tag).fp) =
      lens.length * base + lens.length * (split tag).fp := Nat.mul_add ..
  have past : (lens.length + 1) * base = lens.length * base + base := Nat.succ_mul ..
  have upTo : i * base + base ≤ lens.length * base := by
    rw [← Nat.succ_mul]
    exact Nat.mul_le_mul_right _ slot
  have few : lens.length ≤ lens.length * base := Nat.le_mul_of_pos_right _ (by omega)
  have offsets : ((offsetsFrom 0 (lens.length + 1) lens).flatMap (leBytes base)).length =
      (lens.length + 1) * base := by
    rw [flatMap_uniform_length fun _ _ => leBytes_length _ _, offsetsFrom_length]
  have length : (head ++ ((offsetsFrom 0 (lens.length + 1) lens).flatMap (leBytes base) ++
      fps.getD [])).length = HEADER + (lens.length + 1) * base + (fps.getD []).length := by
    rw [List.length_append, List.length_append, offsets, headLength, Nat.add_assoc]
  have offset : ∀ k, k < lens.length + 1 → HEADER + k * base + base < 2 ^ 64 → readOffset
      (head ++ ((offsetsFrom 0 (lens.length + 1) lens).flatMap (leBytes base) ++ fps.getD []))
        (HEADER + k * base) base = .ok (lens.take k).sum := by
    intro k short small
    have inner : (k + 1) * base ≤ (lens.length + 1) * base := Nat.mul_le_mul_right _ short
    rw [Nat.succ_mul] at inner
    refine readOffset_of bases (by omega) small ?_ (Nat.lt_of_le_of_lt (sum_take_le _ _) sum)
    rw [← List.append_assoc]
    exact offset_piece short (by rw [headLength])
  have le : (lens.take i).sum ≤ (lens.take (i + 1)).sum := by
    have inner := sum_take_le (lens.take (i + 1)) i
    rwa [List.take_take, Nat.min_eq_left (Nat.le_succ _)] at inner
  have most := sum_take_le lens (i + 1)
  have wordSum : lens.sum < 2 ^ 64 := by
    rcases bases with rfl | rfl
    · exact Nat.lt_trans sum (by decide)
    · exact sum
  have next : HEADER + (i + 1) * base = HEADER + i * base + base := by
    rw [Nat.succ_mul, Nat.add_assoc]
  rw [entryOf, entryIn, offsetsStartIn_flat u8 u16 (by rw [width]; omega)]
  refine Exists.imp (fun byte read => (if_neg u8).trans ((if_neg u16).trans read)) ?_
  refine stamped_none (fun has => ?_) ?_
  · rw [width, add_eq (by omega)]
    change ∃ byte, (mul (lens.length + 1) base >>= _) = _
    rw [mul_eq (by omega)]
    change ∃ byte, (add HEADER ((lens.length + 1) * base) >>= _) = _
    rw [add_eq (by omega)]
    change ∃ byte, (add (HEADER + (lens.length + 1) * base) i >>= _) = _
    rw [has, Nat.mul_one] at rows
    rw [has] at whole
    rw [add_eq (by omega)]
    cases fps with
    | none => simp [has] at prints
    | some fps =>
        have count := sized fps rfl
        rw [Option.getD_some] at length
        rw [Option.getD_some]
        exact ⟨_, congrArg (ofOption ()) (List.getElem?_eq_getElem (by omega))⟩
  · rw [width, offset i (by omega) (by omega)]
    change (add (HEADER + i * base) base >>= _) = _
    rw [add_eq (by omega), ← next]
    change (recast () (readOffset _ (HEADER + (i + 1) * base) base) >>= _) = _
    rw [offset (i + 1) (by omega) (by omega)]
    change spanFrom 0 _ _ = _
    rw [spanFrom_eq le (by omega), Nat.zero_add, Nat.zero_add]

end Spans

/-! ## The prefix and the whole arena -/

section Whole

variable {lens : List Nat} {fps : Option (List UInt8)} {limit : Nat} {tag : UInt8} {size : Nat}

theorem writeHead_eq {blob : List UInt8} {n : Nat} (room : HEADER ≤ blob.length) :
    writeHead blob n tag = leBytes 8 (n + 1) ++ [tag] ++ blob.drop HEADER := by
  have nine : HEADER = 9 := rfl
  have first : overwrite blob 0 (leBytes 8 (n + 1)) = leBytes 8 (n + 1) ++ blob.drop 8 := by
    rw [overwrite, leBytes_length, List.take_zero, List.nil_append, Nat.zero_add]
  have cut : blob.drop 8 = (blob.drop 8).take 1 ++ blob.drop HEADER := by
    conv => lhs; rw [← List.take_append_drop 1 (blob.drop 8)]
    rw [List.drop_drop, nine]
  rw [writeHead, first, cut, ← List.append_assoc]
  exact overwrite_part (leBytes_length _ _) (by
    rw [List.length_take, List.length_drop, List.length_singleton]
    omega)

theorem prefixLen_header {n : Nat} (table : prefixLen tag n = some size) : HEADER ≤ size := by
  have last : ∀ {whole : Nat}, checkedAdd whole HEADER = some size → HEADER ≤ size := by
    intro whole sum
    obtain ⟨-, rfl⟩ := checkedAdd_eq_some.mp sum
    exact Nat.le_add_left _ _
  rw [prefixLen] at table
  split at table
  · obtain ⟨whole, -, sum⟩ := Option.bind_eq_some_iff.mp table
    exact last sum
  · split at table
    · obtain ⟨whole, -, sum⟩ := Option.bind_eq_some_iff.mp table
      exact last sum
    · obtain ⟨rows, -, rest⟩ := Option.bind_eq_some_iff.mp table
      obtain ⟨whole, -, sum⟩ := Option.bind_eq_some_iff.mp rest
      exact last sum

/-- What stands before the data, for an encoding. -/
def frontOf (tag : UInt8) (lens : List Nat) (fps : Option (List UInt8)) : List UInt8 :=
  leBytes 8 (lens.length + 1) ++ [tag] ++ tableOf tag lens fps

theorem written_over {blob : List UInt8} {base : Nat}
    (chosen : Chosen lens (if fps.isSome then 1 else 0) base tag)
    (sized : ∀ prints, fps = some prints → prints.length = lens.length)
    (table : prefixLen tag lens.length = some size) (room : size ≤ blob.length) :
    writeOffsets (writeHead blob lens.length tag) tag lens fps =
      (frontOf tag lens fps ++ blob.drop size, tailOf tag lens) := by
  have head := prefixLen_header table
  have headed := @writeHead_eq tag blob lens.length (head.trans room)
  have headLength : (leBytes 8 (lens.length + 1) ++ [tag]).length = HEADER := by
    rw [List.length_append, leBytes_length]
    rfl
  have length : (writeHead blob lens.length tag).length = blob.length := by
    rw [headed, List.length_append, headLength, List.length_drop]
    omega
  rw [writeOffsets_eq chosen sized table (by omega), headed, List.take_left' headLength]
  congr 1
  rw [frontOf]
  congr 1
  rw [List.drop_append, List.drop_of_length_le (by omega), List.nil_append, headLength,
    List.drop_drop]
  congr 1
  omega

theorem prefixForLengths_eq (sized : ∀ prints, fps = some prints → prints.length = lens.length)
    (table : prefixLen (tagFor lens lens.sum fps.isSome limit) lens.length = some size) :
    prefixForLengths lens fps limit = some
      { front := frontOf (tagFor lens lens.sum fps.isSome limit) lens fps
        dataLen := lens.sum
        tag := tagFor lens lens.sum fps.isSome limit
        tail := tailOf (tagFor lens lens.sum fps.isSome limit) lens } := by
  rw [prefixForLengths]
  simp only [table]
  change some _ = some _
  rw [written_over tagFor_chosen sized table (by rw [List.length_replicate])]
  rw [List.drop_of_length_le (by rw [List.length_replicate]), List.append_nil]

theorem moveData_drop {front data : List UInt8} {stop : Nat} :
    stop ≤ (moveData (front ++ data) front.length data.length stop).length ∧
      (moveData (front ++ data) front.length data.length stop).drop stop = data := by
  have grown : ∃ zeros : List UInt8, (if front.length < stop then
      front ++ data ++ List.replicate (stop + data.length - (front ++ data).length) 0
      else front ++ data) = front ++ data ++ zeros ∧ stop ≤ (front ++ data ++ zeros).length := by
    split
    · next later =>
      refine ⟨_, rfl, ?_⟩
      rw [List.length_append, List.length_replicate]
      omega
    · next earlier =>
      refine ⟨[], (List.append_nil _).symm, ?_⟩
      simp only [List.length_append, List.length_nil]
      omega
  obtain ⟨zeros, same, room⟩ := grown
  rw [moveData]
  simp only [same]
  rw [bytesBetween_part rfl rfl, overwrite]
  have front_ : ((front ++ data ++ zeros).take stop).length = stop := by
    rw [List.length_take]
    omega
  rw [List.append_assoc, List.take_append, front_, List.take_of_length_le (by omega),
    Nat.add_sub_cancel_left, List.take_left' rfl]
  exact ⟨by rw [List.length_append]; omega, List.drop_left' front_⟩

end Whole

end Lexindex.Arena
