import Mathlib
import Lexindex.Arena.Read

/-!
# A loaded arena is safe to read

What a load accepts bounds every read a lookup does without a check: no such read leaves the
blob, nothing wraps, a span is inside the data, and a key compared in place is compared with what
the checked read of its slot gives.
-/

set_option autoImplicit false

namespace Lexindex.Arena

open Mphf (IndexError)
open Faulting

/-! ## Tags -/

section Tags

theorem split_base (tag : UInt8) : (split tag).base = 4 ∨ (split tag).base = 8 := by
  rw [split]
  split
  · exact .inr rfl
  · exact .inl rfl

theorem split_fp (tag : UInt8) : (split tag).fp = if tag &&& FP ≠ 0 then 1 else 0 :=
  rfl

theorem forall_byte {P : UInt8 → Prop} (each : ∀ b : Fin 256, P (UInt8.ofNat b)) (tag : UInt8) :
    P tag := by
  have here := each ⟨tag.toNat, tag.toNat_lt⟩
  rwa [UInt8.ofNat_toNat] at here

/-- The layouts of the tags the format defines. -/
theorem known_layout (tag : UInt8) : StringArena.known tag = true →
    (split tag).layout = BLOCK_U8 ∨ (split tag).layout = BLOCK_U16 ∨ (split tag).layout = 4 ∨
      (split tag).layout = 8 ∨ (split tag).layout = MERGED := by
  refine forall_byte (P := fun tag => StringArena.known tag = true → (split tag).layout = BLOCK_U8 ∨
    (split tag).layout = BLOCK_U16 ∨ (split tag).layout = 4 ∨ (split tag).layout = 8 ∨
      (split tag).layout = MERGED) ?_ tag
  decide +kernel

theorem plain_or_overflow (tag : UInt8) :
    tag = tag &&& ~~~OVERFLOW ∨ tag = tag &&& ~~~OVERFLOW ||| OVERFLOW := by
  refine forall_byte
    (P := fun tag => tag = tag &&& ~~~OVERFLOW ∨ tag = tag &&& ~~~OVERFLOW ||| OVERFLOW) ?_ tag
  decide +kernel

/-- A plain tag of narrow bases is its layout and whether there are fingerprints. -/
theorem split_of_plain {tag layout : UInt8} {fp : Nat}
    (narrow : layout = BLOCK_U8 ∨ layout = BLOCK_U16 ∨ layout = MERGED) (bit : fp = 0 ∨ fp = 1)
    (plain : tag &&& ~~~OVERFLOW = layout ||| StringArena.fpBit fp) :
    split tag = ⟨layout, NARROW, fp⟩ := by
  have whole := plain_or_overflow tag
  rw [plain] at whole
  rcases narrow with rfl | rfl | rfl <;> rcases bit with rfl | rfl <;>
    rcases whole with rfl | rfl <;> decide

end Tags

/-! ## Words and spans -/

section Words

variable {bytes : List UInt8}

theorem readOffset_faultless {start width : Nat} (widths : width = 4 ∨ width = 8) :
    Faultless (readOffset bytes start width) fun _ => True := by
  rw [readOffset]
  refine .bind (.ofOption (Q := fun stop => start + width = stop) fun stop sum =>
    (checkedAdd_eq_some.mp sum).2) fun stop same => ?_
  refine .bind .get fun part read => ?_
  obtain ⟨le, inside, rfl⟩ := read
  have length := bytesBetween_length le inside
  split
  · next narrow =>
    rw [word_eq (by rw [length, ← same, narrow, NARROW]; omega)]
    trivial
  · next wide =>
    rw [word_eq (by
      rw [NARROW] at wide
      rw [length]
      omega)]
    trivial

theorem readWord_eq {base : Nat} (widths : base = 4 ∨ base = 8) (room : base ≤ bytes.length) :
    ∃ value, readWord base bytes = .ok value := by
  have front : ∀ size, size ≤ bytes.length →
      ((slice bytes 0 size : Faulting Unit _) >>= fun part => word size part) =
        .ok (leNat (bytesBetween bytes 0 size)) := by
    intro size fits
    rw [slice_eq (Nat.zero_le _) fits]
    exact word_eq (bytesBetween_length (Nat.zero_le _) fits)
  rcases widths with rfl | rfl
  · exact ⟨_, front 4 room⟩
  · exact ⟨_, front 8 room⟩

theorem spanFrom_faultless {base lo hi : Nat} :
    Faultless (spanFrom base lo hi) fun span => span.1 ≤ span.2 := by
  rw [spanFrom]
  refine .bind .refuseIf fun _ ordered => ?_
  refine .bind (.ofOption (Q := fun first => base + lo = first) fun first sum =>
    (checkedAdd_eq_some.mp sum).2) fun first same => ?_
  refine .bind (.ofOption (Q := fun last => base + hi = last) fun last sum =>
    (checkedAdd_eq_some.mp sum).2) fun last sameLast => ?_
  refine .ok ?_
  change first ≤ last
  omega

end Words

/-! ## Fingerprints -/

section Stamped

variable {fp : Nat} {fingerprint : Faulting Unit UInt8} {span : Faulting Unit (Nat × Nat)}

theorem stamped_faultless {want : Option UInt8} {Q : Nat × Nat → Prop}
    (stored : fp = 1 → Faultless fingerprint fun _ => True) (spanned : Faultless span Q) :
    Faultless (stamped fp fingerprint want span) fun e => Q e.1 := by
  rw [stamped]
  refine .bind (Q := fun _ => True) ?_ fun _ _ => ?_
  · split
    · next has => exact stored has
    · exact .ok trivial
  · exact .bind .refuseIf fun _ _ => .bind spanned fun _ held => .ok held

/-- A wanted fingerprint only leaves out the slots that store another. -/
theorem stamped_matching {want : UInt8} {e : Entry} :
    stamped fp fingerprint (some want) span = .ok e ↔
      stamped fp fingerprint none span = .ok e ∧ (fp = 1 → e.2 = want) := by
  rw [stamped, stamped, bind_eq_ok, bind_eq_ok]
  constructor
  · rintro ⟨stored, first, rest⟩
    obtain ⟨_, taken, rest⟩ := bind_eq_ok.mp rest
    obtain ⟨found, spanned, last⟩ := bind_eq_ok.mp rest
    cases pure_eq_ok.mp last
    refine ⟨⟨stored, first, ?_⟩, fun has => ?_⟩
    · exact bind_eq_ok.mpr ⟨(), refuseIf_eq (by simp), rest⟩
    · have same := Faultless.refuseIf.answer taken
      rw [Option.any_some, decide_eq_true_eq, not_and, not_not] at same
      exact (same has).symm
  · rintro ⟨⟨stored, first, rest⟩, same⟩
    obtain ⟨-, -, rest⟩ := bind_eq_ok.mp rest
    obtain ⟨found, spanned, last⟩ := bind_eq_ok.mp rest
    cases pure_eq_ok.mp last
    refine ⟨stored, first, bind_eq_ok.mpr ⟨(), refuseIf_eq ?_, rest⟩⟩
    rintro ⟨has, differs⟩
    rw [Option.any_some, decide_eq_true_eq] at differs
    exact differs (same has).symm

end Stamped

/-! ## Blocks -/

section Blocks

variable {bytes block : List UInt8} {slots width fp base : Nat} {overflow : Faulting Unit (List UInt8)}

theorem overflowSpan_faultless {table row : List UInt8} {k first : Nat}
    (bases : base = 4 ∨ base = 8) (room : base ≤ row.length) (inside : k < slots) :
    Faultless (overflowSpan base table row slots k first) fun span => span.1 ≤ span.2 := by
  rw [overflowSpan]
  obtain ⟨number, read⟩ := readWord_eq bases room
  refine .step read ?_
  refine .bind (.ofOption (Q := fun _ => True) fun _ _ => trivial) fun start _ => ?_
  refine .bind (.ofOption (Q := fun stop => start + (slots + 1) * base = stop) fun stop sum =>
    (checkedAdd_eq_some.mp sum).2) fun stop same => ?_
  refine .bind .get fun entry got => ?_
  obtain ⟨le, within, rfl⟩ := got
  have length : (bytesBetween table start stop).length = (slots + 1) * base := by
    rw [bytesBetween_length le within]
    omega
  have last : (k + 1) * base + base ≤ (slots + 1) * base := by
    rw [← Nat.succ_mul]
    exact Nat.mul_le_mul_right _ (by omega)
  have earlier : k * base ≤ (k + 1) * base := Nat.mul_le_mul_right _ (Nat.le_succ k)
  generalize bytesBetween table start stop = entry at length
  have tail : ∀ lo, lo + base ≤ (slots + 1) * base → ∃ value,
      ((slice entry lo entry.length : Faulting Unit _) >>= readWord base) = .ok value := by
    intro lo fits
    rw [slice_eq (by omega) le_rfl]
    exact readWord_eq bases (by
      rw [bytesBetween_length (by omega) le_rfl]
      omega)
  obtain ⟨lo, readLo⟩ := tail (k * base) (by omega)
  obtain ⟨hi, readHi⟩ := tail ((k + 1) * base) last
  obtain ⟨loBytes, sliced, readLo⟩ := bind_eq_ok.mp readLo
  obtain ⟨hiBytes, slicedHi, readHi⟩ := bind_eq_ok.mp readHi
  exact .step sliced (.step readLo (.step slicedHi (.step readHi spanFrom_faultless)))

/-- A block of its layout's length is read without a fault, and forwards. -/
theorem inBlock_faultless {i : Nat} {want : Option UInt8} (bases : base = 4 ∨ base = 8)
    (some_slots : 0 < slots) (room : 8 ≤ slots * width)
    (sized : block.length = blockBytes slots width base fp) (table : Faultless overflow fun _ => True) :
    Faultless (inBlock slots width fp base block overflow i want) fun e => e.1.1 ≤ e.1.2 := by
  have k_lt := Nat.mod_lt i some_slots
  rw [blockBytes] at sized
  have offsets : (i % slots + 2) * width ≤ (slots + 1) * width := Nat.mul_le_mul_right _ (by omega)
  have next : (i % slots + 1) * width + width = (i % slots + 2) * width := by ring
  have here : i % slots * width + width = (i % slots + 1) * width := by ring
  have all : (slots + 1) * width = slots * width + width := by ring
  rw [inBlock]
  refine stamped_faultless (Q := fun span => span.1 ≤ span.2) (fun has => ?_) ?_
  · rw [has, Nat.mul_one] at sized
    rw [index_eq (by omega)]
    trivial
  · obtain ⟨first, read⟩ := @readWord_eq block base bases (by omega)
    refine .step read (.step (slice_eq (by omega) (by omega)) ?_)
    split
    · refine .step (slice_eq (by omega) (by omega)) (.step (word_eq ?_) ?_)
      · rw [bytesBetween_length (by omega) (by omega)]
        omega
      · refine .step (slice_eq (by omega) (by omega)) (.step (word_eq ?_) spanFrom_faultless)
        rw [bytesBetween_length (by omega) (by omega)]
        omega
    · refine .bind table fun table _ => .step (slice_eq (by omega) le_rfl) ?_
      refine overflowSpan_faultless bases ?_ k_lt
      rw [bytesBetween_length (by omega) le_rfl]
      omega

end Blocks

/-! ## The offsets table -/

section Table

variable {bytes : List UInt8} {tag : UInt8} {n dataStart i : Nat}

/-- The two layouts of blocks: how many slots a block has, and how wide its offsets are. -/
def BlockLayout (layout : UInt8) (slots width : Nat) : Prop :=
  layout = BLOCK_U8 ∧ slots = B_U8 ∧ width = 1 ∨ layout = BLOCK_U16 ∧ slots = B_U16 ∧ width = 2

theorem BlockLayout.sizes {layout : UInt8} {slots width : Nat}
    (shape : BlockLayout layout slots width) : 0 < slots ∧ 8 ≤ slots * width := by
  obtain ⟨-, rfl, rfl⟩ | ⟨-, rfl, rfl⟩ := shape <;> decide

theorem BlockLayout.not_merged {layout : UInt8} {slots width : Nat}
    (shape : BlockLayout layout slots width) : layout ≠ MERGED := by
  obtain ⟨rfl, -, -⟩ | ⟨rfl, -, -⟩ := shape <;> decide

/-- Slot `i`'s block starts where the table says, and ends in it. -/
theorem block_inside {slots size : Nat} (some_slots : 0 < slots) (slot : i < n)
    (table : (checkedMul (divCeil n slots) size).bind (checkedAdd · HEADER) = some dataStart) :
    i / slots * size < 2 ^ 64 ∧ HEADER + i / slots * size + size ≤ dataStart ∧
      dataStart < 2 ^ 64 := by
  obtain ⟨whole, product, sum⟩ := Option.bind_eq_some_iff.mp table
  obtain ⟨fits, rfl⟩ := checkedMul_eq_some.mp product
  obtain ⟨small, rfl⟩ := checkedAdd_eq_some.mp sum
  have before : i / slots < divCeil n slots :=
    lt_divCeil_of_mul_lt some_slots (Nat.lt_of_le_of_lt (Nat.mul_div_le i slots) slot)
  have upTo : (i / slots + 1) * size ≤ divCeil n slots * size := Nat.mul_le_mul_right _ before
  rw [Nat.succ_mul] at upTo
  omega

theorem prefixLen_block {slots width : Nat} (shape : BlockLayout (split tag).layout slots width) :
    prefixLen tag n = (checkedMul (divCeil n slots)
      (blockBytes slots width (split tag).base (split tag).fp)).bind (checkedAdd · HEADER) := by
  have other : ¬ BLOCK_U16 = BLOCK_U8 := by decide
  obtain ⟨layout, rfl, rfl⟩ | ⟨layout, rfl, rfl⟩ := shape
  · rw [prefixLen]
    simp only [layout, if_true]
    rfl
  · rw [prefixLen]
    simp only [layout, if_neg other, if_true]
    rfl

theorem prefixLen_flat (u8 : (split tag).layout ≠ BLOCK_U8) (u16 : (split tag).layout ≠ BLOCK_U16)
    (table : prefixLen tag n = some dataStart) :
    n * ((split tag).layout.toNat + (split tag).fp) + (split tag).layout.toNat + HEADER = dataStart ∧
      dataStart < 2 ^ 64 := by
  rw [prefixLen] at table
  simp only [if_neg u8, if_neg u16] at table
  obtain ⟨rows, product, table⟩ := Option.bind_eq_some_iff.mp table
  obtain ⟨whole, sum, last⟩ := Option.bind_eq_some_iff.mp table
  obtain ⟨-, rfl⟩ := checkedMul_eq_some.mp product
  obtain ⟨-, rfl⟩ := checkedAdd_eq_some.mp sum
  obtain ⟨small, rfl⟩ := checkedAdd_eq_some.mp last
  exact ⟨rfl, small⟩

theorem offsetsStartIn_block {ε : Type} {layout : UInt8} {slots width base fp : Nat}
    (shape : BlockLayout layout slots width) (fits : i / slots * blockBytes slots width base fp < 2 ^ 64)
    (sum : HEADER + i / slots * blockBytes slots width base fp < 2 ^ 64) :
    (offsetsStartIn layout base fp i : Faulting ε Nat) =
      .ok (HEADER + i / slots * blockBytes slots width base fp) := by
  obtain ⟨rfl, rfl, rfl⟩ | ⟨rfl, rfl, rfl⟩ := shape
  · rw [offsetsStartIn, if_pos rfl, mul_eq fits]
    exact add_eq sum
  · rw [offsetsStartIn, if_neg (by decide), if_pos rfl, mul_eq fits]
    exact add_eq sum

theorem offsetsStartIn_flat {ε : Type} {layout : UInt8} {base fp : Nat} (u8 : layout ≠ BLOCK_U8)
    (u16 : layout ≠ BLOCK_U16) (sum : HEADER + i * layout.toNat < 2 ^ 64) :
    (offsetsStartIn layout base fp i : Faulting ε Nat) = .ok (HEADER + i * layout.toNat) := by
  rw [offsetsStartIn, if_neg u8, if_neg u16, mul_eq (by omega)]
  exact add_eq sum

/-- A slot of a block layout is read in its block, if the bytes hold all of it. -/
theorem entryIn_block {g : Geometry} {overflow : Faulting Unit (List UInt8)}
    {start slots width : Nat} {want : Option UInt8} (shape : BlockLayout g.layout slots width)
    (starts : offsetsStartIn g.layout g.base g.fp i = .ok (ε := Stop Unit) start)
    (fits : start + blockBytes slots width g.base g.fp < 2 ^ 64) :
    entryIn bytes overflow g n i want =
      (get () bytes start (start + blockBytes slots width g.base g.fp) >>= fun block =>
        inBlock slots width g.fp g.base block overflow i want) := by
  obtain ⟨layout, rfl, rfl⟩ | ⟨layout, rfl, rfl⟩ := shape
  · rw [entryIn, starts]
    refine (if_pos layout).trans ?_
    rw [checkedAdd_eq_some.mpr ⟨fits, rfl⟩]
    rfl
  · rw [entryIn, starts]
    refine (if_neg (by rw [layout]; decide)).trans ((if_pos layout).trans ?_)
    rw [checkedAdd_eq_some.mpr ⟨fits, rfl⟩]
    rfl

section Entries

variable {overflow : Faulting Unit (List UInt8)} {want : Option UInt8} (slot : i < n)
  (table : prefixLen tag n = some dataStart) (overflowed : Faultless overflow fun _ => True)
include slot table

include overflowed in
theorem entryOf_block_faultless {slots width : Nat}
    (shape : BlockLayout (split tag).layout slots width) :
    Faultless (entryOf bytes overflow tag n i want) fun e => e.1.1 ≤ e.1.2 := by
  obtain ⟨some_slots, room⟩ := shape.sizes
  rw [prefixLen_block shape] at table
  obtain ⟨fits, inside, word⟩ := block_inside some_slots slot table
  rw [entryOf, entryIn_block shape (offsetsStartIn_block shape fits (by omega)) (by omega)]
  refine .bind .get fun block got => ?_
  obtain ⟨le, within, rfl⟩ := got
  refine inBlock_faultless (split_base tag) some_slots room ?_ overflowed
  rw [bytesBetween_length le within]
  omega

theorem entryOf_flat_faultless (u8 : (split tag).layout ≠ BLOCK_U8)
    (u16 : (split tag).layout ≠ BLOCK_U16)
    (widths : (split tag).layout.toNat = 4 ∨ (split tag).layout.toNat = 8) :
    Faultless (entryOf bytes overflow tag n i want) fun e => e.1.1 ≤ e.1.2 := by
  obtain ⟨rfl, word⟩ := prefixLen_flat u8 u16 table
  have rows : n * ((split tag).layout.toNat + (split tag).fp) =
      n * (split tag).layout.toNat + n * (split tag).fp := Nat.mul_add ..
  have upTo : i * (split tag).layout.toNat + (split tag).layout.toNat ≤
      n * (split tag).layout.toNat := by
    rw [← Nat.succ_mul]
    exact Nat.mul_le_mul_right _ slot
  have past : (n + 1) * (split tag).layout.toNat =
      n * (split tag).layout.toNat + (split tag).layout.toNat := Nat.succ_mul ..
  have few : n ≤ n * (split tag).layout.toNat := Nat.le_mul_of_pos_right n (by omega)
  rw [entryOf, entryIn]
  refine .step (offsetsStartIn_flat u8 u16 (by omega)) ?_
  rw [if_neg u8, if_neg u16]
  refine stamped_faultless (Q := fun span => span.1 ≤ span.2) (fun has => ?_) ?_
  · rw [has] at rows word
    rw [Nat.mul_one] at rows
    refine .step (add_eq (by omega)) (.step (mul_eq (by omega)) ?_)
    refine .step (add_eq (by omega)) (.step (add_eq (by omega)) ?_)
    exact .ofOption fun _ _ => trivial
  · refine .bind (readOffset_faultless widths).recast fun lo _ => ?_
    refine .step (add_eq (by omega)) ?_
    exact .bind (readOffset_faultless widths).recast fun hi _ => spanFrom_faultless

include overflowed in
/-- The checked read of a slot under every layout but the merged one. -/
theorem entryOf_faultless (known : StringArena.known tag = true)
    (blocked : (split tag).layout ≠ MERGED) :
    Faultless (entryOf bytes overflow tag n i want) fun e => e.1.1 ≤ e.1.2 := by
  by_cases u8 : (split tag).layout = BLOCK_U8
  · exact entryOf_block_faultless slot table overflowed (.inl ⟨u8, rfl, rfl⟩)
  by_cases u16 : (split tag).layout = BLOCK_U16
  · exact entryOf_block_faultless slot table overflowed (.inr ⟨u16, rfl, rfl⟩)
  refine entryOf_flat_faultless slot table u8 u16 ?_
  rcases known_layout tag known with at_ | at_ | at_ | at_ | at_
  · exact absurd at_ u8
  · exact absurd at_ u16
  · exact .inl (by rw [at_]; rfl)
  · exact .inr (by rw [at_]; rfl)
  · exact absurd at_ blocked

end Entries

end Table

/-! ## Packed entries -/

/-- What a load proves of a merged arena's entries. -/
structure Packs (tag : UInt8) (n dataStart : Nat) (p : Packed) : Prop where
  narrow : p.width ≤ 57
  someBits : 0 < n → 0 < p.width
  lenBits : p.lenBits ≤ p.width
  minLen : p.minLen < 2 ^ 32
  mask : p.mask < 2 ^ 57
  bits : n * p.width < 2 ^ 64
  table : divCeil (n * p.width) 8 + (HEADER + PARAMS + PAD) + (if tag &&& FP ≠ 0 then n else 0) =
    dataStart
  word : dataStart < 2 ^ 64

section Packed

variable {bytes table : List UInt8}

theorem leNat_bytesBetween_lt {lo hi : Nat} (size : Nat) (le : lo ≤ hi) (inside : hi ≤ bytes.length)
    (sized : hi - lo = size) : leNat (bytesBetween bytes lo hi) < 256 ^ size := by
  have small := leNat_lt (bytesBetween bytes lo hi)
  rwa [bytesBetween_length le inside, sized] at small

theorem shiftLeft_one {k : Nat} (small : k < 64) : 1 <<< k % 2 ^ 64 = 2 ^ k := by
  rw [Nat.one_shiftLeft]
  exact Nat.mod_eq_of_lt (Nat.pow_lt_pow_right (by decide) small)

theorem packed_read_faultless {tag : UInt8} {n : Nat} :
    Faultless (Packed.read bytes tag n) fun read => Packs tag n read.1 read.2.2 := by
  rw [Packed.read]
  refine .bind .get fun p got => ?_
  obtain ⟨le, within, rfl⟩ := got
  have length : (bytesBetween bytes HEADER (HEADER + PARAMS)).length = 14 := by
    rw [bytesBetween_length le within]
    rfl
  generalize bytesBetween bytes HEADER (HEADER + PARAMS) = p at length
  refine .step (slice_eq (by decide) (by omega)) (.step (word_eq ?_) ?_)
  · rw [bytesBetween_length (by decide) (by omega)]
  have minLen : leNat (bytesBetween p 0 4) < 256 ^ 4 :=
    leNat_bytesBetween_lt 4 (by decide) (by omega) rfl
  refine .step (index_eq (by omega)) (.step (index_eq (by omega)) ?_)
  refine .step (slice_eq (by decide) (by omega)) (.step (word_eq ?_) ?_)
  · rw [bytesBetween_length (by decide) (by omega)]
  refine .bind .refuseIf fun _ narrow => .bind .refuseIf fun _ someBits => ?_
  rw [MAX_WIDTH] at narrow
  refine .bind (.ofOption fun entries chain => chain) fun entries chain => ?_
  obtain ⟨bits, product, chain⟩ := Option.bind_eq_some_iff.mp chain
  obtain ⟨front, sum, total⟩ := Option.bind_eq_some_iff.mp chain
  obtain ⟨fits, rfl⟩ := checkedMul_eq_some.mp product
  obtain ⟨-, rfl⟩ := checkedAdd_eq_some.mp sum
  obtain ⟨word, rfl⟩ := checkedAdd_eq_some.mp total
  have positive : ∀ k, 0 < 2 ^ k := fun k => Nat.two_pow_pos k
  refine .step (shiftLeft_eq (by omega)) ?_
  rw [shiftLeft_one (by omega)]
  refine .step (sub_eq (positive _)) (.step (shiftLeft_eq (by omega)) ?_)
  rw [shiftLeft_one (by omega)]
  refine .step (sub_eq (positive _)) (.ok ?_)
  refine ⟨Nat.le_of_not_lt narrow, fun some => Nat.pos_of_ne_zero fun zero => someBits ⟨zero, some⟩,
    Nat.le_add_left _ _, minLen, ?_, fits, rfl, word⟩
  exact Nat.lt_of_lt_of_le (Nat.sub_one_lt (Nat.ne_of_gt (positive _)))
    (Nat.pow_le_pow_right (by decide) (by omega))

theorem slotAt_eq {j : Nat} (inside : j < table.length / SLOT_LEN) :
    ∃ slot, slotAt table j = .ok slot := by
  have room : (j + 1) * SLOT_LEN ≤ table.length :=
    (Nat.mul_le_mul_right _ inside).trans (Nat.div_mul_le_self ..)
  rw [Nat.succ_mul] at room
  have size : SLOT_LEN = 8 := rfl
  rw [slotAt, slice_eq (by omega) (by omega)]
  exact ⟨_, word_eq (by
    rw [bytesBetween_length (by omega) (by omega)]
    omega)⟩

/-- A search reads only entries of the table, in order or not. -/
theorem searchSlot_faultless {slot lo hi : Nat} (within : hi ≤ table.length / SLOT_LEN) :
    Faultless (searchSlot table slot lo hi) fun _ => True := by
  induction size : hi - lo using Nat.strong_induction_on generalizing lo hi with
  | _ size ih =>
      rw [searchSlot]
      split
      · obtain ⟨here, read⟩ := @slotAt_eq table (lo + (hi - lo) / 2) (by omega)
        refine .step read ?_
        split
        · exact @ih (hi - (lo + (hi - lo) / 2 + 1)) (by omega) _ _ within rfl
        · exact @ih (lo + (hi - lo) / 2 - lo) (by omega) _ _ (by omega) rfl
      · trivial

theorem escapedLen_faultless {i : Nat} :
    Faultless (escapedLen table i) fun len => len < 2 ^ 32 := by
  rw [escapedLen]
  refine .bind .refuseIf fun _ _ => .bind (searchSlot_faultless le_rfl) fun found _ => ?_
  refine .bind .refuseIf fun _ inside => ?_
  obtain ⟨here, read⟩ := @slotAt_eq table found (Nat.lt_of_not_le inside)
  refine .step read (.bind .refuseIf fun _ _ => ?_)
  have room : (found + 1) * SLOT_LEN ≤ table.length :=
    (Nat.mul_le_mul_right _ (Nat.lt_of_not_le inside)).trans (Nat.div_mul_le_self ..)
  have next : (found + 1) * SLOT_LEN = found * SLOT_LEN + SLOT_LEN := Nat.succ_mul ..
  have size : SLOT_LEN = 8 := rfl
  refine .step (slice_eq (by omega) room) ?_
  rw [word_eq (by
    rw [bytesBetween_length (by omega) room]
    omega)]
  exact leNat_bytesBetween_lt 4 (by omega) room (by omega)

end Packed

end Lexindex.Arena

namespace Lexindex.StringArena

open Arena Faulting
open Mphf (IndexError)

/-! ## What a load proves -/

/-- A loaded arena: its parts are in order in the blob, and the table before them is its tag's. -/
structure Valid (a : StringArena) : Prop where
  start : a.dataStart ≤ a.dataEnd
  stop : a.dataEnd ≤ a.overflowEnd
  inside : a.overflowEnd ≤ a.blob.bytes.length
  len : a.dataLen = a.dataEnd - a.dataStart
  plain : a.plain = a.tag &&& ~~~OVERFLOW
  known : known a.tag = true
  table : (split a.tag).layout ≠ MERGED → prefixLen a.tag a.n = some a.dataStart
  packs : (split a.tag).layout = MERGED → Packs a.tag a.n a.dataStart a.packed

section Load

variable {bytes : List UInt8} {tag : UInt8} {n dataStart : Nat}

theorem readTable_faultless : Faultless (readTable bytes tag n) fun read =>
    ((split tag).layout ≠ MERGED → prefixLen tag n = some read.1) ∧
      ((split tag).layout = MERGED → Packs tag n read.1 read.2.2) ∧
      (read.2.1 = none → (split tag).layout ≠ MERGED) := by
  rw [readTable]
  split
  · next merged =>
    refine .bind packed_read_faultless fun read packs => .ok ?_
    exact ⟨fun other => absurd merged other, fun _ => packs, fun none => by cases none⟩
  · next other =>
    refine .bind (.ofOption fun start table => table) fun start table => .ok ?_
    exact ⟨fun _ => table, fun merged => absurd merged other, fun _ => other⟩

theorem readEnds_faultless (room : dataStart ≤ bytes.length) :
    Faultless (readEnds bytes tag dataStart) fun ends =>
      dataStart ≤ ends.1 ∧ ends.1 ≤ ends.2 ∧ ends.2 ≤ bytes.length := by
  rw [readEnds]
  split
  · refine .bind .refuseIf fun _ fits => ?_
    rw [not_not, TRAILER] at fits
    refine .bind (readOffset_faultless (.inr rfl)) fun len _ => ?_
    refine .step (sub_eq fits.2) (.bind .refuseIf fun _ inside => ?_)
    rw [not_not, TRAILER] at inside
    rw [TRAILER]
    refine .step (sub_eq (by omega)) (.ok ?_)
    change dataStart ≤ bytes.length - 8 - len ∧ bytes.length - 8 - len ≤ bytes.length - 8 ∧
      bytes.length - 8 ≤ bytes.length
    omega
  · exact .ok ⟨room, le_rfl, le_rfl⟩

theorem readSpan_faultless {overflow : Faulting Unit (List UInt8)} (known : known tag = true)
    (blocked : (split tag).layout ≠ MERGED) (table : prefixLen tag n = some dataStart)
    (overflowed : Faultless overflow fun _ => True) :
    Faultless (readSpan bytes overflow tag n) fun _ => True := by
  rw [readSpan]
  split
  · exact .ok trivial
  · have first := fun i slot =>
      @entryOf_faultless bytes tag n dataStart i overflow none slot table overflowed known blocked
    refine .bind (first 0 (by omega)).recast fun _ _ => ?_
    exact .bind (first (n - 1) (by omega)).recast fun _ _ => .ok trivial

/-- A load does not fault, and what it accepts is valid. -/
theorem fromShared_faultless (blob : SharedBytes) : Faultless (fromShared blob) fun a =>
    a.Valid ∧ a.blob = blob := by
  rw [fromShared]
  refine .bind (readOffset_faultless (.inr rfl)) fun nOff _ => ?_
  refine .bind .refuseIf fun _ some => .step (sub_eq (by omega)) ?_
  refine .bind (.ofOption (Q := fun tag => known tag = true) fun tag found => ?_) fun tag known => ?_
  · exact (Option.filter_eq_some_iff.mp found).2
  refine .bind readTable_faultless fun read tables => ?_
  obtain ⟨dataStart, mergedLen, packed⟩ := read
  obtain ⟨table, packs, blocked⟩ := tables
  refine .bind .refuseIf fun _ room => ?_
  refine .bind (readEnds_faultless (Nat.le_of_not_lt room)) fun ends bounds => ?_
  obtain ⟨dataEnd, overflowEnd⟩ := ends
  obtain ⟨start, stop, inside⟩ := bounds
  refine .step (sub_eq start) ?_
  cases mergedLen with
  | some len =>
      refine .bind .refuseIf fun _ _ => .ok ?_
      exact ⟨⟨start, stop, inside, rfl, rfl, known, table, packs⟩, rfl⟩
  | none =>
      have other := blocked rfl
      refine .bind (readSpan_faultless known other (table other) ?_) fun ends _ => ?_
      · rw [slice_eq stop inside]
        trivial
      refine .bind .refuseIf fun _ _ => .ok ?_
      exact ⟨⟨start, stop, inside, rfl, rfl, known, table, packs⟩, rfl⟩

end Load

/-! ## Slots -/

section Slots

variable {a : StringArena} (valid : a.Valid) {i : Nat} {want : Option UInt8}
include valid

theorem Valid.overflow : Faultless a.overflow fun _ => True := by
  rw [StringArena.overflow, slice_eq valid.stop valid.inside]
  trivial

theorem Valid.fits : a.overflowEnd < 2 ^ 63 :=
  Nat.lt_of_le_of_lt valid.inside a.blob.fits

/-- A packed entry is read inside the table, and its span held to the data. -/
theorem Valid.mergedEntry {fp : Nat} (merged : (split a.tag).layout = MERGED)
    (bit : fp = if a.tag &&& FP ≠ 0 then 1 else 0) (slot : i < a.n) :
    Faultless (a.mergedEntry fp i want) fun e =>
      a.dataStart ≤ e.1.1 ∧ e.1.1 ≤ e.1.2 ∧ e.1.2 ≤ a.dataEnd := by
  have packs := valid.packs merged
  have row : (if a.tag &&& FP ≠ 0 then a.n else 0) = fp * a.n := by
    rw [bit]
    split
    · exact (Nat.one_mul _).symm
    · exact (Nat.zero_mul _).symm
  have table := packs.table
  have front : HEADER + PARAMS = 23 := rfl
  have pad : PAD = 7 := rfl
  rw [row] at table
  have some_bits := packs.someBits (Nat.zero_lt_of_lt slot)
  have upTo : i * a.packed.width + a.packed.width ≤ a.n * a.packed.width := by
    rw [← Nat.succ_mul]
    exact Nat.mul_le_mul_right _ slot
  have byte : i * a.packed.width / 8 < divCeil (a.n * a.packed.width) 8 :=
    lt_divCeil_of_mul_lt (by decide) (by omega)
  have fits := valid.fits
  have len := valid.len
  have start := valid.start
  have stop := valid.stop
  have inside := valid.inside
  have bits := packs.bits
  rw [StringArena.mergedEntry]
  refine stamped_faultless (Q := fun span => a.dataStart ≤ span.1 ∧ span.1 ≤ span.2 ∧
    span.2 ≤ a.dataEnd) (fun has => ?_) ?_
  · rw [has, Nat.one_mul] at table
    refine .step (add_eq (by omega)) ?_
    rw [byteUnchecked_eq (by omega)]
    trivial
  rw [mergedSpan]
  refine .step (mul_eq (by omega)) (.step (mul_eq (by omega)) ?_)
  refine .step (add_eq (by omega)) (.step (add_eq (by omega)) (.step (add_eq (by omega)) ?_))
  refine .step (getUnchecked_eq (by omega) (by omega)) (.step (word_eq ?_) ?_)
  · rw [bytesBetween_length (by omega) (by omega)]
    omega
  have lenBits := packs.lenBits
  have narrow := packs.narrow
  refine .step (shiftRight_eq (by omega)) (.step (shiftRight_eq (by omega)) ?_)
  generalize leNat _ >>> (i * a.packed.width % 8) = shifted
  have entryLe : shifted &&& a.packed.mask ≤ a.packed.mask := Nat.and_le_right
  have startLe := Nat.shiftRight_le (shifted &&& a.packed.mask) a.packed.lenBits
  generalize (shifted &&& a.packed.mask) >>> a.packed.lenBits = placed at startLe ⊢
  have fieldLe : shifted &&& a.packed.mask &&& a.packed.fieldMask ≤ shifted &&& a.packed.mask :=
    Nat.and_le_left
  have mask := packs.mask
  have minLen := packs.minLen
  refine .bind (Q := fun len => len < 2 ^ 58) ?_ fun size small => ?_
  · split
    · refine .bind valid.overflow fun table _ => ?_
      exact escapedLen_faultless.mono fun _ less => by omega
    · rw [add_eq (by omega)]
      exact .ok (by omega)
  refine .step (add_eq (by omega)) (.bind .refuseIf fun _ held => ?_)
  refine .step (add_eq (by omega)) (.step (add_eq (by omega)) (.ok ?_))
  dsimp only
  omega

theorem Valid.blockedEntry (blocked : (split a.tag).layout ≠ MERGED) (slot : i < a.n) :
    Faultless (a.blockedEntry i want) fun e =>
      a.dataStart ≤ e.1.1 ∧ e.1.1 ≤ e.1.2 ∧ e.1.2 ≤ a.dataEnd := by
  rw [StringArena.blockedEntry]
  refine .bind (entryOf_faultless slot (valid.table blocked) valid.overflow valid.known blocked)
    fun e forwards => ?_
  obtain ⟨⟨lo, hi⟩, fp⟩ := e
  change lo ≤ hi at forwards
  refine .bind .refuseIf fun _ held => ?_
  have fits := valid.fits
  have len := valid.len
  have start := valid.start
  have stop := valid.stop
  refine .step (add_eq (by omega)) (.step (add_eq (by omega)) (.ok ?_))
  dsimp only
  omega

/-- A slot's checked read does not fault, and a span it answers is inside the data. -/
theorem Valid.entry : Faultless (a.entry i want) fun e =>
    a.dataStart ≤ e.1.1 ∧ e.1.1 ≤ e.1.2 ∧ e.1.2 ≤ a.dataEnd := by
  rw [StringArena.entry]
  refine .bind .refuseIf fun _ slot => ?_
  have slot := Nat.lt_of_not_le slot
  split
  · next merged =>
    split
    · next has => exact valid.mergedEntry merged (if_pos has).symm slot
    · next none => exact valid.mergedEntry merged (if_neg none).symm slot
  · next blocked => exact valid.blockedEntry blocked slot

end Slots

/-! ## Keys in place -/

section Holds

variable {a : StringArena} (valid : a.Valid) {i : Nat} {want : Option UInt8} {key : List UInt8}

/-- Whether a slot's checked read gives the key, the fingerprint wanted or none. -/
def ReadsAs (a : StringArena) (i : Nat) (want : Option UInt8) (key : List UInt8) : Prop :=
  ∃ e, a.entry i want = .ok e ∧ a.bytesAt e.1 = .ok key

include valid

theorem Valid.bytesAt {lo hi : Nat} (le : lo ≤ hi) (within : hi ≤ a.dataEnd) :
    a.bytesAt (lo, hi) = .ok (bytesBetween a.blob.bytes lo hi) :=
  get_eq le (within.trans (valid.stop.trans valid.inside))

/-- Bytes in place are the key's where they are as many and the same. -/
theorem Valid.bytesAt_iff {lo hi : Nat} (le : lo ≤ hi) (within : hi ≤ a.dataEnd) :
    a.bytesAt (lo, hi) = .ok key ↔
      hi - lo = key.length ∧ (bytesBetween a.blob.bytes lo hi == key) = true := by
  have inside := within.trans (valid.stop.trans valid.inside)
  rw [valid.bytesAt le within, Except.ok.injEq, beq_iff_eq]
  constructor
  · rintro rfl
    exact ⟨(bytesBetween_length le inside).symm, rfl⟩
  · exact fun same => same.2

/-- A slot's entry relative to the data, and the span that is checked. -/
theorem Valid.blockedEntry_eq {lo hi : Nat} {fp : UInt8} (forwards : lo ≤ hi)
    (found : entryOf a.blob.bytes a.overflow a.tag a.n i want = .ok ((lo, hi), fp)) :
    a.blockedEntry i want =
      if a.dataLen < hi then .error (.refused ()) else .ok ((a.dataStart + lo, a.dataStart + hi), fp) := by
  rw [StringArena.blockedEntry, found]
  split
  · next past =>
    change refuseIf (a.dataLen < hi) () >>= _ = _
    rw [refuseIf, if_pos past]
    rfl
  · next held =>
    change refuseIf (a.dataLen < hi) () >>= _ = _
    have fits := valid.fits
    have len := valid.len
    have start := valid.start
    have stop := valid.stop
    rw [refuseIf_eq held]
    change (add a.dataStart lo >>= _) = _
    rw [add_eq (by omega)]
    change (add a.dataStart hi >>= _) = _
    rw [add_eq (by omega)]
    rfl

/-- A key compared in its block's data is compared with the checked read. -/
theorem Valid.comparedInData {run : Faulting Unit Entry}
    (forwards : Faultless run fun e => e.1.1 ≤ e.1.2)
    (same : entryOf a.blob.bytes a.overflow a.tag a.n i want = run)
    (blocked : a.entry i want = a.blockedEntry i want) :
    ∃ answer, (attempt run >>= fun found => a.comparedInData found key) = .ok answer ∧
      (answer = true ↔ a.ReadsAs i want key) := by
  rcases forwards.attempt (δ := Unit) with ⟨e, ran, le, caught⟩ | ⟨⟨error, ran⟩, caught⟩
  · obtain ⟨⟨lo, hi⟩, fp⟩ := e
    change lo ≤ hi at le
    rw [caught]
    change ∃ answer, a.comparedInData (some ((lo, hi), fp)) key = .ok answer ∧ _
    have whole := valid.blockedEntry_eq le (same.trans ran)
    rw [StringArena.comparedInData]
    by_cases past : a.dataLen < hi
    · rw [if_pos past] at whole ⊢
      refine ⟨false, rfl, iff_of_false Bool.noConfusion ?_⟩
      rintro ⟨e, read, -⟩
      rw [blocked, whole] at read
      cases read
    · rw [if_neg past] at whole ⊢
      have fits := valid.fits
      have len := valid.len
      have start := valid.start
      have stop := valid.stop
      have inside := valid.inside
      have readsAs : a.ReadsAs i want key ↔ hi - lo = key.length ∧
          (bytesBetween a.blob.bytes (a.dataStart + lo) (a.dataStart + hi) == key) = true := by
        rw [← Nat.add_sub_add_left a.dataStart hi lo, ← valid.bytesAt_iff (by omega) (by omega),
          ReadsAs, blocked, whole]
        constructor
        · rintro ⟨e, read, bytes⟩
          cases read
          exact bytes
        · exact fun bytes => ⟨_, rfl, bytes⟩
      rw [readsAs, sub_eq le]
      change ∃ answer, (if hi - lo ≠ key.length then _ else _) = _ ∧ _
      by_cases long : hi - lo = key.length
      · rw [if_neg (not_not.mpr long), add_eq (by omega)]
        change ∃ answer, (add a.dataStart hi >>= _) = _ ∧ _
        rw [add_eq (by omega)]
        change ∃ answer, (getUnchecked _ _ _ >>= _) = _ ∧ _
        rw [getUnchecked_eq (by omega) (by omega)]
        exact ⟨_, rfl, by simp [long]⟩
      · rw [if_pos long]
        exact ⟨false, rfl, iff_of_false Bool.noConfusion fun both => long both.1⟩
  · rw [caught]
    refine ⟨false, rfl, iff_of_false Bool.noConfusion ?_⟩
    rintro ⟨e, read, -⟩
    rw [blocked, StringArena.blockedEntry, same, ran] at read
    cases read

theorem Valid.tableAt_eq {start len : Nat} (within : start + len ≤ a.dataStart) :
    a.tableAt start len = .ok (bytesBetween a.blob.bytes start (start + len)) := by
  have fits := valid.fits
  have first := valid.start
  have stop := valid.stop
  have inside := valid.inside
  rw [StringArena.tableAt, add_eq (by omega)]
  change (if start + len ≤ a.dataStart then _ else _) = _
  rw [if_pos within, getUnchecked_eq (by omega) (by omega)]

omit valid in
theorem entry_past (past : a.n ≤ i) : a.entry i want = .error (.refused ()) := by
  rw [StringArena.entry, refuseIf, if_pos past]
  rfl

omit valid in
theorem entry_blocked (slot : i < a.n) (blocked : (split a.tag).layout ≠ MERGED) :
    a.entry i want = a.blockedEntry i want := by
  rw [StringArena.entry, refuseIf_eq (Nat.not_le.mpr slot)]
  exact if_neg blocked

omit valid in
theorem entry_merged {fp : Nat} (slot : i < a.n) (merged : (split a.tag).layout = MERGED)
    (bit : fp = if a.tag &&& FP ≠ 0 then 1 else 0) : a.entry i want = a.mergedEntry fp i want := by
  rw [StringArena.entry, refuseIf_eq (Nat.not_le.mpr slot)]
  refine (if_pos merged).trans ?_
  rw [bit]
  split <;> rfl

/-- The block a lookup slices unchecked is the one the checked read gets. -/
theorem Valid.holdsBlock {layout : UInt8} {slots width fp : Nat}
    (shape : BlockLayout layout slots width) (g : split a.tag = ⟨layout, NARROW, fp⟩)
    (slot : i < a.n) :
    ∃ answer, (do
        let start ← offsetsStartIn layout NARROW fp i
        let block ← a.tableAt start (blockBytes slots width NARROW fp)
        let found ← attempt (inBlock slots width fp NARROW block a.overflow i want)
        a.comparedInData found key) = .ok answer ∧ (answer = true ↔ a.ReadsAs i want key) := by
  obtain ⟨some_slots, room⟩ := shape.sizes
  have blocked : (split a.tag).layout ≠ MERGED := by
    rw [g]
    exact shape.not_merged
  have table := valid.table blocked
  rw [prefixLen_block (by rw [g]; exact shape), g] at table
  obtain ⟨fits, inside, word⟩ := block_inside some_slots slot table
  have first := valid.start
  have stop := valid.stop
  have whole := valid.inside
  have starts := @offsetsStartIn_block i Unit layout slots width NARROW fp shape fits
    (Nat.lt_of_le_of_lt (Nat.le_add_right _ _) (Nat.lt_of_le_of_lt inside word))
  rw [starts]
  change ∃ answer, (a.tableAt _ _ >>= _) = _ ∧ _
  rw [valid.tableAt_eq inside]
  refine valid.comparedInData (inBlock_faultless (.inl rfl) some_slots room ?_ valid.overflow) ?_
    (entry_blocked slot blocked)
  · rw [bytesBetween_length (Nat.le_add_right _ _) (by omega), Nat.add_sub_cancel_left]
  · rw [entryOf, g, entryIn_block shape starts (Nat.lt_of_le_of_lt inside word)]
    rw [get_eq (Nat.le_add_right _ _) (by omega)]
    rfl

theorem Valid.holdsMerged {fp : Nat} (slot : i < a.n) (merged : (split a.tag).layout = MERGED)
    (bit : fp = if a.tag &&& FP ≠ 0 then 1 else 0) :
    ∃ answer, (attempt (a.mergedEntry fp i want) >>= fun found => a.compared found key) =
      .ok answer ∧ (answer = true ↔ a.ReadsAs i want key) := by
  have read := @entry_merged a i want fp slot merged bit
  rcases (@Valid.mergedEntry a valid i want fp merged bit slot).attempt (δ := Unit) with
    ⟨e, ran, bounds, caught⟩ | ⟨⟨error, ran⟩, caught⟩
  · obtain ⟨⟨lo, hi⟩, stored⟩ := e
    obtain ⟨-, le, within⟩ := bounds
    change lo ≤ hi at le
    change hi ≤ a.dataEnd at within
    have inside := within.trans (valid.stop.trans valid.inside)
    have readsAs : a.ReadsAs i want key ↔
        hi - lo = key.length ∧ (bytesBetween a.blob.bytes lo hi == key) = true := by
      rw [← valid.bytesAt_iff le within, ReadsAs, read, ran]
      constructor
      · rintro ⟨e, same, bytes⟩
        cases same
        exact bytes
      · exact fun bytes => ⟨_, rfl, bytes⟩
    rw [caught, readsAs]
    change ∃ answer, (sub hi lo >>= _) = _ ∧ _
    rw [sub_eq le]
    change ∃ answer, (if hi - lo ≠ key.length then _ else _) = _ ∧ _
    by_cases long : hi - lo = key.length
    · rw [if_neg (not_not.mpr long), getUnchecked_eq le inside]
      exact ⟨_, rfl, by simp [long]⟩
    · rw [if_pos long]
      exact ⟨false, rfl, iff_of_false Bool.noConfusion fun both => long both.1⟩
  · rw [caught]
    refine ⟨false, rfl, iff_of_false Bool.noConfusion ?_⟩
    rintro ⟨e, same, -⟩
    rw [read, ran] at same
    cases same

theorem Valid.holdsIn {fp : Nat} (bit : fp = 0 ∨ fp = 1) :
    ∃ answer, a.holdsIn fp i key want = .ok answer ∧ (answer = true ↔ a.ReadsAs i want key) := by
  rw [StringArena.holdsIn, valid.plain]
  by_cases past : a.n ≤ i
  · rw [if_pos past]
    refine ⟨false, rfl, iff_of_false Bool.noConfusion ?_⟩
    rintro ⟨e, read, -⟩
    rw [entry_past past] at read
    cases read
  have slot := Nat.lt_of_not_le past
  rw [if_neg past]
  by_cases u16 : a.tag &&& ~~~OVERFLOW = BLOCK_U16 ||| fpBit fp
  · rw [if_pos u16]
    exact valid.holdsBlock (.inr ⟨rfl, rfl, rfl⟩) (split_of_plain (.inr (.inl rfl)) bit u16) slot
  rw [if_neg u16]
  by_cases u8 : a.tag &&& ~~~OVERFLOW = BLOCK_U8 ||| fpBit fp
  · rw [if_pos u8]
    exact valid.holdsBlock (.inl ⟨rfl, rfl, rfl⟩) (split_of_plain (.inl rfl) bit u8) slot
  rw [if_neg u8]
  by_cases merged : a.tag &&& ~~~OVERFLOW = MERGED ||| fpBit fp
  · have g := split_of_plain (.inr (.inr rfl)) bit merged
    rw [if_pos merged]
    exact valid.holdsMerged slot (by rw [g]) (by rw [← split_fp, g])
  rw [if_neg merged]
  have faultless : Faultless (do
      let e ← a.entry i want
      a.bytesAt e.1) fun bytes => ∃ e, a.entry i want = .ok e ∧ a.bytesAt e.1 = .ok bytes := by
    cases read : a.entry i want with
    | ok e =>
        have bounds := valid.entry.answer read
        refine .step rfl ?_
        rw [valid.bytesAt bounds.2.1 bounds.2.2]
        exact ⟨e, rfl, valid.bytesAt bounds.2.1 bounds.2.2⟩
    | error stop =>
        have none := @Valid.entry a valid i want
        rw [read] at none
        cases stop <;> exact none
  rcases faultless.attempt (δ := Unit) with ⟨bytes, ran, read, caught⟩ | ⟨⟨error, ran⟩, caught⟩
  · rw [caught]
    refine ⟨_, rfl, ?_⟩
    rw [beq_iff_eq, Option.some.injEq]
    constructor
    · rintro rfl
      exact read
    · rintro ⟨e, other, same⟩
      rw [other] at ran
      exact Except.ok.inj (ran.symm.trans same)
  · rw [caught]
    refine ⟨_, rfl, ?_⟩
    rw [beq_iff_eq]
    refine iff_of_false (fun same => by cases same) ?_
    rintro ⟨e, other, same⟩
    rw [other] at ran
    exact absurd (ran.symm.trans same) (fun same => by cases same)

omit valid in
theorem entryOf_matching {bytes : List UInt8} {overflow : Faulting Unit (List UInt8)} {tag : UInt8}
    {n : Nat} {fp : UInt8} {e : Entry} : entryOf bytes overflow tag n i (some fp) = .ok e ↔
      entryOf bytes overflow tag n i none = .ok e ∧ ((split tag).fp = 1 → e.2 = fp) := by
  rw [entryOf, entryOf, entryIn, entryIn]
  refine bind_matching fun start => ?_
  by_cases u8 : (split tag).layout = BLOCK_U8
  · rw [if_pos u8, if_pos u8]
    exact bind_matching fun stop => bind_matching fun block => stamped_matching
  · rw [if_neg u8, if_neg u8]
    by_cases u16 : (split tag).layout = BLOCK_U16
    · rw [if_pos u16, if_pos u16]
      exact bind_matching fun stop => bind_matching fun block => stamped_matching
    · rw [if_neg u16, if_neg u16]
      exact stamped_matching

omit valid in
/-- A wanted fingerprint leaves out the slots that store another, and without fingerprints none. -/
theorem entry_matching {fp : UInt8} {e : Entry} : a.entry i (some fp) = .ok e ↔
    a.entry i none = .ok e ∧ (a.hasFingerprints → e.2 = fp) := by
  rcases Nat.lt_or_ge i a.n with slot | past
  · by_cases merged : (split a.tag).layout = MERGED
    · rw [entry_merged slot merged rfl, entry_merged slot merged rfl, StringArena.mergedEntry,
        StringArena.mergedEntry, stamped_matching]
      refine and_congr_right fun _ => ?_
      rw [hasFingerprints]
      by_cases has : a.tag &&& FP ≠ 0 <;> simp [has]
    · rw [entry_blocked slot merged, entry_blocked slot merged, StringArena.blockedEntry,
        StringArena.blockedEntry, bind_eq_ok, bind_eq_ok]
      have same : (split a.tag).fp = 1 ↔ a.hasFingerprints := by
        rw [split_fp, hasFingerprints]
        by_cases has : a.tag &&& FP ≠ 0 <;> simp [has]
      -- What follows the read keeps the fingerprint.
      have kept : ∀ {found : Entry}, (do
          refuseIf (a.dataLen < found.1.2) ()
          let first ← add a.dataStart found.1.1
          let last ← add a.dataStart found.1.2
          pure ((first, last), found.2) : Faulting Unit Entry) = .ok e → e.2 = found.2 := by
        intro found rest
        obtain ⟨_, -, rest⟩ := bind_eq_ok.mp rest
        obtain ⟨first, -, rest⟩ := bind_eq_ok.mp rest
        obtain ⟨last, -, rest⟩ := bind_eq_ok.mp rest
        rw [← pure_eq_ok.mp rest]
      constructor
      · rintro ⟨found, read, rest⟩
        obtain ⟨read, matched⟩ := entryOf_matching.mp read
        exact ⟨⟨found, read, rest⟩, fun has => (kept rest).trans (matched (same.mpr has))⟩
      · rintro ⟨⟨found, read, rest⟩, matched⟩
        refine ⟨found, entryOf_matching.mpr ⟨read, fun has => ?_⟩, rest⟩
        exact (kept rest).symm.trans (matched (same.mp has))
  · rw [entry_past past, entry_past past]
    exact iff_of_false (fun same => by cases same) fun both => by cases both.1

end Holds

/-- What holds of an arena that loaded, for every slot and key: no read faults, a span is inside
the data and the data in the blob, and a key in place is compared as by the checked read. -/
structure Safe (a : StringArena) : Prop where
  data : a.dataStart ≤ a.dataEnd ∧ a.dataEnd ≤ a.blob.bytes.length
  entry : ∀ i want, Faultless (a.entry i want) fun e =>
    a.dataStart ≤ e.1.1 ∧ e.1.1 ≤ e.1.2 ∧ e.1.2 ≤ a.dataEnd
  span : ∀ i, Faultless (a.span i) fun span =>
    a.dataStart ≤ span.1 ∧ span.1 ≤ span.2 ∧ span.2 ≤ a.dataEnd
  spanMatching : ∀ i fp, Faultless (a.spanMatching i fp) fun span =>
    a.dataStart ≤ span.1 ∧ span.1 ≤ span.2 ∧ span.2 ≤ a.dataEnd
  past : ∀ i want, a.n ≤ i → a.entry i want = .error (.refused ())
  holds : ∀ i key, ∃ answer, a.holds i key = .ok answer ∧ (answer = true ↔
    ∃ e, a.entry i none = .ok e ∧ a.bytesAt e.1 = .ok key)
  holdsMatching : ∀ i key fp, ∃ answer, a.holdsMatching i key fp = .ok answer ∧ (answer = true ↔
    ∃ e, a.entry i none = .ok e ∧ a.bytesAt e.1 = .ok key ∧ (a.hasFingerprints → e.2 = fp))

theorem Valid.safe {a : StringArena} (valid : a.Valid) : a.Safe where
  data := ⟨valid.start, valid.stop.trans valid.inside⟩
  entry := fun _ _ => valid.entry
  span := fun _ => .bind valid.entry fun _ bounds => .ok bounds
  spanMatching := fun _ _ => .bind valid.entry fun _ bounds => .ok bounds
  past := fun _ _ => entry_past
  holds := fun _ _ => valid.holdsIn (.inl rfl)
  holdsMatching := fun i key fp => by
    obtain ⟨answer, answered, same⟩ := @Valid.holdsIn a valid i (some fp) key 1 (.inr rfl)
    refine ⟨answer, answered, same.trans (exists_congr fun e => ?_)⟩
    rw [entry_matching]
    tauto

/-- A load of any bytes errs or gives an arena that is safe to read. -/
theorem fromShared_safe (blob : SharedBytes) :
    Faultless (fromShared blob) fun a => a.blob = blob ∧ a.Safe :=
  (fromShared_faultless blob).mono fun _ loaded => ⟨loaded.2, loaded.1.safe⟩

/-- One key in one block. -/
example : ∃ a, fromShared ⟨[2, 0, 0, 0, 0, 0, 0, 0, 0x11, 0, 0, 0, 0, 0, 1, 1, 1, 1, 1, 1, 1, 1, 1, 1,
    1, 1, 1, 1, 1, 1, 97], by decide⟩ = .ok a ∧ a.holds 0 [97] = .ok true :=
  ⟨_, rfl, by decide⟩

end Lexindex.StringArena
