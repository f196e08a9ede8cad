import Mathlib
import Lexindex.Overlay.Walk

/-!
# The tombstone words

A loader takes tombstone words whose bits are ids that were issued, and counts the live ids as
those left.  The overlays that edits reach are of that kind: their additions are pushed in turn,
their tombstones are issued ids, and the count is of the others.
-/

set_option autoImplicit false

namespace Lexindex.Overlay

/-! ## Words -/

theorem maskBelow_getLsbD {n i : Nat} (nLt : n < 64) :
    (maskBelow n).getLsbD i = decide (i < n) := by
  have small : 2 ^ n < 2 ^ 64 := Nat.pow_lt_pow_right (by decide) nLt
  have positive : 0 < 2 ^ n := Nat.two_pow_pos n
  have value : (maskBelow n).toNat = 2 ^ n - 1 := by
    rw [maskBelow, BitVec.toNat_sub, BitVec.toNat_shiftLeft]
    simp only [BitVec.toNat_ofNat, Nat.shiftLeft_eq]
    omega
  rw [BitVec.getLsbD, value, Nat.testBit_two_pow_sub_one]

/-- A stray word has a bit past the ids, counted from its first. -/
theorem strayWord_iff {idSpace w : Nat} {word : Word} :
    strayWord idSpace word w = true ↔ ∃ i, word.getLsbD i = true ∧ idSpace ≤ 64 * w + i := by
  have nonzero (x : Word) : (x != 0#64) = true ↔ ∃ i, x.getLsbD i = true := by
    rw [bne_iff_ne, Ne, ← not_iff_not, not_not, not_exists]
    refine ⟨fun zero i set => ?_, fun clear => ?_⟩
    · rw [zero] at set
      simp at set
    · refine BitVec.eq_of_getLsbD_eq fun i _ => ?_
      rw [Bool.eq_false_iff.mpr (clear i)]
      simp
  rw [strayWord]
  rcases Nat.lt_trichotomy w (idSpace / 64) with lt | rfl | gt
  · rw [Nat.compare_eq_lt.mpr lt]
    refine ⟨fun no => absurd no Bool.false_ne_true, ?_⟩
    rintro ⟨i, set, past⟩
    have inWord := BitVec.lt_of_getLsbD set
    omega
  · rw [Nat.compare_eq_eq.mpr rfl]
    simp only
    rw [nonzero]
    refine exists_congr fun i => ?_
    rw [BitVec.getLsbD_and, BitVec.getLsbD_not, maskBelow_getLsbD (Nat.mod_lt _ (by decide))]
    simp only [Bool.and_eq_true, decide_eq_true_eq, Bool.not_eq_true', decide_eq_false_iff_not]
    refine ⟨fun ⟨set, _, past⟩ => ⟨set, by omega⟩, fun ⟨set, past⟩ => ⟨set, ?_, by omega⟩⟩
    exact BitVec.lt_of_getLsbD set
  · rw [Nat.compare_eq_gt.mpr gt]
    simp only
    rw [nonzero]
    refine exists_congr fun i => ⟨fun set => ⟨set, by omega⟩, And.left⟩

/-- No word is stray where every bit is of an id. -/
theorem strayWord_none {idSpace : Nat} {words : List Word} :
    ¬ words.zipIdx.any (fun e => strayWord idSpace e.1 e.2) = true ↔
      ∀ id, streamBit words id = true → id < idSpace := by
  rw [List.any_eq_true, not_exists]
  refine ⟨fun none id set => ?_, fun inside e ⟨member, stray⟩ => ?_⟩
  · by_contra past
    have listed : id / 64 < words.length := by
      by_contra beyond
      rw [streamBit, List.getD_eq_getElem?_getD, List.getElem?_eq_none (by omega)] at set
      simp at set
    refine none (words.getD (id / 64) 0#64, id / 64) ⟨?_, ?_⟩
    · rw [List.mem_zipIdx_iff_getElem?, List.getD_eq_getElem?_getD,
        List.getElem?_eq_getElem listed]
      rfl
    · rw [strayWord_iff]
      exact ⟨id % 64, set, by omega⟩
  · obtain ⟨i, set, past⟩ := strayWord_iff.mp stray
    rw [List.mem_zipIdx_iff_getElem?] at member
    have inWord := BitVec.lt_of_getLsbD set
    have bit : streamBit words (64 * e.2 + i) = true := by
      rw [streamBit, show (64 * e.2 + i) / 64 = e.2 by omega,
        show (64 * e.2 + i) % 64 = i by omega, List.getD_eq_getElem?_getD, member]
      exact set
    have small := inside _ bit
    omega

theorem sum_countOnes (words : List Word) :
    (words.map Word.countOnes).sum = (streamOnes words).length := by
  have from_ (first : Nat) :
      (words.map Word.countOnes).sum = (streamOnesFrom first words).length := by
    induction words generalizing first with
    | nil => rfl
    | cons word words ih =>
        rw [List.map_cons, List.sum_cons, streamOnesFrom, List.length_append, List.length_map,
          ← ih (first + 1), Word.countOnes]
  exact from_ 0

/-- The set bits, counted among the ids. -/
theorem card_dead {words : List Word} {n : Nat}
    (inside : ∀ id, streamBit words id = true → id < n) :
    ((Finset.range n).filter fun id => streamBit words id = true).card =
      (words.map Word.countOnes).sum := by
  rw [sum_countOnes, ← List.toFinset_card_of_nodup
    ((streamOnes_sorted words).imp fun lt => Nat.ne_of_lt lt)]
  refine congrArg Finset.card (Finset.ext fun id => ?_)
  rw [Finset.mem_filter, Finset.mem_range, List.mem_toFinset, mem_streamOnes]
  exact ⟨And.right, fun set => ⟨inside id set, set⟩⟩

/-- One bit more is one id more. -/
theorem card_set {n id : Nat} {before after : Nat → Bool} (inside : id < n)
    (clear : before id = false) (set : ∀ j, after j = if j = id then true else before j) :
    ((Finset.range n).filter fun j => after j = true).card =
      ((Finset.range n).filter fun j => before j = true).card + 1 := by
  have grown : ((Finset.range n).filter fun j => after j = true) =
      insert id ((Finset.range n).filter fun j => before j = true) := by
    ext j
    rw [Finset.mem_insert, Finset.mem_filter, Finset.mem_filter, Finset.mem_range, set]
    by_cases here : j = id
    · simp [here, inside]
    · simp [here]
  rw [grown, Finset.card_insert_of_notMem]
  rw [Finset.mem_filter, clear]
  simp

/-! ## Overlays that edits reach -/

section Reached

variable {I : Type} [OverlayBlob I] {hash : List UInt8 → UInt64} {base : I}

/-- What the operations of an overlay rest on: an arena of keys no two of which are the same, only
issued ids retired, and a count of the live ids. -/
structure RunInvariant (hash : List UInt8 → UInt64) (ov : Overlay I) : Prop where
  arena : ∃ keys, Arena hash ov keys
  issued : ∀ id, ov.isDead id = true → id < ov.idSpace
  live : ov.len = ((Finset.range ov.idSpace).filter fun id => ov.isLive id = true).card

/-- An overlay over `base` with `keys` pushed in turn and issued ids retired. -/
structure Grown (hash : List UInt8 → UInt64) (base : I) (ov : Overlay I) (keys : List String) :
    Prop where
  baseIs : ov.base = base
  arena : Arena hash ov keys
  pushed : pushAll hash keys { Overlay.new base with live := 0 } =
    some { ov with dead := [], live := 0 }
  strangers : Strangers base keys
  issued : ∀ id, ov.isDead id = true → id < ov.idSpace
  live : ov.live + ((Finset.range ov.idSpace).filter fun id => ov.isDead id = true).card =
    ov.idSpace

theorem grown_new (base : I) : Grown hash base (Overlay.new base) [] where
  baseIs := rfl
  arena := arena_new base
  pushed := rfl
  strangers := fun _ _ member => absurd member List.not_mem_nil
  issued := by
    intro id dead
    simp [isDead, Overlay.new, streamBit] at dead
  live := by
    simp [isDead, Overlay.new, streamBit, Overlay.idSpace]

variable {ov next : Overlay I} {keys : List String} (grown : Grown hash base ov keys)
include grown

theorem Grown.marked {id live : Nat} {dead : Bool} (inside : id < ov.idSpace)
    (count : live + ((Finset.range ov.idSpace).filter fun j =>
      (ov.setDead id dead).isDead j = true).card = ov.idSpace) :
    Grown hash base { ov.setDead id dead with live := live } keys := by
  have bits := fun j => isDead_setDead ov id j dead
  obtain ⟨words, marked⟩ := setDead_eq ov id dead
  rw [marked] at bits count ⊢
  refine ⟨grown.baseIs, grown.arena.marked _ _, grown.pushed, grown.strangers, fun j retired => ?_,
    count⟩
  change Overlay.isDead { ov with dead := words } j = true at retired
  rw [bits] at retired
  split at retired
  · next here =>
    rw [here]
    exact inside
  · exact grown.issued j retired

theorem Grown.revive (id : Nat) : Grown hash base (ov.revive id).2 keys := by
  rw [Overlay.revive]
  split
  · next retired =>
    refine grown.marked (grown.issued id retired) ?_
    have fewer := @card_set _ _ _ ov.isDead (grown.issued id retired)
      ((isDead_setDead ov id id false).trans (if_pos rfl)) fun j => by
        rw [isDead_setDead]
        by_cases here : j = id
        · rw [if_pos here, here, retired]
        · rw [if_neg here, if_neg here]
    have count := grown.live
    omega
  · exact grown

theorem Grown.retireId {id : Nat} {answer : Bool} (result : ov.retireId id = some (answer, next)) :
    Grown hash base next keys := by
  rw [Overlay.retireId] at result
  split at result
  · rw [Option.some.injEq, Prod.mk.injEq] at result
    exact result.2 ▸ grown
  · next open_ =>
    rw [not_or, Nat.not_le, Bool.not_eq_true] at open_
    split at result
    · cases result
    · next some_live =>
      rw [Option.some.injEq, Prod.mk.injEq] at result
      rw [← result.2]
      refine grown.marked open_.1 ?_
      have more := card_set open_.1 open_.2 fun j => isDead_setDead ov id j true
      have count := grown.live
      omega

theorem Grown.push {key : String} {pushed : Overlay I} (fresh : key ∉ keys)
    (stranger : OverlayBase.baseId base key = none) {i : Nat}
    (result : ov.pushAdded hash key = some (i, pushed)) :
    Grown hash base { pushed with live := ov.live + 1 } (keys ++ [key]) := by
  rcases grown.arena.pushAdded fresh with ⟨-, none⟩ | ⟨other, same, -, arena, baseIs, deadIs⟩
  · rw [none] at result
    cases result
  · rw [result, Option.some.injEq, Prod.mk.injEq] at same
    obtain ⟨-, rfl⟩ := same
    have space : pushed.idSpace = ov.idSpace + 1 := by
      rw [Overlay.idSpace, Overlay.idSpace, baseIs, arena.starts, grown.arena.starts]
      simp [Nat.add_assoc]
    have dead (id : Nat) : pushed.isDead id = ov.isDead id := by
      rw [isDead, isDead, deadIs]
    refine ⟨baseIs.trans grown.baseIs, arena.marked pushed.dead _, ?_, ?_, ?_, ?_⟩
    · have marked := @pushAdded_marked _ hash ov key [] 0
      rw [pushAll_append, grown.pushed, Option.bind_some, marked, result]
      rfl
    · exact fun exact => List.forall_mem_append.mpr
        ⟨grown.strangers exact, List.forall_mem_singleton.mpr stranger⟩
    · intro id retired
      change pushed.isDead id = true at retired
      rw [dead] at retired
      exact Nat.lt_of_lt_of_eq (Nat.lt_succ_of_lt (grown.issued id retired)) space.symm
    · change ov.live + 1 + ((Finset.range pushed.idSpace).filter fun id =>
        pushed.isDead id = true).card = pushed.idSpace
      have last : ov.isDead ov.idSpace = false := by
        rw [← Bool.not_eq_true]
        exact fun retired => Nat.lt_irrefl _ (grown.issued _ retired)
      have count := grown.live
      simp only [dead]
      rw [space, Finset.range_add_one, Finset.filter_insert, last, if_neg Bool.false_ne_true]
      omega

/-- An edit keeps it, with one key more where it pushes one. -/
theorem Grown.step {edit : Edit} (result : ov.step hash edit = some next) :
    ∃ more, Grown hash base next (keys ++ more) := by
  have same : Grown hash base ov (keys ++ []) := by rwa [List.append_nil]
  cases edit with
  | add key =>
      obtain ⟨⟨id, after⟩, added, rfl⟩ := Option.map_eq_some_iff.mp result
      rw [Overlay.add, grown.baseIs] at added
      cases owned : OverlayBase.baseId base key with
      | some id =>
          rw [owned, Option.some.injEq] at added
          refine ⟨[], ?_⟩
          rw [← added]
          exact same.revive id
      | none =>
          rw [owned] at added
          simp only [Option.bind_eq_bind] at added
          rw [grown.arena.addedIndex, Option.bind_some] at added
          by_cases known : key ∈ keys
          · rw [if_pos known] at added
            simp only [Option.some.injEq] at added
            refine ⟨[], ?_⟩
            rw [← added]
            exact same.revive _
          · rw [if_neg known] at added
            simp only at added
            obtain ⟨⟨i, pushed⟩, push, issued⟩ := Option.bind_eq_some_iff.mp added
            rw [Option.some.injEq, Prod.mk.injEq] at issued
            refine ⟨[key], ?_⟩
            rw [← issued.2]
            exact grown.push known owned push
  | retireId id =>
      obtain ⟨⟨answer, after⟩, retired, rfl⟩ := Option.map_eq_some_iff.mp result
      exact ⟨[], same.retireId retired⟩
  | remove key =>
      obtain ⟨⟨answer, after⟩, removed, rfl⟩ := Option.map_eq_some_iff.mp result
      rw [Overlay.remove] at removed
      obtain ⟨found, -, removed⟩ := Option.bind_eq_some_iff.mp removed
      cases found with
      | none =>
          rw [Option.some.injEq, Prod.mk.injEq] at removed
          exact ⟨[], removed.2 ▸ same⟩
      | some id => exact ⟨[], same.retireId removed⟩

omit grown in
theorem Grown.run (edits : List Edit) : ∀ {ov later : Overlay I} {keys : List String},
    Grown hash base ov keys → ov.run hash edits = some later →
      ∃ keys, Grown hash base later keys := by
  induction edits with
  | nil =>
      intro ov later keys grown result
      rw [Overlay.run, Option.some.injEq] at result
      exact ⟨keys, result ▸ grown⟩
  | cons edit edits ih =>
      intro ov later keys grown result
      rw [Overlay.run] at result
      obtain ⟨next, stepped, result⟩ := Option.bind_eq_some_iff.mp result
      obtain ⟨more, grown⟩ := grown.step stepped
      exact ih grown result

/-- The operations can rely on it. -/
theorem Grown.runInvariant : RunInvariant hash ov := by
  refine ⟨⟨keys, grown.arena⟩, grown.issued, ?_⟩
  have live : ((Finset.range ov.idSpace).filter fun id => ov.isLive id = true) =
      (Finset.range ov.idSpace).filter fun id => ¬ ov.isDead id = true := by
    refine Finset.filter_congr fun id member => ?_
    simp [isLive, Finset.mem_range.mp member]
  have parts := @Finset.card_filter_add_card_filter_not _ (Finset.range ov.idSpace)
    (fun id => ov.isDead id = true) _ _
  rw [Finset.card_range] at parts
  have count := grown.live
  rw [Overlay.len, live]
  omega

end Reached

end Lexindex.Overlay

/-!
## Loading an overlay back

What `toBytes` writes loads as the overlay it was written from, whatever edits reached it.  On
other bytes a load errs or yields an overlay its operations can rely on, unless the additions
run past the four gibibytes an arena has room for.
-/

namespace Lexindex.Overlay

open Mphf (IndexError)

/-! ### The header -/

theorem leNat_leBytes_mod (width : Nat) : ∀ value,
    leNat (leBytes width value) = value % 256 ^ width := by
  induction width with
  | zero =>
      intro value
      rw [leBytes, leNat, Nat.pow_zero, Nat.mod_one]
  | succ width ih =>
      intro value
      have byte : (UInt8.ofNat (value % 256)).toNat = value % 256 := by
        rw [UInt8.toNat_ofNat', Nat.mod_mod]
      rw [leBytes, leNat, ih, byte, Nat.pow_succ', Nat.mod_mul]

/-- A shift mixed into a machine word leaves one. -/
theorem mixed_lt (shift : Nat) {h : Nat} (fits : h < 2 ^ 64) : h ^^^ h >>> shift < 2 ^ 64 :=
  Nat.xor_lt_two_pow fits (Nat.lt_of_le_of_lt (Nat.shiftRight_le h shift) fits)

theorem finalize_lt (h : Nat) : Blob.finalize h < 2 ^ 64 := by
  rw [Blob.finalize]
  exact mixed_lt 31 (Nat.mod_lt _ (Nat.two_pow_pos 64))

section Header

variable {tag : UInt8} {baseLen addedCount addedBytes words payload : Nat} {rest : List UInt8}

theorem headerFields_length :
    (headerFields tag baseLen addedCount addedBytes words payload).length = OVERLAY_CHECKED := by
  simp [headerFields, OVERLAY_MAGIC, OVERLAY_CHECKED, OVERLAY_HEADER]

theorem header_length :
    (header tag baseLen addedCount addedBytes words payload).length = OVERLAY_HEADER := by
  rw [header, List.length_append, headerFields_length, leBytes_length]
  rfl

/-- A header's fields, where the loader reads them. -/
theorem read_header (baseFits : baseLen < 2 ^ 64) (countFits : addedCount < 2 ^ 64)
    (bytesFit : addedBytes < 2 ^ 64) (wordsFit : words < 2 ^ 64) {bytes : List UInt8}
    (whole : bytes = header tag baseLen addedCount addedBytes words payload ++ rest) :
    bytes.take 4 = OVERLAY_MAGIC ∧ bytes.getD 4 0 = tag ∧ readU64 bytes 5 = baseLen ∧
      readU64 bytes 13 = addedCount ∧ readU64 bytes 21 = addedBytes ∧ readU64 bytes 29 = words ∧
      readU64 bytes 37 = payload % 2 ^ 64 ∧
      readU32 bytes OVERLAY_CHECKED = Blob.hashBytes (bytes.take OVERLAY_CHECKED) % 2 ^ 32 := by
  have check : readU32 bytes OVERLAY_CHECKED =
      Blob.hashBytes (bytes.take OVERLAY_CHECKED) % 2 ^ 32 := by
    rw [whole, header, List.append_assoc, List.take_left' headerFields_length, readU32,
      List.drop_left' headerFields_length, List.take_left' (leBytes_length ..), leNat_leBytes_mod,
      show 256 ^ 4 = 2 ^ 32 by norm_num]
  simp only [header, headerFields, List.append_assoc] at whole
  have eight (value : Nat) : (leBytes 8 value).length = 8 := leBytes_length ..
  have magic : OVERLAY_MAGIC.length = 4 := rfl
  have five (later : List UInt8) (k : Nat) :
      leNat (((OVERLAY_MAGIC ++ ([tag] ++ later)).drop (5 + k)).take 8) =
        leNat ((later.drop k).take 8) := by
    rw [← List.append_assoc]
    exact leNat_past 5 k 8 rfl
  have here {value : Nat} (later : List UInt8) (fits : value < 2 ^ 64) :
      leNat (((leBytes 8 value ++ later).drop 0).take 8) = value :=
    leNat_here fits
  refine ⟨?_, ?_, ?_, ?_, ?_, ?_, ?_, check⟩
  · rw [whole]
    rfl
  · rw [whole]
    rfl
  · rw [whole, readU64]
    exact (five _ 0).trans (here _ baseFits)
  · rw [whole, readU64]
    exact (five _ 8).trans ((leNat_past 8 0 8 (eight _)).trans (here _ countFits))
  · rw [whole, readU64]
    exact (five _ 16).trans ((leNat_past 8 8 8 (eight _)).trans
      ((leNat_past 8 0 8 (eight _)).trans (here _ bytesFit)))
  · rw [whole, readU64]
    exact (five _ 24).trans ((leNat_past 8 16 8 (eight _)).trans
      ((leNat_past 8 8 8 (eight _)).trans ((leNat_past 8 0 8 (eight _)).trans (here _ wordsFit))))
  · rw [whole, readU64]
    refine (five _ 32).trans ((leNat_past 8 24 8 (eight _)).trans
      ((leNat_past 8 16 8 (eight _)).trans ((leNat_past 8 8 8 (eight _)).trans
      ((leNat_past 8 0 8 (eight _)).trans ?_))))
    rw [List.drop_zero, List.take_left' (leBytes_length ..), leNat_leBytes_mod,
      show 256 ^ 8 = 2 ^ 64 by norm_num]

end Header

/-- A blob as it is written is framed as its sections. -/
theorem frame_written {tag : UInt8} {base additions tombstones : List UInt8}
    {addedCount words : Nat} (short : OVERLAY_HEADER + (base ++ (additions ++ tombstones)).length <
      2 ^ 63) (countFits : addedCount < 2 ^ 64) (whole : tombstones.length = words * 8) :
    frame tag (header tag base.length addedCount additions.length words
        (Blob.hashBlock (base ++ (additions ++ tombstones))) ++
        (base ++ (additions ++ tombstones))) =
      .ok { base, addedCount, additions, tombstones } := by
  have sizes := short
  rw [List.length_append, List.length_append] at sizes
  obtain ⟨bytes, same⟩ : ∃ bytes, bytes = header tag base.length addedCount additions.length words
    (Blob.hashBlock (base ++ (additions ++ tombstones))) ++ (base ++ (additions ++ tombstones)) :=
    ⟨_, rfl⟩
  have hashed : Blob.hashBlock (base ++ (additions ++ tombstones)) % 2 ^ 64 =
      Blob.hashBlock (base ++ (additions ++ tombstones)) :=
    Nat.mod_eq_of_lt (finalize_lt _)
  obtain ⟨magic, tagged, baseLen, count, addedBytes, wordCount, payload, check⟩ :=
    read_header (by omega) countFits (by omega) (by omega) same
  have size : bytes.length = OVERLAY_HEADER + base.length + additions.length + words * 8 := by
    rw [same, List.length_append, header_length, List.length_append, List.length_append, whole]
    omega
  have body : bytes.drop OVERLAY_HEADER = base ++ (additions ++ tombstones) := by
    rw [same, List.drop_left' header_length]
  have baseSection : (bytes.take (OVERLAY_HEADER + base.length)).drop OVERLAY_HEADER = base := by
    rw [List.drop_take, body, Nat.add_sub_cancel_left, List.take_left]
  have addedSection : (bytes.take (OVERLAY_HEADER + base.length + additions.length)).drop
      (OVERLAY_HEADER + base.length) = additions := by
    rw [List.drop_take, ← List.drop_drop, body, Nat.add_sub_cancel_left, List.drop_left,
      List.take_left]
  have tombSection : bytes.drop (OVERLAY_HEADER + base.length + additions.length) = tombstones := by
    rw [← List.drop_drop, ← List.drop_drop, body, List.drop_left, List.drop_left]
  have current : decide (bytes.take 4 = OVERLAY_MAGIC_V1) = false := by
    rw [magic]
    decide
  rw [← same]
  simp only [frame, current, v2Sections, bind_eq_ok, refuse_eq_ok, Bool.false_eq_true, if_false,
    pure_eq_ok, baseLen, count, addedBytes, wordCount, payload, hashed]
  refine ⟨(), ?_, (), ?_, (), ?_, (), ?_, (), ?_, (), ?_, (), ?_, (), ?_, ?_⟩
  · rintro (few | ⟨-, other⟩)
    · omega
    · exact other magic
  · exact fun ⟨_, other⟩ => other check
  · exact fun other => other tagged
  · omega
  · omega
  · omega
  · omega
  · exact fun other => other (by rw [body])
  · rw [baseSection, addedSection, tombSection]

end Lexindex.Overlay
