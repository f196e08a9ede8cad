import Mathlib
import Lexindex.Arena.Layout
import Lexindex.PerfectHash.Stream

/-!
# The fills

Whichever way a second pass fills the arena, a pass that brings the hash and the length of every
slot leaves each key in its slot, and any other is refused.
-/

set_option autoImplicit false

namespace Lexindex.PerfectHash

open Faulting
open Mphf (IndexError)
open Arena (spanAt)
open Spill (recordsOf)

/-! ## Values by slot -/

section Values

variable {α β : Type}

/-- As many slots as there are places, no two alike, are all the places. -/
theorem slots_cover {slots : List Nat} (once : slots.Nodup)
    (inside : ∀ slot ∈ slots, slot < slots.length) {i : Nat} (small : i < slots.length) :
    i ∈ slots := by
  have sub : slots ⊆ List.range slots.length := fun slot member =>
    List.mem_range.mpr (inside slot member)
  have perm := (List.subperm_of_subset once sub).perm_of_length_le (by rw [List.length_range])
  exact perm.mem_iff.mpr (List.mem_range.mpr small)

theorem slots_perm {slots : List Nat} (once : slots.Nodup)
    (inside : ∀ slot ∈ slots, slot < slots.length) : slots.Perm (List.range slots.length) :=
  (List.subperm_of_subset once fun slot member =>
    List.mem_range.mpr (inside slot member)).perm_of_length_le (by rw [List.length_range])

/-- Rows that hold each value in its slot are one. -/
theorem rows_unique {pairs : List (α × Nat)} {row other : List α}
    (once : (pairs.map Prod.snd).Nodup) (inside : ∀ e ∈ pairs, e.2 < pairs.length)
    (rowLength : row.length = pairs.length) (otherLength : other.length = pairs.length)
    (rowEach : ∀ e ∈ pairs, row[e.2]? = some e.1)
    (otherEach : ∀ e ∈ pairs, other[e.2]? = some e.1) : row = other := by
  refine List.ext_getElem? fun i => ?_
  by_cases small : i < pairs.length
  · have slots : (pairs.map Prod.snd).length = pairs.length := List.length_map ..
    have listed := slots_cover once (fun slot member => by
      obtain ⟨e, eIn, rfl⟩ := List.mem_map.mp member
      rw [slots]
      exact inside e eIn) (slots.symm ▸ small)
    obtain ⟨e, member, rfl⟩ := List.mem_map.mp listed
    rw [rowEach e member, otherEach e member]
  · rw [List.getElem?_eq_none (by omega), List.getElem?_eq_none (by omega)]

theorem bySlot_spec {blank : α} {values : List α} {slots : List Nat}
    (count : values.length = slots.length) (once : slots.Nodup)
    (inside : ∀ slot ∈ slots, slot < slots.length) :
    (bySlot blank values slots).length = values.length ∧
      ∀ e ∈ values.zip slots, (bySlot blank values slots)[e.2]? = some e.1 := by
  have blanks : (List.replicate values.length blank).length = values.length :=
    List.length_replicate
  obtain ⟨length, -, each⟩ := @foldl_set_spec α (values.zip slots)
    (List.replicate values.length blank) (by rwa [List.map_snd_zip count.ge])
    (fun e member => by
      rw [blanks, count]
      exact inside e.2 (List.of_mem_zip member).2)
  exact ⟨length.trans blanks, each⟩

/-- What is computed of each value is in the value's slot. -/
theorem bySlot_map {blank : α} {other : β} {values : List α} {slots : List Nat} (f : α → β)
    (count : values.length = slots.length) (once : slots.Nodup)
    (inside : ∀ slot ∈ slots, slot < slots.length) :
    bySlot other (values.map f) slots = (bySlot blank values slots).map f := by
  have mapped : (values.map f).length = slots.length := by rw [List.length_map, count]
  obtain ⟨length, each⟩ := @bySlot_spec α blank values slots count once inside
  obtain ⟨otherLength, otherEach⟩ := @bySlot_spec β other (values.map f) slots mapped once inside
  have pairs : ((values.map f).zip slots).length = slots.length := by
    rw [List.length_zip, mapped, Nat.min_self]
  refine @rows_unique β ((values.map f).zip slots) _ _ ?_ ?_ ?_ ?_ otherEach ?_
  · rwa [List.map_snd_zip mapped.ge]
  · intro e member
    rw [pairs]
    exact inside e.2 (List.of_mem_zip member).2
  · rw [otherLength, pairs, mapped]
  · rw [List.length_map, length, pairs, count]
  · intro e member
    rw [List.zip_map_left] at member
    obtain ⟨p, pIn, rfl⟩ := List.mem_map.mp member
    rw [List.getElem?_map]
    exact congrArg (Option.map f) (each p pIn)

end Values

/-! ## The map as segments -/

section Segments

variable {lens : List Nat} {front back : List UInt8}

theorem take_flatten_length (segs : List (List UInt8)) (i : Nat) :
    ((segs.take i).flatten).length = ((segs.map List.length).take i).sum := by
  rw [List.length_flatten, List.map_take]

/-- A part over a segment of its length is that segment set. -/
theorem overwrite_segment {segs : List (List UInt8)} {i : Nat} {part old : List UInt8}
    (here : segs[i]? = some old) (same : old.length = part.length) :
    overwrite (front ++ segs.flatten ++ back)
        (front.length + ((segs.map List.length).take i).sum) part =
      front ++ (segs.set i part).flatten ++ back := by
  obtain ⟨inside, rfl⟩ := List.getElem?_eq_some_iff.mp here
  have cut : segs = segs.take i ++ segs[i] :: segs.drop (i + 1) := by
    rw [List.cons_getElem_drop_succ, List.take_append_drop]
  have changed : segs.set i part = segs.take i ++ part :: segs.drop (i + 1) :=
    List.set_eq_take_append_cons_drop .. |>.trans (if_pos inside)
  have whole : front ++ segs.flatten ++ back =
      (front ++ (segs.take i).flatten) ++ segs[i] ++ ((segs.drop (i + 1)).flatten ++ back) := by
    conv => lhs; rw [cut]
    simp only [List.flatten_append, List.flatten_cons, List.append_assoc]
  have after : front ++ (segs.set i part).flatten ++ back =
      (front ++ (segs.take i).flatten) ++ part ++ ((segs.drop (i + 1)).flatten ++ back) := by
    rw [changed]
    simp only [List.flatten_append, List.flatten_cons, List.append_assoc]
  rw [whole, after]
  exact overwrite_part (by rw [List.length_append, take_flatten_length]) same

theorem zeros_flatten (lens : List Nat) :
    (lens.map fun len => List.replicate len (0 : UInt8)).flatten = List.replicate lens.sum 0 := by
  induction lens with
  | nil => rfl
  | cons len lens ih =>
      rw [List.map_cons, List.flatten_cons, ih, List.replicate_append_replicate, List.sum_cons]

end Segments

/-! ## A layout of known lengths -/

/-- The layout places strings of these lengths in a row. -/
structure Places (layout : ArenaLayout) (lens : List Nat) : Prop where
  span : ∀ i, i < lens.length → spanAt layout.front layout.tail layout.tag i =
    (.ok ((lens.take i).sum, (lens.take (i + 1)).sum) : Faulting IndexError (Nat × Nat))
  dataLen : layout.dataLen = lens.sum

section Fill

variable {h : Hashing} {layout : ArenaLayout} {lens : List Nat} {front back : List UInt8}

theorem sum_take_succ {i : Nat} : (lens.take (i + 1)).sum = (lens.take i).sum + lens.getD i 0 := by
  rw [List.take_add_one, List.sum_append, List.getD_eq_getElem?_getD]
  cases lens[i]? <;> rfl

theorem Places.layoutSpan (places : Places layout lens) {i : Nat} (inside : i < lens.length) :
    layout.span i = .ok (layout.dataStart + (lens.take i).sum,
      layout.dataStart + (lens.take (i + 1)).sum) := by
  rw [ArenaLayout.span, places.span i inside]
  rfl

/-- The window a slot starts in. -/
def windowAt (layout : ArenaLayout) (lens : List Nat) (windows slot : Nat) : Nat :=
  min ((lens.take slot).sum / layout.window) (windows - 1)

theorem Places.windowOf (places : Places layout lens) {i : Nat} (inside : i < lens.length)
    (windows : Nat) : layout.windowOf i windows = .ok (windowAt layout lens windows i) := by
  rw [ArenaLayout.windowOf, places.span i inside]
  rfl

/-- The keys bring the hash of each row, and the length of its slot. -/
def Replays (h : Hashing) (lens : List Nat) : List String → List (UInt64 × Nat) → Prop
  | [], _ => True
  | _ :: _, [] => False
  | key :: keys, row :: rows =>
      h.hashKey key = row.1 ∧ (bytesOf key).length = lens.getD row.2 0 ∧ Replays h lens keys rows

theorem replaySpan_same (places : Places layout lens) {slot : Nat} (inside : slot < lens.length)
    {key : String} (length : (bytesOf key).length = lens.getD slot 0) (digest : UInt64) :
    replaySpan h layout (h.hashKey key) slot key digest =
      .ok ((layout.dataStart + (lens.take slot).sum, layout.dataStart + (lens.take (slot + 1)).sum),
        foldDigest digest (h.hashPair (bytesOf key)).2) := by
  have width : (bytesOf key).length =
      layout.dataStart + (lens.take (slot + 1)).sum - (layout.dataStart + (lens.take slot).sum) := by
    rw [sum_take_succ, length]
    omega
  rw [replaySpan]
  simp only [places.layoutSpan inside]
  change (refuseIf (h.hashKey key ≠ h.hashKey key) replayMismatch >>= _) = _
  rw [refuseIf, if_neg (not_not.mpr rfl)]
  change (refuseIf ((bytesOf key).length ≠ _) replayMismatch >>= _) = _
  rw [refuseIf, if_neg (not_not.mpr width)]
  rfl

theorem replaySpan_other (places : Places layout lens) {slot : Nat} (inside : slot < lens.length)
    {key : String} {expected : UInt64}
    (other : ¬ (h.hashKey key = expected ∧ (bytesOf key).length = lens.getD slot 0))
    (digest : UInt64) :
    replaySpan h layout expected slot key digest = .error (.refused replayMismatch) := by
  rw [replaySpan]
  simp only [places.layoutSpan inside]
  by_cases same : h.hashKey key = expected
  · have width : (bytesOf key).length ≠ layout.dataStart + (lens.take (slot + 1)).sum -
        (layout.dataStart + (lens.take slot).sum) := by
      rw [sum_take_succ]
      have length : (bytesOf key).length ≠ lens.getD slot 0 := fun equal => other ⟨same, equal⟩
      omega
    change (refuseIf (h.hashKey key ≠ expected) replayMismatch >>= _) = _
    rw [refuseIf, if_neg (not_not.mpr same)]
    change (refuseIf ((bytesOf key).length ≠ _) replayMismatch >>= _) = _
    rw [refuseIf, if_pos width]
    rfl
  · change (refuseIf (h.hashKey key ≠ expected) replayMismatch >>= _) = _
    rw [refuseIf, if_pos same]
    rfl

/-- The digest of a pass. -/
def digestOf (h : Hashing) (keys : List String) (digest : UInt64) : UInt64 :=
  (keys.map fun key => (h.hashPair (bytesOf key)).2).foldl foldDigest digest

theorem digestOf_cons (key : String) (keys : List String) (digest : UInt64) :
    digestOf h (key :: keys) digest =
      digestOf h keys (foldDigest digest (h.hashPair (bytesOf key)).2) := by
  rw [digestOf, List.map_cons, List.foldl_cons, digestOf]

section Replay

variable {σ τ : Type} {put : Nat → Nat × Nat → String → σ → Faulting IndexError σ}
  {R : τ → σ → Prop} {step : τ → String × Nat → τ}

/-- A pass that brings what is expected is a fold of what is done with each key. -/
theorem replay_same (places : Places layout lens)
    (puts : ∀ (t : τ) (s : σ) (key : String) (slot : Nat), R t s → slot < lens.length →
      (bytesOf key).length = lens.getD slot 0 → ∃ s', put slot
        (layout.dataStart + (lens.take slot).sum, layout.dataStart + (lens.take (slot + 1)).sum)
        key s = .ok s' ∧ R (step t (key, slot)) s') (keys : List String) :
    ∀ (rows : List (UInt64 × Nat)) (i : Nat) (digest : UInt64) (t : τ) (s : σ),
      (∀ row ∈ rows, row.2 < lens.length) → Replays h lens keys rows → R t s →
        ∃ s', replay h layout put keys rows i digest s =
            .ok (s', i + keys.length, digestOf h keys digest) ∧
          R ((keys.zip (rows.map Prod.snd)).foldl step t) s' := by
  induction keys with
  | nil => exact fun rows i digest t s _ _ related => ⟨s, rfl, by simpa using related⟩
  | cons key keys ih =>
      intro rows i digest t s inside replays related
      cases rows with
      | nil => exact replays.elim
      | cons row rows =>
          obtain ⟨hash, slot⟩ := row
          obtain ⟨hashed, length, rest⟩ := replays
          obtain ⟨here, insideRest⟩ := List.forall_mem_cons.mp inside
          obtain ⟨s', done, next⟩ := puts t s key slot related here length
          obtain ⟨last, run, held⟩ := ih rows (i + 1)
            (foldDigest digest (h.hashPair (bytesOf key)).2) _ s' insideRest rest next
          refine ⟨last, ?_, held⟩
          simp only at hashed
          rw [replay, ← hashed, replaySpan_same places here length]
          change (put slot _ key s >>= _) = _
          rw [done]
          change replay h layout put keys rows (i + 1) _ s' = _
          have count : i + 1 + keys.length = i + (key :: keys).length := by
            rw [List.length_cons]
            omega
          rw [run, count, digestOf_cons]

/-- Any other pass is refused. -/
theorem replay_other (places : Places layout lens)
    (puts : ∀ (t : τ) (s : σ) (key : String) (slot : Nat), R t s → slot < lens.length →
      (bytesOf key).length = lens.getD slot 0 → ∃ s', put slot
        (layout.dataStart + (lens.take slot).sum, layout.dataStart + (lens.take (slot + 1)).sum)
        key s = .ok s' ∧ R (step t (key, slot)) s') (keys : List String) :
    ∀ (rows : List (UInt64 × Nat)) (i : Nat) (digest : UInt64) (t : τ) (s : σ),
      (∀ row ∈ rows, row.2 < lens.length) → ¬ Replays h lens keys rows → R t s →
        replay h layout put keys rows i digest s = .error (.refused replayMismatch) := by
  induction keys with
  | nil => exact fun rows i digest t s _ other _ => absurd trivial other
  | cons key keys ih =>
      intro rows i digest t s inside other related
      cases rows with
      | nil => rfl
      | cons row rows =>
          obtain ⟨hash, slot⟩ := row
          obtain ⟨here, insideRest⟩ := List.forall_mem_cons.mp inside
          rw [replay]
          by_cases same : h.hashKey key = hash ∧ (bytesOf key).length = lens.getD slot 0
          · obtain ⟨rfl, length⟩ := same
            obtain ⟨s', done, next⟩ := puts t s key slot related here length
            rw [replaySpan_same places here length]
            change (put slot _ key s >>= _) = _
            rw [done]
            exact ih rows (i + 1) _ _ s' insideRest (fun rest => other ⟨rfl, length, rest⟩) next
          · rw [replaySpan_other places here same]
            rfl

end Replay

/-! ## Keys in their slots -/

/-- Each key over the segment of its slot. -/
def setAll (segs : List (List UInt8)) (pairs : List (String × Nat)) : List (List UInt8) :=
  pairs.foldl (fun segs e => segs.set e.2 (bytesOf e.1)) segs

/-- The keys are as long as their slots. -/
def Fits (lens : List Nat) (pairs : List (String × Nat)) : Prop :=
  ∀ e ∈ pairs, e.2 < lens.length ∧ (bytesOf e.1).length = lens.getD e.2 0

theorem Replays.fits {keys : List String} : ∀ {rows : List (UInt64 × Nat)},
    (∀ row ∈ rows, row.2 < lens.length) → Replays h lens keys rows →
      Fits lens (keys.zip (rows.map Prod.snd)) := by
  induction keys with
  | nil =>
      intro rows _ _ e member
      simp at member
  | cons key keys ih =>
      intro rows inside replays
      cases rows with
      | nil => exact replays.elim
      | cons row rows =>
          obtain ⟨-, length, rest⟩ := replays
          obtain ⟨here, inside⟩ := List.forall_mem_cons.mp inside
          exact List.forall_mem_cons.mpr ⟨⟨here, length⟩, ih inside rest⟩

theorem set_lengths {segs : List (List UInt8)} {slot : Nat} {bytes : List UInt8}
    (sizes : segs.map List.length = lens) (length : bytes.length = lens.getD slot 0) :
    (segs.set slot bytes).map List.length = lens := by
  rw [List.map_set, sizes, length]
  refine List.ext_getElem? fun i => ?_
  by_cases same : slot = i
  · subst same
    by_cases inside : slot < lens.length
    · rw [List.getElem?_set_self inside, List.getD_eq_getElem?_getD,
        List.getElem?_eq_getElem inside, Option.getD_some]
    · rw [List.getElem?_eq_none (by rw [List.length_set]; omega),
        List.getElem?_eq_none (by omega)]
  · rw [List.getElem?_set_ne same]

theorem setAll_lengths (pairs : List (String × Nat)) : ∀ {segs : List (List UInt8)},
    segs.map List.length = lens → Fits lens pairs → (setAll segs pairs).map List.length = lens := by
  induction pairs with
  | nil => exact fun sizes _ => sizes
  | cons e pairs ih =>
      intro segs sizes fits
      obtain ⟨here, rest⟩ := List.forall_mem_cons.mp fits
      exact ih (set_lengths sizes here.2) rest

/-- A key goes over its slot in the map. -/
theorem copyFromSlice_segment (from_ : front.length = layout.dataStart)
    {segs : List (List UInt8)} {slot : Nat} {bytes : List UInt8}
    (sizes : segs.map List.length = lens) (inside : slot < lens.length)
    (length : bytes.length = lens.getD slot 0) :
    copyFromSlice (front ++ segs.flatten ++ back) (layout.dataStart + (lens.take slot).sum,
        layout.dataStart + (lens.take (slot + 1)).sum) bytes =
      .ok (front ++ (segs.set slot bytes).flatten ++ back) := by
  have next := @sum_take_succ lens slot
  have most := Arena.sum_take_le lens (slot + 1)
  have whole : segs.flatten.length = lens.sum := by rw [List.length_flatten, sizes]
  have there : slot < segs.length := by
    rw [← sizes, List.length_map] at inside
    exact inside
  have old : segs[slot].length = bytes.length := by
    rw [length, ← sizes, List.getD_eq_getElem?_getD, List.getElem?_map,
      List.getElem?_eq_getElem there]
    rfl
  rw [copyFromSlice, if_pos]
  · rw [← from_, ← sizes]
    exact congrArg Except.ok (overwrite_segment (List.getElem?_eq_getElem there) old)
  · simp only [List.length_append, whole]
    refine ⟨by omega, by omega, by omega⟩

/-- Every slot set, the segments are the keys by slot, whatever was in them. -/
theorem setAll_bySlot {keys : List String} {slots : List Nat} {segs : List (List UInt8)}
    (count : keys.length = slots.length) (once : slots.Nodup)
    (inside : ∀ slot ∈ slots, slot < slots.length) (sized : segs.length = slots.length) :
    setAll segs (keys.zip slots) = bySlot [] (keys.map bytesOf) slots := by
  have mapped : (keys.map bytesOf).length = slots.length := by rw [List.length_map, count]
  have pairs : ((keys.map bytesOf).zip slots).length = slots.length := by
    rw [List.length_zip, mapped, Nat.min_self]
  have same : setAll segs (keys.zip slots) =
      ((keys.map bytesOf).zip slots).foldl (fun row e => row.set e.2 e.1) segs := by
    rw [setAll, List.zip_map_left, List.foldl_map]
    rfl
  have second : (((keys.map bytesOf).zip slots).map Prod.snd).Nodup := by
    rwa [List.map_snd_zip mapped.ge]
  have within : ∀ e ∈ (keys.map bytesOf).zip slots, e.2 < slots.length := fun e member =>
    inside e.2 (List.of_mem_zip member).2
  obtain ⟨length, each⟩ := @bySlot_spec _ [] (keys.map bytesOf) slots mapped once inside
  obtain ⟨setLength, -, setEach⟩ := @foldl_set_spec _ ((keys.map bytesOf).zip slots) segs second
    (fun e member => sized.symm ▸ within e member)
  rw [same]
  exact rows_unique second (fun e member => pairs.symm ▸ within e member)
    (setLength.trans (sized.trans pairs.symm)) (length.trans (mapped.trans pairs.symm)) setEach each

/-! ## The direct fill -/

theorem direct_puts (from_ : front.length = layout.dataStart) (segs : List (List UInt8))
    (map : List UInt8) (key : String) (slot : Nat)
    (related : map = front ++ segs.flatten ++ back ∧ segs.map List.length = lens)
    (inside : slot < lens.length) (length : (bytesOf key).length = lens.getD slot 0) :
    ∃ after, copyFromSlice map (layout.dataStart + (lens.take slot).sum,
        layout.dataStart + (lens.take (slot + 1)).sum) (bytesOf key) = .ok after ∧
      after = front ++ (segs.set slot (bytesOf key)).flatten ++ back ∧
        (segs.set slot (bytesOf key)).map List.length = lens := by
  obtain ⟨rfl, sizes⟩ := related
  exact ⟨_, copyFromSlice_segment from_ sizes inside length, rfl, set_lengths sizes length⟩

theorem fillArenaDirect_same (places : Places layout lens) (from_ : front.length = layout.dataStart)
    {keys : List String} {rows : List (UInt64 × Nat)} {segs : List (List UInt8)}
    (inside : ∀ row ∈ rows, row.2 < lens.length) (replays : Replays h lens keys rows)
    (sizes : segs.map List.length = lens) :
    fillArenaDirect h layout keys rows (front ++ segs.flatten ++ back) =
      .ok (front ++ (setAll segs (keys.zip (rows.map Prod.snd))).flatten ++ back, keys.length,
        digestOf h keys 0) := by
  obtain ⟨after, run, same, -⟩ := @replay_same h layout lens _ _
    (fun _ span key map => copyFromSlice map span (bytesOf key))
    (fun segs map => map = front ++ segs.flatten ++ back ∧ segs.map List.length = lens)
    (fun segs e => segs.set e.2 (bytesOf e.1)) places (direct_puts from_) keys rows 0 0 segs _
    inside replays ⟨rfl, sizes⟩
  rw [fillArenaDirect, run, same, Nat.zero_add]
  rfl

theorem fillArenaDirect_other (places : Places layout lens)
    (from_ : front.length = layout.dataStart) {keys : List String} {rows : List (UInt64 × Nat)}
    {segs : List (List UInt8)} (inside : ∀ row ∈ rows, row.2 < lens.length)
    (other : ¬ Replays h lens keys rows) (sizes : segs.map List.length = lens) :
    fillArenaDirect h layout keys rows (front ++ segs.flatten ++ back) =
      .error (.refused replayMismatch) :=
  @replay_other h layout lens _ _
    (fun _ span key map => copyFromSlice map span (bytesOf key))
    (fun segs map => map = front ++ segs.flatten ++ back ∧ segs.map List.length = lens)
    (fun segs e => segs.set e.2 (bytesOf e.1)) places (direct_puts from_) keys rows 0 0 segs _
    inside other ⟨rfl, sizes⟩

/-! ## The windowed fill -/

/-- A key's record in the spill. -/
def record (e : String × Nat) : List UInt8 :=
  leBytes SLOT_TAG e.2 ++ bytesOf e.1

theorem record_length (e : String × Nat) :
    (record e).length = SLOT_TAG + (bytesOf e.1).length := by
  rw [record, List.length_append, leBytes_length]

theorem windowAt_lt {windows : Nat} (some_window : 0 < windows) (slot : Nat) :
    windowAt layout lens windows slot < windows := by
  rw [windowAt]
  omega

/-- What the slots of a window take in its region. -/
def regionOf (layout : ArenaLayout) (lens : List Nat) (windows : Nat) (slots : List Nat)
    (w : Nat) : Nat :=
  ((slots.filter fun slot => windowAt layout lens windows slot = w).map fun slot =>
    SLOT_TAG + lens.getD slot 0).sum

theorem regionLens_fold (places : Places layout lens) {windows : Nat} (some_window : 0 < windows)
    (slots : List Nat) : ∀ {sizes : List Nat}, (∀ slot ∈ slots, slot < lens.length) →
      sizes.length = windows → ∃ regions, slots.foldlM (fun sizes slot => do
          let w ← layout.windowOf slot windows
          let span ← layout.span slot
          pure (sizes.set w (sizes.getD w 0 + (SLOT_TAG + (span.2 - span.1))))) sizes =
            (.ok regions : Faulting IndexError (List Nat)) ∧
        regions.length = windows ∧ ∀ w, w < windows →
          regions.getD w 0 = sizes.getD w 0 + regionOf layout lens windows slots w := by
  induction slots with
  | nil => exact fun {sizes} _ count => ⟨sizes, rfl, count, fun _ _ => rfl⟩
  | cons slot slots ih =>
      intro sizes inside count
      obtain ⟨here, inside⟩ := List.forall_mem_cons.mp inside
      have within := @windowAt_lt layout lens windows some_window slot
      have width : layout.dataStart + (lens.take (slot + 1)).sum -
          (layout.dataStart + (lens.take slot).sum) = lens.getD slot 0 := by
        rw [sum_take_succ]
        omega
      obtain ⟨regions, run, length, each⟩ := @ih (sizes.set (windowAt layout lens windows slot)
        (sizes.getD (windowAt layout lens windows slot) 0 + (SLOT_TAG + lens.getD slot 0))) inside
        (by rw [List.length_set, count])
      refine ⟨regions, ?_, length, fun w small => ?_⟩
      · rw [List.foldlM_cons, places.windowOf here, places.layoutSpan here]
        change List.foldlM _ (sizes.set _ (_ + (SLOT_TAG + (layout.dataStart + _ -
          (layout.dataStart + _))))) slots = _
        rw [width]
        exact run
      · rw [each w small, regionOf, regionOf, List.filter_cons]
        by_cases same : windowAt layout lens windows slot = w
        · subst same
          rw [Spill.getD_set_self (count.symm ▸ small), if_pos (by simp), List.map_cons,
            List.sum_cons]
          omega
        · rw [Spill.getD_set_other (Ne.symm same), if_neg (by simpa using same)]

/-- Each key under the window it starts in. -/
def spilled (layout : ArenaLayout) (lens : List Nat) (windows : Nat)
    (pairs : List (String × Nat)) : List (Nat × List UInt8) :=
  pairs.map fun e => (windowAt layout lens windows e.2, record e)

theorem recordsOf_spilled (windows : Nat) (pairs : List (String × Nat)) (w : Nat) :
    recordsOf (spilled layout lens windows pairs) w =
      (pairs.filter fun e => windowAt layout lens windows e.2 = w).flatMap record := by
  rw [recordsOf, spilled, List.filter_map, List.flatMap_map]
  rfl

theorem recordsOf_length (windows : Nat) {pairs : List (String × Nat)} (fits : Fits lens pairs)
    (w : Nat) : (recordsOf (spilled layout lens windows pairs) w).length =
      regionOf layout lens windows (pairs.map Prod.snd) w := by
  rw [recordsOf_spilled, List.length_flatMap, regionOf, List.filter_map, List.map_map]
  congr 1
  refine List.map_congr_left fun e member => ?_
  rw [record_length, (fits e (List.mem_of_mem_filter member)).2]
  rfl

theorem regionOf_perm {windows : Nat} {slots others : List Nat} (perm : slots.Perm others)
    (w : Nat) : regionOf layout lens windows slots w = regionOf layout lens windows others w :=
  ((perm.filter _).map _).sum_eq

theorem readExact_append {part rest : List UInt8} {size : Nat} (length : part.length = size) :
    readExact size (part ++ rest) = .ok (part, rest) := by
  rw [readExact, if_pos (by rw [List.length_append]; omega), List.take_left' length,
    List.drop_left' length]

/-- A window's records read back are the keys set in their slots. -/
theorem scatter_eq (places : Places layout lens) (from_ : front.length = layout.dataStart)
    (few : lens.length ≤ 2 ^ 32) (rest : List UInt8) (pairs : List (String × Nat)) :
    ∀ {segs : List (List UInt8)}, segs.map List.length = lens → Fits lens pairs →
      scatter layout (pairs.flatMap record).length (pairs.flatMap record ++ rest)
          (front ++ segs.flatten ++ back) =
        .ok (front ++ (setAll segs pairs).flatten ++ back) := by
  induction pairs with
  | nil =>
      intro segs _ _
      rw [scatter]
      exact if_pos rfl
  | cons e pairs ih =>
      intro segs sizes fits
      obtain ⟨⟨here, length⟩, fits⟩ := List.forall_mem_cons.mp fits
      have four : SLOT_TAG = 4 := rfl
      have whole : ((e :: pairs).flatMap record).length =
          SLOT_TAG + (bytesOf e.1).length + (pairs.flatMap record).length := by
        rw [List.flatMap_cons, List.length_append, record_length]
      have reader : (e :: pairs).flatMap record ++ rest =
          leBytes SLOT_TAG e.2 ++ (bytesOf e.1 ++ (pairs.flatMap record ++ rest)) := by
        rw [List.flatMap_cons, record]
        simp only [List.append_assoc]
      have width : layout.dataStart + (lens.take (e.2 + 1)).sum -
          (layout.dataStart + (lens.take e.2).sum) = (bytesOf e.1).length := by
        rw [sum_take_succ, length]
        omega
      have slot : leNat (leBytes SLOT_TAG e.2) = e.2 :=
        leNat_leBytes _ _ (Nat.lt_of_lt_of_le here (few.trans (by decide)))
      have left : ¬ ((e :: pairs).flatMap record).length = 0 := by omega
      rw [scatter, if_neg left, reader, readExact_append (leBytes_length _ _)]
      change (layout.span (leNat (leBytes SLOT_TAG e.2)) >>= _) = _
      rw [slot, places.layoutSpan here]
      change (if SLOT_TAG + (layout.dataStart + _ - (layout.dataStart + _)) ≤ _ then _ else _) = _
      rw [width, if_pos (by omega), readExact_append rfl]
      change (copyFromSlice _ _ (bytesOf e.1) >>= _) = _
      rw [copyFromSlice_segment from_ sizes here length]
      change scatter layout _ (pairs.flatMap record ++ rest) _ = _
      have after : ((e :: pairs).flatMap record).length - (SLOT_TAG + (bytesOf e.1).length) =
          (pairs.flatMap record).length := by omega
      rw [after]
      exact ih (set_lengths sizes length) fits

/-- The regions, window by window: after some, each key that starts in one of them is in its
slot. -/
theorem scatter_windows (places : Places layout lens) (from_ : front.length = layout.dataStart)
    (few : lens.length ≤ 2 ^ 32) {pairs : List (String × Nat)} {file : List UInt8}
    {regions : List Nat} {segs : List (List UInt8)} {windows : Nat}
    (once : (pairs.map Prod.snd).Nodup) (fits : Fits lens pairs)
    (sizes : segs.map List.length = lens)
    (holds : ∀ w, w < windows → Holds file (regionAt regions w)
      (recordsOf (spilled layout lens windows pairs) w))
    (sized : ∀ w, w < windows →
      regions.getD w 0 = (recordsOf (spilled layout lens windows pairs) w).length) :
    ∀ count, count ≤ windows → ∃ after : List (List UInt8), (List.range count).foldlM (fun map w =>
          scatter layout (regions.getD w 0) (file.drop (regionAt regions w)) map)
          (front ++ segs.flatten ++ back) =
            (.ok (front ++ after.flatten ++ back) : Faulting IndexError (List UInt8)) ∧
        after.map List.length = lens ∧ ∀ e ∈ pairs, windowAt layout lens windows e.2 < count →
          after[e.2]? = some (bytesOf e.1) := by
  intro count
  induction count with
  | zero => exact fun _ => ⟨segs, rfl, sizes, fun e _ none => absurd none (Nat.not_lt_zero _)⟩
  | succ count ih =>
      intro most
      obtain ⟨before, run, lengths, earlier⟩ := ih (by omega)
      have here : Fits lens (pairs.filter fun e => windowAt layout lens windows e.2 = count) :=
        fun e member => fits e (List.mem_of_mem_filter member)
      obtain ⟨rest, reader⟩ := (holds count (by omega)).drop
      refine ⟨setAll before (pairs.filter fun e => windowAt layout lens windows e.2 = count), ?_,
        setAll_lengths _ lengths here, fun e member small => ?_⟩
      · rw [List.range_succ, List.foldlM_append, run]
        change (scatter layout _ _ _ >>= fun map => pure map) = _
        rw [sized count (by omega), reader, recordsOf_spilled,
          scatter_eq places from_ few rest _ lengths here]
        rfl
      · have inSegs : ∀ e ∈ (pairs.filter fun e => windowAt layout lens windows e.2 = count).map
            fun e => (bytesOf e.1, e.2), e.2 < before.length := by
          intro e member
          obtain ⟨p, pIn, rfl⟩ := List.mem_map.mp member
          have inside := (here p pIn).1
          rw [← lengths, List.length_map] at inside
          exact inside
        have second : ((pairs.filter fun e => windowAt layout lens windows e.2 = count).map
            fun e => (bytesOf e.1, e.2)).map Prod.snd =
            (pairs.filter fun e => windowAt layout lens windows e.2 = count).map Prod.snd := by
          rw [List.map_map]
          rfl
        have apart : ((pairs.filter fun e => windowAt layout lens windows e.2 = count).map
            Prod.snd).Nodup := once.sublist (List.filter_sublist.map _)
        obtain ⟨-, others, each⟩ := @foldl_set_spec _ _ before (second.symm ▸ apart) inSegs
        have same : setAll before (pairs.filter fun e =>
            windowAt layout lens windows e.2 = count) =
            ((pairs.filter fun e => windowAt layout lens windows e.2 = count).map
              fun e => (bytesOf e.1, e.2)).foldl (fun row e => row.set e.2 e.1) before := by
          rw [setAll, List.foldl_map]
        rw [same]
        rcases Nat.lt_succ_iff_lt_or_eq.mp small with less | this
        · rw [others e.2, earlier e member less]
          rw [second]
          intro listed
          obtain ⟨other, otherIn, slot⟩ := List.mem_map.mp listed
          have window := (List.mem_filter.mp otherIn).2
          rw [slot] at window
          have equal := of_decide_eq_true window
          omega
        · exact each (bytesOf e.1, e.2) (List.mem_map.mpr
            ⟨e, List.mem_filter.mpr ⟨member, decide_eq_true this⟩, rfl⟩)

section Windowed

variable {keys : List String} {rows : List (UInt64 × Nat)} {segs : List (List UInt8)}

theorem windows_pos (some_window : 0 < layout.window) (past : layout.window < layout.dataLen) :
    0 < divCeil layout.dataLen layout.window := by
  rw [divCeil]
  exact Nat.div_pos (by omega) some_window

theorem regionLens_eq (places : Places layout lens) {windows : Nat} (some_window : 0 < windows) :
    ∃ regions, regionLens layout lens.length windows = .ok regions ∧ regions.length = windows ∧
      ∀ w, w < windows →
        regions.getD w 0 = regionOf layout lens windows (List.range lens.length) w := by
  obtain ⟨regions, run, length, each⟩ := @regionLens_fold layout lens places windows some_window
    (List.range lens.length) (List.replicate windows 0) (fun slot member => List.mem_range.mp member)
    List.length_replicate
  refine ⟨regions, run, length, fun w small => ?_⟩
  rw [each w small, List.getD_eq_getElem?_getD, List.getElem?_replicate, if_pos small]
  exact Nat.zero_add _

theorem windowed_puts (places : Places layout lens) (windows : Nat) (regions : List Nat)
    (before spill : Spill) (key : String) (slot : Nat) (related : before = spill)
    (inside : slot < lens.length) (_ : (bytesOf key).length = lens.getD slot 0) :
    ∃ after, spillKey layout regions windows slot (layout.dataStart + (lens.take slot).sum,
        layout.dataStart + (lens.take (slot + 1)).sum) key spill = .ok after ∧
      before.append SPILL_BUF regions (windowAt layout lens windows slot) (record (key, slot)) =
        after := by
  subst related
  rw [spillKey, places.windowOf inside]
  exact ⟨_, rfl, rfl⟩

/-- The spill after a pass. -/
def spillOf (layout : ArenaLayout) (lens : List Nat) (windows : Nat) (regions : List Nat)
    (pairs : List (String × Nat)) : Spill :=
  (spilled layout lens windows pairs).foldl (fun s r => s.append SPILL_BUF regions r.1 r.2)
    (Spill.empty windows)

/-- A pass that brings what is expected goes into the spill, and is read back when it is whole. -/
theorem fillArenaWindowed_run (places : Places layout lens) (some_window : 0 < layout.window)
    (past : layout.window < layout.dataLen) (count : rows.length = lens.length)
    (inside : ∀ row ∈ rows, row.2 < lens.length) (replays : Replays h lens keys rows)
    (map : List UInt8) :
    ∃ regions, regions.length = divCeil layout.dataLen layout.window ∧
      (∀ w, w < divCeil layout.dataLen layout.window → regions.getD w 0 =
        regionOf layout lens (divCeil layout.dataLen layout.window) (List.range lens.length) w) ∧
      fillArenaWindowed h layout keys rows map =
        if keys.length ≠ rows.length then .ok (map, keys.length, digestOf h keys 0)
        else (List.range (divCeil layout.dataLen layout.window)).foldlM (fun map w =>
          scatter layout (regions.getD w 0) (((spillOf layout lens
            (divCeil layout.dataLen layout.window) regions
            (keys.zip (rows.map Prod.snd))).finish regions).file.drop (regionAt regions w)) map) map
          >>= fun map => .ok (map, rows.length, digestOf h keys 0) := by
  have windows := windows_pos some_window past
  obtain ⟨regions, read, length, each⟩ := regionLens_eq places windows
  refine ⟨regions, length, each, ?_⟩
  obtain ⟨after, run, same⟩ := @replay_same h layout lens _ _
    (spillKey layout regions (divCeil layout.dataLen layout.window))
    (fun before after => before = after)
    (fun before e => before.append SPILL_BUF regions
      (windowAt layout lens (divCeil layout.dataLen layout.window) e.2) (record e)) places
    (windowed_puts places _ regions) keys rows 0 0 _
    (Spill.empty (divCeil layout.dataLen layout.window)) inside replays rfl
  have spill : spillOf layout lens (divCeil layout.dataLen layout.window) regions
      (keys.zip (rows.map Prod.snd)) = after := by
    rw [spillOf, spilled, List.foldl_map]
    exact same
  rw [fillArenaWindowed, if_neg some_window.ne']
  simp only [count, read]
  change (replay h layout _ keys rows 0 0 _ >>= _) = _
  rw [run, spill, Nat.zero_add]
  rfl

theorem fillArenaWindowed_other (places : Places layout lens) (some_window : 0 < layout.window)
    (past : layout.window < layout.dataLen) (count : rows.length = lens.length)
    (inside : ∀ row ∈ rows, row.2 < lens.length) (other : ¬ Replays h lens keys rows)
    (map : List UInt8) :
    fillArenaWindowed h layout keys rows map = .error (.refused replayMismatch) := by
  obtain ⟨regions, read, -, -⟩ := regionLens_eq places (windows_pos some_window past)
  have run := @replay_other h layout lens _ _
    (spillKey layout regions (divCeil layout.dataLen layout.window))
    (fun before after => before = after)
    (fun before e => before.append SPILL_BUF regions
      (windowAt layout lens (divCeil layout.dataLen layout.window) e.2) (record e)) places
    (windowed_puts places _ regions) keys rows 0 0 _
    (Spill.empty (divCeil layout.dataLen layout.window)) inside other rfl
  rw [fillArenaWindowed, if_neg some_window.ne']
  simp only [count, read]
  change (replay h layout _ keys rows 0 0 _ >>= _) = _
  rw [run]
  rfl

/-- A whole pass leaves every key in its slot. -/
theorem fillArenaWindowed_same (places : Places layout lens) (some_window : 0 < layout.window)
    (past : layout.window < layout.dataLen) (from_ : front.length = layout.dataStart)
    (few : lens.length ≤ 2 ^ 32) (count : rows.length = lens.length)
    (once : (rows.map Prod.snd).Nodup) (inside : ∀ row ∈ rows, row.2 < lens.length)
    (replays : Replays h lens keys rows) (whole : keys.length = rows.length)
    (sizes : segs.map List.length = lens) :
    fillArenaWindowed h layout keys rows (front ++ segs.flatten ++ back) =
      .ok (front ++ (bySlot [] (keys.map bytesOf) (rows.map Prod.snd)).flatten ++ back, keys.length,
        digestOf h keys 0) := by
  have windows := windows_pos some_window past
  obtain ⟨regions, length, each, run⟩ := fillArenaWindowed_run places some_window past count inside
    replays (front ++ segs.flatten ++ back)
  rw [run, if_neg (not_not.mpr whole)]
  generalize divCeil layout.dataLen layout.window = wins at *
  have fits := replays.fits inside
  have slotCount : (rows.map Prod.snd).length = lens.length := by rw [List.length_map, count]
  have keyCount : keys.length = (rows.map Prod.snd).length := by rw [whole, List.length_map]
  have slotsIn : ∀ slot ∈ rows.map Prod.snd, slot < (rows.map Prod.snd).length := by
    intro slot member
    obtain ⟨row, rowIn, rfl⟩ := List.mem_map.mp member
    rw [slotCount]
    exact inside row rowIn
  have second : (keys.zip (rows.map Prod.snd)).map Prod.snd = rows.map Prod.snd :=
    List.map_snd_zip keyCount.ge
  -- The regions were sized for all the slots, which are what the pass brings.
  have sized : ∀ w, w < wins → regions.getD w 0 =
      (recordsOf (spilled layout lens wins (keys.zip (rows.map Prod.snd))) w).length := by
    intro w small
    have perm := slots_perm once slotsIn
    rw [slotCount] at perm
    rw [each w small, recordsOf_length wins fits, second, regionOf_perm perm]
  have room : ∀ w, w < regions.length →
      (recordsOf (spilled layout lens wins (keys.zip (rows.map Prod.snd))) w).length ≤
        regions.getD w 0 := fun w small => (sized w (length ▸ small)).ge
  have held := @Spill.run_holding regions SPILL_BUF
    (spilled layout lens wins (keys.zip (rows.map Prod.snd))) (fun r member => by
      obtain ⟨e, -, rfl⟩ := List.mem_map.mp member
      rw [length]
      exact windowAt_lt windows e.2) room
  rw [length] at held
  have holds := Spill.finish_holds held room
  rw [length] at holds
  obtain ⟨after, filled, lengths, kept⟩ := scatter_windows places from_ few (second.symm ▸ once) fits
    sizes holds sized wins le_rfl
  have placed : after = bySlot [] (keys.map bytesOf) (rows.map Prod.snd) := by
    have mapped : (keys.map bytesOf).length = (rows.map Prod.snd).length := by
      rw [List.length_map, keyCount]
    have pairs : ((keys.map bytesOf).zip (rows.map Prod.snd)).length =
        (rows.map Prod.snd).length := by
      rw [List.length_zip, mapped, Nat.min_self]
    obtain ⟨slotLength, slotEach⟩ := @bySlot_spec _ [] (keys.map bytesOf) (rows.map Prod.snd) mapped
      once slotsIn
    have afterLength : after.length = lens.length := by
      rw [← lengths, List.length_map]
    refine @rows_unique _ ((keys.map bytesOf).zip (rows.map Prod.snd)) _ _
      (by rwa [List.map_snd_zip mapped.ge]) (fun e member => ?_) (by omega) (by omega)
      (fun e member => ?_) slotEach
    · rw [pairs]
      exact slotsIn e.2 (List.of_mem_zip member).2
    · rw [List.zip_map_left] at member
      obtain ⟨p, pIn, rfl⟩ := List.mem_map.mp member
      exact kept p pIn (windowAt_lt windows p.2)
  rw [← placed, ← whole]
  change (List.foldlM _ _ _ >>= _) = _
  rw [spillOf, filled]
  rfl

end Windowed

/-! ## Either fill -/

section Either

variable {keys : List String} {rows : List (UInt64 × Nat)} {segs : List (List UInt8)}

theorem fillMap_whole (places : Places layout lens) (some_window : 0 < layout.window)
    (from_ : front.length = layout.dataStart) (few : lens.length ≤ 2 ^ 32)
    (count : rows.length = lens.length) (once : (rows.map Prod.snd).Nodup)
    (inside : ∀ row ∈ rows, row.2 < lens.length) (replays : Replays h lens keys rows)
    (whole : keys.length = rows.length) (sizes : segs.map List.length = lens) :
    fillMap h layout keys rows (front ++ segs.flatten ++ back) =
      .ok (front ++ (bySlot [] (keys.map bytesOf) (rows.map Prod.snd)).flatten ++ back, keys.length,
        digestOf h keys 0) := by
  rw [fillMap]
  split
  · have keyCount : keys.length = (rows.map Prod.snd).length := by rw [whole, List.length_map]
    have slotCount : (rows.map Prod.snd).length = lens.length := by rw [List.length_map, count]
    have slotsIn : ∀ slot ∈ rows.map Prod.snd, slot < (rows.map Prod.snd).length := by
      intro slot member
      obtain ⟨row, rowIn, rfl⟩ := List.mem_map.mp member
      rw [slotCount]
      exact inside row rowIn
    have sized : segs.length = (rows.map Prod.snd).length := by
      rw [slotCount, ← sizes, List.length_map]
    rw [fillArenaDirect_same places from_ inside replays sizes,
      setAll_bySlot keyCount once slotsIn sized]
  · next past =>
    exact fillArenaWindowed_same places some_window (by omega) from_ few count once inside replays
      whole sizes

theorem fillMap_short (places : Places layout lens) (some_window : 0 < layout.window)
    (from_ : front.length = layout.dataStart) (count : rows.length = lens.length)
    (inside : ∀ row ∈ rows, row.2 < lens.length) (replays : Replays h lens keys rows)
    (short : keys.length ≠ rows.length) (sizes : segs.map List.length = lens) :
    ∃ after, fillMap h layout keys rows (front ++ segs.flatten ++ back) =
      .ok (after, keys.length, digestOf h keys 0) := by
  rw [fillMap]
  split
  · exact ⟨_, fillArenaDirect_same places from_ inside replays sizes⟩
  · next past =>
    obtain ⟨regions, -, -, run⟩ := fillArenaWindowed_run places some_window (by omega) count inside
      replays (front ++ segs.flatten ++ back)
    exact ⟨_, run.trans (if_pos short)⟩

theorem fillMap_other (places : Places layout lens) (some_window : 0 < layout.window)
    (from_ : front.length = layout.dataStart) (count : rows.length = lens.length)
    (inside : ∀ row ∈ rows, row.2 < lens.length) (other : ¬ Replays h lens keys rows)
    (sizes : segs.map List.length = lens) :
    fillMap h layout keys rows (front ++ segs.flatten ++ back) =
      .error (.refused replayMismatch) := by
  rw [fillMap]
  split
  · exact fillArenaDirect_other places from_ inside other sizes
  · next past =>
    exact fillArenaWindowed_other places some_window (by omega) count inside other _

end Either

end Fill

end Lexindex.PerfectHash
