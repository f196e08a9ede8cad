import Mathlib
import Lexindex.Lib.Buffer

/-!
# Regions of a file

A file cut into regions of known lengths.  Each is appended to through a buffer that is written
out when it is long enough, so the order in which the file is written is not the order of the
bytes in it.
-/

set_option autoImplicit false

namespace Lexindex

/-- Bytes at a position of a file, that grows with zeros to reach it. -/
def writeAt (file : List UInt8) (start : Nat) (bytes : List UInt8) : List UInt8 :=
  overwrite (file ++ List.replicate (start - file.length) 0) start bytes

/-- The file holds the bytes at the position. -/
def Holds (file : List UInt8) (start : Nat) (bytes : List UInt8) : Prop :=
  ∀ k, k < bytes.length → file[start + k]? = bytes[k]?

section Files

variable {file bytes more : List UInt8} {start other : Nat}

theorem holds_nil : Holds file start [] :=
  fun _ inside => absurd inside (Nat.not_lt_zero _)

theorem writeAt_inside {k : Nat} (inside : k < bytes.length) :
    (writeAt file start bytes)[start + k]? = bytes[k]? := by
  have front : ((file ++ List.replicate (start - file.length) 0).take start).length = start := by
    rw [List.length_take, List.length_append, List.length_replicate]
    omega
  rw [writeAt, overwrite, List.append_assoc, List.getElem?_append_right (by omega), front,
    Nat.add_sub_cancel_left, List.getElem?_append_left inside]

theorem writeAt_outside {k : Nat} (there : k < file.length)
    (apart : k < start ∨ start + bytes.length ≤ k) : (writeAt file start bytes)[k]? = file[k]? := by
  have front : ((file ++ List.replicate (start - file.length) 0).take start).length = start := by
    rw [List.length_take, List.length_append, List.length_replicate]
    omega
  rw [writeAt, overwrite]
  rcases apart with before | past
  · rw [List.append_assoc, List.getElem?_append_left (by omega), List.getElem?_take_of_lt before,
      List.getElem?_append_left there]
  · rw [List.getElem?_append_right (by rw [List.length_append]; omega), List.length_append, front,
      List.getElem?_drop, ← List.getElem?_append_left there]
    congr 1
    omega

/-- What is written apart from bytes leaves them. -/
theorem Holds.apart (held : Holds file start bytes)
    (apart : start + bytes.length ≤ other ∨ other + more.length ≤ start) :
    Holds (writeAt file other more) start bytes := by
  intro k inside
  have here := held k inside
  have there : start + k < file.length := by
    rw [List.getElem?_eq_getElem inside] at here
    exact (List.getElem?_eq_some_iff.mp here).1
  rw [writeAt_outside there (by omega), here]

/-- What is written right behind bytes goes on from them. -/
theorem Holds.append (held : Holds file start bytes) :
    Holds (writeAt file (start + bytes.length) more) start (bytes ++ more) := by
  intro k inside
  rw [List.length_append] at inside
  by_cases first : k < bytes.length
  · rw [List.getElem?_append_left first]
    exact held.apart (.inl le_rfl) k first
  · have place : start + k = start + bytes.length + (k - bytes.length) := by omega
    rw [List.getElem?_append_right (by omega), place, writeAt_inside (by omega)]

/-- A reader at the position reads the bytes. -/
theorem Holds.drop (held : Holds file start bytes) : ∃ rest, file.drop start = bytes ++ rest := by
  refine ⟨(file.drop start).drop bytes.length, ?_⟩
  conv => lhs; rw [← List.take_append_drop bytes.length (file.drop start)]
  congr 1
  refine List.ext_getElem? fun k => ?_
  by_cases inside : k < bytes.length
  · rw [List.getElem?_take_of_lt inside, List.getElem?_drop, held k inside]
  · rw [List.getElem?_take_eq_none (by omega), List.getElem?_eq_none (by omega)]

end Files

/-! ## Appending through buffers -/

/-- Where a region starts. -/
def regionAt (lens : List Nat) (w : Nat) : Nat :=
  (lens.take w).sum

/-- Two regions do not overlap. -/
theorem regionAt_apart {lens : List Nat} {v w : Nat} (less : v < w) :
    regionAt lens v + lens.getD v 0 ≤ regionAt lens w := by
  have next : regionAt lens v + lens.getD v 0 = (lens.take (v + 1)).sum := by
    rw [regionAt, List.take_add_one, List.sum_append, List.getD_eq_getElem?_getD]
    cases lens[v]? <;> rfl
  have cut : lens.take w = lens.take (v + 1) ++ (lens.take w).drop (v + 1) := by
    conv => lhs; rw [← List.take_append_drop (v + 1) (lens.take w)]
    rw [List.take_take, Nat.min_eq_left less]
  rw [next, regionAt, cut, List.sum_append]
  exact Nat.le_add_right _ _

structure Spill where
  file : List UInt8
  buf : List (List UInt8)
  cursor : List Nat

namespace Spill

/-- What is not written out of a region, written behind what is. -/
def flushed (lens : List Nat) (s : Spill) (w : Nat) : List UInt8 :=
  writeAt s.file (regionAt lens w + s.cursor.getD w 0) (s.buf.getD w [])

/-- A record behind the others of its region, and the buffer written out from `full` bytes. -/
def append (full : Nat) (lens : List Nat) (s : Spill) (w : Nat) (record : List UInt8) : Spill :=
  let out := s.buf.getD w [] ++ record
  let s := { s with buf := s.buf.set w out }
  if full ≤ out.length then
    { file := s.flushed lens w
      buf := s.buf.set w []
      cursor := s.cursor.set w (s.cursor.getD w 0 + out.length) }
  else s

/-- Every buffer that is not empty, written out. -/
def finish (lens : List Nat) (s : Spill) : Spill :=
  (List.range lens.length).foldl
    (fun s w => if s.buf.getD w [] = [] then s else { s with file := s.flushed lens w }) s

def empty (windows : Nat) : Spill where
  file := []
  buf := List.replicate windows []
  cursor := List.replicate windows 0

/-- Each region's bytes are in the file up to a point, and in its buffer from there on. -/
structure Holding (lens : List Nat) (s : Spill) (appended : Nat → List UInt8) : Prop where
  buffers : s.buf.length = lens.length
  cursors : s.cursor.length = lens.length
  each : ∀ w, w < lens.length → ∃ out, appended w = out ++ s.buf.getD w [] ∧
    s.cursor.getD w 0 = out.length ∧ Holds s.file (regionAt lens w) out

variable {lens : List Nat} {s : Spill} {appended : Nat → List UInt8} {full w : Nat}
  {record : List UInt8}

theorem empty_holding : Holding lens (empty lens.length) fun _ => [] where
  buffers := List.length_replicate
  cursors := List.length_replicate
  each := fun w inside => by
    refine ⟨[], ?_, ?_, holds_nil⟩
    · rw [empty, List.getD_eq_getElem?_getD, List.getElem?_replicate, if_pos inside]
      rfl
    · rw [empty, List.getD_eq_getElem?_getD, List.getElem?_replicate, if_pos inside]
      rfl

/-- A write inside a region leaves the bytes of the others. -/
theorem holds_other {file out more : List UInt8} {v start : Nat} (differ : v ≠ w)
    (held : Holds file (regionAt lens v) out) (room : out.length ≤ lens.getD v 0)
    (from_ : regionAt lens w ≤ start) (upTo : start + more.length ≤ regionAt lens w + lens.getD w 0) :
    Holds (writeAt file start more) (regionAt lens v) out := by
  refine held.apart ?_
  rcases Nat.lt_or_gt_of_ne differ with less | more
  · have before := @regionAt_apart lens _ _ less
    exact .inl (by omega)
  · have past := @regionAt_apart lens _ _ more
    exact .inr (by omega)

theorem getD_set_self {α : Type} {xs : List α} {x d : α} (inside : w < xs.length) :
    (xs.set w x).getD w d = x := by
  rw [List.getD_eq_getElem?_getD, List.getElem?_set_self inside, Option.getD_some]

theorem getD_set_other {α : Type} {xs : List α} {x d : α} {v : Nat} (differ : v ≠ w) :
    (xs.set w x).getD v d = xs.getD v d := by
  rw [List.getD_eq_getElem?_getD, List.getElem?_set_ne differ.symm, ← List.getD_eq_getElem?_getD]

/-- A record goes behind the others of its region, whether its buffer is written out or not. -/
theorem append_holding (held : Holding lens s appended) (inside : w < lens.length)
    (room : ∀ v, v < lens.length → (appended v).length ≤ lens.getD v 0)
    (fits : (appended w ++ record).length ≤ lens.getD w 0) :
    Holding lens (s.append full lens w record)
      (Function.update appended w (appended w ++ record)) := by
  obtain ⟨buffers, cursors, each⟩ := held
  rw [append]
  obtain ⟨out, whole, upTo, file⟩ := each w inside
  rw [whole, List.append_assoc, List.length_append] at fits
  split
  · refine ⟨by simp only [List.length_set, buffers], by simp only [List.length_set, cursors],
      fun v there => ?_⟩
    simp only [flushed, upTo, @getD_set_self w _ s.buf _ [] (buffers ▸ inside)]
    by_cases same : v = w
    · subst same
      refine ⟨out ++ (s.buf.getD v [] ++ record), ?_, ?_, file.append⟩
      · rw [Function.update_self, whole, getD_set_self (by rw [List.length_set, buffers]; exact inside),
          List.append_nil, List.append_assoc]
      · rw [getD_set_self (by rw [cursors]; exact inside), List.length_append, List.length_append,
          List.length_append]
    · obtain ⟨others, their, cursor, kept⟩ := each v there
      have less := room v there
      rw [their, List.length_append] at less
      refine ⟨others, ?_, ?_, holds_other same kept (by omega) (Nat.le_add_right _ _) (by omega)⟩
      · rw [Function.update_of_ne same, getD_set_other same, getD_set_other same, their]
      · rw [getD_set_other same, cursor]
  · refine ⟨by simp only [List.length_set, buffers], cursors, fun v there => ?_⟩
    by_cases same : v = w
    · subst same
      refine ⟨out, ?_, upTo, file⟩
      rw [Function.update_self, whole, getD_set_self (by rw [buffers]; exact inside),
        List.append_assoc]
    · obtain ⟨others, their, cursor, kept⟩ := each v there
      refine ⟨others, ?_, cursor, kept⟩
      rw [Function.update_of_ne same, getD_set_other same, their]

/-- The bytes of a region's records, in the order they came. -/
def recordsOf (records : List (Nat × List UInt8)) (w : Nat) : List UInt8 :=
  (records.filter fun r => r.1 = w).flatMap Prod.snd

theorem recordsOf_concat (records : List (Nat × List UInt8)) (r : Nat × List UInt8) :
    recordsOf (records ++ [r]) =
      Function.update (recordsOf records) r.1 (recordsOf records r.1 ++ r.2) := by
  funext v
  by_cases same : v = r.1
  · subst same
    simp [recordsOf]
  · rw [Function.update_of_ne same]
    simp [recordsOf, Ne.symm same]

theorem recordsOf_le (records : List (Nat × List UInt8)) (r : Nat × List UInt8) (v : Nat) :
    (recordsOf records v).length ≤ (recordsOf (records ++ [r]) v).length := by
  simp only [recordsOf, List.filter_append, List.flatMap_append, List.length_append]
  exact Nat.le_add_right _ _

/-- After any run of records that fit their regions, each region has its own in order. -/
theorem run_holding (records : List (Nat × List UInt8)) (inside : ∀ r ∈ records, r.1 < lens.length)
    (room : ∀ v, v < lens.length → (recordsOf records v).length ≤ lens.getD v 0) :
    Holding lens (records.foldl (fun s r => s.append full lens r.1 r.2) (empty lens.length))
      (recordsOf records) := by
  induction records using List.reverseRecOn with
  | nil => exact empty_holding
  | append_singleton records r ih =>
      have there := inside r (List.mem_append_right _ List.mem_cons_self)
      have fewer v (small : v < lens.length) : (recordsOf records v).length ≤ lens.getD v 0 :=
        (recordsOf_le records r v).trans (room v small)
      have last := room r.1 there
      rw [recordsOf_concat, Function.update_self] at last
      rw [List.foldl_concat, recordsOf_concat]
      exact append_holding (ih (fun r member => inside r (List.mem_append_left _ member)) fewer)
        there fewer last

/-- Written out, each region of the file holds all that was appended to it. -/
theorem finish_holds (held : Holding lens s appended)
    (room : ∀ v, v < lens.length → (appended v).length ≤ lens.getD v 0) :
    ∀ v, v < lens.length → Holds (s.finish lens).file (regionAt lens v) (appended v) := by
  -- The regions up to a point are whole, and the others are as they were.
  have upTo : ∀ count, count ≤ lens.length →
      let flushed := (List.range count).foldl
        (fun s w => if s.buf.getD w [] = [] then s else { s with file := s.flushed lens w }) s
      flushed.buf = s.buf ∧ flushed.cursor = s.cursor ∧
        (∀ v, v < count → Holds flushed.file (regionAt lens v) (appended v)) ∧
        ∀ v, count ≤ v → v < lens.length → ∃ out, appended v = out ++ s.buf.getD v [] ∧
          s.cursor.getD v 0 = out.length ∧ Holds flushed.file (regionAt lens v) out := by
    intro count
    induction count with
    | zero =>
        exact fun _ => ⟨rfl, rfl, fun _ none => absurd none (Nat.not_lt_zero _),
          fun v _ there => held.each v there⟩
    | succ count ih =>
        intro most
        obtain ⟨buf, cursor, before, later⟩ := ih (by omega)
        simp only [List.range_succ, List.foldl_append, List.foldl_cons, List.foldl_nil] at *
        generalize (List.range count).foldl (fun (s : Spill) w =>
          if s.buf.getD w [] = [] then s else { s with file := s.flushed lens w }) s = flushed at *
        obtain ⟨out, whole, past, file⟩ := later count le_rfl (by omega)
        have less := room count (by omega)
        rw [buf]
        split
        · next nothing =>
          refine ⟨buf, cursor, fun v small => ?_, fun v big there => later v (by omega) there⟩
          rcases Nat.lt_succ_iff_lt_or_eq.mp small with less | rfl
          · exact before v less
          · rw [whole, nothing, List.append_nil]
            exact file
        · simp only [Spill.flushed, buf, cursor, past]
          rw [whole, List.length_append] at less
          refine ⟨trivial, trivial, fun v small => ?_, fun v big there => ?_⟩
          · rcases Nat.lt_succ_iff_lt_or_eq.mp small with first | rfl
            · exact holds_other (by omega) (before v first) (room v (by omega))
                (Nat.le_add_right _ _) (by omega)
            · rw [whole]
              exact file.append
          · obtain ⟨others, their, theirs, kept⟩ := later v (by omega) there
            have bound := room v there
            rw [their, List.length_append] at bound
            exact ⟨others, their, theirs, holds_other (by omega) kept (by omega)
              (Nat.le_add_right _ _) (by omega)⟩
  intro v there
  exact (upTo lens.length le_rfl).2.2.1 v there

end Spill

end Lexindex
