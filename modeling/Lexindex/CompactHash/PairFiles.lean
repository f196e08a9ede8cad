import Mathlib
import Lexindex.CompactHash.Pairs

/-!
# Records read back

Whatever each read gets, a slice yields the records its run has ahead of it, and the merged files read
as one stream yield theirs: or an error.  A slice of a run that is too short ends in one, and so does
a stream with a file that ends inside a record.
-/

set_option autoImplicit false

namespace Lexindex.CompactHash

/-- No read fails. -/
def Reliable (reads : Reads) : Prop :=
  ∀ k, reads k ≠ none

theorem Reliable.after {reads : Reads} (reliable : Reliable reads) : Reliable reads.after :=
  fun k => reliable (k + 1)

/-! ## Records -/

theorem length_pairBytes (pair : Pair) : (pairBytes pair).length = PAIR_BYTES := by
  rw [pairBytes, List.length_append, leBytes_length, leBytes_length]
  rfl

theorem pairOf_pairBytes (pair : Pair) : pairOf (pairBytes pair) = pair := by
  have first : (leBytes 8 pair.1.toNat).length = 8 := leBytes_length ..
  rw [pairOf, pairBytes, List.take_left' first, List.drop_left' first,
    leNat_leBytes 8 _ pair.1.toNat_lt, leNat_leBytes 8 _ pair.2.toNat_lt, UInt64.ofNat_toNat,
    UInt64.ofNat_toNat]

theorem length_flatMap_pairBytes (run : List Pair) :
    (run.flatMap pairBytes).length = PAIR_BYTES * run.length := by
  induction run with
  | nil => rfl
  | cons pair run ih =>
      rw [List.flatMap_cons, List.length_append, length_pairBytes, ih, List.length_cons, Nat.mul_succ,
        Nat.add_comm]

@[simp] theorem length_recordsOf (count : Nat) : ∀ bytes, (recordsOf bytes count).length = count := by
  induction count with
  | zero => exact fun _ => rfl
  | succ count ih => exact fun bytes => congrArg (· + 1) (ih _)

theorem recordsOf_add (count more : Nat) : ∀ bytes, recordsOf bytes (count + more) =
    recordsOf bytes count ++ recordsOf (bytes.drop (PAIR_BYTES * count)) more := by
  induction count with
  | zero =>
      intro bytes
      rw [Nat.zero_add, Nat.mul_zero, List.drop_zero]
      rfl
  | succ count ih =>
      intro bytes
      rw [Nat.add_right_comm, recordsOf, recordsOf, ih, List.drop_drop, List.cons_append, Nat.mul_succ,
        Nat.add_comm]

/-- Records depend on their own bytes only. -/
theorem recordsOf_take (count : Nat) : ∀ bytes, recordsOf (bytes.take (PAIR_BYTES * count)) count =
    recordsOf bytes count := by
  induction count with
  | zero => exact fun _ => rfl
  | succ count ih =>
      intro bytes
      have least : PAIR_BYTES ≤ PAIR_BYTES * (count + 1) := Nat.le_mul_of_pos_right _ (Nat.succ_pos _)
      rw [recordsOf, recordsOf, List.take_take, Nat.min_eq_left least, List.drop_take, Nat.mul_succ,
        Nat.add_sub_cancel, ih]

theorem recordsOf_flatMap (run : List Pair) : ∀ more,
    recordsOf (run.flatMap pairBytes ++ more) run.length = run := by
  induction run with
  | nil => exact fun _ => rfl
  | cons pair run ih =>
      intro more
      have size := length_pairBytes pair
      rw [List.flatMap_cons, List.append_assoc, List.length_cons, recordsOf, List.take_left' size,
        List.drop_left' size, ih, pairOf_pairBytes]

/-! ## One read -/

theorem readSome_cases (reads : Reads) {room : Nat} (ahead : List UInt8) (some_ : 0 < room) :
    (readSome reads room ahead = .error .io ∧ ¬ Reliable reads) ∨
    ∃ got, readSome reads room ahead = .ok got ∧ ahead = got ++ ahead.drop got.length ∧
      got.length ≤ room ∧ (got = [] ↔ ahead = []) := by
  rw [readSome]
  cases choice : reads 0 with
  | none => exact .inl ⟨rfl, fun reliable => reliable 0 choice⟩
  | some more =>
      refine .inr ⟨_, rfl, ?_, ?_, ?_⟩
      · rw [List.length_take]
        rcases Nat.le_total (min room (more + 1)) ahead.length with short | long
        · rw [Nat.min_eq_left short, List.take_append_drop]
        · rw [Nat.min_eq_right long, List.drop_length, List.append_nil, List.take_of_length_le long]
      · rw [List.length_take]
        exact (Nat.min_le_left ..).trans (Nat.min_le_left ..)
      · rw [List.take_eq_nil_iff]
        refine or_iff_right fun zero => ?_
        have positive : 0 < min room (more + 1) := lt_min some_ (Nat.succ_pos _)
        omega

/-! ## A slice of a run -/

namespace Slice

/-- The bytes a slice has ahead of it. -/
def ahead (s : Slice) : List UInt8 :=
  s.held ++ s.file.drop s.at_

/-- Reading holds a record, or fails: where there is none, or a read does. -/
theorem refill_spec (fuel : Nat) : ∀ {s : Slice}, PAIR_BYTES ≤ s.held.length + fuel →
    s.held.length ≤ READ_BUF →
    ((∃ e, refill fuel s = .error e) ∧
      (s.ahead.length < PAIR_BYTES ∨ ¬ Reliable s.reads)) ∨
    ∃ s', refill fuel s = .ok s' ∧ s'.ahead = s.ahead ∧ PAIR_BYTES ≤ s'.held.length ∧
      s'.held.length ≤ READ_BUF ∧ s'.left = s.left ∧ (Reliable s.reads → Reliable s'.reads) := by
  induction fuel with
  | zero =>
      intro s enough room
      exact .inr ⟨s, rfl, rfl, enough, room, rfl, id⟩
  | succ fuel ih =>
      intro s enough room
      rw [refill]
      by_cases short : s.held.length < PAIR_BYTES
      · rw [if_pos short]
        have space : 0 < READ_BUF - s.held.length :=
          Nat.sub_pos_of_lt (short.trans (by decide))
        rcases readSome_cases s.reads (s.file.drop s.at_) space with ⟨failed, fails⟩ | ⟨got, read, split, few, nil⟩
        · exact .inl ⟨⟨.io, by rw [failed]⟩, .inr fails⟩
        · rw [read]
          cases got with
          | nil =>
              refine .inl ⟨⟨.torn, rfl⟩, .inl ?_⟩
              rw [ahead, nil.mp rfl, List.append_nil]
              exact short
          | cons byte got =>
              have same : ahead { s with
                  held := s.held ++ byte :: got
                  at_ := s.at_ + (byte :: got).length
                  reads := s.reads.after } = s.ahead := by
                rw [ahead, ahead, List.append_assoc, ← List.drop_drop]
                congr 1
                exact split.symm
              have onward := ih (s := { s with
                  held := s.held ++ byte :: got
                  at_ := s.at_ + (byte :: got).length
                  reads := s.reads.after })
                (by
                  simp only [List.length_append, List.length_cons]
                  omega)
                (by
                  simp only [List.length_append, List.length_cons] at few ⊢
                  omega)
              rw [same] at onward
              rcases onward with ⟨failed, why⟩ | ⟨s', ran, whole, holds, fits, left, reliable⟩
              · exact .inl ⟨failed, why.imp_right fun fails reliable => fails reliable.after⟩
              · exact .inr ⟨s', ran, whole, holds, fits, left, fun known => reliable known.after⟩
      · rw [if_neg short]
        exact .inr ⟨s, rfl, rfl, Nat.le_of_not_lt short, room, rfl, id⟩

/-- A slice yields its records, or fails where the run has fewer or a read does. -/
theorem drains : ∀ (left : Nat) {s : Slice}, s.left = left → s.held.length ≤ READ_BUF →
    ∃ items fails, Drains next s items fails ∧ items.length ≤ left ∧
      (fails = false → PAIR_BYTES * left ≤ s.ahead.length ∧ items = recordsOf s.ahead left) ∧
      (fails = true → s.ahead.length < PAIR_BYTES * left ∨ ¬ Reliable s.reads) := by
  intro left
  induction left with
  | zero =>
      intro s none_ _
      refine ⟨[], false, .ended (by rw [next, if_pos none_]), Nat.le_refl 0, fun _ => ?_, ?_⟩
      · exact ⟨by rw [Nat.mul_zero]; exact Nat.zero_le _, rfl⟩
      · exact fun contra => absurd contra (by decide)
  | succ left ih =>
      intro s some_ room
      have nonzero : ¬ s.left = 0 := by omega
      rcases refill_spec PAIR_BYTES (Nat.le_add_left _ _) room with
        ⟨⟨e, failed⟩, why⟩ | ⟨s', ran, whole, holds, fits, sameLeft, reliable⟩
      · refine ⟨[], true, .failed (e := e) (by rw [next, if_neg nonzero, failed]), Nat.zero_le _,
          fun contra => absurd contra (by decide), fun _ => ?_⟩
        refine why.imp_left fun short => short.trans_le ?_
        exact Nat.le_mul_of_pos_right _ (Nat.succ_pos _)
      · have answer : next s = .ok (some (pairOf (s'.held.take PAIR_BYTES),
            { s' with held := s'.held.drop PAIR_BYTES, left := s'.left - 1 })) := by
          rw [next, if_neg nonzero, ran]
        have rest : ahead { s' with held := s'.held.drop PAIR_BYTES, left := s'.left - 1 } =
            s.ahead.drop PAIR_BYTES := by
          rw [← whole, ahead, ahead, List.drop_append_of_le_length holds]
        have first : s'.held.take PAIR_BYTES = s.ahead.take PAIR_BYTES := by
          rw [← whole, ahead, List.take_append_of_le_length holds]
        obtain ⟨items, fails, drained, few, fine, wrong⟩ :=
          ih (s := { s' with held := s'.held.drop PAIR_BYTES, left := s'.left - 1 })
            (by change s'.left - 1 = left; omega)
            (by change (s'.held.drop PAIR_BYTES).length ≤ _; rw [List.length_drop]; omega)
        rw [rest] at fine wrong
        have enough : PAIR_BYTES ≤ s.ahead.length := by
          rw [← whole, ahead, List.length_append]
          omega
        rw [List.length_drop] at fine wrong
        refine ⟨_, fails, .item answer drained, Nat.succ_le_succ few, fun sound => ?_, fun failing => ?_⟩
        · obtain ⟨long, same⟩ := fine sound
          rw [Nat.mul_succ, recordsOf, same, first]
          exact ⟨by omega, rfl⟩
        · rcases wrong failing with short | fails
          · rw [Nat.mul_succ]
            exact .inl (by omega)
          · exact .inr fun known => fails (reliable known)

end Slice

/-! ## The merged files -/

/-- A file of whole records. -/
def Whole (bytes : List UInt8) : Prop :=
  bytes.length % PAIR_BYTES = 0

def allRecords (bytes : List UInt8) : List Pair :=
  recordsOf bytes (bytes.length / PAIR_BYTES)

theorem allRecords_split {bytes : List UInt8} {count : Nat} (within : count ≤ bytes.length / PAIR_BYTES) :
    allRecords bytes = recordsOf bytes count ++ allRecords (bytes.drop (PAIR_BYTES * count)) := by
  have rest : (bytes.drop (PAIR_BYTES * count)).length / PAIR_BYTES =
      bytes.length / PAIR_BYTES - count := by
    rw [List.length_drop, Nat.sub_mul_div]
  rw [allRecords, allRecords, rest, ← recordsOf_add, Nat.add_sub_cancel' within]

namespace Segments

/-- The open file's bytes that are still to be decoded. -/
def here (s : Segments) : List UInt8 :=
  s.held ++ s.file

/-- Reading fills the buffer or ends the file. -/
theorem fillBuf_spec (fuel : Nat) : ∀ {s : Segments}, SEGMENT_BUF ≤ s.held.length + fuel →
    s.held.length ≤ SEGMENT_BUF →
    (fillBuf fuel s = .error .io ∧ ¬ Reliable s.reads) ∨
    ∃ s', fillBuf fuel s = .ok s' ∧ s'.here = s.here ∧ s'.rest = s.rest ∧
      (s'.held.length = SEGMENT_BUF ∨ s'.file = []) ∧ s'.held.length ≤ SEGMENT_BUF ∧
      (Reliable s.reads → Reliable s'.reads) := by
  induction fuel with
  | zero =>
      intro s enough room
      exact .inr ⟨s, rfl, rfl, rfl, .inl (Nat.le_antisymm room enough), room, id⟩
  | succ fuel ih =>
      intro s enough room
      rw [fillBuf]
      by_cases short : s.held.length < SEGMENT_BUF
      · rw [if_pos short]
        rcases readSome_cases s.reads s.file (Nat.sub_pos_of_lt short) with
          ⟨failed, fails⟩ | ⟨got, read, split, few, nil⟩
        · exact .inl ⟨by rw [failed], fails⟩
        · rw [read]
          cases got with
          | nil => exact .inr ⟨_, rfl, rfl, rfl, .inr (nil.mp rfl), room, fun known => known.after⟩
          | cons byte got =>
              have same : here { s with
                  held := s.held ++ byte :: got
                  file := s.file.drop (byte :: got).length
                  reads := s.reads.after } = s.here := by
                rw [here, here, List.append_assoc]
                congr 1
                exact split.symm
              have onward := ih (s := { s with
                  held := s.held ++ byte :: got
                  file := s.file.drop (byte :: got).length
                  reads := s.reads.after })
                (by
                  simp only [List.length_append, List.length_cons]
                  omega)
                (by
                  simp only [List.length_append, List.length_cons] at few ⊢
                  omega)
              rw [same] at onward
              rcases onward with ⟨failed, fails⟩ | ⟨s', ran, whole, rest, full, fits, reliable⟩
              · exact .inl ⟨failed, fun known => fails known.after⟩
              · exact .inr ⟨s', ran, whole, rest, full, fits, fun known => reliable known.after⟩
      · rw [if_neg short]
        exact .inr ⟨s, rfl, rfl, rfl, .inl (Nat.le_antisymm room (Nat.le_of_not_lt short)), room, id⟩

/-- A buffer's worth decoded: its records come first, and the rest of the file is as whole as it was. -/
theorem batch_spec (s : Segments) :
    allRecords s.here = recordsOf s.held (s.held.length / PAIR_BYTES) ++
      allRecords (s.held.drop (s.held.length / PAIR_BYTES * PAIR_BYTES) ++ s.file) ∧
    (Whole s.here ↔ Whole (s.held.drop (s.held.length / PAIR_BYTES * PAIR_BYTES) ++ s.file)) ∧
    (s.held.drop (s.held.length / PAIR_BYTES * PAIR_BYTES) ++ s.file).length +
      PAIR_BYTES * (s.held.length / PAIR_BYTES) = s.here.length := by
  have inside : s.held.length / PAIR_BYTES * PAIR_BYTES ≤ s.held.length := Nat.div_mul_le_self ..
  have within : s.held.length / PAIR_BYTES ≤ s.here.length / PAIR_BYTES := by
    rw [here, List.length_append]
    exact Nat.div_le_div_right (Nat.le_add_right ..)
  generalize s.held.length / PAIR_BYTES = count at inside within
  have cut : s.here.drop (PAIR_BYTES * count) = s.held.drop (count * PAIR_BYTES) ++ s.file := by
    rw [here, Nat.mul_comm, List.drop_append_of_le_length inside]
  have front : recordsOf s.here count = recordsOf s.held count := by
    rw [← recordsOf_take, here, List.take_append_of_le_length (by rwa [Nat.mul_comm]), recordsOf_take]
  have sizes : (s.held.drop (count * PAIR_BYTES) ++ s.file).length + PAIR_BYTES * count = s.here.length := by
    rw [here, List.length_append, List.length_append, List.length_drop, Nat.mul_comm PAIR_BYTES]
    omega
  refine ⟨by rw [allRecords_split within, front, cut], ?_, sizes⟩
  rw [Whole, Whole, ← sizes, Nat.add_mul_mod_self_left]

/-- Where a record is held, the records held are the next batch. -/
theorem fillFrom_batch {rest : List (List UInt8)} {s s' : Segments}
    (ran : fillBuf SEGMENT_BUF s = .ok s') (sameHere : s'.here = s.here) (sameRest : s'.rest = rest)
    (fits : s'.held.length ≤ SEGMENT_BUF) (some_ : 0 < s'.held.length / PAIR_BYTES)
    (reliable : Reliable s.reads → Reliable s'.reads) :
    ∃ batch s'', fillFrom rest s = .ok (some (batch, s'')) ∧ batch ≠ [] ∧
      s''.held.length ≤ SEGMENT_BUF ∧ (Reliable s.reads → Reliable s''.reads) ∧
      (s.here :: rest).flatMap allRecords = batch ++ (s''.here :: s''.rest).flatMap allRecords ∧
      ((∀ f ∈ s.here :: rest, Whole f) ↔ ∀ f ∈ s''.here :: s''.rest, Whole f) ∧
      (s''.here :: s''.rest).flatten.length + PAIR_BYTES * batch.length =
        (s.here :: rest).flatten.length := by
  obtain ⟨records, whole, sizes⟩ := batch_spec s'
  rw [sameHere] at records whole sizes
  refine ⟨recordsOf s'.held (s'.held.length / PAIR_BYTES),
    { s' with held := s'.held.drop (s'.held.length / PAIR_BYTES * PAIR_BYTES) }, ?_, ?_, ?_, reliable,
    ?_, ?_, ?_⟩
  · rw [fillFrom, ran]
    simp only [if_pos some_]
  · intro none_
    have length := congrArg List.length none_
    rw [length_recordsOf, List.length_nil] at length
    omega
  · rw [List.length_drop]
    omega
  · rw [List.flatMap_cons, List.flatMap_cons, records, sameRest, List.append_assoc]
    rfl
  · rw [List.forall_mem_cons, List.forall_mem_cons, whole, sameRest]
    rfl
  · rw [List.flatten_cons, List.flatten_cons, List.length_append, List.length_append, sameRest,
      length_recordsOf, ← sizes]
    change (s'.held.drop _ ++ s'.file).length + _ + _ = _
    omega

/-- Where none is, the file has ended: nothing is held, or the file is torn. -/
theorem here_of_short {s s' : Segments} (sameHere : s'.here = s.here)
    (full : s'.held.length = SEGMENT_BUF ∨ s'.file = []) (none_ : ¬ 0 < s'.held.length / PAIR_BYTES) :
    s.here = s'.held ∧ (s'.held ≠ [] → ¬ Whole s.here) := by
  have short : s'.held.length < PAIR_BYTES := by
    rwa [Nat.div_pos_iff, not_and_or, not_lt, Nat.le_zero, not_le, or_iff_right (by decide)] at none_
  have ended : s'.file = [] := full.resolve_left fun same => by
    rw [same] at short
    exact absurd short (by decide)
  have held : s.here = s'.held := by
    rw [← sameHere, here, ended, List.append_nil]
  refine ⟨held, fun some_ => ?_⟩
  rw [Whole, held, Nat.mod_eq_of_lt short]
  exact fun zero => some_ (List.eq_nil_of_length_eq_zero zero)

/-- The next batch is the next records of the files, and what is left is theirs too. -/
theorem fillFrom_spec : ∀ (rest : List (List UInt8)) {s : Segments}, s.rest = rest →
    s.held.length ≤ SEGMENT_BUF →
    ((∃ e, fillFrom rest s = .error e) ∧
      ((∃ f ∈ s.here :: rest, ¬ Whole f) ∨ ¬ Reliable s.reads)) ∨
    (fillFrom rest s = .ok none ∧ (s.here :: rest).flatten = []) ∨
    ∃ batch s', fillFrom rest s = .ok (some (batch, s')) ∧ batch ≠ [] ∧
      s'.held.length ≤ SEGMENT_BUF ∧ (Reliable s.reads → Reliable s'.reads) ∧
      (s.here :: rest).flatMap allRecords = batch ++ (s'.here :: s'.rest).flatMap allRecords ∧
      ((∀ f ∈ s.here :: rest, Whole f) ↔ ∀ f ∈ s'.here :: s'.rest, Whole f) ∧
      (s'.here :: s'.rest).flatten.length + PAIR_BYTES * batch.length =
        (s.here :: rest).flatten.length := by
  intro rest
  induction rest with
  | nil =>
      intro s last room
      rcases fillBuf_spec SEGMENT_BUF (Nat.le_add_left _ _) room with
        ⟨failed, fails⟩ | ⟨s', ran, sameHere, sameRest, full, fits, reliable⟩
      · exact .inl ⟨⟨.io, by rw [fillFrom, failed]⟩, .inr fails⟩
      · by_cases some_ : 0 < s'.held.length / PAIR_BYTES
        · exact .inr (.inr (fillFrom_batch ran sameHere (sameRest.trans last) fits some_ reliable))
        · obtain ⟨held, torn⟩ := here_of_short sameHere full some_
          by_cases nothing : s'.held = []
          · refine .inr (.inl ⟨?_, ?_⟩)
            · rw [fillFrom, ran]
              simp only [if_neg some_, if_neg (not_not.mpr nothing)]
            · rw [held, nothing]
              rfl
          · refine .inl ⟨⟨.torn, ?_⟩, .inl ⟨s.here, List.mem_cons_self, torn nothing⟩⟩
            rw [fillFrom, ran]
            simp only [if_neg some_, if_pos nothing]
  | cons first rest ih =>
      intro s last room
      rcases fillBuf_spec SEGMENT_BUF (Nat.le_add_left _ _) room with
        ⟨failed, fails⟩ | ⟨s', ran, sameHere, sameRest, full, fits, reliable⟩
      · exact .inl ⟨⟨.io, by rw [fillFrom, failed]⟩, .inr fails⟩
      · by_cases some_ : 0 < s'.held.length / PAIR_BYTES
        · exact .inr (.inr (fillFrom_batch ran sameHere (sameRest.trans last) fits some_ reliable))
        · obtain ⟨held, torn⟩ := here_of_short sameHere full some_
          by_cases nothing : s'.held = []
          · -- The file has ended with nothing held, so the next one starts afresh.
            have onward : fillFrom (first :: rest) s = fillFrom rest { s' with file := first, rest } := by
              rw [fillFrom, ran]
              simp only [if_neg some_, if_neg (not_not.mpr nothing)]
            have opened : here { s' with file := first, rest } = first := by
              rw [here, nothing, List.nil_append]
            have next := ih (s := { s' with file := first, rest }) rfl fits
            rw [onward, held.trans nothing]
            rw [opened] at next
            rcases next with ⟨failed, why⟩ | ⟨ended, empty⟩ | ⟨batch, s'', found, batchSome, fits', reliable',
              records, whole, sizes⟩
            · refine .inl ⟨failed, why.imp ?_ fun fails known => fails (reliable known)⟩
              rintro ⟨f, member, tornF⟩
              exact ⟨f, List.mem_cons_of_mem _ member, tornF⟩
            · exact .inr (.inl ⟨ended, by rw [List.flatten_cons, List.nil_append]; exact empty⟩)
            · refine .inr (.inr ⟨batch, s'', found, batchSome, fits', fun known => reliable' (reliable known),
                ?_, ?_, ?_⟩)
              · rw [List.flatMap_cons, records]
                rfl
              · rw [List.forall_mem_cons, whole, and_iff_right (show Whole [] from rfl)]
              · exact sizes
          · refine .inl ⟨⟨.torn, ?_⟩, .inl ⟨s.here, List.mem_cons_self, torn nothing⟩⟩
            rw [fillFrom, ran]
            simp only [if_neg some_, if_pos nothing]

end Segments

namespace From

/-- What a source of pairs still holds. -/
def records : From → List Pair
  | memory pairs => pairs
  | file s pending at_ => pending.drop at_ ++ (s.here :: s.rest).flatMap allRecords

/-- Its files end on whole records. -/
def Intact : From → Prop
  | memory _ => True
  | file s _ _ => ∀ f ∈ s.here :: s.rest, Whole f

def Sure : From → Prop
  | memory _ => True
  | file s _ _ => Reliable s.reads

/-- Inside its batch and its buffer. -/
def Placed : From → Prop
  | memory _ => True
  | file s pending at_ => at_ ≤ pending.length ∧ s.held.length ≤ SEGMENT_BUF

theorem memory_drains (pairs : List Pair) : Drains next (memory pairs) pairs false := by
  induction pairs with
  | nil => exact .ended rfl
  | cons pair pairs ih => exact .item rfl ih

/-- A source yields the pairs it holds, or ends in an error: where a file ends inside a record it does. -/
theorem drains : ∀ (size : Nat) {source : From}, source.size = size → source.Placed →
    ∃ items fails, Drains next source items fails ∧ items.length ≤ size ∧
      (fails = false → source.Intact ∧ items = source.records) ∧
      (fails = true → ¬ source.Intact ∨ ¬ source.Sure) := by
  intro size
  induction size using Nat.strong_induction_on with
  | h size ih =>
      intro source sized placed
      cases source with
      | memory pairs =>
          exact ⟨pairs, false, memory_drains pairs, sized.le, fun _ => ⟨trivial, rfl⟩,
            fun contra => absurd contra (by decide)⟩
      | file s pending at_ =>
          obtain ⟨inside, room⟩ := placed
          have total : (s.here :: s.rest).flatten.length =
              s.held.length + s.file.length + s.rest.flatten.length := by
            rw [List.flatten_cons, List.length_append, Segments.here, List.length_append]
          change pending.length - at_ + s.held.length + s.file.length + s.rest.flatten.length = size at sized
          by_cases spent : at_ = pending.length
          · rcases Segments.fillFrom_spec s.rest rfl room with
              ⟨⟨e, failed⟩, why⟩ | ⟨ended, empty⟩ | ⟨batch, s', found, some_, fits, reliable, records, whole,
                sizes⟩
            · refine ⟨[], true, .failed (e := .read e) ?_, Nat.zero_le _,
                fun contra => absurd contra (by decide), fun _ => ?_⟩
              · rw [next, if_pos spent, Segments.fill, failed]
              · refine why.imp_left ?_
                rintro ⟨f, member, torn⟩ intact
                exact torn (intact f member)
            · refine ⟨[], false, .ended ?_, Nat.zero_le _, fun _ => ?_, fun contra => absurd contra (by decide)⟩
              · rw [next, if_pos spent, Segments.fill, ended]
              · rw [List.flatten_eq_nil_iff] at empty
                constructor
                · intro f member
                  rw [empty f member]
                  rfl
                · rw [From.records, spent, List.drop_length, List.nil_append, eq_comm,
                    List.flatMap_eq_nil_iff]
                  intro f member
                  rw [empty f member]
                  rfl
            · cases batch with
              | nil => exact absurd rfl some_
              | cons pair batch =>
                  have answer : next (file s pending at_) =
                      .ok (some (pair, file s' (pair :: batch) 1)) := by
                    rw [next, if_pos spent, Segments.fill, found]
                  have total' : (s'.here :: s'.rest).flatten.length =
                      s'.held.length + s'.file.length + s'.rest.flatten.length := by
                    rw [List.flatten_cons, List.length_append, Segments.here, List.length_append]
                  rw [List.length_cons, Nat.mul_succ, PAIR_BYTES] at sizes
                  have smaller : (file s' (pair :: batch) 1).size < size := by
                    change (pair :: batch).length - 1 + s'.held.length + s'.file.length +
                      s'.rest.flatten.length < size
                    rw [List.length_cons]
                    omega
                  obtain ⟨items, fails, drained, few, fine, wrong⟩ :=
                    ih _ smaller rfl ⟨Nat.le_add_left 1 _, fits⟩
                  refine ⟨pair :: items, fails, .item answer drained, by rw [List.length_cons]; omega,
                    fun sound => ?_, fun failing => ?_⟩
                  · obtain ⟨intact, same⟩ := fine sound
                    refine ⟨whole.mpr intact, ?_⟩
                    rw [same, From.records, From.records, spent, List.drop_length, records]
                    rfl
                  · exact (wrong failing).imp (fun torn intact => torn (whole.mp intact))
                      fun fails known => fails (reliable known)
          · have below : at_ < pending.length := Nat.lt_of_le_of_ne inside spent
            have answer : next (file s pending at_) = .ok (some (pending[at_], file s pending (at_ + 1))) := by
              rw [next, if_neg spent, List.getElem?_eq_getElem below]
            have smaller : (file s pending (at_ + 1)).size < size := by
              change pending.length - (at_ + 1) + s.held.length + s.file.length + s.rest.flatten.length < size
              omega
            obtain ⟨items, fails, drained, few, fine, wrong⟩ := ih _ smaller rfl ⟨below, room⟩
            refine ⟨pending[at_] :: items, fails, .item answer drained, by rw [List.length_cons]; omega,
              fun sound => ?_, wrong⟩
            obtain ⟨intact, same⟩ := fine sound
            refine ⟨intact, ?_⟩
            rw [same, From.records, From.records, List.drop_eq_getElem_cons below]
            rfl

end From

/-- The hashes of some pairs, one a run of equal ones. -/
def hashesFrom (last : Option UInt64) : List Pair → List UInt64
  | [] => []
  | pair :: pairs =>
      if last = some pair.1 then hashesFrom last pairs else pair.1 :: hashesFrom (some pair.1) pairs

theorem From.placed_next {source onward : From} {pair : Pair} (placed : source.Placed)
    (answer : source.next = .ok (some (pair, onward))) : onward.Placed := by
  cases source with
  | memory pairs =>
      cases pairs with
      | nil => cases answer
      | cons first pairs =>
          cases answer
          trivial
  | file s pending at_ =>
      obtain ⟨inside, room⟩ := placed
      by_cases spent : at_ = pending.length
      · rw [From.next, if_pos spent, Segments.fill] at answer
        rcases Segments.fillFrom_spec s.rest rfl room with
          ⟨⟨e, failed⟩, -⟩ | ⟨ended, -⟩ | ⟨batch, s', found, some_, fits, -⟩
        · rw [failed] at answer
          cases answer
        · rw [ended] at answer
          cases answer
        · rw [found] at answer
          cases batch with
          | nil => exact absurd rfl some_
          | cons first batch =>
              cases answer
              exact ⟨Nat.le_add_left 1 _, fits⟩
      · have below : at_ < pending.length := Nat.lt_of_le_of_ne inside spent
        rw [From.next, if_neg spent, List.getElem?_eq_getElem below] at answer
        cases answer
        exact ⟨below, room⟩

theorem From.few {source : From} {items : List Pair} {fails : Bool} (placed : source.Placed)
    (drains : Drains From.next source items fails) : items.length ≤ source.size := by
  obtain ⟨others, fails', drained, few, -⟩ := From.drains _ rfl placed
  rw [(drains.unique drained).1]
  exact few

namespace Reps

/-- However long it may look, it finds the same next hash. -/
theorem nextFrom_same {source : From} {items : List Pair} {fails : Bool}
    (drains : Drains From.next source items fails) (last : Option UInt64) : ∀ {fuel fuel' : Nat},
    items.length < fuel → items.length < fuel' →
    nextFrom fuel { source, last } = nextFrom fuel' { source, last } := by
  induction drains with
  | failed answer =>
      intro fuel fuel' some_ some_'
      obtain ⟨fuel, rfl⟩ := Nat.exists_eq_succ_of_ne_zero (Nat.ne_of_gt some_)
      obtain ⟨fuel', rfl⟩ := Nat.exists_eq_succ_of_ne_zero (Nat.ne_of_gt some_')
      rw [nextFrom, nextFrom, answer]
  | ended answer =>
      intro fuel fuel' some_ some_'
      obtain ⟨fuel, rfl⟩ := Nat.exists_eq_succ_of_ne_zero (Nat.ne_of_gt some_)
      obtain ⟨fuel', rfl⟩ := Nat.exists_eq_succ_of_ne_zero (Nat.ne_of_gt some_')
      rw [nextFrom, nextFrom, answer]
  | item answer rest ih =>
      intro fuel fuel' enough enough'
      rw [List.length_cons] at enough enough'
      obtain ⟨fuel, rfl⟩ := Nat.exists_eq_succ_of_ne_zero (show fuel ≠ 0 by omega)
      obtain ⟨fuel', rfl⟩ := Nat.exists_eq_succ_of_ne_zero (show fuel' ≠ 0 by omega)
      rw [nextFrom, nextFrom, answer]
      simp only
      split
      · rfl
      · exact ih (by omega) (by omega)

/-- One hash for each run of equal ones, and the end the source has. -/
theorem drains {source : From} {items : List Pair} {fails : Bool}
    (drains : Drains From.next source items fails) : source.Placed → ∀ last : Option UInt64,
    Drains next { source, last } (hashesFrom last items) fails := by
  induction drains with
  | failed answer =>
      intro _ last
      exact .failed (by rw [next, nextFrom, answer])
  | ended answer =>
      intro _ last
      exact .ended (by rw [next, nextFrom, answer])
  | @item source source' pair items fails answer rest ih =>
      intro placed last
      have placed' := From.placed_next placed answer
      have few := From.few placed (.item answer rest)
      have few' := From.few placed' rest
      rw [List.length_cons] at few
      by_cases same : last = some pair.1
      · have skipped : next { source, last } = next { source := source', last } := by
          rw [next, nextFrom, answer]
          simp only [if_neg (not_not.mpr same)]
          exact nextFrom_same rest last (by omega) (by change items.length < source'.size + 1; omega)
        rw [hashesFrom, if_pos same]
        exact (ih placed' last).congr skipped
      · rw [hashesFrom, if_neg same]
        refine .item ?_ (ih placed' (some pair.1))
        rw [next, nextFrom, answer]
        simp only [if_pos same]

end Reps

end Lexindex.CompactHash
