import Mathlib
import Lexindex.StringIndex.Build
import Lexindex.StringIndex.Transducer

/-!
# Order statistics

Ids are sorted ranks, so a key's neighbours and the count of keys below a string are lookups.
The transducer's walks are the index's own; its range streams are the fst crate's, and yield what
their documentation says.
-/

set_option autoImplicit false

namespace Lexindex

/-- An index as its transducer, with the crate's two range streams, from a string on and past it. -/
structure TransducerIndex where
  raw : RawFst
  len : Nat
  rangeGe : List UInt8 → List (List UInt8 × Nat)
  rangeGt : List UInt8 → List (List UInt8 × Nat)

namespace TransducerIndex

variable (idx : TransducerIndex)

def id (key : String) : Option Nat :=
  idx.raw.get (bytesOf key)

def key (id : Nat) : Option String :=
  idx.raw.rankWalk id

/-- `from_utf8_lossy`, of bytes that are UTF-8. -/
def lossy (bytes : List UInt8) : String :=
  (fromUtf8 bytes).getD ""

def successor (query : String) : Option (String × Nat) :=
  (idx.rangeGe (bytesOf query)).head?.map fun e => (lossy e.1, e.2)

def predecessor (query : String) : Option (String × Nat) :=
  match idx.id query with
  | some id => some (query, id)
  | none =>
      let rankAbove := ((idx.rangeGt (bytesOf query)).head?.map Prod.snd).getD idx.len
      if rankAbove = 0 then none
      else (idx.key (rankAbove - 1)).map fun key => (key, rankAbove - 1)

/-- The value of the first key from `query` on, or the length. -/
def rankOfFirstGe (query : List UInt8) : Nat :=
  ((idx.rangeGe query).head?.map Prod.snd).getD idx.len

def lowerBound (query : String) : Nat :=
  idx.rankOfFirstGe (bytesOf query)

def rangeCount (lo hi : String) : Nat :=
  idx.lowerBound hi - idx.lowerBound lo

/-- The bytes, last one first, with the last that is not `0xff` incremented and what followed it
dropped. -/
def bumped : List UInt8 → Option (List UInt8)
  | [] => none
  | byte :: rest => if byte = 0xff then bumped rest else some ((byte + 1) :: rest)

def prefixIdRange (pre : String) : Nat × Nat :=
  let start := idx.lowerBound pre
  let stop :=
    match bumped (bytesOf pre).reverse with
    | some upper => idx.rankOfFirstGe upper.reverse
    | none => idx.len
  (start, max stop start)

/-! ## What the crate gives -/

/-- The transducer a builder makes of some keys and their ranks, as the crate reads it: its paths
are the keys, its outputs count, and a range stream is the pairs in range, in order. -/
structure Reads (keys : List String) : Prop where
  ascending : Ascending bytesOf keys
  spells : idx.raw.spelled idx.raw.root = keys.map bytesOf
  counts : ∀ addr, idx.raw.Reaches addr → idx.raw.CountsKeys addr
  len : idx.len = keys.length
  word : keys.length < 2 ^ 64
  ge : ∀ query, idx.rangeGe query = (rankedFrom keys 0).filter fun e => decide (query ≤ e.1)
  gt : ∀ query, idx.rangeGt query = (rankedFrom keys 0).filter fun e => decide (query < e.1)

/-- The statistics of a list of keys. -/
structure OrderStatistics (keys : List String) : Prop where
  key : ∀ id : UInt64, idx.key id.toNat = keys[id.toNat]?
  lowerBound : ∀ query, idx.lowerBound query =
    keys.countP fun key => decide (bytesOf key < bytesOf query)
  successor : ∀ query, idx.successor query =
    keys.zipIdx.find? fun e => decide (bytesOf query ≤ bytesOf e.1)
  predecessor : ∀ query, idx.predecessor query =
    (keys.zipIdx.filter fun e => decide (bytesOf e.1 ≤ bytesOf query)).getLast?
  rangeCount : ∀ lo hi, idx.rangeCount lo hi =
    keys.countP fun key => decide (bytesOf lo ≤ bytesOf key ∧ bytesOf key < bytesOf hi)
  rangeEmpty : ∀ lo hi, bytesOf hi ≤ bytesOf lo → idx.rangeCount lo hi = 0
  prefixRange : ∀ pre id, (idx.prefixIdRange pre).1 ≤ id ∧ id < (idx.prefixIdRange pre).2 ↔
    ∃ key, keys[id]? = some key ∧ pre.toList <+: key.toList
  prefixStart : ∀ pre, (idx.prefixIdRange pre).1 =
    keys.countP fun key => decide (bytesOf key < bytesOf pre)
  prefixEmpty : ∀ pre, (∀ key ∈ keys, ¬ pre.toList <+: key.toList) →
    (idx.prefixIdRange pre).2 = (idx.prefixIdRange pre).1

/-! ## The bound above a prefix -/

section Bumped

/-- `bumped` from the front. -/
theorem bumped_append (rest : List UInt8) (byte : UInt8) : bumped (rest ++ [byte]) =
    match bumped rest with
    | some upper => some (upper ++ [byte])
    | none => if byte = 0xff then none else some [byte + 1] := by
  induction rest with
  | nil =>
      rw [List.nil_append, bumped]
      rfl
  | cons first rest ih =>
      rw [List.cons_append, bumped, bumped]
      by_cases top : first = 0xff
      · rw [if_pos top, if_pos top, ih]
      · rw [if_neg top, if_neg top]
        rfl

theorem byte_le (byte : UInt8) : byte ≤ 0xff := by
  rw [UInt8.le_iff_toNat_le]
  have small := byte.toNat_lt
  change byte.toNat ≤ 255
  omega

theorem lt_succ_iff {a b : UInt8} (top : b ≠ 0xff) : a < b + 1 ↔ a ≤ b := by
  have small := b.toNat_lt
  have room : b.toNat ≠ 255 := fun same => top (UInt8.toNat_inj.mp same)
  rw [UInt8.lt_iff_toNat_lt, UInt8.le_iff_toNat_le, UInt8.toNat_add]
  change a.toNat < (b.toNat + 1) % 256 ↔ _
  omega

/-- Bytes that are all `0xff` have nothing above them but what they start. -/
theorem above_of_bumped_none (pre : List UInt8) : bumped pre.reverse = none →
    ∀ key, key < pre ∨ pre <+: key := by
  induction pre with
  | nil => exact fun _ key => .inr key.nil_prefix
  | cons byte pre ih =>
      intro none key
      rw [List.reverse_cons, bumped_append] at none
      cases rest : bumped pre.reverse with
      | some upper =>
          rw [rest] at none
          cases none
      | none =>
          rw [rest] at none
          simp only [ite_eq_left_iff, reduceCtorEq, imp_false, not_not] at none
          cases key with
          | nil => exact .inl (List.nil_lt_cons _ _)
          | cons first key =>
              rcases (byte_le first).lt_or_eq with less | same
              · exact .inl (List.cons_lt_cons_iff.mpr (.inl (none ▸ less)))
              · rw [none, same]
                exact (ih rest key).imp (fun less => List.cons_lt_cons_iff.mpr (.inr ⟨rfl, less⟩))
                  fun starts => List.cons_prefix_cons.mpr ⟨rfl, starts⟩

/-- What is below the bumped bytes is below the bytes or starts with them. -/
theorem lt_bumped_iff (pre : List UInt8) : ∀ {upper : List UInt8},
    bumped pre.reverse = some upper → ∀ key, key < upper.reverse ↔ key < pre ∨ pre <+: key := by
  induction pre with
  | nil => exact fun bump => by cases bump
  | cons byte pre ih =>
      intro upper bump key
      rw [List.reverse_cons, bumped_append] at bump
      cases rest : bumped pre.reverse with
      | some inner =>
          rw [rest, Option.some.injEq] at bump
          rw [← bump, List.reverse_append, List.reverse_singleton, List.singleton_append]
          cases key with
          | nil => exact iff_of_true (List.nil_lt_cons _ _) (.inl (List.nil_lt_cons _ _))
          | cons first key =>
              rw [List.cons_lt_cons_iff, List.cons_lt_cons_iff, List.cons_prefix_cons, ih rest key]
              tauto
      | none =>
          rw [rest] at bump
          simp only [Option.ite_none_left_eq_some, Option.some.injEq] at bump
          obtain ⟨top, rfl⟩ := bump
          rw [List.reverse_singleton]
          cases key with
          | nil => exact iff_of_true (List.nil_lt_cons _ _) (.inl (List.nil_lt_cons _ _))
          | cons first key =>
              have end_ : ¬ key < [] := List.not_lt_nil key
              rw [List.cons_lt_cons_iff, List.cons_lt_cons_iff, List.cons_prefix_cons, lt_succ_iff top]
              have always := above_of_bumped_none pre rest key
              constructor
              · rintro (le | ⟨-, short⟩)
                · rcases le.lt_or_eq with less | same
                  · exact .inl (.inl less)
                  · exact always.imp (fun less => .inr ⟨same, less⟩) fun starts => ⟨same.symm, starts⟩
                · exact absurd short end_
              · rintro ((less | ⟨same, -⟩) | ⟨same, -⟩)
                · exact .inl less.le
                · exact .inl same.le
                · exact .inl same.ge

theorem not_lt_of_starts {pre key : List UInt8} (starts : pre <+: key) : ¬ key < pre := by
  induction pre generalizing key with
  | nil => exact List.not_lt_nil key
  | cons byte pre ih =>
      obtain ⟨rest, rfl⟩ := starts
      rw [List.cons_append, List.cons_lt_cons_iff, not_or]
      exact ⟨lt_irrefl _, fun both => ih (List.prefix_append pre rest) both.2⟩

end Bumped

/-! ## The statistics -/

section Reads

variable {idx} {keys : List String} (reads : idx.Reads keys)

theorem rankedFrom_ascending (ascending : Ascending bytesOf keys) (rank : Nat) :
    Ascending Prod.fst (rankedFrom keys rank) := by
  rw [rankedFrom, Ascending, List.pairwise_map]
  have zipped : ((keys.zipIdx rank).map Prod.fst).Pairwise fun a b => bytesOf a < bytesOf b := by
    rw [List.zipIdx_map_fst]
    exact ascending
  rw [List.pairwise_map] at zipped
  exact zipped

theorem zipIdx_ascending (ascending : Ascending bytesOf keys) :
    Ascending (fun e : String × Nat => bytesOf e.1) keys.zipIdx := by
  have ranked := rankedFrom_ascending ascending 0
  rw [rankedFrom, Ascending, List.pairwise_map] at ranked
  exact ranked

theorem decide_le_eq (a b : List UInt8) : decide (a ≤ b) = !decide (b < a) := by
  rw [← decide_not, decide_eq_decide, not_lt]

theorem decide_lt_eq (a b : List UInt8) : decide (a < b) = !decide (b ≤ a) := by
  rw [← decide_not, decide_eq_decide, not_le]

/-- Counting pairs by their keys. -/
theorem countP_ranked (holds : List UInt8 → Bool) :
    (rankedFrom keys 0).countP (fun e => holds e.1) = keys.countP fun key => holds (bytesOf key) := by
  rw [rankedFrom, List.countP_map]
  have firsts := List.countP_map (f := Prod.fst) (p := fun key => holds (bytesOf key)) (l := keys.zipIdx)
  rw [List.zipIdx_map_fst] at firsts
  exact firsts.symm

theorem ranked_getElem? (i : Nat) :
    (rankedFrom keys 0)[i]? = keys[i]?.map fun key => (bytesOf key, i) := by
  rw [rankedFrom, List.getElem?_map, List.getElem?_zipIdx]
  cases keys[i]? with
  | none => rfl
  | some key => simp

include reads

theorem Reads.id_iff (query : String) (id : Nat) :
    idx.id query = some id ↔ keys[id]? = some query := by
  have size : (idx.raw.spelled idx.raw.root).length = keys.length := by
    rw [reads.spells, List.length_map]
  rw [TransducerIndex.id, RawFst.get, RawFst.getFrom_spec reads.counts _ .root (by
    rw [size]
    have word := reads.word
    omega), reads.spells, Nat.sub_zero, List.getElem?_map]
  constructor
  · rintro ⟨-, here⟩
    obtain ⟨key, at_, same⟩ := Option.map_eq_some_iff.mp here
    rw [at_, bytesOf_inj same]
  · intro here
    exact ⟨Nat.zero_le _, by rw [here, Option.map_some]⟩

theorem Reads.key_eq {id : Nat} (word : id < 2 ^ 64) : idx.key id = keys[id]? := by
  rw [TransducerIndex.key, RawFst.rankWalk,
    RawFst.rankWalkFrom_spec reads.counts word _ .root (Nat.zero_le id), reads.spells, Nat.sub_zero,
    List.getElem?_map]
  cases keys[id]? with
  | none => rfl
  | some key => exact fromUtf8_bytesOf key

/-- The keys from a string on start at the count of those below it. -/
theorem Reads.rangeGe_head (query : List UInt8) :
    (idx.rangeGe query).head? = keys[countBelow bytesOf query keys]?.map fun key =>
      (bytesOf key, countBelow bytesOf query keys) := by
  have down := (rankedFrom_ascending reads.ascending 0).down_lt query
  have others : ((rankedFrom keys 0).filter fun e => decide (query ≤ e.1)) =
      (rankedFrom keys 0).filter fun e => !decide (e.1 < query) :=
    List.filter_congr fun e _ => decide_le_eq _ _
  rw [reads.ge, others, down.filter_not_eq_drop, List.head?_drop,
    countP_ranked fun bytes => decide (bytes < query), ranked_getElem?]
  rfl

theorem Reads.rankOfFirstGe_eq (query : List UInt8) :
    idx.rankOfFirstGe query = countBelow bytesOf query keys := by
  rw [rankOfFirstGe, reads.rangeGe_head, reads.len]
  cases here : keys[countBelow bytesOf query keys]? with
  | some key => rfl
  | none =>
      have past := List.getElem?_eq_none_iff.mp here
      exact Nat.le_antisymm past (countBelow_le query)

theorem Reads.successor_eq (query : String) : idx.successor query =
    keys.zipIdx.find? fun e => decide (bytesOf query ≤ bytesOf e.1) := by
  have down := (zipIdx_ascending reads.ascending).down_lt (bytesOf query)
  have others : (keys.zipIdx.filter fun e => decide (bytesOf query ≤ bytesOf e.1)) =
      keys.zipIdx.filter fun e => !decide (bytesOf e.1 < bytesOf query) :=
    List.filter_congr fun e _ => decide_le_eq _ _
  have counted : keys.zipIdx.countP (fun e => decide (bytesOf e.1 < bytesOf query)) =
      countBelow bytesOf (bytesOf query) keys := by
    have firsts := List.countP_map (f := Prod.fst)
      (p := fun key => decide (bytesOf key < bytesOf query)) (l := keys.zipIdx)
    rw [List.zipIdx_map_fst] at firsts
    exact firsts.symm
  rw [successor, reads.rangeGe_head, ← List.head?_filter, others, down.filter_not_eq_drop,
    List.head?_drop, counted, List.getElem?_zipIdx, Option.map_map]
  cases keys[countBelow bytesOf (bytesOf query) keys]? with
  | none => rfl
  | some key => simp [lossy, fromUtf8_bytesOf]

theorem Reads.predecessor_eq (query : String) : idx.predecessor query =
    (keys.zipIdx.filter fun e => decide (bytesOf e.1 ≤ bytesOf query)).getLast? := by
  have down := (zipIdx_ascending reads.ascending).down_le (bytesOf query)
  have counted : keys.zipIdx.countP (fun e => decide (bytesOf e.1 ≤ bytesOf query)) =
      keys.countP fun key => decide (bytesOf key ≤ bytesOf query) := by
    have firsts := List.countP_map (f := Prod.fst)
      (p := fun key => decide (bytesOf key ≤ bytesOf query)) (l := keys.zipIdx)
    rw [List.zipIdx_map_fst] at firsts
    exact firsts.symm
  have most : keys.countP (fun key => decide (bytesOf key ≤ bytesOf query)) ≤ keys.length :=
    List.countP_le_length
  have upTo := reads.ascending.down_le (bytesOf query)
  rw [down.filter_eq_take, counted]
  generalize size : keys.countP (fun key => decide (bytesOf key ≤ bytesOf query)) = count at *
  -- The last of the keys up to the query is one short of their count.
  have last : (keys.zipIdx.take count).getLast? =
      if count = 0 then none else keys[count - 1]?.map fun key => (key, count - 1) := by
    rw [List.getLast?_take]
    split
    · rfl
    · next some_key =>
      have inside : count - 1 < keys.length := by omega
      rw [List.getElem?_zipIdx, List.getElem?_eq_getElem inside]
      simp
  rw [last, predecessor]
  cases answered : idx.id query with
  | some id =>
      have here := (reads.id_iff query id).mp answered
      have short : id < count := by
        rw [← size]
        exact (upTo.holds_iff here).mp (decide_eq_true le_rfl)
      have reach : ¬ id + 1 < count := by
        intro further
        have inside : id + 1 < keys.length := by omega
        have next := List.getElem?_eq_getElem inside
        rw [← size] at further
        have le := of_decide_eq_true ((upTo.holds_iff next).mpr further)
        obtain ⟨idIn, idIs⟩ := List.getElem?_eq_some_iff.mp here
        have less := List.pairwise_iff_getElem.mp reads.ascending id (id + 1) idIn inside
          (Nat.lt_succ_self id)
        rw [idIs] at less
        exact absurd le (not_le.mpr less)
      have place : count - 1 = id := by omega
      rw [if_neg (Nat.ne_of_gt (Nat.zero_lt_of_lt short)), place, here]
      rfl
  | none =>
      have beyond := (rankedFrom_ascending reads.ascending 0).down_le (bytesOf query)
      have others : ((rankedFrom keys 0).filter fun e => decide (bytesOf query < e.1)) =
          (rankedFrom keys 0).filter fun e => !decide (e.1 ≤ bytesOf query) :=
        List.filter_congr fun e _ => decide_lt_eq _ _
      have above : ((idx.rangeGt (bytesOf query)).head?.map Prod.snd).getD idx.len = count := by
        rw [reads.gt, others, beyond.filter_not_eq_drop, List.head?_drop,
          countP_ranked fun bytes => decide (bytes ≤ bytesOf query), size, ranked_getElem?, reads.len]
        cases here : keys[count]? with
        | some key => rfl
        | none => exact Nat.le_antisymm (List.getElem?_eq_none_iff.mp here) most
      simp only [above]
      split
      · rfl
      · have word := reads.word
        rw [reads.key_eq (by omega)]

theorem Reads.prefixIdRange_eq (pre : String) : ∃ stop, idx.prefixIdRange pre =
      (countBelow bytesOf (bytesOf pre) keys, max stop (countBelow bytesOf (bytesOf pre) keys)) ∧
    stop ≤ keys.length ∧ ∀ {id : Nat} {key : String}, keys[id]? = some key →
      (id < stop ↔ bytesOf key < bytesOf pre ∨ bytesOf pre <+: bytesOf key) := by
  rw [prefixIdRange, lowerBound, reads.rankOfFirstGe_eq]
  cases bump : bumped (bytesOf pre).reverse with
  | some upper =>
      refine ⟨countBelow bytesOf upper.reverse keys, by simp only [reads.rankOfFirstGe_eq],
        countBelow_le _, fun {id key} here => ?_⟩
      rw [← lt_bumped_iff _ bump (bytesOf key)]
      exact ((reads.ascending.down_lt upper.reverse).holds_iff here).symm.trans decide_eq_true_iff
  | none =>
      refine ⟨keys.length, by simp only [reads.len], le_rfl, fun {id key} here => ?_⟩
      obtain ⟨inside, -⟩ := List.getElem?_eq_some_iff.mp here
      exact iff_of_true inside (above_of_bumped_none _ bump _)

end Reads

/-- The order statistics of an index are those of its keys. -/
theorem order_statistics (idx : TransducerIndex) (keys : List String) (reads : idx.Reads keys) :
    idx.OrderStatistics keys := by
  have bound : ∀ query, idx.lowerBound query = countBelow bytesOf (bytesOf query) keys :=
    fun query => reads.rankOfFirstGe_eq _
  have inRange : ∀ pre id, (idx.prefixIdRange pre).1 ≤ id ∧ id < (idx.prefixIdRange pre).2 ↔
      ∃ key, keys[id]? = some key ∧ pre.toList <+: key.toList := by
    intro pre id
    obtain ⟨stop, range, atMost, upTo⟩ := reads.prefixIdRange_eq pre
    have below := reads.ascending.down_lt (bytesOf pre)
    rw [range]
    cases here : keys[id]? with
    | none =>
        have past := List.getElem?_eq_none_iff.mp here
        refine iff_of_false (fun both => ?_) fun none => by
          obtain ⟨key, absent, -⟩ := none
          cases absent
        have most : countBelow bytesOf (bytesOf pre) keys ≤ keys.length := countBelow_le _
        omega
    | some key =>
        have lower := below.holds_iff here
        rw [decide_eq_true_iff] at lower
        have upper := upTo here
        simp only [Option.some.injEq, exists_eq_left']
        rw [← bytesOf_prefix_iff]
        change countBelow bytesOf (bytesOf pre) keys ≤ id ∧
          id < max stop (countBelow bytesOf (bytesOf pre) keys) ↔ _
        rw [lt_max_iff, upper, ← Nat.not_lt, countBelow, ← lower]
        constructor
        · rintro ⟨above, (less | starts) | less⟩
          · exact absurd less above
          · exact starts
          · exact absurd less above
        · intro starts
          exact ⟨not_lt_of_starts starts, .inl (.inr starts)⟩
  refine ⟨fun id => reads.key_eq id.toNat_lt, bound, reads.successor_eq, reads.predecessor_eq,
    fun lo hi => ?_, fun lo hi le => ?_, inRange, fun pre => ?_, fun pre none => ?_⟩
  · rw [rangeCount, bound, bound]
    rcases le_total (bytesOf lo) (bytesOf hi) with le | ge
    · rw [countBelow_between le, Nat.add_sub_cancel_left]
    · rw [Nat.sub_eq_zero_of_le (countBelow_mono ge), eq_comm, List.countP_eq_zero]
      intro key _
      rw [decide_eq_true_iff]
      exact fun both => absurd (both.1.trans_lt both.2) (not_lt.mpr ge)
  · rw [rangeCount, bound, bound]
    exact Nat.sub_eq_zero_of_le (countBelow_mono le)
  · obtain ⟨stop, range, -⟩ := reads.prefixIdRange_eq pre
    rw [range]
    rfl
  · obtain ⟨stop, range, -⟩ := reads.prefixIdRange_eq pre
    have ordered : (idx.prefixIdRange pre).1 ≤ (idx.prefixIdRange pre).2 := by
      rw [range]
      exact le_max_right _ _
    refine Nat.le_antisymm (Nat.le_of_not_lt fun more => ?_) ordered
    obtain ⟨key, here, starts⟩ := (inRange pre _).mp ⟨le_rfl, more⟩
    exact none key (List.mem_of_getElem? here) starts

/-- A root with one transition for each of two keys, both to a final node. -/
def pair : TransducerIndex where
  raw :=
    { root := 1
      node := fun addr =>
        if addr = 1 then ⟨false, 0, [⟨97, 0, 0⟩, ⟨98, 1, 0⟩]⟩ else ⟨true, 0, []⟩
      below := fun addr t member => by
        split at member
        · next root =>
          rcases List.mem_pair.mp member with rfl | rfl
          all_goals
            rw [root]
            exact Nat.zero_lt_one
        · cases member }
  len := 2
  rangeGe := fun query => (rankedFrom ["a", "b"] 0).filter fun e => decide (query ≤ e.1)
  rangeGt := fun query => (rankedFrom ["a", "b"] 0).filter fun e => decide (query < e.1)

theorem pair_spelled_zero : pair.raw.spelled 0 = [[]] := by
  rw [RawFst.spelled_eq]
  rfl

theorem pair_parts_one : pair.raw.parts 1 = [[[97]], [[98]]] := by
  change [(pair.raw.spelled 0).map (97 :: ·), (pair.raw.spelled 0).map (98 :: ·)] = _
  rw [pair_spelled_zero]
  rfl

theorem pair_reads : pair.Reads ["a", "b"] where
  ascending := List.pairwise_pair.mpr (by decide)
  spells := by
    change pair.raw.spelled 1 = _
    rw [RawFst.spelled_eq, pair_parts_one]
    decide
  counts := by
    intro addr reached
    have place : addr = 1 ∨ addr = 0 := by
      induction reached with
      | root => exact .inl rfl
      | step _ member before =>
          rcases before with rfl | rfl
          · rcases List.mem_pair.mp member with rfl | rfl
            all_goals exact .inr rfl
          · cases member
    rcases place with rfl | rfl
    · refine ⟨fun final => Bool.noConfusion final, List.pairwise_pair.mpr (by decide), fun i t at_ => ?_⟩
      rw [pair_parts_one]
      match i, at_ with
      | 0, at_ =>
          cases at_
          rfl
      | 1, at_ =>
          cases at_
          rfl
    · exact ⟨fun _ => rfl, List.Pairwise.nil, fun i t at_ => by cases at_⟩
  len := rfl
  word := by decide
  ge := fun _ => rfl
  gt := fun _ => rfl

theorem order_statistics_pair : pair.OrderStatistics ["a", "b"] :=
  order_statistics pair ["a", "b"] pair_reads

end TransducerIndex

end Lexindex
