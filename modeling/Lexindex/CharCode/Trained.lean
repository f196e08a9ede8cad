import Mathlib
import Lexindex.CharCode.Alphabet
import Lexindex.CharCode.Code

/-!
# Training a code

How often each character occurs over a set of keys, and the code those counts choose:
as many of the most frequent characters as fit take a lead of their own, the runs
between them share pages, and the code is kept only where it pays for its table.
-/

set_option autoImplicit false

namespace Lexindex

open CharCode (Mode LEADS)

/-- `c` met `n` more times, in ascending counts. -/
def countMore : List (Char × Nat) → Char → Nat → List (Char × Nat)
  | [], c, n => [(c, n)]
  | (d, m) :: rest, c, n =>
      if c < d then (c, n) :: (d, m) :: rest
      else if c = d then (d, m + n) :: rest
      else (d, m) :: countMore rest c n

theorem mem_countMore {counts : List (Char × Nat)} {c d : Char} {n m : Nat}
    (member : (d, m) ∈ countMore counts c n) :
    (d, m) ∈ counts ∨ d = c ∧ n ≤ m := by
  induction counts with
  | nil =>
      rw [countMore, List.mem_singleton, Prod.mk.injEq] at member
      exact .inr ⟨member.1, member.2.ge⟩
  | cons head rest ih =>
      obtain ⟨e, k⟩ := head
      rw [countMore] at member
      split at member
      · rcases List.mem_cons.mp member with here | later
        · rw [Prod.mk.injEq] at here
          exact .inr ⟨here.1, here.2.ge⟩
        · exact .inl later
      · split at member
        · rename_i same
          rcases List.mem_cons.mp member with here | later
          · rw [Prod.mk.injEq] at here
            exact .inr ⟨here.1.trans same.symm, by omega⟩
          · exact .inl (List.mem_cons_of_mem _ later)
        · rcases List.mem_cons.mp member with here | later
          · rw [here]
            exact .inl List.mem_cons_self
          · rcases ih later with kept | added
            · exact .inl (List.mem_cons_of_mem _ kept)
            · exact .inr added

theorem countMore_ascending {counts : List (Char × Nat)}
    (ascending : counts.Pairwise fun p q => p.1 < q.1) (c : Char) (n : Nat) :
    (countMore counts c n).Pairwise fun p q => p.1 < q.1 := by
  induction counts with
  | nil => exact List.pairwise_singleton _ _
  | cons head rest ih =>
      obtain ⟨e, k⟩ := head
      obtain ⟨first, later⟩ := List.pairwise_cons.mp ascending
      rw [countMore]
      split
      · rename_i less
        refine List.pairwise_cons.mpr ⟨fun q member => ?_, ascending⟩
        rcases List.mem_cons.mp member with here | after
        · rw [here]
          exact less
        · exact lt_trans less (first q after)
      · split
        · exact List.pairwise_cons.mpr ⟨first, later⟩
        · rename_i notLess notSame
          refine List.pairwise_cons.mpr ⟨fun q member => ?_, ih later⟩
          obtain ⟨d, m⟩ := q
          rcases mem_countMore member with kept | ⟨same, -⟩
          · exact first _ kept
          · change e < d
            rw [same]
            exact lt_of_le_of_ne (not_lt.mp notLess) (Ne.symm notSame)

theorem countMore_met {counts : List (Char × Nat)} (met : ∀ p ∈ counts, 0 < p.2) (c : Char)
    {n : Nat} (positive : 0 < n) : ∀ p ∈ countMore counts c n, 0 < p.2 := by
  rintro ⟨d, m⟩ member
  rcases mem_countMore member with kept | ⟨-, least⟩
  · exact met _ kept
  · exact Nat.lt_of_lt_of_le positive least

/-- How often each character occurs over a set of keys, and what the keys weigh in UTF-8. -/
structure Tally where
  bytes : Nat
  /-- Occurrences of the characters met, by code point. -/
  counts : List (Char × Nat)
  ascending : counts.Pairwise fun p q => p.1 < q.1
  met : ∀ p ∈ counts, 0 < p.2

namespace Tally

def new : Tally :=
  { bytes := 0, counts := [], ascending := List.Pairwise.nil, met := by simp }

/-- `c` met `n` more times. -/
def more (tally : Tally) (c : Char) (n : Nat) (positive : 0 < n) : Tally :=
  { tally with
    counts := countMore tally.counts c n
    ascending := countMore_ascending tally.ascending c n
    met := countMore_met tally.met c positive }

def add (tally : Tally) (key : String) : Tally :=
  key.toList.foldl (fun tally c => tally.more c 1 Nat.one_pos)
    { tally with bytes := tally.bytes + (bytesOf key).length }

/-- Add what `other` counted. -/
def merge (tally other : Tally) : Tally :=
  other.counts.attach.foldl (fun tally p => tally.more p.1.1 p.1.2 (other.met p.1 p.2))
    { tally with bytes := tally.bytes + other.bytes }

/-- The tally of keys counted a range at a time. -/
def ofRanges (ranges : List (List String)) : Tally :=
  ranges.foldl (fun tally range => tally.merge (range.foldl add new)) new

/-- A run of characters between singles cut into pages. -/
def flush (page run : Nat) : List Nat :=
  if 0 < min run page then min run page :: flush page (run - min run page) else []
termination_by run
decreasing_by omega

/-- The loop of `widths`, with a run of `run` characters not yet cut. -/
def widthsFrom (page : Nat) : List Bool → Nat → List Nat
  | [], run => flush page run
  | true :: rest, run => flush page run ++ 1 :: widthsFrom page rest 0
  | false :: rest, run => widthsFrom page rest (run + 1)

/-- The widths of the leads a code needs. -/
def widths (single : List Bool) (page : Nat) : List Nat :=
  widthsFrom page single 0

/-- Ranks by how often their characters occur, the most frequent first. -/
def rank (spelled : List (Char × Nat)) : List Nat :=
  (List.range spelled.length).insertionSort fun a b =>
    (spelled.getD b ('a', 0)).2 < (spelled.getD a ('a', 0)).2 ∨
      (spelled.getD a ('a', 0)).2 = (spelled.getD b ('a', 0)).2 ∧ a ≤ b

/-- The `k` most frequent marked as singles. -/
def mark (ranked : List Nat) (k length : Nat) : List Bool :=
  (ranked.take k).foldl (fun single i => single.set i true) (List.replicate length false)

/-- The largest set that fits, by binary search. -/
def search (fits : Nat → Bool) (lo hi : Nat) : Nat :=
  if lo < hi then
    if fits (divCeil (lo + hi) 2) then search fits (divCeil (lo + hi) 2) hi
    else search fits lo (divCeil (lo + hi) 2 - 1)
  else lo
termination_by hi - lo
decreasing_by
  all_goals
    simp only [divCeil]
    omega

/-- The mode that holds the characters, and those it spells under leads. -/
def spelledIn (alphabet : List (Char × Nat)) : Option (Mode × List (Char × Nat)) :=
  if alphabet.length ≤ LEADS * Mode.seven.page then some (.seven, alphabet)
  else
    let high := alphabet.dropWhile fun p => p.1.toNat < 0x80
    if LEADS * Mode.eight.page < high.length then none else some (.eight, high)

/-- Which of the characters take a lead of their own. -/
def singles (mode : Mode) (spelled : List (Char × Nat)) (total : Nat) : List Bool :=
  let ranked := rank spelled
  let fits := fun k => decide ((widths (mark ranked k spelled.length) mode.page).length ≤ LEADS)
  let lo := search fits 0 spelled.length
  let covered := ((ranked.take lo).map fun i => (spelled.getD i ('a', 0)).2).sum
  mark ranked (if total ≤ covered * 10 then lo else 0) spelled.length

/-- The code for a corpus of `bytes` in all, of which these keys are a draw. -/
def chooseFor (tally : Tally) (bytes : Nat) : Option CharCode :=
  let alphabet := tally.counts
  if alphabet = [] then none
  else
    let total := (alphabet.map Prod.snd).sum
    (spelledIn alphabet).bind fun spelled =>
      let single := singles spelled.1 spelled.2 total
      let firsts := CharCode.bounds (widths single spelled.1.page)
      let code := CharCode.new spelled.1 (spelled.2.map Prod.fst) firsts
      let drawn := (alphabet.map fun p => p.2 * (code.index.get p.1 >>> 16)).sum
      let spelt := drawn * bytes / max tally.bytes 1 % 2 ^ 64
      let table := code.len
      if (spelt + table) * 10 ≤ bytes * 9 ∧ table * 20 ≤ bytes - spelt then some code else none

/-- The code these keys are smallest under. -/
def choose (tally : Tally) : Option CharCode :=
  tally.chooseFor tally.bytes

end Tally

end Lexindex

/-!
## Trained codes

Every code a tally chooses is the code over an alphabet: its widths cover the
characters exactly, are no wider than a page, and are no more than there are leads,
whichever set of singles the search settles on.
-/

namespace Lexindex

open CharCode (Mode LEADS Alphabet)

namespace Tally

theorem divCeil_piece {page run : Nat} (positive : 0 < page) (some : 0 < run) :
    divCeil (run - min run page) page + 1 = divCeil run page := by
  by_cases small : run ≤ page
  · have piece : run + page - 1 = run - 1 + page := by omega
    rw [Nat.min_eq_left small, Nat.sub_self, divCeil, divCeil, piece, Nat.add_div_right _ positive,
      Nat.div_eq_of_lt (by omega), Nat.div_eq_of_lt (by omega)]
  · have piece : run + page - 1 = run - page + page - 1 + page := by omega
    rw [Nat.min_eq_right (by omega), divCeil, divCeil, piece, Nat.add_div_right _ positive]

theorem flush_spec (page run : Nat) (positive : 0 < page) :
    (flush page run).sum = run ∧ (∀ w ∈ flush page run, 1 ≤ w ∧ w ≤ page) ∧
      (flush page run).length = divCeil run page := by
  induction run using Nat.strong_induction_on with
  | _ run ih =>
      rw [flush]
      by_cases some : 0 < min run page
      · obtain ⟨sum, width, length⟩ := ih (run - min run page) (by omega)
        rw [if_pos some, List.sum_cons, List.length_cons, sum, length]
        refine ⟨by omega, fun w member => ?_, ?_⟩
        · rcases List.mem_cons.mp member with here | later
          · omega
          · exact width w later
        · exact divCeil_piece positive (by omega)
      · have zero : run = 0 := by omega
        rw [if_neg some, zero]
        refine ⟨rfl, by simp, ?_⟩
        rw [divCeil, List.length_nil, Nat.div_eq_of_lt (by omega)]

theorem widthsFrom_spec (page : Nat) (positive : 0 < page) (single : List Bool) (run : Nat) :
    (widthsFrom page single run).sum = run + single.length ∧
      ∀ w ∈ widthsFrom page single run, 1 ≤ w ∧ w ≤ page := by
  induction single generalizing run with
  | nil =>
      obtain ⟨sum, width, -⟩ := flush_spec page run positive
      exact ⟨sum, width⟩
  | cons s single ih =>
      cases s with
      | true =>
          obtain ⟨sum, width, -⟩ := flush_spec page run positive
          obtain ⟨laterSum, laterWidth⟩ := ih 0
          rw [widthsFrom, List.sum_append, List.sum_cons, sum, laterSum, List.length_cons]
          refine ⟨by omega, fun w member => ?_⟩
          rcases List.mem_append.mp member with earlier | rest
          · exact width w earlier
          · rcases List.mem_cons.mp rest with one | later
            · omega
            · exact laterWidth w later
      | false =>
          obtain ⟨sum, width⟩ := ih (run + 1)
          rw [widthsFrom, sum, List.length_cons]
          exact ⟨by omega, width⟩

theorem widthsFrom_none (page run n : Nat) :
    widthsFrom page (List.replicate n false) run = flush page (run + n) := by
  induction n generalizing run with
  | zero => rfl
  | succ n ih =>
      rw [List.replicate_succ, widthsFrom, ih]
      congr 1
      omega

theorem search_fits {fits : Nat → Bool} {lo hi : Nat} (least : fits lo) :
    fits (search fits lo hi) := by
  induction lo, hi using search.induct fits with
  | case1 lo hi less holds ih =>
      rw [search, if_pos less, if_pos holds]
      exact ih holds
  | case2 lo hi less fails ih =>
      rw [search, if_pos less, if_neg fails]
      exact ih least
  | case3 lo hi done =>
      rw [search, if_neg done]
      exact least

theorem mark_length (ranked : List Nat) (k length : Nat) :
    (mark ranked k length).length = length := by
  rw [mark]
  suffices kept : ∀ (marked : List Nat) (single : List Bool),
      (marked.foldl (fun single i => single.set i true) single).length = single.length by
    rw [kept, List.length_replicate]
  intro marked
  induction marked with
  | nil => exact fun _ => rfl
  | cons i marked ih =>
      intro single
      rw [List.foldl_cons, ih, List.length_set]

/-- Whichever singles are taken, the leads they need are no more than there are. -/
theorem singles_fit (mode : Mode) (spelled : List (Char × Nat)) (total : Nat)
    (few : spelled.length ≤ LEADS * mode.page) :
    (singles mode spelled total).length = spelled.length ∧
      (widths (singles mode spelled total) mode.page).length ≤ LEADS := by
  have positive : 0 < mode.page := by cases mode <;> decide
  refine ⟨mark_length _ _ _, ?_⟩
  have noSingles : (widths (mark (rank spelled) 0 spelled.length) mode.page).length ≤ LEADS := by
    rw [mark, List.take_zero, List.foldl_nil, widths, widthsFrom_none, Nat.zero_add,
      (flush_spec _ _ positive).2.2]
    by_contra more
    have past := mul_lt_of_lt_divCeil positive (Nat.not_le.mp more)
    rw [Nat.mul_comm] at past
    omega
  have found := @search_fits (fun k =>
    decide ((widths (mark (rank spelled) k spelled.length) mode.page).length ≤ LEADS))
    0 spelled.length (decide_eq_true noSingles)
  simp only [singles]
  split
  · exact of_decide_eq_true found
  · exact noSingles

/-- At most one of each ASCII character. -/
theorem ascii_few {counts : List (Char × Nat)} (ascending : counts.Pairwise fun p q => p.1 < q.1)
    (ascii : ∀ p ∈ counts, p.1.toNat < 0x80) : counts.length ≤ 0x80 := by
  have distinct : (counts.map fun p => p.1.toNat).Nodup := by
    refine List.pairwise_map.mpr (ascending.imp fun less same => ?_)
    exact absurd (Char.toNat_inj.mp same) less.ne
  have inside : (counts.map fun p => p.1.toNat) ⊆ List.range 0x80 := by
    intro point member
    obtain ⟨p, listed, rfl⟩ := List.mem_map.mp member
    exact List.mem_range.mpr (ascii p listed)
  have few := (distinct.subperm inside).length_le
  rw [List.length_map, List.length_range] at few
  exact few

/-- Past the ASCII characters of ascending counts there are none. -/
theorem dropWhile_ascii {counts : List (Char × Nat)}
    (ascending : counts.Pairwise fun p q => p.1 < q.1) :
    ∀ p ∈ counts.dropWhile (fun p => decide (p.1.toNat < 0x80)), 0x80 ≤ p.1.toNat := by
  induction counts with
  | nil => simp
  | cons head rest ih =>
      obtain ⟨first, later⟩ := List.pairwise_cons.mp ascending
      by_cases ascii : head.1.toNat < 0x80
      · rw [List.dropWhile_cons, if_pos (by simpa using ascii)]
        exact ih later
      · rw [List.dropWhile_cons, if_neg (by simpa using ascii)]
        intro p member
        rcases List.mem_cons.mp member with here | after
        · rw [here]
          omega
        · have more : head.1.toNat < p.1.toNat := first p after
          omega

/-- What a mode spells of the characters met. -/
theorem spelledIn_spec {counts spelled : List (Char × Nat)} {mode : Mode}
    (ascending : counts.Pairwise fun p q => p.1 < q.1) (some : counts ≠ [])
    (chosen : spelledIn counts = .some (mode, spelled)) :
    spelled.Sublist counts ∧ spelled ≠ [] ∧ spelled.length ≤ LEADS * mode.page ∧
      (mode = .eight → ∀ p ∈ spelled, 0x80 ≤ p.1.toNat) := by
  rw [spelledIn] at chosen
  split at chosen
  · rename_i few
    rw [Option.some.injEq, Prod.mk.injEq] at chosen
    rw [← chosen.1, ← chosen.2]
    exact ⟨List.Sublist.refl counts, some, few, by simp⟩
  · rename_i many
    simp only at chosen
    split at chosen
    · simp at chosen
    · rename_i few
      rw [Option.some.injEq, Prod.mk.injEq] at chosen
      rw [← chosen.1, ← chosen.2]
      have parts := List.takeWhile_append_dropWhile
        (p := fun p : Char × Nat => decide (p.1.toNat < 0x80)) (l := counts)
      have asciiFew := ascii_few (ascending.sublist (List.takeWhile_sublist
        fun p : Char × Nat => decide (p.1.toNat < 0x80))) fun p member => by
          simpa using List.mem_takeWhile_imp member
      refine ⟨List.dropWhile_sublist _, fun empty => ?_, Nat.not_lt.mp few, fun _ p member => ?_⟩
      · have length := congrArg List.length parts
        rw [List.length_append, empty, List.length_nil, Nat.add_zero] at length
        rw [LEADS, Mode.page] at many
        omega
      · exact dropWhile_ascii ascending p member

/-- A code a tally chooses is the code over an alphabet. -/
theorem chooseFor_alphabet {tally : Tally} {bytes : Nat} {code : CharCode}
    (chosen : tally.chooseFor bytes = some code) : ∃ a : Alphabet, a.code = code := by
  simp only [chooseFor] at chosen
  split at chosen
  · simp at chosen
  · rename_i met
    obtain ⟨⟨mode, spelled⟩, inMode, exact⟩ := Option.bind_eq_some_iff.mp chosen
    obtain ⟨sublist, some, few, high⟩ := spelledIn_spec tally.ascending met inMode
    have positive : 0 < mode.page := by cases mode <;> decide
    obtain ⟨sized, fits⟩ := singles_fit mode spelled (tally.counts.map Prod.snd).sum few
    obtain ⟨sum, width⟩ := widthsFrom_spec mode.page positive
      (singles mode spelled (tally.counts.map Prod.snd).sum) 0
    simp only at exact
    split at exact
    · refine ⟨{
        mode
        chars := spelled.map Prod.fst
        widths := widths (singles mode spelled (tally.counts.map Prod.snd).sum) mode.page
        ascending := List.pairwise_map.mpr (tally.ascending.sublist sublist)
        nonempty := fun empty => some (List.map_eq_nil_iff.mp empty)
        covered := ?_
        leads := fits
        width
        high := fun whole c member => ?_ }, Option.some.inj exact⟩
      · rw [widths, sum, sized, List.length_map, Nat.zero_add]
      · obtain ⟨p, listed, rfl⟩ := List.mem_map.mp member
        exact high whole p listed
    · simp at exact

end Tally

end Lexindex
