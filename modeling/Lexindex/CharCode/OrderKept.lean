import Mathlib
import Lexindex.CharCode.Order
import Lexindex.CharCode.Trained

/-!
# Probes

A query whose characters are all spelled is probed by its own code.  One that is not
is probed, past the code of what is spelled of it, by the first codeword above the
missing character, or by the end of the prefix where no character is above it.
-/

set_option autoImplicit false

namespace Lexindex.CharCode.Alphabet

variable (a : Alphabet)

/-- Entries before the partition point satisfy the predicate, and the one at it does not. -/
theorem partition_point {α : Type} (p : α → Bool) (xs : List α) :
    (∀ i, i < (xs.takeWhile p).length → ∀ x, xs[i]? = some x → p x) ∧
      ∀ x, xs[(xs.takeWhile p).length]? = some x → ¬ p x := by
  induction xs with
  | nil => exact ⟨fun i small => by simp at small, fun x read => by simp at read⟩
  | cons head xs ih =>
      by_cases holds : p head
      · rw [List.takeWhile_cons_of_pos holds, List.length_cons]
        refine ⟨fun i small x read => ?_, fun x read => ?_⟩
        · cases i with
          | zero =>
              rw [List.getElem?_cons_zero] at read
              rw [← Option.some.inj read]
              exact holds
          | succ i =>
              rw [List.getElem?_cons_succ] at read
              exact ih.1 i (by omega) x read
        · rw [List.getElem?_cons_succ] at read
          exact ih.2 x read
      · rw [List.takeWhile_cons_of_neg holds]
        refine ⟨fun i small => absurd small (Nat.not_lt_zero i), fun x read => ?_⟩
        rw [List.length_nil, List.getElem?_cons_zero] at read
        rw [← Option.some.inj read]
        exact holds

/-- The place of a character in the alphabet. -/
def partition (c : Char) : Nat :=
  (a.chars.takeWhile fun d => d < c).length

theorem partition_eq (c : Char) :
    ((a.code.utf8.take a.code.count).takeWhile
      fun u => packedOrder u < packedOrder (packed c)).length = a.partition c := by
  rw [utf8_take, List.takeWhile_map, List.length_map, partition]
  congr 2
  funext d
  apply decide_eq_decide.mpr
  exact packedOrder_lt_iff d c

/-- A spelled character is below one that is not, or at its place or past it. -/
theorem spelled_cases {c x : Char} (missing : a.code.index.get c = 0)
    (spelled : a.code.index.get x ≠ 0) :
    x < c ∨ ∃ j, a.chars[j]? = some x ∧ a.partition c ≤ j := by
  obtain ⟨bytes, coded⟩ := a.exists_coded spelled
  cases coded with
  | placed l i lead inside listed =>
      by_cases before : startOf a.widths l + i < a.partition c
      · have holds := (partition_point (fun d => decide (d < c)) a.chars).1 _ before x listed
        exact .inl (of_decide_eq_true holds)
      · exact .inr ⟨_, listed, Nat.not_lt.mp before⟩
  | ascii whole small =>
      left
      by_contra notLess
      have order : c.toNat ≤ x.toNat := not_lt.mp notLess
      exact a.coded_spelled (.ascii whole (by omega)) missing

theorem not_next_lt {c d : Char} (next : a.chars[a.partition c]? = some d) : c ≤ d := by
  have fails := (partition_point (fun e => decide (e < c)) a.chars).2 d next
  exact not_lt.mp fun less => fails (decide_eq_true less)

/-- A spelled character is below one that is not just where it is below the next that is. -/
theorem lt_next_iff {c d x : Char} (missing : a.code.index.get c = 0)
    (next : a.chars[a.partition c]? = some d) (spelled : a.code.index.get x ≠ 0) :
    x < c ↔ x < d := by
  have above := a.not_next_lt next
  rcases a.spelled_cases missing spelled with less | ⟨j, listed, past⟩
  · exact iff_of_true less (less.trans_le above)
  · have order : ¬ x < d := by
      intro less
      have reversed := a.getElem?_lt listed next less
      omega
    exact iff_of_false (fun less => order (less.trans_le above)) order

/-- Past the last character, every spelled one is below. -/
theorem lt_missing {c x : Char} (missing : a.code.index.get c = 0)
    (next : a.chars[a.partition c]? = none) (spelled : a.code.index.get x ≠ 0) : x < c := by
  rcases a.spelled_cases missing spelled with less | ⟨j, listed, past⟩
  · exact less
  · have ends := List.getElem?_eq_none_iff.mp next
    have inside := (List.getElem?_eq_some_iff.mp listed).1
    omega

/-- A key is below the query just where it is below the prefix and the next character. -/
theorem key_lt_next {front tail key : List Char} {c d : Char}
    (missing : a.code.index.get c = 0) (next : a.chars[a.partition c]? = some d)
    (keySpelled : a.code.Spellable key) :
    key < front ++ c :: tail ↔ key < front ++ [d] := by
  rw [lt_append_iff, lt_append_iff]
  refine or_congr_right (exists_congr fun rest => and_congr_right fun shape => ?_)
  cases rest with
  | nil => simp [List.nil_lt_cons]
  | cons x rest =>
      have spelled : a.code.index.get x ≠ 0 := keySpelled x (by rw [shape]; simp)
      have apart : x ≠ c := fun same => spelled (same ▸ missing)
      have around := a.lt_next_iff missing next spelled
      rw [List.cons_lt_cons_iff, List.cons_lt_cons_iff, around]
      simp [apart]

/-- A key is below a query past every character just where it is below the prefix, or
starts with it. -/
theorem key_lt_past {front tail key : List Char} {c : Char}
    (missing : a.code.index.get c = 0) (next : a.chars[a.partition c]? = none)
    (keySpelled : a.code.Spellable key) :
    key < front ++ c :: tail ↔ key < front ∨ front <+: key := by
  rw [lt_append_iff]
  refine or_congr_right ⟨?_, ?_⟩
  · rintro ⟨rest, shape, -⟩
    exact ⟨rest, shape.symm⟩
  · rintro ⟨rest, shape⟩
    refine ⟨rest, shape.symm, ?_⟩
    cases rest with
    | nil => exact List.nil_lt_cons c tail
    | cons x rest =>
        have spelled : a.code.index.get x ≠ 0 := keySpelled x (by rw [← shape]; simp)
        exact List.cons_lt_cons_iff.mpr (.inl (a.lt_missing missing next spelled))

/-- A probe that orders against the codes as `query` does against the keys. -/
def Places (query : List Char) (verdict : Probe) (bytes : List UInt8) : Prop :=
  (verdict = .exact ↔ a.code.Spellable query) ∧
    ∀ key, a.code.Spellable key →
      (key < query ↔ verdict.Above bytes (key.flatMap a.code.codeword))

/-- The loop, with the code of `front` written. -/
theorem probeChars_places {front rest : List Char} (frontSpelled : a.code.Spellable front)
    {out : List UInt8} {o : Nat} (written : out.take o = front.flatMap a.code.codeword)
    (room : o + 2 * rest.length ≤ out.length) :
    ∃ verdict len left, a.code.probeChars rest out o = some (verdict, len, left) ∧
      a.Places (front ++ rest) verdict (left.take len) := by
  induction rest generalizing front out o with
  | nil =>
      refine ⟨.exact, o, out, rfl, ?_⟩
      rw [List.append_nil]
      refine ⟨iff_of_true rfl frontSpelled, fun key keySpelled => ?_⟩
      rw [Probe.Above, written, a.prefixCode.flatMap_lt_iff keySpelled frontSpelled]
  | cons c rest ih =>
      rw [List.length_cons] at room
      by_cases spelled : a.code.index.get c = 0
      · have notExact : ¬ a.code.Spellable (front ++ c :: rest) :=
          fun all => all c (by simp) spelled
        have point := a.partition_eq c
        have taken : (a.code.utf8.take a.code.count)[a.partition c]? =
            (a.chars[a.partition c]?).map packed := by
          rw [utf8_take, List.getElem?_map]
        simp only [probeChars]
        rw [if_neg (by simpa using spelled), point, taken]
        cases next : a.chars[a.partition c]? with
        | some d =>
            obtain ⟨bytes, coded⟩ := a.exists_placed (List.mem_of_getElem? next)
            obtain ⟨after, putExact, -, afterExact⟩ :=
              @put_spells out bytes o _ (by omega) (a.coded_spells coded)
            have dSpelled : a.code.Spellable (front ++ [d]) :=
              spellable_concat frontSpelled (a.coded_spelled coded)
            refine ⟨.absent, o + bytes.length, after, ?_, ?_, fun key keySpelled => ?_⟩
            · simp only [Option.map_some, unpacked_packed, Option.bind_some, putExact]
            · exact iff_of_false (by simp) notExact
            · rw [a.key_lt_next spelled next keySpelled, Probe.Above, afterExact, written,
                ← a.codeword_coded coded, ← List.flatMap_singleton a.code.codeword d,
                ← List.flatMap_append, a.prefixCode.flatMap_lt_iff keySpelled dSpelled]
        | none =>
            have codes (key : List Char) (keySpelled : a.code.Spellable key) :
                key < front ++ c :: rest ↔
                  key.flatMap a.code.codeword < out.take o ∨
                    out.take o <+: key.flatMap a.code.codeword := by
              rw [a.key_lt_past spelled next keySpelled, written,
                a.prefixCode.flatMap_lt_iff keySpelled frontSpelled,
                a.prefixCode.flatMap_prefix_iff frontSpelled keySpelled]
            cases bumps : bump (out.take o) with
            | none =>
                refine ⟨.last, 0, out, by simp, iff_of_false (by simp) notExact, ?_⟩
                intro key keySpelled
                rw [codes key keySpelled]
                exact iff_of_true (bump_none bumps _) trivial
            | some bumped =>
                obtain ⟨length, inside, below⟩ := bump_some bumps
                refine ⟨.absent, bumped.2, bumped.1 ++ out.drop o, by simp,
                  iff_of_false (by simp) notExact, fun key keySpelled => ?_⟩
                rw [codes key keySpelled, Probe.Above, List.take_append_of_le_length (by omega),
                  below]
      · obtain ⟨bytes, coded⟩ := a.exists_coded spelled
        obtain ⟨after, putExact, length, taken⟩ :=
          @put_spells out bytes o _ (by omega) (a.coded_spells coded)
        have frontNext : a.code.Spellable (front ++ [c]) :=
          spellable_concat frontSpelled spelled
        have shorter := (a.coded_length coded).2
        obtain ⟨verdict, len, left, run, places⟩ := @ih (front ++ [c]) frontNext after
          (o + bytes.length) (by
            rw [taken, written, List.flatMap_append, List.flatMap_singleton,
              a.codeword_coded coded]) (by omega)
        refine ⟨verdict, len, left, ?_, by simpa using places⟩
        simp only [probeChars]
        rw [if_pos spelled, putExact, Option.bind_some]
        exact run

end Lexindex.CharCode.Alphabet

/-!
## Trained codes keep the order

The codes of two spellable strings compare and start as the strings do, and every
query has a probe: the keys below the query are those whose codes are below it.
-/

namespace Lexindex

open CharCode (Alphabet)

theorem length_le_bytesOf (key : String) : key.toList.length ≤ (bytesOf key).length := by
  rw [bytesOf_eq]
  induction key.toList with
  | nil => exact Nat.zero_le _
  | cons c chars ih =>
      have some := (CharCode.utf8EncodeChar_length c).1
      rw [List.flatMap_cons, List.length_append, List.length_cons]
      omega

/-- The codes of two keys compare as the keys do. -/
def CharCode.KeepsOrder (code : CharCode) (a b : String) : Prop :=
  ∃ ca cb, code.encodeKey a [] = (true, ca) ∧ code.encodeKey b [] = (true, cb) ∧
    (ca < cb ↔ bytesOf a < bytesOf b) ∧ (ca <+: cb ↔ bytesOf a <+: bytesOf b)

/-- A probe of `query` written to `out` orders against every key's code as the query
does against the key, and is exact just where the query could be a key. -/
def CharCode.Probes (code : CharCode) (query : String) (out : List UInt8) : Prop :=
  ∃ verdict len left, code.probeInto query out = some (verdict, len, left) ∧
    (verdict = .exact ↔ code.Spellable query.toList) ∧
    ∀ key : String, code.Spellable key.toList →
      ∃ coded, code.encodeKey key [] = (true, coded) ∧
        (bytesOf key < bytesOf query ↔ verdict.Above (left.take len) coded)

namespace CharCode.Alphabet

variable (a : Alphabet)

theorem keepsOrder {x y : String} (xSpelled : a.code.Spellable x.toList)
    (ySpelled : a.code.Spellable y.toList) : a.code.KeepsOrder x y := by
  refine ⟨_, _, encodeKey_spelled xSpelled, encodeKey_spelled ySpelled, ?_, ?_⟩
  · rw [a.prefixCode.flatMap_lt_iff xSpelled ySpelled, bytesOf_lt_iff]
  · rw [a.prefixCode.flatMap_prefix_iff xSpelled ySpelled, bytesOf_prefix_iff]

theorem probes (query : String) {out : List UInt8}
    (room : 2 * (bytesOf query).length ≤ out.length) : a.code.Probes query out := by
  have short := length_le_bytesOf query
  have nothing : a.code.Spellable [] := fun c member => absurd member List.not_mem_nil
  obtain ⟨verdict, len, left, run, exact, places⟩ :=
    @probeChars_places a [] query.toList nothing out 0 rfl (by omega)
  refine ⟨verdict, len, left, run, exact, fun key keySpelled => ?_⟩
  refine ⟨_, encodeKey_spelled keySpelled, ?_⟩
  rw [bytesOf_lt_iff]
  exact places key.toList keySpelled

end CharCode.Alphabet

/-- Every code trained on some keys keeps the order and the prefixes of what it spells,
and probes any query at all. -/
theorem CharCode.trained_keeps_order {ranges : List (List String)} {bytes : Nat}
    {code : CharCode} (trained : (Tally.ofRanges ranges).chooseFor bytes = some code) :
    (∀ a b : String, code.Spellable a.toList → code.Spellable b.toList → code.KeepsOrder a b) ∧
      ∀ (query : String) (out : List UInt8), 2 * (bytesOf query).length ≤ out.length →
        code.Probes query out := by
  obtain ⟨alphabet, rfl⟩ := Tally.chooseFor_alphabet trained
  exact ⟨fun a b aSpelled bSpelled => alphabet.keepsOrder aSpelled bSpelled,
    fun query out room => alphabet.probes query room⟩

theorem bytesOf_replicate (n : Nat) (c : Char) :
    (bytesOf (String.ofList (List.replicate n c))).length =
      n * (String.utf8EncodeChar c).length := by
  rw [bytesOf_ofList, List.length_flatMap, List.map_replicate, List.sum_replicate, smul_eq_mul]

/-- A key of seventy ideographs, of whose bytes a code saves two thirds. -/
def ideographs : String :=
  String.ofList (List.replicate 70 '中')

theorem bytesOf_ideographs : (bytesOf ideographs).length = 210 :=
  bytesOf_replicate 70 '中'

theorem ideographs_tally :
    (Tally.ofRanges [[ideographs]]).counts = [('中', 70)] ∧
      (Tally.ofRanges [[ideographs]]).bytes = 210 := by
  have chars : ideographs.toList = List.replicate 70 '中' := String.toList_ofList
  have added : [ideographs].foldl Tally.add Tally.new =
      { bytes := 210
        counts := [('中', 70)]
        ascending := List.pairwise_singleton _ _
        met := by simp } := by
    rw [List.foldl_cons, List.foldl_nil, Tally.add, chars, bytesOf_ideographs]
    rfl
  rw [Tally.ofRanges, List.foldl_cons, List.foldl_nil, added]
  exact ⟨rfl, rfl⟩

theorem widths_single : Tally.widths [true] 128 = [1] := by
  have nothing : Tally.flush 128 0 = [] := by rw [Tally.flush, if_neg (by decide)]
  rw [Tally.widths, Tally.widthsFrom, Tally.widthsFrom, nothing]
  rfl

theorem ideographs_singles : Tally.singles .seven [('中', 70)] 70 = [true] := by
  let fits := fun k => decide ((Tally.widths (Tally.mark [0] k 1) 128).length ≤ CharCode.LEADS)
  have ranked : Tally.rank [('中', 70)] = [0] := by decide
  have marked : Tally.mark [0] 1 1 = [true] := by decide
  have one : fits 1 = true := by simp [fits, marked, widths_single, CharCode.LEADS]
  have found : Tally.search fits 0 1 = 1 := by
    rw [Tally.search, if_pos (by decide)]
    change (if fits 1 = true then Tally.search fits 1 1 else _) = 1
    rw [if_pos one, Tally.search, if_neg (by decide)]
  simp only [fits] at found
  simp only [Tally.singles, ranked, CharCode.Mode.page, List.length_singleton, found]
  decide

theorem ideographs_chosen :
    ((Tally.ofRanges [[ideographs]]).chooseFor 210).isSome = true := by
  obtain ⟨counts, bytes⟩ := ideographs_tally
  have inMode : Tally.spelledIn [('中', 70)] = some (.seven, [('中', 70)]) := by decide
  simp only [Tally.chooseFor, counts, bytes, inMode, Option.bind_some, List.map_cons, List.map_nil,
    List.sum_singleton, ideographs_singles, CharCode.Mode.page, widths_single]
  decide +kernel

theorem CharCode.ideographs_keep_order :
    ∃ code, (Tally.ofRanges [[ideographs]]).chooseFor 210 = some code ∧
      (∀ a b : String, code.Spellable a.toList → code.Spellable b.toList →
        code.KeepsOrder a b) ∧
        ∀ (query : String) (out : List UInt8), 2 * (bytesOf query).length ≤ out.length →
          code.Probes query out := by
  obtain ⟨code, trained⟩ := Option.isSome_iff_exists.mp ideographs_chosen
  exact ⟨code, trained, CharCode.trained_keeps_order trained⟩

end Lexindex
