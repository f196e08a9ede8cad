import Mathlib
import Lexindex.Lib.Widths
import Lexindex.CharCode.Code
import Lexindex.CharCode.IndexSound

/-!
# Alphabets

The characters of a code under leads whose widths cover them exactly.  Each
character has one codeword, codewords ascend as the characters do, and the tables
of the code read each codeword back as its character.
-/

set_option autoImplicit false

namespace Lexindex.CharCode

theorem bounds_last (widths : List Nat) : (bounds widths).getLastD 0 = widths.sum := by
  induction widths using List.reverseRecOn with
  | nil => rfl
  | append_singleton widths w ih =>
      rw [bounds, List.foldl_append, ← bounds]
      simp only [List.foldl_cons, List.foldl_nil, ih]
      rw [List.getLastD_concat, List.sum_append, List.sum_singleton]

theorem bounds_concat (widths : List Nat) (w : Nat) :
    bounds (widths ++ [w]) = bounds widths ++ [widths.sum + w] := by
  rw [bounds, List.foldl_append, ← bounds]
  simp only [List.foldl_cons, List.foldl_nil, bounds_last]

theorem bounds_eq (widths : List Nat) :
    bounds widths = (List.range (widths.length + 1)).map (startOf widths) := by
  induction widths using List.reverseRecOn with
  | nil => rfl
  | append_singleton widths w ih =>
      have earlier : (List.range (widths.length + 1)).map (startOf (widths ++ [w])) =
          (List.range (widths.length + 1)).map (startOf widths) := by
        refine List.map_congr_left fun l member => ?_
        rw [List.mem_range] at member
        rw [startOf, startOf, List.take_append_of_le_length (by omega)]
      have total : startOf (widths ++ [w]) (widths.length + 1) = widths.sum + w := by
        rw [startOf, List.take_of_length_le (by simp), List.sum_append, List.sum_singleton]
      rw [bounds_concat, ih, List.length_append, List.length_singleton,
        List.range_succ (n := widths.length + 1), List.map_append, earlier, List.map_singleton,
        total]

theorem bounds_length (widths : List Nat) : (bounds widths).length = widths.length + 1 := by
  rw [bounds_eq, List.length_map, List.length_range]

theorem spans_bounds (widths : List Nat) :
    spans (bounds widths) =
      (List.range widths.length).map fun l =>
        ((startOf widths l, startOf widths (l + 1)), l) := by
  refine List.ext_getElem (by simp [spans, bounds_length]) fun l _ _ => ?_
  simp [spans, bounds_eq]

/-- The second byte of a place under a lead: none for a lead of one character. -/
def secondOf (width at_ : Nat) : Option Nat :=
  if width = 1 then none else some at_

theorem mem_spelling {mode : Mode} {chars : List Char} {widths : List Nat} {c : Char} {w : Nat} :
    (c, w) ∈ spelling mode chars (bounds widths) ↔
      ∃ l at_, l < widths.length ∧ at_ < widths.getD l 0 ∧
        chars[startOf widths l + at_]? = some c ∧
        w = word (mode.base + l) (secondOf (widths.getD l 0) at_) := by
  have width (l : Nat) : startOf widths (l + 1) - startOf widths l = widths.getD l 0 := by
    rw [startOf_succ]
    omega
  simp only [spelling, spans_bounds, List.mem_flatMap, List.mem_map, List.mem_range]
  constructor
  · rintro ⟨span, ⟨l, inside, rfl⟩, ⟨d, at_⟩, member, exact⟩
    rw [List.mem_zipIdx_iff_getElem?, List.getElem?_drop, List.getElem?_take] at member
    simp only [width, Prod.mk.injEq] at exact member
    split at member
    · rename_i small
      rw [startOf_succ] at small
      rw [← exact.1, ← exact.2]
      exact ⟨l, at_, inside, by omega, member, rfl⟩
    · simp at member
  · rintro ⟨l, at_, inside, small, placed, rfl⟩
    refine ⟨_, ⟨l, inside, rfl⟩, (c, at_), ?_, ?_⟩
    · rw [List.mem_zipIdx_iff_getElem?, List.getElem?_drop, List.getElem?_take, if_pos ?_]
      · exact placed
      · change startOf widths l + at_ < startOf widths (l + 1)
        rw [startOf_succ]
        omega
    · simp only [width]
      rfl

/-- The characters of a code, under leads whose widths cover them. -/
structure Alphabet where
  mode : Mode
  chars : List Char
  widths : List Nat
  ascending : chars.Pairwise (· < ·)
  nonempty : chars ≠ []
  covered : widths.sum = chars.length
  leads : widths.length ≤ LEADS
  width : ∀ w ∈ widths, 1 ≤ w ∧ w ≤ mode.page
  /-- ASCII spells itself under whole bytes, and is not among the characters. -/
  high : mode = .eight → ∀ c ∈ chars, 0x80 ≤ c.toNat

namespace Alphabet

/-- The code over an alphabet. -/
def code (a : Alphabet) : CharCode :=
  CharCode.new a.mode a.chars (bounds a.widths)

/-- A character and the bytes of its codeword. -/
inductive Coded (a : Alphabet) : Char → List UInt8 → Prop where
  | placed {c : Char} (l at_ : Nat) (lead : l < a.widths.length) (inside : at_ < a.widths.getD l 0)
      (listed : a.chars[startOf a.widths l + at_]? = some c) :
      Coded a c (codewordBytes (a.mode.base + l) (secondOf (a.widths.getD l 0) at_))
  | ascii {c : Char} (whole : a.mode = .eight) (small : c.toNat < 0x80) :
      Coded a c [UInt8.ofNat c.toNat]

variable (a : Alphabet)

theorem width_getD {l : Nat} (lead : l < a.widths.length) :
    1 ≤ a.widths.getD l 0 ∧ a.widths.getD l 0 ≤ a.mode.page := by
  rw [List.getD_eq_getElem _ _ lead]
  exact a.width _ (List.getElem_mem lead)

theorem lead_lt {l : Nat} (lead : l < a.widths.length) :
    a.mode.base ≤ a.mode.base + l ∧ a.mode.base + l < a.mode.base + 128 ∧
      a.mode.base + l < 256 := by
  have few := a.leads
  rw [LEADS] at few
  cases mode : a.mode <;> simp only [Mode.base] <;> omega

theorem page_le : a.mode.page ≤ 256 := by
  cases a.mode <;> simp [Mode.page]

theorem second_lt {l at_ s : Nat} (lead : l < a.widths.length) (inside : at_ < a.widths.getD l 0)
    (second : secondOf (a.widths.getD l 0) at_ = some s) : s < 256 := by
  obtain ⟨_, most⟩ := a.width_getD lead
  have page := a.page_le
  rw [secondOf] at second
  split at second
  · simp at second
  · rw [← Option.some.inj second]
    omega

/-- Every character of the alphabet has a place under a lead. -/
theorem exists_placed {c : Char} (member : c ∈ a.chars) : ∃ bytes, a.Coded c bytes := by
  obtain ⟨rank, small, rfl⟩ := List.getElem_of_mem member
  obtain ⟨l, at_, lead, inside, exact⟩ := exists_run a.widths (a.covered.symm ▸ small)
  refine ⟨_, .placed l at_ lead inside ?_⟩
  rw [← exact, List.getElem?_eq_getElem small]

theorem getElem?_lt {i j : Nat} {c d : Char} (ci : a.chars[i]? = some c)
    (dj : a.chars[j]? = some d) (less : c < d) : i < j := by
  obtain ⟨iSmall, rfl⟩ := List.getElem?_eq_some_iff.mp ci
  obtain ⟨jSmall, rfl⟩ := List.getElem?_eq_some_iff.mp dj
  by_contra notLess
  rcases Nat.lt_or_eq_of_le (Nat.not_lt.mp notLess) with more | same
  · have reversed := List.pairwise_iff_getElem.mp a.ascending j i jSmall iSmall more
    exact absurd (less.trans reversed) (lt_irrefl _)
  · subst same
    exact absurd less (lt_irrefl _)

theorem placed_high (whole : a.mode = .eight) {i : Nat} {c : Char}
    (listed : a.chars[i]? = some c) : 0x80 ≤ c.toNat :=
  a.high whole c (List.mem_of_getElem? listed)

theorem coded_diverges {c d : Char} {x y : List UInt8} (coded : a.Coded c x)
    (above : a.Coded d y) (less : c < d) : Diverges x y := by
  have points : c.toNat < d.toNat := less
  cases coded with
  | placed l i lead inside listed =>
      cases above with
      | placed m j dLead dInside dListed =>
          have ranks := a.getElem?_lt listed dListed less
          have dByte := (a.lead_lt dLead).2.2
          rw [codewordBytes_eq, codewordBytes_eq]
          rcases Nat.lt_trichotomy l m with before | same | after
          · exact .of_lt (ofNat_lt_ofNat (by omega) dByte) _ _
          · subst same
            have second : ∀ k, secondOf (a.widths.getD l 0) k = some k :=
              fun k => if_neg (by omega)
            have jSmall := a.second_lt dLead dInside (second j)
            rw [second, second]
            exact (Diverges.of_lt (ofNat_lt_ofNat (by omega) jSmall) _ _).cons _
          · have reversed := @run_lt a.widths m l j i after dInside
            omega
      | ascii whole small =>
          have high := a.placed_high whole listed
          omega
  | ascii whole small =>
      cases above with
      | placed m j dLead dInside dListed =>
          have dByte := (a.lead_lt dLead).2.2
          rw [codewordBytes_eq]
          rw [whole, Mode.base] at dByte ⊢
          exact .of_lt (ofNat_lt_ofNat (by omega) dByte) _ _
      | ascii _ dSmall => exact .of_lt (ofNat_lt_ofNat points (by omega)) _ _

theorem take_flatMap {α : Type} (xs : List α) (widths : List Nat) (n : Nat) :
    (List.range n).flatMap
        (fun l => (xs.take (startOf widths (l + 1))).drop (startOf widths l)) =
      xs.take (startOf widths n) := by
  induction n with
  | zero => simp [startOf]
  | succ n ih =>
      have start := startOf_le widths (Nat.le_succ n)
      rw [List.range_succ, List.flatMap_append, ih, List.flatMap_singleton]
      conv_rhs => rw [← List.take_append_drop (startOf widths n) (xs.take (startOf widths (n + 1)))]
      rw [List.take_take, Nat.min_eq_left start]

theorem coded_length {c : Char} {bytes : List UInt8} (coded : a.Coded c bytes) :
    0 < bytes.length ∧ bytes.length ≤ 2 := by
  cases coded with
  | placed l i lead inside listed =>
      rw [codewordBytes_eq]
      cases secondOf (a.widths.getD l 0) i <;> simp
  | ascii => simp

theorem map_fst_spelling :
    (spelling a.mode a.chars (bounds a.widths)).map Prod.fst = a.chars := by
  rw [spelling, spans_bounds, List.flatMap_map, List.map_flatMap]
  simp only [List.map_map, Function.comp_def]
  have firsts (xs : List Char) : xs.zipIdx.map (fun entry => entry.1) = xs :=
    List.zipIdx_map_fst 0 xs
  simp only [firsts]
  rw [take_flatMap, startOf_length, a.covered, List.take_length]

theorem ascii_toNat {b : Nat} (small : b < 0x80) : (Char.ofNat b).toNat = b := by
  rw [Char.toNat_ofNat, if_pos (.inl (by omega))]

theorem mem_asciiSpelling {mode : Mode} {c : Char} {w : Nat} :
    (c, w) ∈ asciiSpelling mode ↔ mode = .eight ∧ c.toNat < 0x80 ∧ w = word c.toNat none := by
  rw [asciiSpelling]
  constructor
  · intro member
    split at member
    · rename_i whole
      obtain ⟨b, small, exact⟩ := List.mem_map.mp member
      rw [List.mem_range] at small
      rw [Prod.mk.injEq] at exact
      rw [← exact.1, ascii_toNat small]
      exact ⟨whole, small, exact.2.symm⟩
    · simp at member
  · rintro ⟨whole, small, rfl⟩
    rw [if_pos whole]
    refine List.mem_map.mpr ⟨c.toNat, List.mem_range.mpr small, ?_⟩
    rw [Char.ofNat_toNat]

theorem asciiSpelling_distinct (mode : Mode) :
    (asciiSpelling mode).Pairwise fun p q => p.1 ≠ q.1 := by
  rw [asciiSpelling]
  split
  · rw [List.pairwise_map]
    refine List.Pairwise.imp_of_mem ?_ List.pairwise_lt_range
    intro b d bMember dMember less same
    rw [List.mem_range] at bMember dMember
    have points := congrArg Char.toNat same
    rw [ascii_toNat bMember, ascii_toNat dMember] at points
    omega
  · exact List.Pairwise.nil

theorem spelt_distinct :
    (spelling a.mode a.chars (bounds a.widths) ++ asciiSpelling a.mode).Pairwise
      fun p q => p.1 ≠ q.1 := by
  refine List.pairwise_append.mpr ⟨?_, asciiSpelling_distinct a.mode, ?_⟩
  · rw [← List.pairwise_map (f := Prod.fst), map_fst_spelling]
    exact a.ascending.imp ne_of_lt
  · rintro ⟨c, w⟩ placed ⟨d, v⟩ ascii same
    obtain ⟨l, at_, lead, inside, listed, -⟩ := mem_spelling.mp placed
    obtain ⟨whole, small, -⟩ := mem_asciiSpelling.mp ascii
    have high := a.placed_high whole listed
    change c = d at same
    rw [same] at high
    omega

/-- The index holds each character's codeword. -/
theorem coded_spells {c : Char} {bytes : List UInt8} (coded : a.Coded c bytes) :
    Spells (a.code.index.get c) bytes := by
  obtain ⟨spelled, -⟩ := @Index.get_build a.mode _ a.spelt_distinct
  cases coded with
  | placed l at_ lead inside listed =>
      obtain ⟨least, most, byte⟩ := a.lead_lt lead
      have second (s : Nat) := @a.second_lt l at_ s lead inside
      refine spelled _ (List.mem_append_left _ (mem_spelling.mpr
        ⟨l, at_, lead, inside, listed, rfl⟩)) _ ⟨spells_word _ _ byte second, fun _ => ?_⟩
      exact ⟨narrow_ne_zero _ _ byte second, spells_widen_narrow _ _ _ least most second⟩
  | ascii whole small =>
      have byte : c.toNat < 256 := by omega
      refine spelled _ (List.mem_append_right _ (mem_asciiSpelling.mpr ⟨whole, small, rfl⟩)) _
        ⟨spells_word _ none byte (by simp), fun high => ?_⟩
      change LOW ≤ c.toNat at high
      rw [LOW] at high
      omega

/-- The index holds no other codeword. -/
theorem exists_coded {c : Char} (spelled : a.code.index.get c ≠ 0) :
    ∃ bytes, a.Coded c bytes := by
  obtain ⟨-, absent⟩ := @Index.get_build a.mode _ a.spelt_distinct
  by_contra none
  refine spelled (absent c fun p member same => none ?_)
  obtain ⟨d, w⟩ := p
  subst same
  rcases List.mem_append.mp member with placed | ascii
  · obtain ⟨l, at_, lead, inside, listed, -⟩ := mem_spelling.mp placed
    exact ⟨_, .placed l at_ lead inside listed⟩
  · obtain ⟨whole, small, -⟩ := mem_asciiSpelling.mp ascii
    exact ⟨_, .ascii whole small⟩

end Alphabet

end Lexindex.CharCode
