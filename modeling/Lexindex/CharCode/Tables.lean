import Mathlib
import Lexindex.CharCode.Alphabet

/-!
# Reading a codeword back

The table of leads and the packed characters by rank.  Where a codeword starts the
reader answers its character and its length, and what it answers is a codeword that
is there; no read leaves the tables.
-/

set_option autoImplicit false

namespace Lexindex.CharCode

theorem toNat_eq_iff {byte : UInt8} {b : Nat} (small : b < 256) :
    byte = UInt8.ofNat b ↔ byte.toNat = b := by
  rw [← UInt8.toNat_inj, UInt8.toNat_ofNat']
  omega

/-- The leads of the alphabet up to the `n`-th. -/
theorem spanLeads (mode : Mode) (widths : List Nat) {n : Nat} (few : mode.base + n ≤ 256)
    (byte : UInt8) :
    ((List.range n).map fun l => ((startOf widths l, startOf widths (l + 1)), l)).foldl
        (fun leads span => Function.update leads (UInt8.ofNat (mode.base + span.2))
          (span.1.1 <<< 9 ||| (span.1.2 - span.1.1)))
        (fun _ => 0) byte =
      if mode.base ≤ byte.toNat ∧ byte.toNat < mode.base + n then
        startOf widths (byte.toNat - mode.base) <<< 9 |||
          widths.getD (byte.toNat - mode.base) 0
      else 0 := by
  induction n with
  | zero =>
      rw [if_neg (by omega)]
      rfl
  | succ n ih =>
      have byteIff := @toNat_eq_iff byte (mode.base + n) (by omega)
      rw [List.range_succ, List.map_append, List.foldl_append]
      simp only [List.map_cons, List.map_nil, List.foldl_cons, List.foldl_nil]
      by_cases here : byte.toNat = mode.base + n
      · have rank : byte.toNat - mode.base = n := by omega
        have width : startOf widths (n + 1) - startOf widths n = widths.getD n 0 := by
          rw [startOf_succ]
          omega
        rw [byteIff.mpr here, Function.update_self, ← byteIff.mpr here, if_pos (by omega), rank,
          width]
      · rw [Function.update_of_ne (fun same => here (byteIff.mp same)), ih (by omega)]
        refine if_congr ?_ rfl rfl
        omega

/-- The loop over ASCII, up to the `n`-th. -/
theorem asciiLeads_upTo (leads : UInt8 → Nat) (utf8 : List Nat) {n : Nat} (few : n ≤ 256) :
    (List.range n).foldl
        (fun state b => (Function.update state.1 (UInt8.ofNat b) (state.2.length <<< 9 ||| 1),
          state.2 ++ [packed (Char.ofNat b)]))
        (leads, utf8) =
      (fun byte => if byte.toNat < n then (utf8.length + byte.toNat) <<< 9 ||| 1 else leads byte,
        utf8 ++ (List.range n).map fun b => packed (Char.ofNat b)) := by
  induction n with
  | zero => simp
  | succ n ih =>
      rw [List.range_succ, List.foldl_append, ih (by omega)]
      simp only [List.foldl_cons, List.foldl_nil, List.map_append, List.map_cons, List.map_nil,
        List.append_assoc]
      congr 1
      funext byte
      have byteIff := @toNat_eq_iff byte n (by omega)
      by_cases here : byte.toNat = n
      · rw [byteIff.mpr here, Function.update_self, ← byteIff.mpr here, if_pos (by omega), here,
          List.length_append, List.length_map, List.length_range]
      · rw [Function.update_of_ne (fun same => here (byteIff.mp same))]
        refine if_congr ?_ rfl rfl
        omega

theorem lead_split {first width : Nat} (small : width < 512) :
    (first <<< 9 ||| width) >>> 9 = first ∧ (first <<< 9 ||| width) &&& 0x1FF = width := by
  have joined : first <<< 9 ||| width = first * 512 + width := by
    rw [← Nat.shiftLeft_add_eq_or_of_lt small, Nat.shiftLeft_eq]
  rw [joined]
  refine ⟨?_, (Nat.and_two_pow_sub_one_eq_mod _ 9).trans ?_⟩
  · rw [Nat.shiftRight_eq_div_pow]
    omega
  · omega

theorem utf8At_one {code : CharCode} {buf : List UInt8} {at_ first u : Nat} {byte : UInt8}
    (read : buf[at_]? = some byte) (leads : code.leads byte = first <<< 9 ||| 1)
    (packs : code.utf8[first]? = some u) : code.utf8At buf at_ = some (some (u, 1)) := by
  obtain ⟨firstExact, width⟩ := @lead_split first 1 (by decide)
  simp only [utf8At, read, leads, firstExact, width, packs]
  rfl

theorem utf8At_two {code : CharCode} {buf : List UInt8} {at_ first width u : Nat}
    {byte second : UInt8} (read : buf[at_]? = some byte)
    (leads : code.leads byte = first <<< 9 ||| width) (small : width < 512) (several : width ≠ 1)
    (next : buf[at_ + 1]? = some second) (inside : second.toNat < width)
    (packs : code.utf8[first + second.toNat]? = some u) :
    code.utf8At buf at_ = some (some (u, 2)) := by
  obtain ⟨firstExact, widthExact⟩ := @lead_split first width small
  simp only [utf8At, read, leads, firstExact, widthExact, packs, next, if_neg several,
    if_pos inside]
  rfl

/-- No codeword starts with a byte no lead is written as. -/
theorem utf8At_none {code : CharCode} {buf : List UInt8} {at_ : Nat} {byte : UInt8}
    (read : buf[at_]? = some byte) (leads : code.leads byte = 0) :
    code.utf8At buf at_ = some none := by
  simp only [utf8At, read, leads]
  cases buf[at_ + 1]? <;> simp

/-- A page's codeword is cut short, or its second byte is past the page. -/
theorem utf8At_past {code : CharCode} {buf : List UInt8} {at_ first width : Nat} {byte : UInt8}
    (read : buf[at_]? = some byte) (leads : code.leads byte = first <<< 9 ||| width)
    (small : width < 512) (several : width ≠ 1)
    (past : ∀ second, buf[at_ + 1]? = some second → width ≤ second.toNat) :
    code.utf8At buf at_ = some none := by
  obtain ⟨firstExact, widthExact⟩ := @lead_split first width small
  simp only [utf8At, read, leads, firstExact, widthExact, if_neg several]
  cases next : buf[at_ + 1]? with
  | none => rfl
  | some second =>
      have notInside := Nat.not_lt.mpr (past second next)
      simp only [if_neg notInside]

namespace Alphabet

variable (a : Alphabet)

theorem code_leads (byte : UInt8) :
    a.code.leads byte =
      if a.mode = .eight ∧ byte.toNat < 0x80 then (a.chars.length + byte.toNat) <<< 9 ||| 1
      else if a.mode.base ≤ byte.toNat ∧ byte.toNat < a.mode.base + a.widths.length then
        startOf a.widths (byte.toNat - a.mode.base) <<< 9 |||
          a.widths.getD (byte.toNat - a.mode.base) 0
      else 0 := by
  have few : a.mode.base + a.widths.length ≤ 256 := by
    have leads := a.leads
    rw [LEADS] at leads
    cases mode : a.mode <;> simp only [Mode.base] <;> omega
  have spans := spanLeads a.mode a.widths few byte
  simp only [code, new, spans_bounds]
  by_cases whole : a.mode = .eight
  · rw [if_pos whole, asciiLeads, asciiLeads_upTo _ _ (by decide), ← spans, List.length_map]
    refine if_congr ?_ rfl rfl
    simp only [whole, true_and]
  · have notBoth : ¬ (a.mode = .eight ∧ byte.toNat < 0x80) := fun both => whole both.1
    rw [if_neg whole, if_neg notBoth]
    exact spans

theorem code_utf8 :
    a.code.utf8 = a.chars.map packed ++
      if a.mode = .eight then (List.range 0x80).map fun b => packed (Char.ofNat b) else [] := by
  simp only [code, new]
  by_cases whole : a.mode = .eight
  · rw [if_pos whole, if_pos whole, asciiLeads, asciiLeads_upTo _ _ (by decide)]
  · rw [if_neg whole, if_neg whole, List.append_nil]

theorem utf8_listed {i : Nat} {c : Char} (listed : a.chars[i]? = some c) :
    a.code.utf8[i]? = some (packed c) := by
  have small : i < (a.chars.map packed).length := by
    rw [List.length_map]
    exact (List.getElem?_eq_some_iff.mp listed).1
  rw [code_utf8, List.getElem?_append_left small, List.getElem?_map, listed, Option.map_some]

theorem utf8_ascii (whole : a.mode = .eight) {b : Nat} (small : b < 0x80) :
    a.code.utf8[a.chars.length + b]? = some (packed (Char.ofNat b)) := by
  rw [code_utf8, if_pos whole, List.getElem?_append_right (by simp)]
  simp [small]

theorem leads_placed {l : Nat} (lead : l < a.widths.length) {byte : UInt8}
    (exact : byte.toNat = a.mode.base + l) :
    a.code.leads byte = startOf a.widths l <<< 9 ||| a.widths.getD l 0 := by
  have notAscii : ¬ (a.mode = .eight ∧ byte.toNat < 0x80) := by
    rintro ⟨whole, small⟩
    rw [exact, whole, Mode.base] at small
    omega
  have rank : byte.toNat - a.mode.base = l := by omega
  rw [code_leads, if_neg notAscii, if_pos (by omega), rank]

theorem leads_ascii (whole : a.mode = .eight) {byte : UInt8} (small : byte.toNat < 0x80) :
    a.code.leads byte = (a.chars.length + byte.toNat) <<< 9 ||| 1 := by
  rw [code_leads, if_pos ⟨whole, small⟩]

/-- A codeword is read as its character, whatever follows it. -/
theorem utf8At_coded {c : Char} {bytes : List UInt8} (coded : a.Coded c bytes)
    {buf rest : List UInt8} {at_ : Nat} (stands : buf.drop at_ = bytes ++ rest) :
    a.code.utf8At buf at_ = some (some (packed c, bytes.length)) := by
  have read (i : Nat) : buf[at_ + i]? = (bytes ++ rest)[i]? := by
    rw [← stands, List.getElem?_drop]
  have head := read 0
  have next := read 1
  rw [Nat.add_zero] at head
  cases coded with
  | placed l i lead inside listed =>
      obtain ⟨least, most, byte⟩ := a.lead_lt lead
      obtain ⟨positive, page⟩ := a.width_getD lead
      have pageLe := a.page_le
      have leads := a.leads_placed lead ((toNat_eq_iff byte).mp rfl)
      rw [codewordBytes_eq, List.cons_append, List.getElem?_cons_zero] at head
      rw [codewordBytes_eq, List.cons_append, List.getElem?_cons_succ] at next
      rw [codewordBytes_eq]
      by_cases one : a.widths.getD l 0 = 1
      · have zero : i = 0 := by omega
        rw [zero, Nat.add_zero] at listed
        rw [one] at leads
        rw [secondOf, if_pos one]
        exact utf8At_one head leads (a.utf8_listed listed)
      · have second : secondOf (a.widths.getD l 0) i = some i := if_neg one
        have iExact := (toNat_eq_iff (a.second_lt lead inside second)).mp rfl
        rw [second] at next ⊢
        refine utf8At_two head leads (by omega) one next (by omega) ?_
        rw [iExact]
        exact a.utf8_listed listed
  | ascii whole small =>
      have byteExact := (toNat_eq_iff (b := c.toNat) (by omega)).mp rfl
      have leads := @leads_ascii a whole (UInt8.ofNat c.toNat) (by omega)
      have packs := a.utf8_ascii whole small
      rw [Char.ofNat_toNat] at packs
      rw [List.cons_append, List.getElem?_cons_zero] at head
      rw [byteExact] at leads
      exact utf8At_one head leads packs

theorem drop_eq_cons {buf : List UInt8} {at_ : Nat} {byte : UInt8}
    (read : buf[at_]? = some byte) : buf.drop at_ = byte :: buf.drop (at_ + 1) := by
  obtain ⟨small, rfl⟩ := List.getElem?_eq_some_iff.mp read
  exact List.drop_eq_getElem_cons small

/-- Whatever is read is a codeword that stands there. -/
theorem utf8At_cases (buf : List UInt8) (at_ : Nat) :
    a.code.utf8At buf at_ = some none ∨
      ∃ c bytes rest, a.Coded c bytes ∧ buf.drop at_ = bytes ++ rest ∧
        a.code.utf8At buf at_ = some (some (packed c, bytes.length)) := by
  cases read : buf[at_]? with
  | none =>
      left
      rw [utf8At, read]
  | some byte =>
      have stands := drop_eq_cons read
      by_cases ascii : a.mode = .eight ∧ byte.toNat < 0x80
      · have coded : a.Coded (Char.ofNat byte.toNat) [byte] := by
          have point := ascii_toNat ascii.2
          have built := @Coded.ascii a (Char.ofNat byte.toNat) ascii.1 (by omega)
          rw [point, UInt8.ofNat_toNat] at built
          exact built
        exact .inr ⟨_, _, _, coded, stands, a.utf8At_coded coded stands⟩
      by_cases lead : a.mode.base ≤ byte.toNat ∧ byte.toNat < a.mode.base + a.widths.length
      · obtain ⟨l, rank⟩ : ∃ l, byte.toNat = a.mode.base + l :=
          ⟨byte.toNat - a.mode.base, by omega⟩
        have inside : l < a.widths.length := by omega
        obtain ⟨positive, page⟩ := a.width_getD inside
        have pageLe := a.page_le
        have total := startOf_le_sum a.widths (l + 1)
        rw [startOf_succ, a.covered] at total
        have byteExact : UInt8.ofNat (a.mode.base + l) = byte := by
          rw [← rank, UInt8.ofNat_toNat]
        by_cases one : a.widths.getD l 0 = 1
        · have listed := List.getElem?_eq_getElem (l := a.chars) (i := startOf a.widths l + 0)
            (by omega)
          have coded := Coded.placed l 0 inside (by omega) listed
          rw [secondOf, if_pos one, codewordBytes, byteExact] at coded
          exact .inr ⟨_, _, _, coded, stands, a.utf8At_coded coded stands⟩
        · by_cases next : ∃ second, buf[at_ + 1]? = some second ∧
              second.toNat < a.widths.getD l 0
          · obtain ⟨second, secondRead, small⟩ := next
            have listed := List.getElem?_eq_getElem (l := a.chars)
              (i := startOf a.widths l + second.toNat) (by omega)
            have coded := Coded.placed l second.toNat inside small listed
            rw [secondOf, if_neg one, codewordBytes, byteExact, UInt8.ofNat_toNat] at coded
            rw [drop_eq_cons secondRead] at stands
            exact .inr ⟨_, _, _, coded, stands, a.utf8At_coded coded stands⟩
          · left
            refine utf8At_past read (a.leads_placed inside rank) (by omega) one fun second at_ => ?_
            exact Nat.not_lt.mp fun small => next ⟨second, at_, small⟩
      · left
        refine utf8At_none read ?_
        rw [code_leads, if_neg ascii, if_neg lead]

end Alphabet

end Lexindex.CharCode
