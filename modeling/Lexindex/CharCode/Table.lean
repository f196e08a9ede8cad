import Mathlib
import Lexindex.CharCode.Code
import Lexindex.CharCode.Order

/-!
# A code's table in a blob

`[mode u8][characters varint][leads u8][lead widths, less one, a byte each][the
characters' code points as varints, the first whole and each after it past the one
before]`, written from a code and read with every field checked.
-/

set_option autoImplicit false

namespace Lexindex.CharCode

def writeTo (code : CharCode) : Option (List UInt8) :=
  ((code.utf8.take code.count).mapM unpacked).map fun chars =>
    code.mode.tag :: (putVarint code.count ++
      (UInt8.ofNat (code.firsts.length - 1) ::
        ((code.firsts.zip code.firsts.tail).map
            (fun pair => UInt8.ofNat (pair.2 - pair.1 - 1)) ++
          (deltas 0 chars).flatMap putVarint)))

def readMode (bytes : List UInt8) : Option Mode :=
  match bytes[0]? with
  | none => none
  | some byte => if byte = 7 then some .seven else if byte = 8 then some .eight else none

/-- The loop over the lead widths, with their sum so far. -/
def readFirsts (mode : Mode) : List UInt8 → List Nat → Nat → Option (List Nat × Nat)
  | [], firsts, sum => some (firsts, sum)
  | byte :: rest, firsts, sum =>
      let w := byte.toNat + 1
      if mode.page < w then none
      else if sum + w < 2 ^ 16 then readFirsts mode rest (firsts ++ [sum + w]) (sum + w)
      else none

/-- `char::from_u32` of a `usize`. -/
def charFrom (cp : Nat) : Option Char :=
  if cp.isValidChar then some (Char.ofNat cp) else none

/-- The loop over the characters: how many are left, whether none is read yet, where the
next starts and the code point before it. -/
def readChars (mode : Mode) (bytes : List UInt8) :
    Nat → Bool → Nat → Nat → List Char → Option (List Char × Nat)
  | 0, _, at_, _, chars => some (chars, at_)
  | n + 1, first, at_, prev, chars =>
      (varintAt bytes at_).bind fun d =>
        if first = false ∧ d.1 = 0 then none
        else
          (checkedAdd prev d.1).bind fun cp =>
            (charFrom cp).bind fun c =>
              if mode = .eight ∧ c.toNat < 0x80 then none
              else readChars mode bytes n false d.2 cp (chars ++ [c])

/-- The code a blob stores, every field checked. -/
def read (bytes : List UInt8) : Option CharCode :=
  (readMode bytes).bind fun mode =>
    (varintAt bytes 1).bind fun count =>
      if count.1 = 0 ∨ LEADS * mode.page < count.1 then none
      else
        (bytes[count.2]?).bind fun leads =>
          if leads.toNat = 0 ∨ LEADS < leads.toNat then none
          else
            let at_ := count.2 + 1
            if bytes.length < at_ + leads.toNat then none
            else
              (readFirsts mode ((bytes.drop at_).take leads.toNat) [0] 0).bind fun firsts =>
                if firsts.2 ≠ count.1 then none
                else
                  (readChars mode bytes count.1 true (at_ + leads.toNat) 0 []).bind fun chars =>
                    if chars.2 = bytes.length then some (new mode chars.1 firsts.1) else none

end Lexindex.CharCode

/-!
## Reading a table

What is read is the code over an alphabet: widths that cover the characters exactly
and characters that ascend.  What a code writes is read back as the same code.
-/

namespace Lexindex.CharCode

/-- Lead widths as a table holds them. -/
def widthsOf (bytes : List UInt8) : List Nat :=
  bytes.map fun byte => byte.toNat + 1

theorem readFirsts_some {mode : Mode} {bytes : List UInt8} {done firsts : List Nat} {sum : Nat}
    (read : readFirsts mode bytes (bounds done) done.sum = some (firsts, sum)) :
    firsts = bounds (done ++ widthsOf bytes) ∧ sum = (done ++ widthsOf bytes).sum ∧
      ∀ w ∈ widthsOf bytes, 1 ≤ w ∧ w ≤ mode.page := by
  induction bytes generalizing done with
  | nil =>
      rw [readFirsts, Option.some.injEq, Prod.mk.injEq] at read
      rw [widthsOf, List.map_nil, List.append_nil]
      exact ⟨read.1.symm, read.2.symm, by simp⟩
  | cons byte rest ih =>
      simp only [readFirsts] at read
      split at read
      · simp at read
      · rename_i fits
        split at read
        · have summed : done.sum + (byte.toNat + 1) = (done ++ [byte.toNat + 1]).sum := by
            rw [List.sum_append, List.sum_singleton]
          rw [← bounds_concat, summed] at read
          obtain ⟨firstsExact, sumExact, width⟩ := ih read
          have joined : done ++ [byte.toNat + 1] ++ widthsOf rest =
              done ++ widthsOf (byte :: rest) := by
            rw [List.append_assoc]
            rfl
          rw [joined] at firstsExact sumExact
          refine ⟨firstsExact, sumExact, fun w member => ?_⟩
          rcases List.mem_cons.mp member with here | later
          · have exact : w = byte.toNat + 1 := here
            omega
          · exact width w later
        · simp at read

theorem charFrom_some {cp : Nat} {c : Char} (some : charFrom cp = .some c) : c.toNat = cp := by
  rw [charFrom] at some
  split at some
  · rename_i valid
    rw [← Option.some.inj some, Char.toNat_ofNat, if_pos valid]
  · simp at some

theorem charFrom_toNat (c : Char) : charFrom c.toNat = some c := by
  have valid : c.toNat.isValidChar := c.valid
  rw [charFrom, if_pos valid, Char.ofNat_toNat]

/-- The characters read so far: they ascend, and the last is at `prev`. -/
structure Listed (mode : Mode) (chars : List Char) (first : Bool) (prev : Nat) : Prop where
  ascending : chars.Pairwise (· < ·)
  high : mode = .eight → ∀ c ∈ chars, 0x80 ≤ c.toNat
  begun : first = true → chars = []
  last : ∀ c ∈ chars, c.toNat ≤ prev

theorem Listed.concat {mode : Mode} {chars : List Char} {first : Bool} {prev d : Nat} {c : Char}
    (listed : Listed mode chars first prev) (point : c.toNat = prev + d)
    (apart : ¬ (first = false ∧ d = 0)) (high : ¬ (mode = .eight ∧ c.toNat < 0x80)) :
    Listed mode (chars ++ [c]) false (prev + d) := by
  have below : ∀ b ∈ chars, b.toNat < c.toNat := by
    intro b member
    have most := listed.last b member
    cases first with
    | true =>
        rw [listed.begun rfl] at member
        simp at member
    | false =>
        have some : d ≠ 0 := fun zero => apart ⟨rfl, zero⟩
        omega
  refine ⟨?_, fun whole b member => ?_, by simp, fun b member => ?_⟩
  · refine List.pairwise_append.mpr ⟨listed.ascending, List.pairwise_singleton _ _, ?_⟩
    intro b member e last
    rw [List.mem_singleton.mp last]
    exact below b member
  · rcases List.mem_append.mp member with earlier | last
    · exact listed.high whole b earlier
    · rw [List.mem_singleton.mp last]
      exact Nat.not_lt.mp fun small => high ⟨whole, small⟩
  · rcases List.mem_append.mp member with earlier | last
    · have less := below b earlier
      omega
    · rw [List.mem_singleton.mp last, point]

theorem readChars_some {mode : Mode} {bytes : List UInt8} {n at_ prev ends : Nat} {first : Bool}
    {chars read : List Char} (listed : Listed mode chars first prev)
    (some : readChars mode bytes n first at_ prev chars = .some (read, ends)) :
    read.length = chars.length + n ∧ read.Pairwise (· < ·) ∧
      (mode = .eight → ∀ c ∈ read, 0x80 ≤ c.toNat) := by
  induction n generalizing first at_ prev chars with
  | zero =>
      rw [readChars, Option.some.injEq, Prod.mk.injEq] at some
      rw [← some.1]
      exact ⟨rfl, listed.ascending, listed.high⟩
  | succ n ih =>
      obtain ⟨d, -, after⟩ := Option.bind_eq_some_iff.mp some
      split at after
      · simp at after
      · rename_i apart
        obtain ⟨cp, added, later⟩ := Option.bind_eq_some_iff.mp after
        obtain ⟨c, scalar, rest⟩ := Option.bind_eq_some_iff.mp later
        obtain ⟨-, sum⟩ := checkedAdd_eq_some.mp added
        have point := charFrom_some scalar
        split at rest
        · simp at rest
        · rename_i high
          rw [← sum] at rest point
          obtain ⟨length, ascending, all⟩ := ih (listed.concat point apart high) rest
          rw [List.length_append, List.length_singleton] at length
          exact ⟨by omega, ascending, all⟩

/-- A table that is read is the table of an alphabet's code. -/
theorem read_alphabet {bytes : List UInt8} {code : CharCode} (some : read bytes = .some code) :
    ∃ a : Alphabet, a.code = code := by
  obtain ⟨mode, -, counted⟩ := Option.bind_eq_some_iff.mp some
  obtain ⟨count, -, led⟩ := Option.bind_eq_some_iff.mp counted
  split at led
  · simp at led
  · rename_i countFits
    obtain ⟨leads, -, widths⟩ := Option.bind_eq_some_iff.mp led
    split at widths
    · simp at widths
    · rename_i leadsFit
      simp only at widths
      split at widths
      · simp at widths
      · obtain ⟨firsts, readWidths, summed⟩ := Option.bind_eq_some_iff.mp widths
        split at summed
        · simp at summed
        · rename_i covered
          obtain ⟨chars, readAll, ended⟩ := Option.bind_eq_some_iff.mp summed
          split at ended
          · obtain ⟨firstsExact, sumExact, width⟩ := @readFirsts_some mode _ [] _ _ readWidths
            have begun : Listed mode [] true 0 :=
              ⟨List.Pairwise.nil, by simp, fun _ => rfl, by simp⟩
            obtain ⟨length, ascending, high⟩ := readChars_some begun readAll
            rw [List.nil_append] at firstsExact sumExact
            rw [List.length_nil, Nat.zero_add] at length
            rw [not_or] at countFits leadsFit
            refine ⟨{
              mode
              chars := chars.1
              widths := _
              ascending
              nonempty := fun empty => ?_
              covered := ?_
              leads := ?_
              width
              high }, ?_⟩
            · rw [empty, List.length_nil] at length
              exact countFits.1 length.symm
            · rw [← sumExact, length]
              exact not_not.mp covered
            · rw [widthsOf, List.length_map, List.length_take]
              omega
            · rw [Alphabet.code, ← firstsExact]
              exact Option.some.inj ended
          · simp at ended

end Lexindex.CharCode

/-!
## Reading back what was written

A code over an alphabet writes its characters and its leads' widths, and they are
read back one field after another as the same alphabet.
-/

namespace Lexindex.CharCode

theorem windows_bounds (widths : List Nat) :
    (bounds widths).zip (bounds widths).tail =
      (List.range widths.length).map fun l => (startOf widths l, startOf widths (l + 1)) := by
  refine List.ext_getElem (by simp [bounds_length]) fun l _ _ => ?_
  simp [bounds_eq]

theorem windows_widths (widths : List Nat) :
    ((bounds widths).zip (bounds widths).tail).map
        (fun pair => UInt8.ofNat (pair.2 - pair.1 - 1)) =
      widths.map fun w => UInt8.ofNat (w - 1) := by
  rw [windows_bounds, List.map_map]
  refine List.ext_getElem (by simp) fun l inside _ => ?_
  have small : l < widths.length := by simpa using inside
  have width : startOf widths (l + 1) - startOf widths l = widths[l] := by
    rw [startOf_succ, List.getD_eq_getElem _ _ small]
    omega
  simp [width]

theorem mapM_unpacked (chars : List Char) : (chars.map packed).mapM unpacked = some chars := by
  induction chars with
  | nil => rfl
  | cons c chars ih =>
      rw [List.map_cons, List.mapM_cons, unpacked_packed, ih]
      rfl

theorem readFirsts_widths {mode : Mode} {widths : List Nat} (done : List Nat)
    (width : ∀ w ∈ widths, 1 ≤ w ∧ w ≤ mode.page) (small : (done ++ widths).sum < 2 ^ 16) :
    readFirsts mode (widths.map fun w => UInt8.ofNat (w - 1)) (bounds done) done.sum =
      some (bounds (done ++ widths), (done ++ widths).sum) := by
  induction widths generalizing done with
  | nil => rw [List.map_nil, readFirsts, List.append_nil]
  | cons w widths ih =>
      obtain ⟨least, most⟩ := width w List.mem_cons_self
      have page : mode.page ≤ 256 := by cases mode <;> decide
      have byte : (UInt8.ofNat (w - 1)).toNat + 1 = w := by
        rw [UInt8.toNat_ofNat']
        omega
      have joined : done ++ [w] ++ widths = done ++ w :: widths := by
        rw [List.append_assoc, List.singleton_append]
      have summed : done.sum + w = (done ++ [w]).sum := by
        rw [List.sum_append, List.sum_singleton]
      have fits : done.sum + w < 2 ^ 16 := by
        rw [List.sum_append, List.sum_cons] at small
        omega
      simp only [List.map_cons, readFirsts, byte]
      rw [if_neg (Nat.not_lt.mpr most), if_pos fits, ← bounds_concat, summed,
        ih (done ++ [w]) (fun v member => width v (List.mem_cons_of_mem w member))
          (by rw [joined]; exact small), joined]

theorem readChars_deltas {mode : Mode} {bytes tail : List UInt8} {chars : List Char}
    (ascending : chars.Pairwise (· < ·))
    (high : mode = .eight → ∀ c ∈ chars, 0x80 ≤ c.toNat) {front : List UInt8} {first : Bool}
    {prev : Nat} (after : ∀ c ∈ chars, prev ≤ c.toNat ∧ (first = false → prev < c.toNat))
    (acc : List Char)
    (stands : bytes = front ++ ((deltas prev chars).flatMap putVarint ++ tail)) :
    readChars mode bytes chars.length first front.length prev acc =
      some (acc ++ chars, front.length + ((deltas prev chars).flatMap putVarint).length) := by
  induction chars generalizing front first prev acc with
  | nil => simp [readChars, deltas]
  | cons c chars ih =>
      obtain ⟨above, ascendingRest⟩ := List.pairwise_cons.mp ascending
      obtain ⟨least, strictly⟩ := after c List.mem_cons_self
      have scalar := char_lt c
      have sum : prev + (c.toNat - prev) = c.toNat := by omega
      have apart : ¬ (first = false ∧ c.toNat - prev = 0) := by
        rintro ⟨begun, zero⟩
        have less := strictly begun
        omega
      have notAscii : ¬ (mode = .eight ∧ c.toNat < 0x80) := by
        rintro ⟨whole, small⟩
        have most := high whole c List.mem_cons_self
        omega
      have read : varintAt bytes front.length =
          some (c.toNat - prev, front.length + (putVarint (c.toNat - prev)).length) := by
        rw [stands, deltas, List.flatMap_cons, List.append_assoc]
        refine varintAt_putVarint ?_ front _
        change c.toNat < 0x110000 at scalar
        omega
      have added : checkedAdd prev (c.toNat - prev) = some c.toNat := by
        refine checkedAdd_eq_some.mpr ⟨?_, sum⟩
        change c.toNat < 0x110000 at scalar
        omega
      have length : front.length + (putVarint (c.toNat - prev)).length =
          (front ++ putVarint (c.toNat - prev)).length := by
        rw [List.length_append]
      have later : ∀ d ∈ chars, c.toNat ≤ d.toNat ∧ (false = false → c.toNat < d.toNat) := by
        intro d member
        have less : c.toNat < d.toNat := above d member
        exact ⟨less.le, fun _ => less⟩
      have rest := @ih ascendingRest (fun whole d member => high whole d
        (List.mem_cons_of_mem c member)) (front ++ putVarint (c.toNat - prev)) false c.toNat later
        (acc ++ [c]) (by
          rw [stands, deltas, List.flatMap_cons, List.append_assoc, List.append_assoc])
      rw [List.length_cons, readChars, read, Option.bind_some]
      simp only
      rw [if_neg apart, added, Option.bind_some, charFrom_toNat, Option.bind_some,
        if_neg notAscii, length, rest, deltas, List.flatMap_cons]
      simp only [List.length_append, List.append_assoc, List.singleton_append, Nat.add_assoc]

namespace Alphabet

variable (a : Alphabet)

theorem chars_length_le : a.chars.length ≤ LEADS * a.mode.page := by
  have most := List.sum_le_card_nsmul a.widths a.mode.page fun w member => (a.width w member).2
  rw [a.covered, smul_eq_mul] at most
  exact most.trans (Nat.mul_le_mul_right _ a.leads)

theorem chars_length_lt : a.chars.length < 2 ^ 16 := by
  have most := a.chars_length_le
  rw [LEADS] at most
  cases mode : a.mode <;> rw [mode, Mode.page] at most <;> omega

theorem widths_length_pos : 0 < a.widths.length := by
  refine Nat.pos_of_ne_zero fun zero => a.nonempty ?_
  have none := List.length_eq_zero_iff.mp zero
  have covered := a.covered
  rw [none, List.sum_nil] at covered
  exact List.length_eq_zero_iff.mp covered.symm

theorem writeTo_code :
    a.code.writeTo =
      some (a.mode.tag :: putVarint a.chars.length ++
        (UInt8.ofNat a.widths.length ::
          (a.widths.map (fun w => UInt8.ofNat (w - 1)) ++
            (deltas 0 a.chars).flatMap putVarint))) := by
  have firsts : a.code.firsts = bounds a.widths := rfl
  have mode : a.code.mode = a.mode := rfl
  rw [writeTo, utf8_take, mapM_unpacked, Option.map_some, count_eq, firsts, windows_widths,
    bounds_length, mode]
  rfl

theorem readMode_tag (mode : Mode) (rest : List UInt8) :
    readMode (mode.tag :: rest) = some mode := by
  cases mode <;> rfl

/-- A table's fields read one after another. -/
theorem read_fields {head sizes points : List UInt8} {lead : UInt8}
    (headExact : head = a.mode.tag :: putVarint a.chars.length)
    (leadExact : lead.toNat = a.widths.length)
    (sizesExact : sizes = a.widths.map fun w => UInt8.ofNat (w - 1))
    (pointsExact : points = (deltas 0 a.chars).flatMap putVarint) :
    read (head ++ lead :: (sizes ++ points)) = some a.code := by
  have many := a.chars_length_le
  have counts := a.chars_length_lt
  have positive := a.widths_length_pos
  have few := a.leads
  have mode : readMode (head ++ lead :: (sizes ++ points)) = some a.mode := by
    rw [headExact]
    exact readMode_tag a.mode _
  have counted : varintAt (head ++ lead :: (sizes ++ points)) 1 =
      some (a.chars.length, head.length) := by
    have read := @varintAt_putVarint a.chars.length (by omega) [a.mode.tag]
      (lead :: (sizes ++ points))
    rw [headExact]
    refine read.trans ?_
    rw [List.length_singleton, List.length_cons, Nat.add_comm]
  have nonzero : ¬ (a.chars.length = 0 ∨ LEADS * a.mode.page < a.chars.length) := by
    rintro (zero | more)
    · exact a.nonempty (List.length_eq_zero_iff.mp zero)
    · omega
  have leadRead : (head ++ lead :: (sizes ++ points))[head.length]? = some lead := by
    rw [List.getElem?_append_right (le_refl _), Nat.sub_self, List.getElem?_cons_zero]
  have leadsFit : ¬ (lead.toNat = 0 ∨ LEADS < lead.toNat) := by omega
  have sized : sizes.length = lead.toNat := by rw [leadExact, sizesExact, List.length_map]
  have past : (head ++ lead :: (sizes ++ points)).drop (head.length + 1) = sizes ++ points := by
    rw [← List.drop_drop, List.drop_left, List.drop_one, List.tail_cons]
  have whole : ¬ (head ++ lead :: (sizes ++ points)).length < head.length + 1 + lead.toNat := by
    rw [List.length_append, List.length_cons, List.length_append]
    omega
  have widths : readFirsts a.mode sizes [0] 0 = some (bounds a.widths, a.chars.length) := by
    have read := readFirsts_widths [] a.width (by rw [List.nil_append, a.covered]; exact counts)
    rw [List.nil_append, a.covered, ← sizesExact] at read
    exact read
  have front : (head ++ lead :: sizes).length = head.length + 1 + lead.toNat := by
    rw [List.length_append, List.length_cons, sized]
    omega
  have chars : readChars a.mode (head ++ lead :: (sizes ++ points)) a.chars.length true
      (head.length + 1 + lead.toNat) 0 [] =
        some (a.chars, (head ++ lead :: (sizes ++ points)).length) := by
    have read := @readChars_deltas a.mode (head ++ lead :: (sizes ++ points)) [] a.chars
      a.ascending a.high (head ++ lead :: sizes) true 0 (fun c _ => ⟨Nat.zero_le _, by simp⟩) []
      (by rw [← pointsExact, List.append_nil, List.append_assoc, List.cons_append])
    rw [front, List.nil_append, ← pointsExact] at read
    refine read.trans ?_
    congr 2
    rw [List.length_append, List.length_cons, List.length_append, sized]
    omega
  rw [read, mode, Option.bind_some, counted, Option.bind_some]
  simp only
  rw [if_neg nonzero, leadRead, Option.bind_some, if_neg leadsFit, if_neg whole, past, ← sized,
    List.take_left, widths, Option.bind_some, sized]
  simp only
  rw [if_neg (by simp), chars, Option.bind_some, if_pos rfl]
  rfl

/-- What a code writes is read as the code. -/
theorem read_writeTo : ∃ written, a.code.writeTo = some written ∧ read written = some a.code := by
  have few := a.leads
  rw [LEADS] at few
  have leadExact : (UInt8.ofNat a.widths.length).toNat = a.widths.length := by
    rw [UInt8.toNat_ofNat']
    omega
  exact ⟨_, a.writeTo_code, a.read_fields rfl leadExact rfl rfl⟩

end Alphabet

end Lexindex.CharCode
