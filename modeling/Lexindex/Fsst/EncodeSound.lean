import Mathlib
import Lexindex.Fsst.TrainSound

/-!
# Symbol coding is lossless

Whatever the encoder finds at a position is a symbol of the bytes there, however its table of slots
was filled, and the decoder, which stores whole words, keeps no more of them than the symbol has.
-/

set_option autoImplicit false

namespace Lexindex.Fsst

open Faulting

/-! ## The encoder's tables -/

/-- The entry of a symbol. -/
def entryOf (code len : Nat) : Nat :=
  code + 256 * len

theorem entry_eq {code len : Nat} (small : code < 255) :
    code % 2 ^ 16 ||| len <<< 8 = entryOf code len := by
  have fits : code < 2 ^ 8 := by omega
  rw [Nat.mod_eq_of_lt (by omega), Nat.or_comm, ← Nat.shiftLeft_add_eq_or_of_lt fits,
    Nat.shiftLeft_eq, entryOf]
  omega

/-- Each entry is a symbol of the table that its place spells, or says that there is none. -/
structure Encoder.Sound (t : Table) (e : Encoder) : Prop where
  short : ∀ j entry, e.short[j]? = some entry → entry = esc ∨
    ∃ code word len, t.Has code word len ∧ entry = entryOf code len ∧ len ≤ 2 ∧
      j % 256 ^ len = word
  single : ∀ b entry, e.single[b]? = some entry → entry = esc ∨
    ∃ code, t.Has code b 1 ∧ entry = entryOf code 1
  slot : ∀ ways ∈ e.slots, ∀ s ∈ ways, s.len ≠ 0 →
    t.Has s.code s.word s.len ∧ s.mask = 256 ^ s.len - 1
  shortSize : e.short.length = 2 ^ 16
  singleSize : e.single.length = 256

theorem mem_insertSlot {s : Slot} (ways : List Slot) : ∀ {new : Slot},
    s ∈ insertSlot ways new → s ∈ ways ∨ s = new := by
  induction ways with
  | nil =>
      intro new member
      cases member
  | cons slot rest ih =>
      intro new member
      rw [insertSlot] at member
      split at member
      · rcases List.mem_cons.mp member with same | later
        · exact .inr same
        · rcases ih later with inside | moved
          · exact .inl (List.mem_cons_of_mem _ inside)
          · exact .inl (moved ▸ List.mem_cons_self ..)
      · rcases List.mem_cons.mp member with same | later
        · exact .inl (same ▸ List.mem_cons_self ..)
        · rcases ih later with inside | new
          · exact .inl (List.mem_cons_of_mem _ inside)
          · exact .inr new

/-- What is set keeps what every entry meets. -/
theorem set_entries {entries : List Nat} {P : Nat → Nat → Prop} {i entry : Nat}
    (held : ∀ j v, entries[j]? = some v → P j v) (new : P i entry) :
    ∀ j v, (entries.set i entry)[j]? = some v → P j v := by
  intro j v at_
  rw [List.getElem?_set] at at_
  split at at_
  · next same =>
    split at at_
    · cases at_
      exact same ▸ new
    · cases at_
  · exact held j v at_

section Entered

variable {t : Table} (valid : t.Valid)
include valid

/-- Every two-byte prefix that begins with the byte. -/
theorem short_entries {word code : Nat} (has : t.Has code word 1) (seconds : List Nat) :
    ∀ {short : List Nat},
      (∀ j entry, short[j]? = some entry → entry = esc ∨
        ∃ code word len, t.Has code word len ∧ entry = entryOf code len ∧ len ≤ 2 ∧
          j % 256 ^ len = word) →
      (∀ j entry, (seconds.foldl (fun short second =>
          if short.getD ((word &&& 0xFF) ||| second <<< 8) 0 = esc then
            short.set ((word &&& 0xFF) ||| second <<< 8) (code % 2 ^ 16 ||| 1 <<< 8)
          else short) short)[j]? = some entry → entry = esc ∨
        ∃ code word len, t.Has code word len ∧ entry = entryOf code len ∧ len ≤ 2 ∧
          j % 256 ^ len = word) := by
  induction seconds with
  | nil => exact fun held => held
  | cons second seconds ih =>
      intro short held
      rw [List.foldl_cons]
      apply ih
      split
      · apply set_entries held
        refine .inr ⟨code, word, 1, has, entry_eq (valid.code_lt has), by omega, ?_⟩
        have small := (valid.symbol has).2.2
        have byte : word &&& 0xFF = word := by
          rw [Nat.and_two_pow_sub_one_eq_mod word 8]
          omega
        rw [byte, Nat.or_comm, ← Nat.shiftLeft_add_eq_or_of_lt (by omega), Nat.shiftLeft_eq]
        omega
      · exact held

omit valid in
theorem short_size {word code : Nat} (seconds : List Nat) : ∀ {short : List Nat},
    (seconds.foldl (fun short second =>
      if short.getD ((word &&& 0xFF) ||| second <<< 8) 0 = esc then
        short.set ((word &&& 0xFF) ||| second <<< 8) (code % 2 ^ 16 ||| 1 <<< 8)
      else short) short).length = short.length := by
  induction seconds with
  | nil => exact fun {_} => rfl
  | cons second seconds ih =>
      intro short
      rw [List.foldl_cons, ih]
      split
      · rw [List.length_set]
      · rfl

/-- A symbol of the table, entered. -/
theorem Encoder.Sound.enter {e : Encoder} (sound : e.Sound t) {code word len : Nat}
    (has : t.Has code word len) : (e.enter word len code).Sound t := by
  obtain ⟨least, most, small⟩ := valid.symbol has
  have codeSmall := valid.code_lt has
  rw [Encoder.enter.eq_def]
  simp only
  split
  · have byte : word &&& 0xFF = word := by
      rw [Nat.and_two_pow_sub_one_eq_mod word 8]
      omega
    generalize List.range 256 = seconds
    constructor
    · exact short_entries valid has seconds sound.short
    · apply set_entries sound.single
      exact .inr ⟨code, byte.symm ▸ has, entry_eq codeSmall⟩
    · exact sound.slot
    · simp only
      rw [short_size]
      exact sound.shortSize
    · rw [List.length_set]
      exact sound.singleSize
  · refine ⟨?_, sound.single, sound.slot, ?_, sound.singleSize⟩
    · apply set_entries sound.short
      refine .inr ⟨code, word, 2, has, entry_eq codeSmall, Nat.le_refl _, ?_⟩
      rw [Nat.and_two_pow_sub_one_eq_mod word 16]
      omega
    · rw [List.length_set]
      exact sound.shortSize
  · refine ⟨sound.short, sound.single, ?_, sound.shortSize, sound.singleSize⟩
    intro ways member s inside some_
    obtain ⟨i, at_⟩ := List.mem_iff_getElem?.mp member
    simp only [List.getElem?_modify] at at_
    obtain ⟨before, here, changed⟩ := Option.map_eq_some_iff.mp at_
    have old := sound.slot before (List.mem_of_getElem? here)
    split at changed
    · rw [← changed] at inside
      rcases mem_insertSlot before inside with kept | rfl
      · exact old s kept some_
      · simp only
        rw [Nat.mod_eq_of_lt (by omega), lowMask, Nat.min_eq_left most]
        exact ⟨has, rfl⟩
    · exact old s (changed ▸ inside) some_

/-- The encoder of a table. -/
theorem Table.encoder_sound : t.encoder.Sound t := by
  have all : ∀ (symbols : List ((Nat × Nat) × Nat)),
      (∀ symbol ∈ symbols, t.Has symbol.2 symbol.1.1 symbol.1.2) → ∀ {e : Encoder}, e.Sound t →
      (symbols.foldl (fun e symbol => e.enter symbol.1.1 symbol.1.2 symbol.2) e).Sound t := by
    intro symbols
    induction symbols with
    | nil => exact fun _ _ sound => sound
    | cons symbol symbols ih =>
        intro each e sound
        obtain ⟨here, later⟩ := List.forall_mem_cons.mp each
        exact ih later (sound.enter valid here)
  rw [encoder]
  apply all
  · intro symbol member
    obtain ⟨⟨word, len⟩, code⟩ := symbol
    have at_ := List.mem_zipIdx_iff_getElem?.mp member
    rw [List.getElem?_zip_eq_some] at at_
    exact at_
  · constructor
    · intro j entry at_
      exact .inl (List.eq_of_mem_replicate (List.mem_of_getElem? at_))
    · intro b entry at_
      exact .inl (List.eq_of_mem_replicate (List.mem_of_getElem? at_))
    · intro ways member s inside some_
      rw [List.eq_of_mem_replicate member] at inside
      rw [List.eq_of_mem_replicate inside] at some_
      exact absurd rfl some_
    · exact List.length_replicate
    · exact List.length_replicate

end Entered

/-- What the encoder emits at a position: the escape for one byte, or a symbol of the bytes
there. -/
theorem Encoder.Sound.step {t : Table} (valid : t.Valid) {e : Encoder} (sound : e.Sound t)
    {rest : List UInt8} (nonempty : rest ≠ []) {code len : Nat}
    (stepped : e.step (leNat (rest.take 8)) rest.length = (code, len)) :
    (code = ESCAPE ∧ len = 1) ∨
      (t.Has code (leNat (rest.take len)) len ∧ len ≤ rest.length) := by
  have positive : 0 < rest.length := List.length_pos_of_ne_nil nonempty
  have cut : ∀ n ≤ 8, leNat (rest.take 8) % 256 ^ n = leNat (rest.take n) := by
    intro n le
    rw [leNat_mod, List.take_take, Nat.min_eq_left le]
  rw [Encoder.step] at stepped
  split at stepped
  · next s found =>
    cases stepped
    have holds := List.find?_some found
    simp only [ne_eq, Bool.and_eq_true, decide_eq_true_eq, beq_iff_eq, decide_not,
      Bool.not_eq_true', decide_eq_false_iff_not] at holds
    obtain ⟨⟨some_, fits⟩, same⟩ := holds
    obtain ⟨ways, member, inside⟩ : ∃ ways ∈ e.slots, s ∈ ways := by
      have inside := List.mem_of_find?_eq_some found
      rw [List.getD_eq_getElem?_getD] at inside
      cases at_ : e.slots[slotOf (leNat (rest.take 8))]? with
      | none =>
          rw [at_] at inside
          cases inside
      | some ways =>
          rw [at_] at inside
          exact ⟨ways, List.mem_of_getElem? at_, inside⟩
    obtain ⟨has, mask⟩ := sound.slot ways member s inside some_
    have most := (valid.symbol has).2.1
    refine .inr ⟨?_, fits⟩
    rw [mask, show (256 : Nat) = 2 ^ 8 from rfl, ← pow_mul, Nat.and_two_pow_sub_one_eq_mod, pow_mul,
      show (2 : Nat) ^ 8 = 256 from rfl, cut s.len most] at same
    rw [same]
    exact has
  · cases stepped
    have escape : esc % 256 = ESCAPE ∧ esc >>> 8 = 1 := ⟨rfl, rfl⟩
    have parts : ∀ {code len : Nat}, code < 255 →
        entryOf code len % 256 = code ∧ entryOf code len >>> 8 = len := by
      intro code len small
      rw [entryOf, Nat.shiftRight_eq_div_pow]
      omega
    split
    · next two =>
      rw [Nat.and_two_pow_sub_one_eq_mod _ 16]
      have at_ := List.getElem?_eq_getElem (l := e.short)
        (show leNat (rest.take 8) % 2 ^ 16 < e.short.length by rw [sound.shortSize]; omega)
      rw [List.getD_eq_getElem?_getD, at_, Option.getD_some]
      rcases sound.short _ _ at_ with none_ | ⟨code, word, len, has, entry, narrow, spelled⟩
      · rw [none_]
        exact .inl escape
      · obtain ⟨codePart, lenPart⟩ := @parts code len (valid.code_lt has)
        rw [entry, codePart, lenPart]
        refine .inr ⟨?_, by omega⟩
        have divides : 256 ^ len ∣ 2 ^ 16 := by
          rw [show (2 : Nat) ^ 16 = 256 ^ 2 from rfl]
          exact pow_dvd_pow 256 narrow
        rw [Nat.mod_mod_of_dvd _ divides, cut len (by omega)] at spelled
        rw [spelled]
        exact has
    · next one =>
      rw [Nat.and_two_pow_sub_one_eq_mod _ 8]
      have at_ := List.getElem?_eq_getElem (l := e.single)
        (show leNat (rest.take 8) % 2 ^ 8 < e.single.length by rw [sound.singleSize]; omega)
      rw [List.getD_eq_getElem?_getD, at_, Option.getD_some]
      rcases sound.single _ _ at_ with none_ | ⟨code, has, entry⟩
      · rw [none_]
        exact .inl escape
      · obtain ⟨codePart, lenPart⟩ := @parts code 1 (valid.code_lt has)
        rw [entry, codePart, lenPart]
        refine .inr ⟨?_, positive⟩
        rw [← cut 1 (by omega), pow_one]
        exact has

/-! ## The decoder undoes the encoder -/

theorem put_eq {room : Room} {start : Nat} {bytes : List UInt8}
    (fits : start + bytes.length ≤ room.length) :
    put room start bytes =
      .ok (room.take start ++ bytes.map some ++ room.drop (start + bytes.length)) :=
  if_pos fits

/-- Of a word that is stored past what is decoded, the symbol's bytes are decoded next. -/
theorem take_put {room : Room} {s bytes : List UInt8} {i len : Nat} (fits : i + bytes.length ≤ room.length)
    (decoded : room.take i = (s.take i).map some) (wide : len ≤ bytes.length)
    (spells : bytes.take len = (s.drop i).take len) :
    (room.take i ++ bytes.map some ++ room.drop (i + bytes.length)).take (i + len) =
      (s.take (i + len)).map some := by
  have front : (room.take i).length = i := by
    rw [List.length_take]
    omega
  rw [List.append_assoc, List.take_append, front, Nat.add_sub_cancel_left,
    List.take_of_length_le (by omega), List.take_append_of_le_length (by rwa [List.length_map]),
    ← List.map_take, spells, decoded, ← List.map_append, List.take_add]

/-- What is left to decode fits in the room, up to the last word past the cap or the string. -/
def Enough (room : Room) (i left most : Nat) : Prop :=
  min (i + 8 * left) (most + 7) ≤ room.length

/-- The decoder of a table that has the encoder's symbols undoes it, symbol by symbol. -/
theorem decodeFrom_encodeFrom {t whole : Table} (valid : t.Valid)
    (has : ∀ {code word len : Nat}, t.Has code word len → whole.Has code word len)
    (s : List UInt8) (cap : Nat) :
    ∀ (fuel i : Nat), i ≤ s.length → s.length ≤ i + fuel → ∃ packed,
      t.encoder.encodeFrom s fuel i = some packed ∧
      ∀ room : Room, Enough room i packed.length (min cap s.length) →
        room.take i = (s.take i).map some → ∃ (room' : Room) (o : Nat),
          whole.decodeFrom cap packed room i = .ok (some (room', o)) ∧ o ≤ s.length ∧
            min cap s.length ≤ o ∧ room'.take o = (s.take o).map some := by
  intro fuel
  induction fuel with
  | zero =>
      intro i le reach
      have last : ¬ i < s.length := by omega
      refine ⟨[], by rw [Encoder.encodeFrom, dif_neg last], ?_⟩
      intro room _ decoded
      exact ⟨room, i, rfl, le, by omega, decoded⟩
  | succ fuel ih =>
      intro i le reach
      rw [Encoder.encodeFrom]
      by_cases inside : i < s.length
      · rw [dif_pos inside]
        have nonempty : s.drop i ≠ [] := by
          intro none_left
          have length := congrArg List.length none_left
          rw [List.length_drop, List.length_nil] at length
          omega
        cases stepped : t.encoder.step (wordAt s i) (s.length - i) with
        | mk code len =>
            rw [wordAt_eq, ← List.length_drop] at stepped
            simp only
            rcases (Table.encoder_sound valid).step valid nonempty stepped with
              ⟨rfl, rfl⟩ | ⟨symbol, fits⟩
            · obtain ⟨packed, encoded, decodes⟩ := ih (i + 1) inside (by omega)
              refine ⟨UInt8.ofNat ESCAPE :: s[i] :: packed, by rw [encoded]; rfl, ?_⟩
              intro room enough decoded
              rw [Table.decodeFrom]
              by_cases below : i < cap
              · rw [Enough, List.length_cons, List.length_cons] at enough
                have stored := @put_eq room i [s[i]] (show i + 1 ≤ room.length by omega)
                have next := @take_put room s [s[i]] i 1
                  (show i + 1 ≤ room.length by omega) decoded (Nat.le_refl _) (by
                    rw [List.drop_eq_getElem_cons inside]
                    rfl)
                obtain ⟨room', o, answered, rest⟩ := decodes _ (by
                  rw [Enough, List.length_append, List.length_append, List.length_take,
                    List.length_drop, List.length_map, List.length_singleton]
                  omega) next
                refine ⟨room', o, ?_, rest⟩
                rw [if_pos below, if_pos (by rfl), stored]
                exact answered
              · exact ⟨room, i, if_neg below, le, by omega, decoded⟩
            · rw [List.length_drop] at fits
              obtain ⟨least, most, -⟩ := valid.symbol symbol
              have small := valid.code_lt symbol
              obtain ⟨packed, encoded, decodes⟩ := ih (i + len) (by omega) (by omega)
              have notEscape : ¬ code = ESCAPE := by
                rw [ESCAPE]
                omega
              refine ⟨UInt8.ofNat code :: packed, by rw [encoded, if_neg notEscape]; rfl, ?_⟩
              intro room enough decoded
              rw [Table.decodeFrom.eq_def]
              simp only
              by_cases below : i < cap
              · rw [Enough, List.length_cons] at enough
                have length : (leBytes 8 (leNat ((s.drop i).take len))).length = 8 :=
                  leBytes_length ..
                have room8 : i + 8 ≤ room.length := by omega
                have bytes : (leBytes 8 (leNat ((s.drop i).take len))).take len =
                    (s.drop i).take len := by
                  have whole := leBytes_leNat ((s.drop i).take len)
                  rw [List.length_take, List.length_drop, Nat.min_eq_left fits] at whole
                  rw [leBytes_take most, whole]
                have stored := put_eq (by rwa [length] :
                  i + (leBytes 8 (leNat ((s.drop i).take len))).length ≤ room.length)
                have next := take_put (by rwa [length]) decoded (by rwa [length]) bytes
                obtain ⟨room', o, answered, rest⟩ := decodes _ (by
                  rw [Enough, List.length_append, List.length_append, List.length_take,
                    List.length_drop, List.length_map, length]
                  omega) next
                refine ⟨room', o, ?_, rest⟩
                have codeIs : (UInt8.ofNat code).toNat = code := by
                  rw [UInt8.toNat_ofNat', Nat.mod_eq_of_lt (by omega)]
                rw [if_pos below, codeIs, if_neg notEscape, (has symbol).1, (has symbol).2]
                simp only
                rw [stored]
                exact answered
              · exact ⟨room, i, if_neg below, le, by omega, decoded⟩
      · rw [dif_neg inside]
        refine ⟨[], rfl, ?_⟩
        intro room _ decoded
        exact ⟨room, i, rfl, le, by omega, decoded⟩

end Lexindex.Fsst
