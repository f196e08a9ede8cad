import Mathlib
import Lexindex.CharCode.Code

/-!
# What the index holds

Entering a codeword changes what the index answers for its character and for no
other, and a codeword comes back with the bytes it was entered with, though a single
past the flat level comes back with another second byte.
-/

set_option autoImplicit false

namespace Lexindex.CharCode

theorem shift_or_eight (high low : Nat) (small : low < 256) :
    high <<< 8 ||| low = high * 256 + low := by
  rw [← Nat.shiftLeft_add_eq_or_of_lt small, Nat.shiftLeft_eq]

theorem shift_or_sixteen (high low : Nat) (small : low < 65536) :
    high <<< 16 ||| low = high * 65536 + low := by
  rw [← Nat.shiftLeft_add_eq_or_of_lt small, Nat.shiftLeft_eq]

theorem top_or (low : Nat) (small : low < 32768) : 0x8000 ||| low = 32768 + low :=
  (@Nat.shiftLeft_add_eq_or_of_lt 15 low small 1).symm

theorem top_or_seven (low : Nat) (small : low < 128) : 0x80 ||| low = 128 + low :=
  (@Nat.shiftLeft_add_eq_or_of_lt 7 low small 1).symm

theorem word_none (first : Nat) (small : first < 256) :
    word first none = 65536 + first * 256 := by
  have lead : first <<< 8 = first * 256 := Nat.shiftLeft_eq first 8
  rw [word, lead, shift_or_sixteen 1 _ (by omega)]

theorem word_some (first second : Nat) (firstSmall : first < 256) (secondSmall : second < 256) :
    word first (some second) = 131072 + first * 256 + second := by
  rw [word, Nat.or_assoc, shift_or_eight first second secondSmall,
    shift_or_sixteen 2 _ (by omega), Nat.add_assoc]

/-- A codeword of these bytes, whatever a single's second byte is. -/
def Spells (w : Nat) (bytes : List UInt8) : Prop :=
  wordBytes w = bytes ∧ w >>> 16 = bytes.length

theorem Spells.ne_zero {w : Nat} {bytes : List UInt8} (spells : Spells w bytes) : w ≠ 0 := by
  intro zero
  have length := spells.2
  rw [← spells.1, zero] at length
  simp [wordBytes] at length

theorem spells_one (first rest : Nat) (firstSmall : first < 256) (restSmall : rest < 256) :
    Spells (65536 + first * 256 + rest) [UInt8.ofNat first] := by
  have lead : (65536 + first * 256 + rest) >>> 8 = 256 + first := by
    rw [Nat.shiftRight_eq_div_pow]
    omega
  have len : (65536 + first * 256 + rest) >>> 16 = 1 := by
    rw [Nat.shiftRight_eq_div_pow]
    omega
  refine ⟨?_, len⟩
  rw [wordBytes, lead, len, if_neg (by decide)]
  congr 1
  apply UInt8.toNat_inj.mp
  rw [UInt8.toNat_ofNat', UInt8.toNat_ofNat']
  omega

theorem spells_two (first second : Nat) (firstSmall : first < 256) (secondSmall : second < 256) :
    Spells (131072 + first * 256 + second) [UInt8.ofNat first, UInt8.ofNat second] := by
  have lead : (131072 + first * 256 + second) >>> 8 = 512 + first := by
    rw [Nat.shiftRight_eq_div_pow]
    omega
  have len : (131072 + first * 256 + second) >>> 16 = 2 := by
    rw [Nat.shiftRight_eq_div_pow]
    omega
  have leadExact : UInt8.ofNat (512 + first) = UInt8.ofNat first := by
    apply UInt8.toNat_inj.mp
    rw [UInt8.toNat_ofNat', UInt8.toNat_ofNat']
    omega
  have secondExact : UInt8.ofNat (131072 + first * 256 + second) = UInt8.ofNat second := by
    apply UInt8.toNat_inj.mp
    rw [UInt8.toNat_ofNat', UInt8.toNat_ofNat']
    omega
  refine ⟨?_, len⟩
  rw [wordBytes, lead, len, if_pos rfl, leadExact, secondExact]

/-- A lead's byte, and a second one on a page. -/
def codewordBytes (first : Nat) : Option Nat → List UInt8
  | none => [UInt8.ofNat first]
  | some s => [UInt8.ofNat first, UInt8.ofNat s]

theorem codewordBytes_eq (first : Nat) (second : Option Nat) :
    codewordBytes first second = UInt8.ofNat first :: second.toList.map UInt8.ofNat := by
  cases second <;> rfl

theorem spells_word (first : Nat) (second : Option Nat) (firstSmall : first < 256)
    (secondSmall : ∀ s, second = some s → s < 256) :
    Spells (word first second) (codewordBytes first second) := by
  cases second with
  | none =>
      rw [word_none first firstSmall]
      exact spells_one first 0 firstSmall (by decide)
  | some s =>
      rw [word_some first s firstSmall (secondSmall s rfl)]
      exact spells_two first s firstSmall (secondSmall s rfl)

theorem low_seven (n : Nat) : n &&& 0x7F = n % 128 :=
  Nat.and_two_pow_sub_one_eq_mod n 7

theorem low_eight (n : Nat) : n &&& 0xFF = n % 256 :=
  Nat.and_two_pow_sub_one_eq_mod n 8

theorem narrow_none (first : Nat) (small : first < 256) :
    narrow (word first none) = first % 128 * 256 + 1 := by
  have len : (65536 + first * 256) >>> 16 = 1 := by
    rw [Nat.shiftRight_eq_div_pow]
    omega
  have lead : (65536 + first * 256) >>> 8 % 2 ^ 16 % 128 = first % 128 := by
    rw [Nat.shiftRight_eq_div_pow]
    omega
  rw [word_none first small]
  simp only [narrow, low_seven, len, lead]
  rw [if_neg (by decide), shift_or_eight _ _ (by decide)]

theorem narrow_some (first second : Nat) (firstSmall : first < 256)
    (secondSmall : second < 256) :
    narrow (word first (some second)) = 32768 + first % 128 * 256 + second := by
  have len : (131072 + first * 256 + second) >>> 16 = 2 := by
    rw [Nat.shiftRight_eq_div_pow]
    omega
  have lead : (131072 + first * 256 + second) >>> 8 % 2 ^ 16 % 128 = first % 128 := by
    rw [Nat.shiftRight_eq_div_pow]
    omega
  have last : (131072 + first * 256 + second) % 2 ^ 16 % 256 = second := by omega
  rw [word_some first second firstSmall secondSmall]
  simp only [narrow, low_seven, low_eight, len, lead, last]
  rw [if_pos trivial, Nat.or_assoc, shift_or_eight _ _ secondSmall, top_or _ (by omega),
    Nat.add_assoc]

theorem narrow_ne_zero (first : Nat) (second : Option Nat) (small : first < 256)
    (secondSmall : ∀ s, second = some s → s < 256) : narrow (word first second) ≠ 0 := by
  cases second with
  | none =>
      rw [narrow_none first small]
      omega
  | some s =>
      rw [narrow_some first s small (secondSmall s rfl)]
      omega

theorem widen_eq (mode : Mode) (n : Nat) :
    widen n mode.base =
      (1 + n / 32768) * 65536 + ((mode.base + n / 256 % 128) * 256 + n % 256) := by
  have lead : mode.base ||| n / 256 % 128 = mode.base + n / 256 % 128 := by
    cases mode with
    | seven => rw [Mode.base, Nat.zero_or, Nat.zero_add]
    | eight => exact top_or_seven _ (Nat.mod_lt _ (by decide))
  have leadSmall : mode.base + n / 256 % 128 < 256 := by
    cases mode <;> simp only [Mode.base] <;> omega
  have high : n >>> 15 = n / 32768 := Nat.shiftRight_eq_div_pow n 15
  have middle : n >>> 8 = n / 256 := Nat.shiftRight_eq_div_pow n 8
  rw [widen, low_seven, low_eight, high, middle, lead, Nat.or_assoc,
    shift_or_eight _ _ (Nat.mod_lt _ (by decide)), shift_or_sixteen _ _ (by omega)]

/-- A narrowed codeword keeps its bytes where its lead's top bit is the mode's. -/
theorem spells_widen_narrow (mode : Mode) (first : Nat) (second : Option Nat)
    (least : mode.base ≤ first) (small : first < mode.base + 128)
    (secondSmall : ∀ s, second = some s → s < 256) :
    Spells (widen (narrow (word first second)) mode.base) (codewordBytes first second) := by
  have byte : first < 256 := by
    cases mode <;> simp only [Mode.base] at small <;> omega
  have lead : mode.base + first % 128 = first := by
    cases mode <;> simp only [Mode.base] at least small ⊢ <;> omega
  cases second with
  | none =>
      have parts : widen (narrow (word first none)) mode.base = 65536 + first * 256 + 1 := by
        rw [narrow_none first byte, widen_eq]
        have high : (first % 128 * 256 + 1) / 256 % 128 = first % 128 := by omega
        rw [high, lead]
        omega
      rw [parts]
      exact spells_one first 1 byte (by decide)
  | some s =>
      have sSmall := secondSmall s rfl
      have parts : widen (narrow (word first (some s))) mode.base =
          131072 + first * 256 + s := by
        rw [narrow_some first s byte sSmall, widen_eq]
        have high : (32768 + first % 128 * 256 + s) / 256 % 128 = first % 128 := by omega
        rw [high, lead]
        omega
      rw [parts]
      exact spells_two first s byte sSmall

theorem resize_length (xs : List Nat) (length : Nat) :
    (resize xs length).length = max xs.length length := by
  rw [resize, List.length_append, List.length_replicate]
  omega

theorem getD_resize (xs : List Nat) (length i : Nat) :
    (resize xs length).getD i 0 = xs.getD i 0 := by
  rw [resize]
  by_cases inside : i < xs.length
  · rw [List.getD_append _ _ _ _ inside]
  · rw [List.getD_append_right _ _ _ _ (by omega), List.getD_eq_default xs 0 (by omega)]
    simp

theorem getD_set_self {xs : List Nat} {i : Nat} (inside : i < xs.length) (x : Nat) :
    (xs.set i x).getD i 0 = x := by
  rw [List.getD_eq_getElem?_getD, List.getElem?_set_self inside, Option.getD_some]

theorem getD_set_ne {xs : List Nat} {i j : Nat} (apart : i ≠ j) (x : Nat) :
    (xs.set i x).getD j 0 = xs.getD j 0 := by
  rw [List.getD_eq_getElem?_getD, List.getElem?_set_ne apart, ← List.getD_eq_getElem?_getD]

namespace Index

theorem wordAt_eq (entry cp : Nat) : wordAt entry cp = (entry - 1) * 256 + cp % 256 := by
  rw [wordAt, PAGE, low_eight]

/-- Each page with an entry has a table of its own in `words`. -/
structure Sound (index : Index) : Prop where
  flat : index.low.length ≤ LOW
  above : ∀ k, k < 8 → index.pages.getD k 0 = 0
  whole : index.words.length % 256 = 0
  inside : ∀ k, index.pages.getD k 0 * 256 ≤ index.words.length
  apart : ∀ j k, index.pages.getD j 0 ≠ 0 → index.pages.getD j 0 = index.pages.getD k 0 → j = k

/-- What the pages hold for a code point, narrowed. -/
def cell (index : Index) (cp : Nat) : Nat :=
  if index.pages.getD (cp / 256) 0 = 0 then 0
  else index.words.getD (wordAt (index.pages.getD (cp / 256) 0) cp) 0

theorem sound_empty (base : Nat) : (empty base).Sound :=
  ⟨Nat.zero_le _, by simp [empty], rfl, by simp [empty], by simp [empty]⟩

/-- Every word read is in `words`. -/
theorem Sound.wordAt_lt {index : Index} (sound : index.Sound) {cp : Nat}
    (met : index.pages.getD (cp / 256) 0 ≠ 0) :
    wordAt (index.pages.getD (cp / 256) 0) cp < index.words.length := by
  have inside := sound.inside (cp / 256)
  rw [wordAt_eq]
  omega

theorem get_eq (index : Index) (c : Char) :
    index.get c =
      if c.toNat < index.low.length then index.low.getD c.toNat 0
      else if index.cell c.toNat = 0 then 0 else widen (index.cell c.toNat) index.base := by
  have shifted : c.toNat >>> 8 = c.toNat / 256 := Nat.shiftRight_eq_div_pow _ 8
  rw [get, shifted, cell]
  by_cases flat : c.toNat < index.low.length
  · rw [List.getElem?_eq_getElem flat, if_pos flat, List.getD_eq_getElem _ _ flat]
  · rw [List.getElem?_eq_none (by omega), if_neg flat]
    cases paged : index.pages[c.toNat / 256]? with
    | none =>
        have entry : index.pages.getD (c.toNat / 256) 0 = 0 := by
          rw [List.getD_eq_getElem?_getD, paged, Option.getD_none]
        rw [if_pos entry, if_pos rfl]
    | some p =>
        have entry : index.pages.getD (c.toNat / 256) 0 = p := by
          rw [List.getD_eq_getElem?_getD, paged, Option.getD_some]
        rw [entry]
        by_cases zero : p = 0
        · simp [zero]
        · simp [zero]

theorem Sound.cell_low {index : Index} (sound : index.Sound) {cp : Nat} (low : cp < LOW) :
    index.cell cp = 0 := by
  rw [LOW] at low
  rw [cell, if_pos (sound.above (cp / 256) (by omega))]

theorem Sound.get_low {index : Index} (sound : index.Sound) {c : Char}
    (low : c.toNat < LOW) : index.get c = index.low.getD c.toNat 0 := by
  rw [get_eq]
  split
  · rfl
  · rw [if_pos (sound.cell_low low), List.getD_eq_default _ _ (by omega)]

theorem Sound.get_high {index : Index} (sound : index.Sound) {c : Char}
    (high : LOW ≤ c.toNat) :
    index.get c =
      if index.cell c.toNat = 0 then 0 else widen (index.cell c.toNat) index.base := by
  have flat := sound.flat
  rw [get_eq, if_neg (by omega)]

theorem enter_base (index : Index) (c : Char) (w : Nat) : (index.enter c w).base = index.base := by
  simp only [enter]
  split
  · rfl
  · split <;> rfl

/-- A codeword below `LOW` leaves the pages as they were. -/
theorem enter_low {index : Index} {c : Char} (low : c.toNat < LOW) (w : Nat) :
    index.enter c w =
      { index with low := (resize index.low (c.toNat + 1)).set c.toNat w } := by
  rw [enter, if_pos low]

/-- A codeword past `LOW`: its page's entry, which a page not met before is given past every
word there was. -/
theorem enter_high {index : Index} (sound : index.Sound) {c : Char} (high : LOW ≤ c.toNat)
    (w : Nat) :
    ∃ (entry : Nat) (words : List Nat),
      (index.enter c w).low = index.low ∧
      (∀ k, (index.enter c w).pages.getD k 0 =
        if k = c.toNat / 256 then entry else index.pages.getD k 0) ∧
      (index.enter c w).words = words.set (wordAt entry c.toNat) (narrow w) ∧
      0 < entry ∧ entry * 256 ≤ words.length ∧ words.length % 256 = 0 ∧
      index.words.length ≤ words.length ∧
      (∀ i, words.getD i 0 = index.words.getD i 0) ∧
      (entry = index.pages.getD (c.toNat / 256) 0 ∨
        index.pages.getD (c.toNat / 256) 0 = 0 ∧ index.words.length < entry * 256) := by
  have shifted : c.toNat >>> 8 = c.toNat / 256 := Nat.shiftRight_eq_div_pow _ 8
  have notLow : ¬ c.toNat < LOW := by omega
  have room : c.toNat / 256 < (resize index.pages (c.toNat / 256 + 1)).length := by
    rw [resize_length]
    omega
  have whole := sound.whole
  simp only [enter, if_neg notLow, shifted, getD_resize]
  by_cases fresh : index.pages.getD (c.toNat / 256) 0 = 0
  · rw [if_pos fresh]
    have length : (resize index.words (index.words.length + PAGE)).length =
        index.words.length + 256 := by
      rw [resize_length, PAGE]
      omega
    have entry : (resize index.words (index.words.length + PAGE)).length / PAGE =
        index.words.length / 256 + 1 := by
      rw [length, PAGE]
      omega
    refine ⟨index.words.length / 256 + 1, resize index.words (index.words.length + PAGE), rfl,
      ?_, ?_, by omega, by omega, by omega, by omega, getD_resize _ _, .inr ⟨fresh, by omega⟩⟩
    · intro k
      rw [entry]
      by_cases here : k = c.toNat / 256
      · rw [if_pos here, here, getD_set_self room]
      · rw [if_neg here, getD_set_ne (Ne.symm here), getD_resize]
    · rw [entry, getD_set_self room]
  · rw [if_neg fresh]
    refine ⟨index.pages.getD (c.toNat / 256) 0, index.words, rfl, ?_, ?_, by omega,
      sound.inside _, whole, le_refl _, fun _ => rfl, .inl rfl⟩
    · intro k
      rw [getD_resize]
      by_cases here : k = c.toNat / 256
      · rw [if_pos here, here]
      · rw [if_neg here]
    · rfl

theorem Sound.enter {index : Index} (sound : index.Sound) (c : Char) (w : Nat) :
    (index.enter c w).Sound := by
  by_cases low : c.toNat < LOW
  · rw [enter_low low w]
    refine ⟨?_, sound.above, sound.whole, sound.inside, sound.apart⟩
    have flat := sound.flat
    simp only [List.length_set, resize_length]
    omega
  · have high : LOW ≤ c.toNat := Nat.not_lt.mp low
    obtain ⟨entry, words, lowExact, pagesExact, wordsExact, positive, fits, whole, longer, -,
      given⟩ := enter_high sound high w
    have distinct (k : Nat) (elsewhere : k ≠ c.toNat / 256) :
        entry ≠ index.pages.getD k 0 := by
      intro shared
      rcases given with kept | ⟨fresh, past⟩
      · have same := sound.apart k (c.toNat / 256) (by omega) (by omega)
        exact elsewhere same
      · have inside := sound.inside k
        omega
    refine ⟨?_, fun k small => ?_, ?_, fun k => ?_, fun j k met shared => ?_⟩
    · rw [lowExact]
      exact sound.flat
    · rw [LOW] at high
      rw [pagesExact, if_neg (by omega)]
      exact sound.above k small
    · rw [wordsExact, List.length_set]
      exact whole
    · rw [pagesExact, wordsExact, List.length_set]
      split
      · exact fits
      · exact Nat.le_trans (sound.inside k) longer
    · rw [pagesExact, pagesExact] at shared
      rw [pagesExact] at met
      by_cases jHere : j = c.toNat / 256
      · by_cases kHere : k = c.toNat / 256
        · rw [jHere, kHere]
        · rw [if_pos jHere, if_neg kHere] at shared
          exact absurd shared (distinct k kHere)
      · rw [if_neg jHere] at met shared
        by_cases kHere : k = c.toNat / 256
        · rw [if_pos kHere] at shared
          exact absurd shared.symm (distinct j jHere)
        · rw [if_neg kHere] at shared
          exact sound.apart j k met shared

theorem Sound.cell_enter {index : Index} (sound : index.Sound) {c : Char}
    (high : LOW ≤ c.toNat) (w cp : Nat) :
    (index.enter c w).cell cp = if cp = c.toNat then narrow w else index.cell cp := by
  obtain ⟨entry, words, -, pagesExact, wordsExact, positive, fits, whole, longer, same, given⟩ :=
    enter_high sound high w
  have oldWhole := sound.whole
  rw [cell, pagesExact, wordsExact]
  by_cases page : cp / 256 = c.toNat / 256
  · rw [if_pos page, if_neg (by omega)]
    by_cases here : cp = c.toNat
    · rw [if_pos here, here]
      refine getD_set_self ?_ _
      rw [wordAt_eq]
      omega
    · rw [if_neg here, getD_set_ne (by rw [wordAt_eq, wordAt_eq]; omega), same, cell, page]
      rcases given with kept | ⟨fresh, past⟩
      · rw [← kept, if_neg (by omega)]
      · rw [if_pos fresh]
        refine List.getD_eq_default _ _ ?_
        rw [wordAt_eq]
        omega
  · have elsewhere : cp ≠ c.toNat := fun here => page (by rw [here])
    rw [if_neg page, if_neg elsewhere, cell]
    by_cases empty : index.pages.getD (cp / 256) 0 = 0
    · rw [if_pos empty, if_pos empty]
    · have apart : wordAt entry c.toNat ≠ wordAt (index.pages.getD (cp / 256) 0) cp := by
        intro shared
        rw [wordAt_eq, wordAt_eq] at shared
        have entries : index.pages.getD (cp / 256) 0 = entry := by omega
        rcases given with kept | ⟨fresh, past⟩
        · exact page (sound.apart _ _ empty (by omega))
        · have inside := sound.inside (cp / 256)
          omega
      rw [if_neg empty, if_neg empty, getD_set_ne apart, same]

/-- A codeword of these bytes that the index keeps whichever level it goes to. -/
structure Kept (mode : Mode) (c : Char) (w : Nat) (bytes : List UInt8) : Prop where
  spells : Spells w bytes
  narrowed : LOW ≤ c.toNat → narrow w ≠ 0 ∧ Spells (widen (narrow w) mode.base) bytes

theorem get_enter_self {index : Index} {mode : Mode} {c : Char} {w : Nat} {bytes : List UInt8}
    (sound : index.Sound) (based : index.base = mode.base) (kept : Kept mode c w bytes) :
    Spells ((index.enter c w).get c) bytes := by
  by_cases low : c.toNat < LOW
  · rw [(sound.enter c w).get_low low, enter_low low w]
    refine Eq.mpr (congrArg (Spells · bytes) (getD_set_self ?_ w)) kept.spells
    rw [resize_length]
    omega
  · have high : LOW ≤ c.toNat := Nat.not_lt.mp low
    obtain ⟨nonzero, spells⟩ := kept.narrowed high
    rw [(sound.enter c w).get_high high, sound.cell_enter high, if_pos rfl, if_neg nonzero,
      enter_base, based]
    exact spells

theorem get_enter_other {index : Index} {c other : Char} (sound : index.Sound)
    (apart : other ≠ c) (w : Nat) : (index.enter c w).get other = index.get other := by
  have points : other.toNat ≠ c.toNat := fun same => apart (Char.toNat_inj.mp same)
  by_cases otherLow : other.toNat < LOW
  · rw [(sound.enter c w).get_low otherLow, sound.get_low otherLow]
    by_cases low : c.toNat < LOW
    · rw [enter_low low w]
      exact (getD_set_ne points.symm w).trans (getD_resize _ _ _)
    · obtain ⟨_, _, lowExact, -⟩ := enter_high sound (Nat.not_lt.mp low) w
      rw [lowExact]
  · have otherHigh : LOW ≤ other.toNat := Nat.not_lt.mp otherLow
    rw [(sound.enter c w).get_high otherHigh, sound.get_high otherHigh, enter_base]
    by_cases low : c.toNat < LOW
    · rw [enter_low low w, cell, cell]
    · rw [sound.cell_enter (Nat.not_lt.mp low), if_neg points]

/-- Entered one after another, each character's codeword is the one entered for it. -/
theorem get_entered {mode : Mode} (spelt : List (Char × Nat)) (index : Index)
    (sound : index.Sound) (based : index.base = mode.base)
    (distinct : spelt.Pairwise fun p q => p.1 ≠ q.1) :
    let entered := spelt.foldl (fun index entry => index.enter entry.1 entry.2) index
    (∀ p ∈ spelt, ∀ bytes, Kept mode p.1 p.2 bytes → Spells (entered.get p.1) bytes) ∧
      ∀ c, (∀ p ∈ spelt, p.1 ≠ c) → entered.get c = index.get c := by
  induction spelt generalizing index with
  | nil => exact ⟨by simp, fun _ _ => rfl⟩
  | cons entry spelt ih =>
      obtain ⟨first, rest⟩ := List.pairwise_cons.mp distinct
      have entrySound := sound.enter entry.1 entry.2
      have entryBased : (index.enter entry.1 entry.2).base = mode.base := by
        rw [enter_base, based]
      obtain ⟨spelled, others⟩ := ih _ entrySound entryBased rest
      rw [List.foldl_cons]
      refine ⟨fun p member bytes kept => ?_, fun c absent => ?_⟩
      · rcases List.mem_cons.mp member with same | later
        · rw [same] at kept ⊢
          rw [others entry.1 fun p member => (first p member).symm]
          exact get_enter_self sound based kept
        · exact spelled p later bytes kept
      · have headApart : entry.1 ≠ c := absent entry List.mem_cons_self
        rw [others c fun p member => absent p (List.mem_cons_of_mem entry member)]
        exact get_enter_other sound headApart.symm entry.2

theorem get_empty (base : Nat) (c : Char) : (empty base).get c = 0 := by
  simp [get, empty]

theorem get_build {mode : Mode} {spelt : List (Char × Nat)}
    (distinct : spelt.Pairwise fun p q => p.1 ≠ q.1) :
    (∀ p ∈ spelt, ∀ bytes, Kept mode p.1 p.2 bytes →
        Spells ((build spelt mode.base).get p.1) bytes) ∧
      ∀ c, (∀ p ∈ spelt, p.1 ≠ c) → (build spelt mode.base).get c = 0 := by
  obtain ⟨spelled, others⟩ := get_entered spelt (empty mode.base) (sound_empty _) rfl distinct
  refine ⟨spelled, fun c absent => ?_⟩
  exact (others c absent).trans (get_empty _ c)

end Index

end Lexindex.CharCode
