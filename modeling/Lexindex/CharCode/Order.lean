import Mathlib
import Lexindex.CharCode.Code
import Lexindex.CharCode.Tables

/-!
# Packed characters

A character's bytes in a number: its length is read from its first byte, it unpacks
to the character it packs, and read from its first byte it orders as the characters
do, since no character's bytes start another's and the padding decides nothing.
-/

set_option autoImplicit false

namespace Lexindex

theorem leNat_append (front back : List UInt8) :
    leNat (front ++ back) = leNat front + 256 ^ front.length * leNat back := by
  induction front with
  | nil => simp [leNat]
  | cons byte front ih =>
      rw [List.cons_append, leNat, leNat, ih, List.length_cons, pow_succ]
      ring

/-- Read from their first byte, strings of one length order as numbers. -/
theorem leNat_reverse_lt {xs ys : List UInt8} (sized : xs.length = ys.length)
    (diverged : Diverges xs ys) : leNat xs.reverse < leNat ys.reverse := by
  obtain ⟨shared, x, xsRest, y, ysRest, rfl, rfl, less⟩ := diverged
  have restSized : xsRest.length = ysRest.length := by
    simp only [List.length_append, List.length_cons] at sized
    omega
  have byteLess : x.toNat + 1 ≤ y.toNat := less
  have small : leNat xsRest.reverse < 256 ^ ysRest.length := by
    rw [← restSized, ← List.length_reverse]
    exact leNat_lt _
  have scaled := Nat.mul_le_mul_left (256 ^ ysRest.length)
    (Nat.add_le_add_right byteLess (256 * leNat shared.reverse))
  rw [List.reverse_append, List.reverse_append, List.reverse_cons, List.reverse_cons,
    List.append_assoc, List.append_assoc, List.singleton_append, List.singleton_append,
    leNat_append, leNat_append, List.length_reverse, List.length_reverse, restSized, leNat, leNat]
  rw [Nat.add_right_comm, Nat.mul_add_one] at scaled
  omega

namespace CharCode

/-- A character's bytes, padded to four. -/
def padded (c : Char) : List UInt8 :=
  String.utf8EncodeChar c ++ List.replicate (4 - (String.utf8EncodeChar c).length) 0

theorem utf8EncodeChar_length (c : Char) :
    0 < (String.utf8EncodeChar c).length ∧ (String.utf8EncodeChar c).length ≤ 4 := by
  obtain ⟨digits, form, exact⟩ := utf8Form c
  rw [exact, List.length_map]
  exact form.length_le

theorem padded_length (c : Char) : (padded c).length = 4 := by
  have small := (utf8EncodeChar_length c).2
  rw [padded, List.length_append, List.length_replicate]
  omega

theorem packed_eq (c : Char) : packed c = leNat (padded c) := by
  have small := (utf8EncodeChar_length c).2
  rw [packed, List.take_append, List.take_of_length_le small, List.take_replicate,
    Nat.min_eq_left (by omega)]
  rfl

theorem leBytes_packed (c : Char) : leBytes 4 (packed c) = padded c := by
  have written := leBytes_leNat (padded c)
  rw [padded_length, ← packed_eq] at written
  exact written

theorem packedOrder_eq (c : Char) : packedOrder (packed c) = leNat (padded c).reverse := by
  rw [packedOrder, leBytes_packed]

theorem packedOrder_lt {c d : Char} (less : c < d) :
    packedOrder (packed c) < packedOrder (packed d) := by
  have diverged := utf8_prefixCode.ascends c d trivial trivial less
  rw [packedOrder_eq, packedOrder_eq]
  refine leNat_reverse_lt ?_ (diverged.append_right _ _)
  rw [padded_length, padded_length]

theorem packedOrder_lt_iff (c d : Char) :
    packedOrder (packed c) < packedOrder (packed d) ↔ c < d := by
  refine ⟨fun less => ?_, packedOrder_lt⟩
  rcases lt_trichotomy c d with below | same | above
  · exact below
  · rw [same] at less
    exact absurd less (lt_irrefl _)
  · exact absurd less (Nat.lt_asymm (packedOrder_lt above))

/-- The leading ones of each range of first bytes. -/
theorem leadingOnes_ranges :
    (∀ b < 0x80, leadingOnes b = 0) ∧ (∀ b < 0x20, leadingOnes (0xC0 + b) = 2) ∧
      (∀ b < 0x10, leadingOnes (0xE0 + b) = 3) ∧ ∀ b < 0x08, leadingOnes (0xF0 + b) = 4 := by
  decide +kernel

theorem packed_mod (c : Char) : packed c % 256 = ((padded c).getD 0 0).toNat := by
  rw [packed_eq]
  cases shape : padded c with
  | nil =>
      have length := padded_length c
      rw [shape] at length
      simp at length
  | cons byte rest =>
      have byteLt : byte.toNat < 256 := byte.toNat_lt
      rw [leNat, List.getD_cons_zero]
      omega

theorem packedLen_packed (c : Char) : packedLen (packed c) = (String.utf8EncodeChar c).length := by
  obtain ⟨one, two, three, four⟩ := leadingOnes_ranges
  obtain ⟨digits, form, exact⟩ := utf8Form c
  rw [packedLen, packed_mod, padded, exact]
  cases form with
  | one small =>
      have byte : (UInt8.ofNat c.toNat).toNat = c.toNat := by
        rw [UInt8.toNat_ofNat']
        omega
      change max (leadingOnes (UInt8.ofNat c.toNat).toNat) 1 = 1
      rw [byte, one _ small]
      rfl
  | two least small =>
      have byte : (UInt8.ofNat (c.toNat / 64 + 0xC0)).toNat = 0xC0 + c.toNat / 64 := by
        rw [UInt8.toNat_ofNat']
        omega
      change max (leadingOnes (UInt8.ofNat (c.toNat / 64 + 0xC0)).toNat) 1 = 2
      rw [byte, two _ (by omega)]
      rfl
  | three least small =>
      have byte : (UInt8.ofNat (c.toNat / 4096 + 0xE0)).toNat = 0xE0 + c.toNat / 4096 := by
        rw [UInt8.toNat_ofNat']
        omega
      change max (leadingOnes (UInt8.ofNat (c.toNat / 4096 + 0xE0)).toNat) 1 = 3
      rw [byte, three _ (by omega)]
      rfl
  | four least small =>
      have byte : (UInt8.ofNat (c.toNat / 262144 + 0xF0)).toNat = 0xF0 + c.toNat / 262144 := by
        rw [UInt8.toNat_ofNat']
        omega
      change max (leadingOnes (UInt8.ofNat (c.toNat / 262144 + 0xF0)).toNat) 1 = 4
      rw [byte, four _ (by omega)]
      rfl

theorem take_packed (c : Char) :
    (leBytes 4 (packed c)).take (packedLen (packed c)) = String.utf8EncodeChar c := by
  rw [leBytes_packed, packedLen_packed, padded, List.take_left]

theorem unpacked_packed (c : Char) : unpacked (packed c) = some c := by
  have single : bytesOf (String.ofList [c]) = String.utf8EncodeChar c := by
    rw [bytesOf_ofList, List.flatMap_singleton]
  rw [unpacked, take_packed, ← single, fromUtf8_bytesOf, Option.bind_some, String.toList_ofList]
  rfl

end CharCode

end Lexindex

/-!
## The end of a prefix

The bytes `bump` makes of a prefix are the least string above every one the prefix
starts, and there is none where every byte is `0xff`: then nothing is above them.
-/

namespace Lexindex.CharCode

/-- Bytes that are all `0xff` are above every string they do not start. -/
theorem lt_or_prefix_of_full (n : Nat) (x : List UInt8) :
    x < List.replicate n 0xFF ∨ List.replicate n 0xFF <+: x := by
  induction n generalizing x with
  | zero => exact .inr List.nil_prefix
  | succ n ih =>
      rw [List.replicate_succ]
      cases x with
      | nil => exact .inl (List.nil_lt_cons _ _)
      | cons byte x =>
          have most : byte ≤ 0xFF := by
            have byteLt : byte.toNat < 256 := byte.toNat_lt
            change byte.toNat ≤ 255
            omega
          rcases most.lt_or_eq with less | same
          · exact .inl (List.cons_lt_cons_iff.mpr (.inl less))
          · subst same
            rcases ih x with below | starts
            · exact .inl (List.cons_lt_cons_iff.mpr (.inr ⟨rfl, below⟩))
            · exact .inr (List.cons_prefix_cons.mpr ⟨rfl, starts⟩)

theorem lt_add_one_iff {byte b : UInt8} (notFull : b ≠ 0xFF) : byte < b + 1 ↔ byte ≤ b := by
  have bLt : b.toNat < 256 := b.toNat_lt
  have bNot : b.toNat ≠ 255 := fun same => notFull (UInt8.toNat_inj.mp same)
  rw [UInt8.lt_iff_toNat_lt, UInt8.le_iff_toNat_le, UInt8.toNat_add, UInt8.toNat_one]
  omega

theorem bump_concat_full (bytes : List UInt8) :
    bump (bytes ++ [0xFF]) = (bump bytes).map fun bumped => (bumped.1 ++ [0xFF], bumped.2) := by
  have skipped : (bytes ++ [0xFF]).reverse.findIdx? (fun b => b ≠ 0xFF) =
      (bytes.reverse.findIdx? fun b => b ≠ 0xFF).map (· + 1) := by
    rw [List.reverse_append, List.reverse_singleton, List.singleton_append, List.findIdx?_cons]
    rfl
  rw [bump, skipped, bump]
  cases found : bytes.reverse.findIdx? fun b => b ≠ 0xFF with
  | none => rfl
  | some i =>
      have inside := (List.findIdx?_eq_some_iff_getElem.mp found).1
      rw [List.length_reverse] at inside
      have last : bytes.length + 1 - 1 - (i + 1) = bytes.length - 1 - i := by omega
      simp only [Option.map_some, List.length_append, List.length_singleton, last]
      rw [List.set_append_left _ _ (by omega), List.getD_append _ _ _ _ (by omega)]

theorem bump_concat (bytes : List UInt8) {b : UInt8} (notFull : b ≠ 0xFF) :
    bump (bytes ++ [b]) = some (bytes ++ [b + 1], bytes.length + 1) := by
  have skipped : (bytes ++ [b]).reverse.findIdx? (fun b => b ≠ 0xFF) = some 0 := by
    rw [List.reverse_append, List.reverse_singleton, List.singleton_append, List.findIdx?_cons,
      if_pos (by simpa using notFull)]
  have last : bytes.length + 1 - 1 - 0 = bytes.length := by omega
  rw [bump, skipped]
  simp only [List.length_append, List.length_singleton, last]
  rw [List.set_append_right _ _ (le_refl _), List.getD_append_right _ _ _ _ (le_refl _),
    Nat.sub_self]
  rfl

/-- The last byte that is not `0xff`, if there is one. -/
theorem bump_cases (bytes : List UInt8) :
    (bump bytes = none ∧ bytes = List.replicate bytes.length 0xFF) ∨
      ∃ front b n, b ≠ 0xFF ∧ bytes = front ++ b :: List.replicate n 0xFF ∧
        bump bytes = some (front ++ (b + 1) :: List.replicate n 0xFF, front.length + 1) := by
  induction bytes using List.reverseRecOn with
  | nil => exact .inl ⟨rfl, rfl⟩
  | append_singleton bytes last ih =>
      by_cases full : last = 0xFF
      · subst full
        rcases ih with ⟨none, all⟩ | ⟨front, b, n, notFull, shape, bumped⟩
        · left
          refine ⟨by rw [bump_concat_full, none, Option.map_none], ?_⟩
          rw [List.length_append, List.length_singleton, List.replicate_succ', ← all]
        · right
          refine ⟨front, b, n + 1, notFull, ?_, ?_⟩
          · rw [List.replicate_succ', shape, List.append_assoc, List.cons_append]
          · rw [bump_concat_full, bumped, Option.map_some, List.replicate_succ',
              List.append_assoc, List.cons_append]
      · exact .inr ⟨bytes, last, 0, full, rfl, bump_concat bytes full⟩

theorem bump_none {bytes : List UInt8} (none : bump bytes = none) (x : List UInt8) :
    x < bytes ∨ bytes <+: x := by
  rcases bump_cases bytes with ⟨-, all⟩ | ⟨_, _, _, -, -, bumped⟩
  · rw [all]
    exact lt_or_prefix_of_full _ x
  · rw [none] at bumped
    simp at bumped

theorem prefix_append_iff (front tail x : List UInt8) :
    front ++ tail <+: x ↔ ∃ rest, x = front ++ rest ∧ tail <+: rest := by
  constructor
  · rintro ⟨rest, rfl⟩
    exact ⟨tail ++ rest, List.append_assoc _ _ _, List.prefix_append _ _⟩
  · rintro ⟨rest, rfl, starts⟩
    exact (List.prefix_append_right_inj front).mpr starts

/-- Below the bumped bytes is what was below the bytes, and what they start. -/
theorem bump_some {bytes bumped : List UInt8} {len : Nat}
    (some : bump bytes = some (bumped, len)) :
    bumped.length = bytes.length ∧ len ≤ bytes.length ∧
      ∀ x, x < bumped.take len ↔ x < bytes ∨ bytes <+: x := by
  rcases bump_cases bytes with ⟨none, -⟩ | ⟨front, b, n, notFull, shape, exact⟩
  · rw [none] at some
    simp at some
  · rw [exact, Option.some.injEq, Prod.mk.injEq] at some
    rw [← some.1, ← some.2, shape]
    refine ⟨by simp, by simp, fun x => ?_⟩
    have read : (front ++ (b + 1) :: List.replicate n 0xFF).take (front.length + 1) =
        front ++ [b + 1] := by
      rw [List.take_append, List.take_of_length_le (by omega)]
      simp
    rw [read, lt_append_iff, lt_append_iff, prefix_append_iff, or_assoc, ← exists_or]
    refine or_congr_right (exists_congr fun rest => ?_)
    rw [← and_or_left]
    refine and_congr_right fun _ => ?_
    cases rest with
    | nil => simp [List.nil_lt_cons]
    | cons byte rest =>
        have full := lt_or_prefix_of_full n rest
        rw [List.cons_lt_cons_iff, List.cons_lt_cons_iff, List.cons_prefix_cons,
          lt_add_one_iff notFull, le_iff_lt_or_eq]
        constructor
        · rintro ((less | same) | ⟨_, empty⟩)
          · exact .inl (.inl less)
          · rcases full with below | starts
            · exact .inl (.inr ⟨same, below⟩)
            · exact .inr ⟨same.symm, starts⟩
          · exact absurd empty (List.not_lt_nil rest)
        · rintro ((less | ⟨same, -⟩) | ⟨same, -⟩)
          · exact .inl (.inl less)
          · exact .inl (.inr same)
          · exact .inl (.inr same.symm)

end Lexindex.CharCode

/-!
### The order of the codes

Codewords are an order-keeping prefix code, so coded keys order as the keys do and
start with each other's code where the keys do.  A probe orders against every key's
code as its query does against the key.
-/

namespace Lexindex

/-- Every character of `key` has a codeword. -/
def CharCode.Spellable (code : CharCode) (key : List Char) : Prop :=
  ∀ c ∈ key, code.index.get c ≠ 0

/-- The bytes a character is spelled in. -/
def CharCode.codeword (code : CharCode) (c : Char) : List UInt8 :=
  CharCode.wordBytes (code.index.get c)

/-- What a verdict says of a key's code: every key is below a query past every code. -/
def Probe.Above : Probe → List UInt8 → List UInt8 → Prop
  | exact, bytes, coded => coded < bytes
  | absent, bytes, coded => coded < bytes
  | last, _, _ => True

namespace CharCode

theorem spellable_concat {code : CharCode} {front : List Char}
    (frontSpelled : code.Spellable front) {c : Char} (spelled : code.index.get c ≠ 0) :
    code.Spellable (front ++ [c]) := by
  intro d member
  rcases List.mem_append.mp member with earlier | last
  · exact frontSpelled d earlier
  · rw [List.mem_singleton.mp last]
    exact spelled

theorem encodeChars_spelled {code : CharCode} {key : List Char} (spelled : code.Spellable key)
    (out : List UInt8) : code.encodeChars key out = (true, out ++ key.flatMap code.codeword) := by
  induction key generalizing out with
  | nil => rw [encodeChars, List.flatMap_nil, List.append_nil]
  | cons c key ih =>
      have here : code.index.get c ≠ 0 := spelled c List.mem_cons_self
      have later : code.Spellable key := fun d member => spelled d (List.mem_cons_of_mem c member)
      simp only [encodeChars]
      rw [if_neg here, ih later, List.flatMap_cons, List.append_assoc, codeword]

/-- Only a key whose characters are all spelled is coded. -/
theorem encodeChars_unspelled {code : CharCode} {key : List Char}
    (unspelled : ¬ code.Spellable key) (out : List UInt8) :
    (code.encodeChars key out).1 = false := by
  induction key generalizing out with
  | nil => exact absurd (fun c member => absurd member List.not_mem_nil) unspelled
  | cons c key ih =>
      simp only [encodeChars]
      by_cases here : code.index.get c = 0
      · rw [if_pos here]
      · rw [if_neg here]
        refine ih (fun later => unspelled fun d member => ?_) _
        rcases List.mem_cons.mp member with same | rest
        · rw [same]
          exact here
        · exact later d rest

theorem encodeKey_spelled {code : CharCode} {key : String} (spelled : code.Spellable key.toList) :
    code.encodeKey key [] = (true, key.toList.flatMap code.codeword) :=
  encodeChars_spelled spelled []

/-- Two bytes overwritten, of which the front is read. -/
theorem take_set_two (front : List UInt8) (x y first second : UInt8) (rest : List UInt8) :
    let written := ((front ++ x :: y :: rest).set front.length first).set (front.length + 1) second
    written.take (front.length + 1) = front ++ [first] ∧
      written.take (front.length + 2) = front ++ [first, second] := by
  have written : ((front ++ x :: y :: rest).set front.length first).set (front.length + 1) second =
      front ++ first :: second :: rest := by
    rw [List.set_append_right _ _ (le_refl _), List.set_append_right _ _ (by omega)]
    simp
  simp only [written]
  constructor
  · rw [List.take_length_add_append]
    rfl
  · rw [List.take_length_add_append]
    rfl

theorem put_spells {out bytes : List UInt8} {o w : Nat} (room : o + 2 ≤ out.length)
    (spells : Spells w bytes) :
    ∃ written, put out o w = some (written, o + bytes.length) ∧ written.length = out.length ∧
      written.take (o + bytes.length) = out.take o ++ bytes := by
  obtain ⟨shape, length⟩ := spells
  refine ⟨_, by rw [put, if_pos room, length], by simp, ?_⟩
  have parted : out = out.take o ++ out[o] :: out[o + 1] :: out.drop (o + 2) := by
    rw [← List.drop_eq_getElem_cons, ← List.drop_eq_getElem_cons, List.take_append_drop]
  have frontLength : (out.take o).length = o := by
    rw [List.length_take]
    omega
  obtain ⟨one, two⟩ := take_set_two (out.take o) out[o] out[o + 1] (UInt8.ofNat (w >>> 8))
    (UInt8.ofNat w) (out.drop (o + 2))
  rw [← parted, frontLength] at one two
  rw [← shape, wordBytes]
  by_cases page : w >>> 16 = 2
  · rw [if_pos page]
    exact two
  · rw [if_neg page]
    exact one

namespace Alphabet

variable (a : Alphabet)

theorem codeword_coded {c : Char} {bytes : List UInt8} (coded : a.Coded c bytes) :
    a.code.codeword c = bytes :=
  (a.coded_spells coded).1

/-- A character with a codeword is coded as it. -/
theorem coded_codeword {c : Char} (spelled : a.code.index.get c ≠ 0) :
    a.Coded c (a.code.codeword c) := by
  obtain ⟨bytes, coded⟩ := a.exists_coded spelled
  rw [a.codeword_coded coded]
  exact coded

theorem coded_spelled {c : Char} {bytes : List UInt8} (coded : a.Coded c bytes) :
    a.code.index.get c ≠ 0 :=
  (a.coded_spells coded).ne_zero

theorem prefixCode : PrefixCode a.code.codeword fun c => a.code.index.get c ≠ 0 where
  nonempty c _ := by simp [codeword, wordBytes]
  ascends c d spelled above less :=
    a.coded_diverges (a.coded_codeword spelled) (a.coded_codeword above) less

theorem count_eq : a.code.count = a.chars.length := by
  have length := bounds_length a.widths
  simp only [count, code, new]
  rw [length, Nat.add_sub_cancel, bounds_eq, List.getD_eq_getElem _ _ (by simp)]
  simp [startOf_length, a.covered]

theorem utf8_take : a.code.utf8.take a.code.count = a.chars.map packed := by
  rw [count_eq, code_utf8, List.take_left' (by rw [List.length_map])]

end Alphabet

end CharCode

end Lexindex
