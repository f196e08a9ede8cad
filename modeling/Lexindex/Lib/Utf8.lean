import Mathlib
import Lexindex.Lib.PrefixCode

/-!
# UTF-8

The bytes of a string, and of a character by the range its code point falls in.
UTF-8 is an order-keeping prefix code, so strings compare as their bytes do, and the
leading ones of a character's first byte count the bytes it takes.
-/

set_option autoImplicit false

namespace Lexindex

instance byteOrder : LinearOrder UInt8 where
  le_refl := UInt8.le_refl
  le_trans _ _ _ := UInt8.le_trans
  lt_iff_le_not_ge a b := by
    rw [UInt8.lt_iff_toNat_lt, UInt8.le_iff_toNat_le, UInt8.le_iff_toNat_le]
    omega
  le_antisymm _ _ := UInt8.le_antisymm
  le_total := UInt8.le_total
  toDecidableLE := inferInstance

/-- The bytes of a string. -/
def bytesOf (key : String) : List UInt8 :=
  key.toByteArray.data.toList

/-- The string some bytes are, if they are UTF-8. -/
def fromUtf8 (bytes : List UInt8) : Option String :=
  String.fromUTF8? ⟨bytes.toArray⟩

theorem bytesOf_inj {a b : String} (same : bytesOf a = bytesOf b) : a = b := by
  apply String.toByteArray_inj.mp
  apply ByteArray.ext
  exact Array.toList_inj.mp same

theorem fromUtf8_bytesOf (key : String) : fromUtf8 (bytesOf key) = some key := by
  rw [fromUtf8, bytesOf, Array.toArray_toList, String.fromUTF8?]
  exact dif_pos key.isValidUTF8

theorem bytesOf_fromUtf8 {bytes : List UInt8} {key : String} (read : fromUtf8 bytes = some key) :
    bytesOf key = bytes := by
  rw [fromUtf8, String.fromUTF8?] at read
  split at read
  · rw [Option.some.injEq] at read
    rw [← read, bytesOf, String.fromUTF8]
  · cases read

theorem bytesOf_ofList (chars : List Char) :
    bytesOf (String.ofList chars) = chars.flatMap String.utf8EncodeChar := by
  rw [bytesOf, String.toByteArray_ofList, List.utf8Encode]
  simp

theorem bytesOf_replicate_length (n : Nat) :
    (bytesOf (String.ofList (List.replicate n 'b'))).length = n := by
  rw [bytesOf_ofList, List.length_flatMap, List.map_replicate, List.sum_replicate, smul_eq_mul]
  exact Nat.mul_one n

theorem bytesOf_eq (key : String) : bytesOf key = key.toList.flatMap String.utf8EncodeChar := by
  rw [← bytesOf_ofList, String.ofList_toList]

/-- A character's bytes by the range of its code point, as numbers. -/
inductive Utf8Form : Nat → List Nat → Prop where
  | one {v : Nat} (small : v < 0x80) : Utf8Form v [v]
  | two {v : Nat} (least : 0x80 ≤ v) (small : v < 0x800) :
      Utf8Form v [v / 64 + 0xC0, v % 64 + 0x80]
  | three {v : Nat} (least : 0x800 ≤ v) (small : v < 0x10000) :
      Utf8Form v [v / 4096 + 0xE0, v / 64 % 64 + 0x80, v % 64 + 0x80]
  | four {v : Nat} (least : 0x10000 ≤ v) (small : v < 0x110000) :
      Utf8Form v [v / 262144 + 0xF0, v / 4096 % 64 + 0x80, v / 64 % 64 + 0x80, v % 64 + 0x80]

theorem char_lt (c : Char) : c.toNat < 0x110000 := by
  have valid := c.valid
  rcases valid with low | high
  · exact Nat.lt_trans low (by decide)
  · exact high.2

theorem utf8Form (c : Char) :
    ∃ digits, Utf8Form c.toNat digits ∧ String.utf8EncodeChar c = digits.map UInt8.ofNat := by
  have scalar := char_lt c
  unfold String.utf8EncodeChar
  rw [Char.toNat_val]
  generalize c.toNat = v at scalar
  by_cases one : v ≤ 0x7f
  · refine ⟨_, .one (by omega), ?_⟩
    simp [one]
  by_cases two : v ≤ 0x7ff
  · refine ⟨_, .two (by omega) (by omega), ?_⟩
    have lead : v / 64 % 32 = v / 64 := by omega
    simp [one, two, lead]
  by_cases three : v ≤ 0xffff
  · refine ⟨_, .three (by omega) (by omega), ?_⟩
    have lead : v / 4096 % 16 = v / 4096 := by omega
    simp [one, two, three, lead]
  · refine ⟨_, .four (by omega) (by omega), ?_⟩
    have lead : v / 262144 % 8 = v / 262144 := by omega
    simp [one, two, three, lead]

theorem Utf8Form.digit_lt {v : Nat} {digits : List Nat} (form : Utf8Form v digits) :
    ∀ d ∈ digits, d < 256 := by
  cases form <;> simp <;> omega

theorem Utf8Form.length_le {v : Nat} {digits : List Nat} (form : Utf8Form v digits) :
    0 < digits.length ∧ digits.length ≤ 4 := by
  cases form <;> simp

theorem Utf8Form.diverges {v u : Nat} {vs us : List Nat} (below : Utf8Form v vs)
    (above : Utf8Form u us) (less : v < u) : Diverges vs us := by
  cases below with
  | one small =>
      cases above with
      | one _ => exact .of_lt less _ _
      | two _ _ => exact .of_lt (by omega) _ _
      | three _ _ => exact .of_lt (by omega) _ _
      | four _ _ => exact .of_lt (by omega) _ _
  | two least small =>
      cases above with
      | one _ => omega
      | two _ _ => exact .of_le (by omega) fun same => .of_lt (by omega) _ _
      | three _ _ => exact .of_lt (by omega) _ _
      | four _ _ => exact .of_lt (by omega) _ _
  | three least small =>
      cases above with
      | one _ => omega
      | two _ _ => omega
      | three _ _ =>
          exact .of_le (by omega) fun same => .of_le (by omega) fun next =>
            .of_lt (by omega) _ _
      | four _ _ => exact .of_lt (by omega) _ _
  | four least small =>
      cases above with
      | one _ => omega
      | two _ _ => omega
      | three _ _ => omega
      | four _ _ =>
          exact .of_le (by omega) fun same => .of_le (by omega) fun next =>
            .of_le (by omega) fun third => .of_lt (by omega) _ _

theorem ofNat_lt_ofNat {a b : Nat} (less : a < b) (small : b < 256) :
    UInt8.ofNat a < UInt8.ofNat b := by
  rw [UInt8.lt_iff_toNat_lt, UInt8.toNat_ofNat', UInt8.toNat_ofNat']
  omega

/-- UTF-8 keeps the order of the characters, and no character's bytes start another's. -/
theorem utf8_prefixCode : PrefixCode String.utf8EncodeChar fun _ => True where
  nonempty c _ := String.utf8EncodeChar_ne_nil
  ascends a b _ _ less := by
    obtain ⟨aDigits, aForm, aExact⟩ := utf8Form a
    obtain ⟨bDigits, bForm, bExact⟩ := utf8Form b
    rw [aExact, bExact]
    refine (aForm.diverges bForm less).map _ fun x _ y yMember below => ?_
    exact ofNat_lt_ofNat below (bForm.digit_lt y yMember)

theorem bytesOf_lt_iff (a b : String) : bytesOf a < bytesOf b ↔ a.toList < b.toList := by
  rw [bytesOf_eq, bytesOf_eq]
  exact utf8_prefixCode.flatMap_lt_iff (fun _ _ => trivial) (fun _ _ => trivial)

theorem bytesOf_prefix_iff (a b : String) : bytesOf a <+: bytesOf b ↔ a.toList <+: b.toList := by
  rw [bytesOf_eq, bytesOf_eq]
  exact utf8_prefixCode.flatMap_prefix_iff (fun _ _ => trivial) (fun _ _ => trivial)

end Lexindex
