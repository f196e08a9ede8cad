import Mathlib
import Lexindex.CharCode.Decode
import Lexindex.CharCode.OrderKept
import Lexindex.CharCode.Table

/-!
# Decoding undoes encoding

Whether a code was trained or read, it decodes what it encodes, its decoders agree on
every byte string, in place or not, what they accept is UTF-8, and its table is read
back as the same code.
-/

set_option autoImplicit false

namespace Lexindex

open CharCode (Alphabet)

namespace CharCode

/-- A code trained on some keys, or read from some bytes. -/
def Obtained (code : CharCode) : Prop :=
  (∃ ranges bytes, (Tally.ofRanges ranges).chooseFor bytes = some code) ∨
    ∃ bytes, read bytes = some code

/-- Both decoders give `key` back, the one after whatever `out` held. -/
def Returns (code : CharCode) (key : String) : Prop :=
  ∃ coded, code.encodeKey key [] = (true, coded) ∧
    (∀ out, code.decodeInto coded out = some (true, out ++ bytesOf key)) ∧
    code.decodeInPlace coded = some (true, bytesOf key)

/-- The decoders give the same UTF-8, or all fail. -/
def Agrees (code : CharCode) (coded : List UInt8) : Prop :=
  (∃ text : String, code.decodeInto coded [] = some (true, bytesOf text) ∧
      code.decodeInPlace coded = some (true, bytesOf text) ∧
      code.decodeOwned coded = some (some (bytesOf text))) ∨
    (∃ left, code.decodeInto coded [] = some (false, left)) ∧
      code.decodeInPlace coded = some (false, []) ∧
      code.decodeOwned coded = some none

/-- The code not read yet stands at the top of the buffer as it was given. -/
def Unread (coded : List UInt8) (s : InPlace) : Prop :=
  s.buf.drop s.r = coded.drop (s.r - 3 * coded.length)

namespace Alphabet

variable (a : Alphabet)

theorem spelling_unique {coded : List UInt8} {xs ys : List Char} (first : a.Spelling coded xs)
    (second : a.Spelling coded ys) : xs = ys := by
  refine a.prefixCode.flatMap_inj first.1 second.1 ?_
  rw [← first.2, ← second.2]

theorem returns {key : String} (spelled : a.code.Spellable key.toList) : a.code.Returns key := by
  have spelling : a.Spelling (key.toList.flatMap a.code.codeword) key.toList := ⟨spelled, rfl⟩
  refine ⟨_, encodeKey_spelled spelled, fun out => ?_, ?_⟩
  · rcases a.decodeInto_decoded (key.toList.flatMap a.code.codeword) out with
      ⟨chars, decoded, exact⟩ | ⟨nothing, -⟩
    · rw [exact, a.spelling_unique decoded spelling, bytesOf_eq, textOf]
    · exact absurd spelling (nothing _)
  · rcases a.decodeInPlace_decoded (key.toList.flatMap a.code.codeword) with
      ⟨chars, decoded, exact⟩ | ⟨nothing, -⟩
    · rw [exact, a.spelling_unique decoded spelling, bytesOf_eq, textOf]
    · exact absurd spelling (nothing _)

theorem agrees (coded : List UInt8) : a.code.Agrees coded := by
  rcases a.decodeInPlace_decoded coded with ⟨chars, spelling, inPlace⟩ | ⟨nothing, inPlace⟩
  · rcases a.decodeInto_decoded coded [] with ⟨others, decoded, into⟩ | ⟨none, -⟩
    · rw [a.spelling_unique decoded spelling, List.nil_append] at into
      refine .inl ⟨String.ofList chars, ?_, ?_, ?_⟩
      · rw [into, bytesOf_ofList, textOf]
      · rw [inPlace, bytesOf_ofList, textOf]
      · rw [decodeOwned, inPlace, bytesOf_ofList, textOf]
        rfl
    · exact absurd spelling (none chars)
  · rcases a.decodeInto_decoded coded [] with ⟨chars, decoded, -⟩ | ⟨-, into⟩
    · exact absurd decoded (nothing chars)
    · refine .inr ⟨into, inPlace, ?_⟩
      rw [decodeOwned, inPlace]
      rfl

end Alphabet

theorem Obtained.alphabet {code : CharCode} (obtained : code.Obtained) :
    ∃ a : Alphabet, a.code = code := by
  rcases obtained with ⟨_, _, trained⟩ | ⟨_, accepted⟩
  · exact Tally.chooseFor_alphabet trained
  · exact read_alphabet accepted

/-- Decoding undoes encoding and is safe, whatever the code and whatever the bytes. -/
theorem decoding_undoes_encoding {code : CharCode} (obtained : code.Obtained) :
    (∀ key : String, code.Spellable key.toList → code.Returns key) ∧
      (∀ coded, code.Agrees coded) ∧
      (∀ coded s, InPlaceReaches code coded s → Unread coded s) ∧
      ∃ written, code.writeTo = some written ∧ read written = some code := by
  obtain ⟨a, rfl⟩ := obtained.alphabet
  exact ⟨fun key spelled => a.returns spelled, a.agrees,
    fun coded s reached => (a.unfolding_reaches reached).unread, a.read_writeTo⟩

/-- Two letters under one lead, as a table stores them. -/
theorem two_letters_decode :
    ∃ code, read [7, 2, 1, 1, 0x61, 1] = some code ∧
      (∀ key : String, code.Spellable key.toList → code.Returns key) ∧
        (∀ coded, code.Agrees coded) ∧
        (∀ coded s, InPlaceReaches code coded s → Unread coded s) ∧
        ∃ written, code.writeTo = some written ∧ read written = some code := by
  have accepted : (read [7, 2, 1, 1, 0x61, 1]).isSome = true := by decide
  obtain ⟨code, table⟩ := Option.isSome_iff_exists.mp accepted
  exact ⟨code, table, decoding_undoes_encoding (.inr ⟨_, table⟩)⟩

end CharCode

end Lexindex
