import Mathlib
import Lexindex.CharCode.Order

/-!
# Decoding

Both decoders read the same codewords and store the same characters.  The one that
decodes in place keeps its stores behind the codewords it has not read: a codeword of
`k` bytes is at most four of text, and the code stands three times its length ahead.
-/

set_option autoImplicit false

namespace Lexindex.CharCode

/-- What four bytes stored at `at_` leave: the text up to them, and what is past them. -/
theorem store_spec {out : List UInt8} {at_ u : Nat} (room : at_ + 4 ≤ out.length) :
    ∃ stored, store out at_ (leBytes 4 u) = some stored ∧ stored.length = out.length ∧
      (∀ k, k ≤ 4 → stored.take (at_ + k) = out.take at_ ++ (leBytes 4 u).take k) ∧
      ∀ k, at_ + 4 ≤ k → stored.drop k = out.drop k := by
  have width := leBytes_length 4 u
  have front : (out.take at_).length = at_ := by
    rw [List.length_take]
    omega
  refine ⟨out.take at_ ++ (leBytes 4 u ++ out.drop (at_ + 4)), ?_, ?_, fun k small => ?_,
    fun k past => ?_⟩
  · rw [store, width, if_pos room]
  · rw [List.length_append, List.length_append, front, width, List.length_drop]
    omega
  · rw [List.take_append, List.take_of_length_le (by omega), front, Nat.add_sub_cancel_left,
      List.take_append_of_le_length (by omega)]
  · rw [List.drop_append, List.drop_of_length_le (by omega), front, List.nil_append,
      List.drop_append, List.drop_of_length_le (by omega), width, List.nil_append,
      List.drop_drop]
    congr 1
    omega

theorem utf8At_drop (code : CharCode) (buf : List UInt8) (at_ : Nat) :
    code.utf8At buf at_ = code.utf8At (buf.drop at_) 0 := by
  simp only [utf8At, List.getElem?_drop, Nat.add_zero, Nat.zero_add]

theorem decodeFrom_stop {code : CharCode} {coded out : List UInt8} {at_ w : Nat}
    (more : at_ < coded.length) (stops : code.utf8At coded at_ = some none) :
    code.decodeFrom coded at_ w out = some (false, out.take w) := by
  rw [decodeFrom, if_pos more]
  split
  · rename_i read
    rw [stops] at read
    simp at read
  · rfl
  · rename_i read
    rw [stops] at read
    simp at read

theorem decodeFrom_next {code : CharCode} {coded out : List UInt8} {at_ w u len : Nat}
    (more : at_ < coded.length) (read : code.utf8At coded at_ = some (some (u, len))) :
    code.decodeFrom coded at_ w out =
      (store out w (leBytes 4 u)).bind fun out =>
        code.decodeFrom coded (at_ + len) (w + packedLen u) out := by
  rw [decodeFrom, if_pos more]
  split
  · rename_i stops
    rw [read] at stops
    simp at stops
  · rename_i stops
    rw [read] at stops
    simp at stops
  · rename_i v k again
    rw [read, Option.some.injEq, Option.some.injEq, Prod.mk.injEq] at again
    rw [again.1, again.2]

/-- What some characters are in UTF-8. -/
def textOf (chars : List Char) : List UInt8 :=
  chars.flatMap String.utf8EncodeChar

theorem textOf_concat (chars : List Char) (c : Char) :
    textOf (chars ++ [c]) = textOf chars ++ String.utf8EncodeChar c := by
  rw [textOf, List.flatMap_append, List.flatMap_singleton, textOf]

/-- Text after a packed character is stored past it. -/
theorem store_packed {out : List UInt8} {at_ : Nat} (c : Char) (room : at_ + 4 ≤ out.length) :
    ∃ stored, store out at_ (leBytes 4 (packed c)) = some stored ∧
      stored.length = out.length ∧
      stored.take (at_ + packedLen (packed c)) = out.take at_ ++ String.utf8EncodeChar c ∧
      ∀ k, at_ + 4 ≤ k → stored.drop k = out.drop k := by
  obtain ⟨stored, exact, length, taken, kept⟩ := @store_spec out at_ (packed c) room
  have few : packedLen (packed c) ≤ 4 := by
    rw [packedLen_packed]
    exact (utf8EncodeChar_length c).2
  exact ⟨stored, exact, length, by rw [taken _ few, take_packed], kept⟩

namespace Alphabet

variable (a : Alphabet)

/-- The characters some code spells, coded. -/
def Spelling (coded : List UInt8) (chars : List Char) : Prop :=
  a.code.Spellable chars ∧ coded = chars.flatMap a.code.codeword

theorem Spelling.concat {a : Alphabet} {coded bytes : List UInt8} {chars : List Char} {c : Char}
    (spelling : a.Spelling coded chars) (next : a.Coded c bytes) :
    a.Spelling (coded ++ bytes) (chars ++ [c]) := by
  refine ⟨spellable_concat spelling.1 (a.coded_spelled next), ?_⟩
  · rw [List.flatMap_append, List.flatMap_singleton, ← spelling.2, a.codeword_coded next]

/-- Code that stops where no codeword starts spells nothing. -/
theorem not_spelling {coded : List UInt8} {at_ : Nat} {front : List Char}
    (spelling : a.Spelling (coded.take at_) front) (inside : at_ < coded.length)
    (stops : a.code.utf8At coded at_ = some none) (chars : List Char) :
    ¬ a.Spelling coded chars := by
  rintro ⟨spelled, exact⟩
  have before : (front.flatMap a.code.codeword) <+: chars.flatMap a.code.codeword := by
    rw [← spelling.2, ← exact]
    exact List.take_prefix at_ coded
  obtain ⟨rest, shape⟩ := (a.prefixCode.flatMap_prefix_iff spelling.1 spelled).mp before
  subst shape
  have tail : coded.drop at_ = rest.flatMap a.code.codeword := by
    have parts := List.take_append_drop at_ coded
    rw [List.flatMap_append, ← spelling.2] at exact
    exact List.append_cancel_left (parts.trans exact)
  cases rest with
  | nil =>
      have length := congrArg List.length tail
      rw [List.length_drop, List.flatMap_nil, List.length_nil] at length
      omega
  | cons c rest =>
      have coded := a.coded_codeword (spelled c (by simp))
      rw [List.flatMap_cons] at tail
      rw [a.utf8At_coded coded tail] at stops
      simp at stops

/-- `decodeInto`'s loop at `at_` in the code: what is before it is spelled in `out`, which has
four bytes for every byte after it. -/
structure Decoded (coded front : List UInt8) (at_ w : Nat) (out : List UInt8) : Prop where
  inside : at_ ≤ coded.length
  room : w + 4 * (coded.length - at_) ≤ out.length
  spelled : ∃ chars, a.Spelling (coded.take at_) chars ∧ out.take w = front ++ textOf chars

/-- One codeword decoded. -/
theorem Decoded.step {a : Alphabet} {coded front out : List UInt8} {at_ w : Nat}
    (decoded : a.Decoded coded front at_ w out) {c : Char} {bytes rest : List UInt8}
    (next : a.Coded c bytes) (stands : coded.drop at_ = bytes ++ rest) :
    ∃ stored, store out w (leBytes 4 (packed c)) = some stored ∧
      a.Decoded coded front (at_ + bytes.length) (w + packedLen (packed c)) stored := by
  obtain ⟨positive, -⟩ := a.coded_length next
  have inside := decoded.inside
  have room := decoded.room
  obtain ⟨chars, spelling, text⟩ := decoded.spelled
  have ends : at_ + bytes.length ≤ coded.length := by
    have length := congrArg List.length stands
    rw [List.length_drop, List.length_append] at length
    omega
  have few : packedLen (packed c) ≤ 4 := by
    rw [packedLen_packed]
    exact (utf8EncodeChar_length c).2
  obtain ⟨stored, exact, length, taken, -⟩ := @store_packed out w c (by omega)
  refine ⟨stored, exact, ends, by omega, chars ++ [c], ?_, ?_⟩
  · rw [List.take_add, stands, List.take_left]
    exact spelling.concat next
  · rw [taken, text, textOf_concat, List.append_assoc]

/-- What a decoder that stored everything read leaves, and one that was stopped. -/
theorem decodeFrom_decoded {coded front out : List UInt8} {at_ w : Nat}
    (decoded : a.Decoded coded front at_ w out) :
    (∃ chars, a.Spelling coded chars ∧
        a.code.decodeFrom coded at_ w out = some (true, front ++ textOf chars)) ∨
      (∀ chars, ¬ a.Spelling coded chars) ∧
        ∃ left, a.code.decodeFrom coded at_ w out = some (false, left) := by
  induction steps : coded.length - at_ using Nat.strong_induction_on
    generalizing at_ w out with
  | _ steps ih =>
      by_cases more : at_ < coded.length
      · rcases a.utf8At_cases coded at_ with stops | ⟨c, bytes, rest, next, stands, read⟩
        · obtain ⟨chars, spelling, -⟩ := decoded.spelled
          refine .inr ⟨a.not_spelling spelling more stops, out.take w, ?_⟩
          rw [decodeFrom_stop more stops]
        · obtain ⟨stored, exact, after⟩ := decoded.step next stands
          obtain ⟨positive, -⟩ := a.coded_length next
          have later := ih (coded.length - (at_ + bytes.length)) (by omega) after rfl
          rw [decodeFrom_next more read, exact, Option.bind_some]
          exact later
      · rw [decodeFrom, if_neg more]
        obtain ⟨chars, spelling, text⟩ := decoded.spelled
        rw [List.take_of_length_le (by omega)] at spelling
        exact .inl ⟨chars, spelling, by rw [text]⟩

theorem decodeInto_decoded (coded out : List UInt8) :
    (∃ chars, a.Spelling coded chars ∧
        a.code.decodeInto coded out = some (true, out ++ textOf chars)) ∨
      (∀ chars, ¬ a.Spelling coded chars) ∧
        ∃ left, a.code.decodeInto coded out = some (false, left) := by
  refine a.decodeFrom_decoded ⟨Nat.zero_le _, ?_, [], ⟨?_, rfl⟩, ?_⟩
  · rw [List.length_append, List.length_replicate]
    omega
  · exact fun c member => absurd member List.not_mem_nil
  · rw [List.take_left, textOf, List.flatMap_nil, List.append_nil]

end Alphabet

end Lexindex.CharCode

/-!
## Decoding in place

The text stays behind the code: with `k` bytes of code read the text is at most `4k`
long, so what is stored for the next codeword ends by the codeword after it, and the
code not read yet is what it was.
-/

namespace Lexindex.CharCode

/-- The states the loop of `decodeInPlace` passes through. -/
inductive InPlaceReaches (code : CharCode) (coded : List UInt8) : InPlace → Prop where
  | start : InPlaceReaches code coded (inPlaceStart coded)
  | step {s next : InPlace} (reached : InPlaceReaches code coded s)
      (more : s.r < 4 * coded.length) (stepped : code.inPlaceStep s = some (some next)) :
      InPlaceReaches code coded next

theorem inPlaceFrom_stop {code : CharCode} {last : Nat} {s : InPlace} (more : s.r < last)
    (stops : code.inPlaceStep s = some none) : code.inPlaceFrom last s = some (false, []) := by
  rw [inPlaceFrom, if_pos more]
  split
  · rename_i step
    rw [stops] at step
    simp at step
  · rfl
  · rename_i step
    rw [stops] at step
    simp at step

theorem inPlaceFrom_next {code : CharCode} {last : Nat} {s next : InPlace} (more : s.r < last)
    (stepped : code.inPlaceStep s = some (some next)) :
    code.inPlaceFrom last s = code.inPlaceFrom last next := by
  rw [inPlaceFrom, if_pos more]
  split
  · rename_i step
    rw [stepped] at step
    simp at step
  · rename_i step
    rw [stepped] at step
    simp at step
  · rename_i other step
    rw [stepped, Option.some.injEq, Option.some.injEq] at step
    rw [step]

namespace Alphabet

variable (a : Alphabet)

/-- The loop's invariant: what is read is spelled at the bottom of the buffer, and what is
not stands at its top. -/
structure Unfolding (coded : List UInt8) (s : InPlace) : Prop where
  sized : s.buf.length = 4 * coded.length
  least : 3 * coded.length ≤ s.r
  most : s.r ≤ 4 * coded.length
  behind : s.w ≤ 4 * (s.r - 3 * coded.length)
  unread : s.buf.drop s.r = coded.drop (s.r - 3 * coded.length)
  spelled : ∃ chars, a.Spelling (coded.take (s.r - 3 * coded.length)) chars ∧
    s.buf.take s.w = textOf chars

theorem unfolding_start (coded : List UInt8) : a.Unfolding coded (inPlaceStart coded) := by
  have top : ((coded ++ List.replicate (4 * coded.length - coded.length) 0).take
      (3 * coded.length)).length = 3 * coded.length := by
    rw [List.length_take, List.length_append, List.length_replicate]
    omega
  have nothing : a.code.Spellable [] := fun c member => absurd member List.not_mem_nil
  refine ⟨?_, le_refl _, ?_, Nat.zero_le _, ?_, [], ⟨nothing, ?_⟩, ?_⟩
  · simp only [inPlaceStart]
    rw [List.length_append, top]
    omega
  · simp only [inPlaceStart]
    omega
  · simp only [inPlaceStart]
    rw [List.drop_left' top, Nat.sub_self, List.drop_zero]
  · simp only [inPlaceStart]
    rw [Nat.sub_self, List.take_zero, List.flatMap_nil]
  · rfl

/-- The reader sees the code as it was. -/
theorem Unfolding.utf8At {a : Alphabet} {coded : List UInt8} {s : InPlace}
    (unfolding : a.Unfolding coded s) :
    a.code.utf8At s.buf s.r = a.code.utf8At coded (s.r - 3 * coded.length) := by
  rw [utf8At_drop, unfolding.unread, ← utf8At_drop]

/-- One codeword in place: it is read whole before its character is stored, and the store
ends by the codeword after it. -/
theorem Unfolding.step {a : Alphabet} {coded : List UInt8} {s : InPlace}
    (unfolding : a.Unfolding coded s) (more : s.r < 4 * coded.length) :
    (a.code.inPlaceStep s = some none ∧ ∀ chars, ¬ a.Spelling coded chars) ∨
      ∃ next, a.code.inPlaceStep s = some (some next) ∧ a.Unfolding coded next := by
  have least := unfolding.least
  have behind := unfolding.behind
  have sized := unfolding.sized
  obtain ⟨chars, spelling, text⟩ := unfolding.spelled
  have same := unfolding.utf8At
  rcases a.utf8At_cases coded (s.r - 3 * coded.length) with
    stops | ⟨c, bytes, rest, next, stands, read⟩
  · rw [stops] at same
    refine .inl ⟨by simp only [inPlaceStep, same], ?_⟩
    exact a.not_spelling spelling (by omega) stops
  · rw [read] at same
    obtain ⟨positive, -⟩ := a.coded_length next
    have ends : s.r - 3 * coded.length + bytes.length ≤ coded.length := by
      have length := congrArg List.length stands
      rw [List.length_drop, List.length_append] at length
      omega
    have few : packedLen (packed c) ≤ 4 := by
      rw [packedLen_packed]
      exact (utf8EncodeChar_length c).2
    obtain ⟨stored, exact, length, taken, kept⟩ := @store_packed s.buf s.w c (by omega)
    have rank : s.r + bytes.length - 3 * coded.length =
        s.r - 3 * coded.length + bytes.length := by omega
    refine .inr ⟨{ buf := stored, r := s.r + bytes.length, w := s.w + packedLen (packed c) },
      by simp only [inPlaceStep, same, exact, Option.map_some], ?_, ?_, ?_, ?_, ?_,
      chars ++ [c], ?_, ?_⟩
    · exact length.trans sized
    · change 3 * coded.length ≤ s.r + bytes.length
      omega
    · change s.r + bytes.length ≤ 4 * coded.length
      omega
    · change s.w + packedLen (packed c) ≤ 4 * (s.r + bytes.length - 3 * coded.length)
      omega
    · change stored.drop (s.r + bytes.length) =
        coded.drop (s.r + bytes.length - 3 * coded.length)
      rw [kept _ (by omega), ← List.drop_drop, unfolding.unread, List.drop_drop, rank]
    · change a.Spelling (coded.take (s.r + bytes.length - 3 * coded.length)) (chars ++ [c])
      rw [rank, List.take_add, stands, List.take_left]
      exact spelling.concat next
    · change stored.take (s.w + packedLen (packed c)) = textOf (chars ++ [c])
      rw [taken, text, textOf_concat]

/-- Every state of the loop keeps the code it has not read. -/
theorem unfolding_reaches {coded : List UInt8} {s : InPlace}
    (reached : InPlaceReaches a.code coded s) : a.Unfolding coded s := by
  induction reached with
  | start => exact a.unfolding_start coded
  | step _ more stepped ih =>
      rcases ih.step more with ⟨stops, -⟩ | ⟨next, exact, unfolding⟩
      · rw [stepped] at stops
        simp at stops
      · rw [stepped, Option.some.injEq, Option.some.injEq] at exact
        rw [exact]
        exact unfolding

theorem inPlaceFrom_unfolding {coded : List UInt8} {s : InPlace}
    (unfolding : a.Unfolding coded s) :
    (∃ chars, a.Spelling coded chars ∧
        a.code.inPlaceFrom (4 * coded.length) s = some (true, textOf chars)) ∨
      (∀ chars, ¬ a.Spelling coded chars) ∧
        a.code.inPlaceFrom (4 * coded.length) s = some (false, []) := by
  induction steps : 4 * coded.length - s.r using Nat.strong_induction_on generalizing s with
  | _ steps ih =>
      by_cases more : s.r < 4 * coded.length
      · rcases unfolding.step more with ⟨stops, nothing⟩ | ⟨next, exact, after⟩
        · exact .inr ⟨nothing, inPlaceFrom_stop more stops⟩
        · have advances := inPlaceStep_advances exact
          have later := ih (4 * coded.length - next.r) (by omega) after rfl
          rw [inPlaceFrom_next more exact]
          exact later
      · obtain ⟨chars, spelling, text⟩ := unfolding.spelled
        have least := unfolding.least
        have most := unfolding.most
        rw [List.take_of_length_le (by omega)] at spelling
        rw [inPlaceFrom, if_neg more, text]
        exact .inl ⟨chars, spelling, rfl⟩

theorem decodeInPlace_decoded (coded : List UInt8) :
    (∃ chars, a.Spelling coded chars ∧
        a.code.decodeInPlace coded = some (true, textOf chars)) ∨
      (∀ chars, ¬ a.Spelling coded chars) ∧ a.code.decodeInPlace coded = some (false, []) :=
  a.inPlaceFrom_unfolding (a.unfolding_start coded)

end Alphabet

end Lexindex.CharCode
