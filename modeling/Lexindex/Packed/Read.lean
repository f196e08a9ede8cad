import Mathlib
import Lexindex.Packed.Exact

/-!
# Reading an alphabet

A table is read exactly where an alphabet could have been written so, and the codes of what is read
can be told apart.
-/

set_option autoImplicit false

namespace Lexindex.Packed

open Alphabet

/-! ## Reading a table -/

theorem nameNew_spec {mark : Nat → Nat} (bytes : List UInt8) : ∀ {k : Nat} {code code' : List Nat},
    (∀ i < k + bytes.length, mark i ≠ UNNAMED) → code.length = 256 →
      ((bytes.zipIdx k).foldlM (fun code (b, i) =>
          if code.getD b.toNat UNNAMED ≠ UNNAMED then none else some (code.set b.toNat (mark i)))
        code = some code' ↔
      bytes.Nodup ∧ (∀ b ∈ bytes, code.getD b.toNat UNNAMED = UNNAMED) ∧
        code' = (bytes.zipIdx k).foldl (fun code (b, i) => code.set b.toNat (mark i)) code) := by
  induction bytes with
  | nil =>
      intro k code code' _ _
      simp [eq_comm]
  | cons first bytes ih =>
      intro k code code' marks size
      have byte : first.toNat < 256 := first.toNat_lt
      rw [List.zipIdx_cons, List.foldlM_cons, List.foldl_cons]
      simp only
      have later := @ih (k + 1) (code.set first.toNat (mark k)) code'
        (fun i less => marks i (by rw [List.length_cons]; omega)) (by rwa [List.length_set])
      by_cases fresh : code.getD first.toNat UNNAMED = UNNAMED
      · rw [if_neg (not_not_intro fresh)]
        simp only [Option.bind_eq_bind, Option.bind_some]
        rw [later, List.nodup_cons, List.forall_mem_cons]
        -- The first byte is named now, and no other is.
        have named : ∀ b, (code.set first.toNat (mark k)).getD b.toNat UNNAMED =
            if b = first then mark k else code.getD b.toNat UNNAMED := by
          intro b
          rw [List.getD_eq_getElem?_getD, List.getElem?_set]
          by_cases same : b = first
          · rw [if_pos same, same, if_pos rfl, if_pos (size.symm ▸ byte)]
            rfl
          · rw [if_neg same, if_neg fun equal => same (UInt8.toNat_inj.mp equal).symm,
              List.getD_eq_getElem?_getD]
        constructor
        · rintro ⟨distinct, unnamed, same⟩
          have absent : first ∉ bytes := by
            intro member
            have none_ := unnamed first member
            rw [named, if_pos rfl] at none_
            exact marks k (by rw [List.length_cons]; omega) none_
          refine ⟨⟨absent, distinct⟩, ⟨fresh, ?_⟩, same⟩
          intro b member
          have none_ := unnamed b member
          rwa [named, if_neg fun (equal : b = first) => absent (equal ▸ member)] at none_
        · rintro ⟨⟨absent, distinct⟩, ⟨_, unnamed⟩, same⟩
          refine ⟨distinct, ?_, same⟩
          intro b member
          rw [named, if_neg fun (equal : b = first) => absent (equal ▸ member)]
          exact unnamed b member
      · rw [if_pos fresh]
        simp only [Option.bind_eq_bind, Option.bind_none]
        refine iff_of_false (by simp) ?_
        rintro ⟨_, unnamed, _⟩
        exact fresh (unnamed first (List.mem_cons_self ..))

theorem escaped_eq {i : Nat} (small : i < 256) : escaped i = 2 ^ 15 + i := by
  rw [escaped, ← Nat.shiftLeft_add_eq_or_of_lt (show i < 2 ^ 15 by omega), Nat.shiftLeft_eq, one_mul]

/-- Both tables named, each byte once. -/
theorem named_iff {one two : List UInt8} (few : one.length ≤ 256 ∧ two.length ≤ 256)
    {code : List Nat} :
    ((do
      let first ← nameNew id one (List.replicate 256 UNNAMED)
      nameNew escaped two first) = some code) ↔
      (one ++ two).Nodup ∧
        code = nameAll escaped two (nameAll id one (List.replicate 256 UNNAMED)) := by
  have firstSpec := fun code' => @nameNew_spec id one 0 (List.replicate 256 UNNAMED) code'
    (by
      intro i small
      rw [UNNAMED, id]
      omega) List.length_replicate
  have fresh : ∀ b : UInt8, (List.replicate 256 UNNAMED).getD b.toNat UNNAMED = UNNAMED := by
    intro b
    rw [List.getD_eq_getElem?_getD, List.getElem?_replicate]
    split <;> rfl
  have size : (nameAll id one (List.replicate 256 UNNAMED)).length = 256 := by
    rw [nameAll, nameAll_length, List.length_replicate]
  have secondSpec := @nameNew_spec escaped two 0 (nameAll id one (List.replicate 256 UNNAMED)) code
    (by
      intro i small
      rw [escaped_eq (by omega), UNNAMED]
      omega) size
  -- A byte has no code yet where the first table does not name it.
  have unnamed (distinct : one.Nodup) (b : UInt8) :
      (nameAll id one (List.replicate 256 UNNAMED)).getD b.toNat UNNAMED = UNNAMED ↔ b ∉ one := by
    have byte : b.toNat < 256 := b.toNat_lt
    constructor
    · intro none_ member
      obtain ⟨i, here⟩ := List.mem_iff_getElem?.mp member
      obtain ⟨inside, -⟩ := List.getElem?_eq_some_iff.mp here
      rw [List.getD_eq_getElem?_getD, nameAll,
        nameAll_named one distinct here (by rwa [List.length_replicate]), Option.getD_some, id,
        UNNAMED] at none_
      omega
    · intro absent
      have kept := @nameAll_other id b one absent 0 (List.replicate 256 UNNAMED)
      have before := fresh b
      rw [List.getD_eq_getElem?_getD] at before ⊢
      rw [nameAll, kept, before]
  rw [Option.bind_eq_bind, Option.bind_eq_some_iff, List.nodup_append]
  constructor
  · rintro ⟨first, named, second⟩
    obtain ⟨oneDistinct, -, rfl⟩ := (firstSpec first).mp named
    obtain ⟨twoDistinct, absent, whole⟩ := secondSpec.mp second
    refine ⟨⟨oneDistinct, twoDistinct, ?_⟩, whole⟩
    intro b inOne c inTwo same
    exact (unnamed oneDistinct c).mp (absent c inTwo) (same ▸ inOne)
  · rintro ⟨⟨oneDistinct, twoDistinct, apart⟩, whole⟩
    refine ⟨_, (firstSpec _).mpr ⟨oneDistinct, fun b _ => fresh b, rfl⟩, secondSpec.mpr ?_⟩
    refine ⟨twoDistinct, ?_, whole⟩
    intro b inTwo
    exact (unnamed oneDistinct b).mpr fun inOne => apart b inOne b inTwo rfl

theorem length_le_of_width {width n : Nat} (narrow : width ≤ 8) (few : n ≤ 2 ^ width) : n ≤ 256 := by
  have power : 2 ^ width ≤ 2 ^ 8 := Nat.pow_le_pow_right (by omega) narrow
  omega

/-- A table is read exactly where an alphabet could have been written so. -/
theorem read_iff (bytes : List UInt8) (a : Alphabet) :
    Alphabet.read bytes = some a ↔ a.Writable ∧ a.writeTo = bytes := by
  constructor
  · intro got
    match bytes, got with
    | width :: ones :: twos :: rest, got =>
        rw [Alphabet.read] at got
        simp only at got
        by_cases bad : ¬ (1 ≤ width.toNat ∧ width.toNat ≤ 8) ∨
            rest.length ≠ ones.toNat + 1 + twos.toNat
        · rw [if_pos bad] at got
          cases got
        · rw [if_neg bad] at got
          rw [not_or, not_not, not_not] at bad
          obtain ⟨wide, size⟩ := bad
          have oneSize : (rest.take (ones.toNat + 1)).length = ones.toNat + 1 := by
            rw [List.length_take]
            omega
          have twoSize : (rest.drop (ones.toNat + 1)).length = twos.toNat := by
            rw [List.length_drop]
            omega
          have whole := List.take_append_drop (ones.toNat + 1) rest
          generalize rest.take (ones.toNat + 1) = one at got oneSize whole
          generalize rest.drop (ones.toNat + 1) = two at got twoSize whole
          by_cases large : 2 ^ width.toNat < one.length ∨ top width.toNat < two.length
          · rw [if_pos large] at got
            cases got
          · rw [if_neg large] at got
            rw [not_or, Nat.not_lt, Nat.not_lt] at large
            by_cases partial_ : two ≠ [] ∧ one.length ≠ top width.toNat
            · rw [if_pos partial_] at got
              cases got
            · rw [if_neg partial_] at got
              have full : two ≠ [] → one.length = top width.toNat := by
                intro some_
                by_contra differs
                exact partial_ ⟨some_, differs⟩
              obtain ⟨first, named, got⟩ := Option.bind_eq_some_iff.mp got
              obtain ⟨code, second, got⟩ := Option.bind_eq_some_iff.mp got
              rw [Option.pure_def, Option.some.injEq] at got
              have few : one.length ≤ 256 ∧ two.length ≤ 256 := by
                have less := top_lt width.toNat
                exact ⟨length_le_of_width wide.2 large.1,
                  length_le_of_width wide.2 (by omega)⟩
              obtain ⟨distinct, codeIs⟩ := (named_iff few).mp
                (Option.bind_eq_some_iff.mpr ⟨first, named, second⟩)
              subst got
              refine ⟨⟨⟨wide, large.1, large.2, fun some_ => Nat.le_of_eq (full some_), distinct,
                codeIs⟩, ?_, full⟩, ?_⟩
              · intro none_
                simp only at none_
                rw [none_, List.length_nil] at oneSize
                omega
              · rw [writeTo]
                simp only
                rw [oneSize, twoSize, whole, Nat.add_sub_cancel, UInt8.ofNat_toNat,
                  UInt8.ofNat_toNat, UInt8.ofNat_toNat]
    | [], got => cases got
    | [_], got => cases got
    | [_, _], got => cases got
  · rintro ⟨⟨decodable, some_, full⟩, rfl⟩
    have wide := decodable.width
    have less := top_lt a.width
    have few : a.one.length ≤ 256 ∧ a.two.length < 256 := by
      have most := decodable.two
      have power := decodable.power_le
      exact ⟨length_le_of_width wide.2 decodable.one, by omega⟩
    have positive : 0 < a.one.length := List.length_pos_of_ne_nil some_
    have widthIs : (UInt8.ofNat a.width).toNat = a.width := by
      rw [UInt8.toNat_ofNat', Nat.mod_eq_of_lt (by omega)]
    have onesIs : (UInt8.ofNat (a.one.length - 1)).toNat + 1 = a.one.length := by
      rw [UInt8.toNat_ofNat', Nat.mod_eq_of_lt (by omega)]
      omega
    have twosIs : (UInt8.ofNat a.two.length).toNat = a.two.length := by
      rw [UInt8.toNat_ofNat', Nat.mod_eq_of_lt few.2]
    have named := (@named_iff a.one a.two ⟨few.1, Nat.le_of_lt few.2⟩ a.code).mpr
      ⟨decodable.distinct, decodable.code⟩
    obtain ⟨first, one, two⟩ := Option.bind_eq_some_iff.mp named
    rw [writeTo, Alphabet.read]
    simp only [widthIs, onesIs, twosIs, List.take_left, List.drop_left]
    rw [if_neg (by
        rw [not_or, not_not, not_not]
        exact ⟨wide, List.length_append⟩),
      if_neg (by
        rw [not_or, Nat.not_lt, Nat.not_lt]
        exact ⟨decodable.one, decodable.two⟩),
      if_neg fun both => both.2 (full both.1), one]
    simp only [Option.bind_eq_bind, Option.bind_some]
    rw [two]
    rfl

/-! ## The alphabet of a shard -/

/-- Whatever bytes a histogram counts, any suffix of them is decoded from where it was recorded to
start in a run; where the run is of what was counted, the price is its bits; an alphabet is read back
as it was written, and just what could have been written is read; and the codes of what is read are
a prefix code. -/
theorem alphabet_exact :
    (∀ (freq : UInt8 → Nat) (a : Alphabet) (price : Nat), Alphabet.of freq = some (a, price) →
      ∀ suffixes : List (List UInt8), (∀ s ∈ suffixes, ∀ b ∈ s, 0 < freq b) →
        (∀ (k : Nat) (s : List UInt8), suffixes[k]? = some s → ∃ start len,
          (a.encodeRun suffixes Bits.empty).1[k]? = some (start, len) ∧
          ∀ cap, a.decodeInto ⟨(a.encodeRun suffixes Bits.empty).2.drain, start, a.width, len⟩ cap =
            some (s.take cap)) ∧
        ((∀ b, freq b = suffixes.flatten.count b) →
          price = (a.encodeRun suffixes Bits.empty).2.position % 2 ^ 64) ∧
        Alphabet.read a.writeTo = some a) ∧
    (∀ bytes a, Alphabet.read bytes = some a ↔ a.Writable ∧ a.writeTo = bytes) ∧
    ∀ bytes a, Alphabet.read bytes = some a → ∀ b c, a.Covers b → a.Covers c →
      a.codesOf b <+: a.codesOf c → b = c := by
  refine ⟨?_, read_iff, ?_⟩
  · intro freq a price built suffixes counted
    obtain ⟨writable, covers, priced, tables⟩ := of_spec built
    have decodable := writable.decodable
    have covered : ∀ s ∈ suffixes, ∀ b ∈ s, a.Covers b :=
      fun s inRun b inside => covers b (counted s inRun b inside)
    obtain ⟨-, positions, spans⟩ := encodeRun_spec decodable suffixes empty_holds
    refine ⟨?_, ?_, (read_iff _ a).mpr ⟨writable, rfl⟩⟩
    · intro k s here
      have span := spans k s here
      exact ⟨_, _, span, decodeInto_run decodable suffixes covered here span⟩
    · intro histogram
      obtain ⟨distinct, ranks, entries⟩ := rank_spec freq
      have all : ∀ b, b ∈ (rank freq).map Prod.snd ↔ 0 < suffixes.flatten.count b := by
        intro b
        rw [ranks, histogram]
      have same : (((rank freq).map Prod.snd).map fun b =>
          suffixes.flatten.count b * (a.codesOf b).length) =
            (rank freq).map fun entry => entry.1 * (a.codesOf entry.2).length := by
        rw [List.map_map]
        apply List.map_congr_left
        intro entry member
        rw [entries entry member, histogram]
        rfl
      have empty : Bits.empty.position = 0 := rfl
      rw [priced, bitsAt_eq decodable tables distinct, positions, empty, Nat.zero_add,
        sum_codes a suffixes.flatten distinct all, same]
  · intro bytes a got b c left right begins
    exact codesOf_prefix ((read_iff bytes a).mp got).1.decodable left right begins

/-- A histogram of one byte. -/
def onlyA (b : UInt8) : Nat :=
  if b = 97 then 1 else 0

/-- Its alphabet. -/
def justA : Alphabet :=
  { width := 1, one := [97], two := []
    code := nameAll id [97] (List.replicate 256 UNNAMED) }

theorem of_onlyA : Alphabet.of onlyA = some (justA, 1) := by
  have counted : (((List.range 256).map UInt8.ofNat).filter fun b => 0 < onlyA b) = [97] := by
    decide +kernel
  have ranked : rank onlyA = [(1, 97)] := by
    rw [rank, counted]
    exact List.mergeSort_singleton _
  rw [Alphabet.of, ranked]
  rfl

theorem alphabet_exact_onlyA : ∃ start len,
    (justA.encodeRun [[97]] Bits.empty).1[0]? = some (start, len) ∧
      ∀ cap, justA.decodeInto ⟨(justA.encodeRun [[97]] Bits.empty).2.drain, start, 1, len⟩ cap =
        some ([97].take cap) :=
  (alphabet_exact.1 onlyA justA 1 of_onlyA [[97]] (by simp [onlyA])).1 0 [97] rfl

/-- A table of two bytes and an escaped third, of two bits a code: a code of its own for each, one
short of the full first table that a second stands beside. -/
def shortTable : Alphabet :=
  { width := 2, one := [97, 98], two := [99]
    code := nameAll escaped [99] (nameAll id [97, 98] (List.replicate 256 UNNAMED)) }

/-- A prefix code need not be read, and a byte that the histogram does not count need not be
decoded. -/
theorem shortTable_refused :
    ((∀ b c, shortTable.codesOf b <+: shortTable.codesOf c → b = c) ∧
      shortTable.writeTo = [2, 1, 1, 97, 98, 99] ∧
      Alphabet.read [2, 1, 1, 97, 98, 99] = none) ∧
    Alphabet.of onlyA = some (justA, 1) ∧
      (justA.encodeRun [[98]] Bits.empty).1[0]? = some (0, 10) ∧
      justA.decodeInto ⟨(justA.encodeRun [[98]] Bits.empty).2.drain, 0, 1, 10⟩ 1 ≠ some [98] := by
  constructor
  · have decodable : shortTable.Decodable :=
      ⟨by decide, by decide, by decide, fun _ => by decide, by decide, rfl⟩
    have covers : ∀ b, shortTable.Covers b := by
      intro b none_
      cases none_
    exact ⟨fun b c begins => codesOf_prefix decodable (covers b) (covers c) begins, rfl, rfl⟩
  · exact ⟨of_onlyA, rfl, by decide +kernel⟩

end Lexindex.Packed
