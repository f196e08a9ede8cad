import Mathlib
import Lexindex.Packed.Run

/-!
# A shard's alphabet

The alphabet of a histogram tells the codes of the bytes it counts apart, so that a run of them is
decoded from any of its suffixes, and its price is the bits that they are written in.
-/

set_option autoImplicit false

namespace Lexindex.Packed

open Alphabet

/-! ## A run is decoded from any of its suffixes -/

section Written

variable {a : Alphabet} (decodable : a.Decodable)
include decodable

theorem encodeInto_spec (s : List UInt8) : ∀ {w : Bits} {value : Nat}, w.Holds value →
    (a.encodeInto s w).Holds (value + 2 ^ w.position * digitsValue a.width (a.codes s)) ∧
      (a.encodeInto s w).position = w.position + a.width * (a.codes s).length ∧
      (a.encodeInto s w).len = w.len + (a.codes s).length := by
  induction s with
  | nil =>
      intro w value held
      rw [Alphabet.codes, List.flatMap_nil, digitsValue, Nat.mul_zero, Nat.add_zero]
      exact ⟨held, rfl, rfl⟩
  | cons b s ih =>
      intro w value held
      obtain ⟨pushed, position, len⟩ :=
        Bits.pushes_spec (decodable.width.2.trans (by decide)) (a.codesOf b) held (codesOf_lt decodable)
      obtain ⟨holds, positions, lens⟩ := ih pushed
      have split : a.codes (b :: s) = a.codesOf b ++ a.codes s := List.flatMap_cons
      rw [split, digitsValue_append, List.length_append]
      refine ⟨?_, ?_, ?_⟩
      · rw [position, pow_add] at holds
        have same : value + 2 ^ w.position * (digitsValue a.width (a.codesOf b) +
              2 ^ (a.width * (a.codesOf b).length) * digitsValue a.width (a.codes s)) =
            value + 2 ^ w.position * digitsValue a.width (a.codesOf b) +
              2 ^ w.position * 2 ^ (a.width * (a.codesOf b).length) *
                digitsValue a.width (a.codes s) := by ring
        rw [same]
        exact holds
      · refine positions.trans ?_
        rw [position]
        ring
      · refine lens.trans ?_
        rw [len]
        omega

theorem encodeRun_spec (suffixes : List (List UInt8)) : ∀ {w : Bits} {value : Nat},
    w.Holds value →
      (a.encodeRun suffixes w).2.Holds
        (value + 2 ^ w.position * digitsValue a.width (a.codes suffixes.flatten)) ∧
      (a.encodeRun suffixes w).2.position =
        w.position + a.width * (a.codes suffixes.flatten).length ∧
      ∀ (k : Nat) (s : List UInt8), suffixes[k]? = some s →
        (a.encodeRun suffixes w).1[k]? =
          some (w.position + a.width * (a.codes (suffixes.take k).flatten).length,
            (a.codes s).length) := by
  induction suffixes with
  | nil =>
      intro w value held
      rw [List.flatten_nil, Alphabet.codes, List.flatMap_nil, digitsValue, Nat.mul_zero,
        Nat.add_zero]
      refine ⟨held, rfl, ?_⟩
      simp
  | cons first suffixes ih =>
      intro w value held
      obtain ⟨written, position, len⟩ := encodeInto_spec decodable first held
      obtain ⟨holds, positions, spans⟩ := ih written
      have split (t : List (List UInt8)) :
          a.codes (first :: t).flatten = a.codes first ++ a.codes t.flatten := by
        rw [List.flatten_cons, Alphabet.codes, List.flatMap_append]
        rfl
      rw [encodeRun]
      refine ⟨?_, ?_, ?_⟩
      · rw [position, pow_add] at holds
        rw [split, digitsValue_append]
        convert holds using 1
        ring
      · refine positions.trans ?_
        rw [position, split, List.length_append]
        ring
      · intro k s here
        cases k with
        | zero =>
            rw [List.getElem?_cons_zero, Option.some.injEq] at here
            rw [List.getElem?_cons_zero, len, here, Nat.add_sub_cancel_left]
            rfl
        | succ k =>
            rw [List.getElem?_cons_succ] at here
            rw [List.getElem?_cons_succ, spans k s here, position, List.take_succ_cons, split,
              List.length_append]
            congr 2
            ring

omit decodable in
theorem empty_holds : Bits.empty.Holds 0 :=
  ⟨rfl, Nat.zero_lt_one, by decide⟩

/-- Any suffix of a run is decoded from where it was recorded to start. -/
theorem decodeInto_run (suffixes : List (List UInt8)) (covers : ∀ s ∈ suffixes, ∀ b ∈ s, a.Covers b)
    {k start len : Nat} {s : List UInt8} (here : suffixes[k]? = some s)
    (span : (a.encodeRun suffixes Bits.empty).1[k]? = some (start, len)) (cap : Nat) :
    a.decodeInto { bytes := (a.encodeRun suffixes Bits.empty).2.drain, start, width := a.width, len }
      cap = some (s.take cap) := by
  obtain ⟨holds, positions, spans⟩ := encodeRun_spec decodable suffixes empty_holds
  obtain ⟨value, long⟩ := Bits.drain_spec holds
  have place := spans k s here
  rw [span, Option.some.injEq, Prod.mk.injEq] at place
  obtain ⟨rfl, rfl⟩ := place
  have empty : Bits.empty.position = 0 := rfl
  rw [empty, Nat.zero_add, pow_zero, one_mul] at value
  rw [positions, empty, Nat.zero_add] at long
  rw [empty, Nat.zero_add]
  have whole : suffixes.flatten =
      (suffixes.take k).flatten ++ (s ++ (suffixes.drop (k + 1)).flatten) := by
    obtain ⟨inside, at_⟩ := List.getElem?_eq_some_iff.mp here
    conv_lhs => rw [← List.take_append_drop k suffixes, List.drop_eq_getElem_cons inside, at_]
    rw [List.flatten_append, List.flatten_cons]
  have split : a.codes suffixes.flatten = a.codes (suffixes.take k).flatten ++
      (a.codes s ++ a.codes (suffixes.drop (k + 1)).flatten) := by
    rw [whole, Alphabet.codes, List.flatMap_append, List.flatMap_append]
    rfl
  apply decodeInto_spec decodable rfl _ (covers s (List.mem_of_getElem? here))
  constructor
  · rfl
  · simp only
    rw [split, List.length_append, List.length_append] at long
    refine Nat.le_trans ?_ long
    rw [mul_comm (a.codes s).length, ← Nat.mul_add]
    exact Nat.mul_le_mul_left _ (by omega)
  · intro i c at_
    simp only
    have digit := digitsValue_digit (a.codes suffixes.flatten) (codes_lt decodable _)
      (show (a.codes suffixes.flatten)[(a.codes (suffixes.take k).flatten).length + i]? = some c by
        have inside := (List.getElem?_eq_some_iff.mp at_).1
        rw [split, List.getElem?_append_right (by omega), Nat.add_sub_cancel_left,
          List.getElem?_append_left inside, at_])
    rw [value, ← digit]
    congr 3
    ring

end Written

/-! ## The alphabet of a histogram -/

theorem rank_spec (freq : UInt8 → Nat) :
    ((rank freq).map Prod.snd).Nodup ∧ (∀ b, b ∈ (rank freq).map Prod.snd ↔ 0 < freq b) ∧
      ∀ entry ∈ rank freq, entry.1 = freq entry.2 := by
  have sorted := List.mergeSort_perm (((((List.range 256).map UInt8.ofNat).filter
    fun b => 0 < freq b)).map fun b => (freq b, b)) rankLe
  have bytes := sorted.map Prod.snd
  rw [List.map_map] at bytes
  have same : (((List.range 256).map UInt8.ofNat).filter fun b => 0 < freq b).map
      (Prod.snd ∘ fun b => (freq b, b)) =
        ((List.range 256).map UInt8.ofNat).filter fun b => 0 < freq b :=
    List.map_id _
  rw [same] at bytes
  refine ⟨?_, ?_, ?_⟩
  · apply bytes.nodup_iff.mpr
    apply List.Nodup.filter
    apply List.Nodup.map_on _ List.nodup_range
    intro v vIn u uIn equal
    have values := congrArg UInt8.toNat equal
    rw [UInt8.toNat_ofNat', UInt8.toNat_ofNat', Nat.mod_eq_of_lt (List.mem_range.mp vIn),
      Nat.mod_eq_of_lt (List.mem_range.mp uIn)] at values
    exact values
  · intro b
    rw [rank, bytes.mem_iff, List.mem_filter, decide_eq_true_eq]
    refine ⟨fun both => both.2, fun counted => ⟨?_, counted⟩⟩
    exact List.mem_map.mpr ⟨b.toNat, List.mem_range.mpr b.toNat_lt, UInt8.ofNat_toNat⟩
  · intro entry member
    rw [rank, sorted.mem_iff] at member
    obtain ⟨b, -, rfl⟩ := List.mem_map.mp member
    rfl

theorem cheapest_spec (ranked : List (Nat × UInt8)) :
    1 ≤ (cheapest ranked).1 ∧ (cheapest ranked).1 ≤ 8 ∧
      (cheapest ranked).2 = bitsAt ranked (cheapest ranked).1 := by
  have all : ∀ (ws : List Nat) (best : Nat × Nat), (∀ w ∈ ws, 1 ≤ w ∧ w ≤ 8) →
      (1 ≤ best.1 ∧ best.1 ≤ 8 ∧ best.2 = bitsAt ranked best.1) →
      1 ≤ (ws.foldl (fun best w =>
          if bitsAt ranked w < best.2 then (w, bitsAt ranked w) else best) best).1 ∧
        (ws.foldl (fun best w =>
          if bitsAt ranked w < best.2 then (w, bitsAt ranked w) else best) best).1 ≤ 8 ∧
        (ws.foldl (fun best w =>
          if bitsAt ranked w < best.2 then (w, bitsAt ranked w) else best) best).2 =
          bitsAt ranked (ws.foldl (fun best w =>
            if bitsAt ranked w < best.2 then (w, bitsAt ranked w) else best) best).1 := by
    intro ws
    induction ws with
    | nil => exact fun _ _ held => held
    | cons w ws ih =>
        intro best inside held
        obtain ⟨here, later⟩ := List.forall_mem_cons.mp inside
        rw [List.foldl_cons]
        apply ih _ later
        split
        · exact ⟨here.1, here.2, rfl⟩
        · exact held
  apply all
  · decide
  · exact ⟨Nat.le_refl _, show 1 ≤ 8 by omega, rfl⟩

/-- The tables of a width: all the bytes, or the commonest and, escaped, the next. -/
theorem split_spec {ranked : List (Nat × UInt8)} (distinct : (ranked.map Prod.snd).Nodup)
    {width : Nat} (positive : 1 ≤ width) :
    (split ranked width).1.length ≤ 2 ^ width ∧ (split ranked width).2.length ≤ top width ∧
      ((split ranked width).2 ≠ [] → (split ranked width).1.length = top width) ∧
      ((split ranked width).1 ++ (split ranked width).2).Nodup ∧
      ((split ranked width).2 = [] → (split ranked width).1 = ranked.map Prod.snd) := by
  rw [split]
  split
  · next fits =>
    refine ⟨fits, Nat.zero_le _, fun some_ => absurd rfl some_, ?_, fun _ => rfl⟩
    rw [List.append_nil]
    exact distinct
  · next wide =>
    have two : 2 ≤ 2 ^ width := by
      rw [show 2 = 2 ^ 1 from rfl]
      exact Nat.pow_le_pow_right (by omega) positive
    have topIs : top width = 2 ^ width - 1 := rfl
    have front : ((ranked.map Prod.snd).take (top width)).length = top width := by
      rw [List.length_take]
      omega
    have back : (((ranked.map Prod.snd).drop (top width)).take
        (min (2 * top width) (ranked.map Prod.snd).length - top width)).length =
          min (2 * top width) (ranked.map Prod.snd).length - top width := by
      rw [List.length_take, List.length_drop]
      omega
    refine ⟨?_, ?_, fun _ => front, ?_, ?_⟩
    · simp only
      omega
    · simp only
      omega
    · simp only
      rw [← List.take_add]
      exact distinct.sublist (List.take_sublist _ _)
    · intro none_
      have length := congrArg List.length none_
      simp only at length
      rw [back, List.length_nil] at length
      omega

/-- What an alphabet that is written is, over what its codes need: bytes, and a full first table
beside a second. -/
structure Alphabet.Writable (a : Alphabet) : Prop where
  decodable : a.Decodable
  some_ : a.one ≠ []
  full : a.two ≠ [] → a.one.length = top a.width

theorem of_spec {freq : UInt8 → Nat} {a : Alphabet} {bits : Nat}
    (built : Alphabet.of freq = some (a, bits)) :
    a.Writable ∧ (∀ b, 0 < freq b → a.Covers b) ∧ bits = bitsAt (rank freq) a.width ∧
      (a.one, a.two) = split (rank freq) a.width := by
  obtain ⟨distinct, counted, -⟩ := rank_spec freq
  have best := cheapest_spec (rank freq)
  rw [Alphabet.of] at built
  generalize rank freq = ranked at built best distinct counted ⊢
  generalize cheapest ranked = chosen at built best
  obtain ⟨width, price⟩ := chosen
  obtain ⟨least, most, priced⟩ := best
  obtain ⟨one, two, full, apart, fitting⟩ := split_spec distinct least
  simp only at built least most priced one two full apart fitting
  generalize tablesAt : split ranked width = tables at built one two full apart fitting
  obtain ⟨first, second⟩ := tables
  simp only at built one two full apart fitting
  by_cases nonempty : ranked = []
  · rw [if_pos nonempty] at built
    cases built
  · rw [if_neg nonempty, Option.some.injEq, Prod.mk.injEq] at built
    obtain ⟨rfl, rfl⟩ := built
    refine ⟨⟨⟨⟨least, most⟩, one, two, fun some_ => Nat.le_of_eq (full some_), apart, rfl⟩, ?_,
      full⟩, ?_, priced, tablesAt.symm⟩
    · intro none_
      simp only at none_
      by_cases fits : second = []
      · have bytes := fitting fits
        rw [none_] at bytes
        exact nonempty (List.map_eq_nil_iff.mp bytes.symm)
      · have length := full fits
        have wide : 2 ≤ 2 ^ width := by
          rw [show 2 = 2 ^ 1 from rfl]
          exact Nat.pow_le_pow_right (by omega) least
        rw [none_, List.length_nil, top] at length
        omega
    · intro b some_ fits
      simp only at fits ⊢
      rw [fitting fits]
      exact (counted b).mpr some_

/-! ## The price -/

theorem sum_codes (a : Alphabet) (text : List UInt8) {bytes : List UInt8} (distinct : bytes.Nodup)
    (all : ∀ b, b ∈ bytes ↔ 0 < text.count b) :
    (a.codes text).length = (bytes.map fun b => text.count b * (a.codesOf b).length).sum := by
  have same : text.toFinset = bytes.toFinset := by
    ext b
    rw [List.mem_toFinset, List.mem_toFinset, all, List.count_pos_iff]
  rw [Alphabet.codes, List.length_flatMap, Finset.sum_list_map_count, same,
    ← List.sum_toFinset _ distinct]
  simp only [smul_eq_mul]

theorem sumOf_modEq (ranked : List (Nat × UInt8)) :
    Nat.ModEq (2 ^ 64) (sumOf ranked) (ranked.map Prod.fst).sum :=
  Nat.mod_modEq ..

/-- The price of a width is the bits of the counted bytes' codes. -/
theorem bitsAt_eq {a : Alphabet} (decodable : a.Decodable) {ranked : List (Nat × UInt8)}
    (tables : (a.one, a.two) = split ranked a.width) (distinct : (ranked.map Prod.snd).Nodup) :
    bitsAt ranked a.width =
      a.width * (ranked.map fun entry => entry.1 * (a.codesOf entry.2).length).sum % 2 ^ 64 := by
  -- A part of the ranking whose bytes all take as many codes.
  have part : ∀ (entries : List (Nat × UInt8)) (cost : Nat),
      (∀ entry ∈ entries, (a.codesOf entry.2).length = cost) →
      (entries.map fun entry => entry.1 * (a.codesOf entry.2).length).sum =
        (entries.map Prod.fst).sum * cost := by
    intro entries cost each
    rw [← List.sum_map_mul_right]
    congr 1
    apply List.map_congr_left
    intro entry member
    rw [each entry member]
  rw [split] at tables
  rw [bitsAt]
  by_cases fits : ranked.length ≤ 2 ^ a.width
  · rw [if_pos (by rwa [List.length_map]), Prod.mk.injEq] at tables
    have single := part ranked 1 (by
      intro entry member
      have named : entry.2 ∈ a.one := tables.1 ▸ List.mem_map_of_mem member
      obtain ⟨i, here⟩ := List.mem_iff_getElem?.mp named
      rw [codesOf_one decodable here]
      rfl)
    rw [if_pos fits, single, Nat.mul_one, mul_comm a.width]
    exact (sumOf_modEq ranked).mul_right _
  · rw [if_neg (by rwa [List.length_map]), Prod.mk.injEq] at tables
    obtain ⟨oneIs, twoIs⟩ := tables
    rw [if_neg fits]
    simp only
    generalize topAt : top a.width = k at oneIs twoIs ⊢
    have cut : ranked = ranked.take k ++ ((ranked.drop k).take (min (2 * k) ranked.length - k) ++
        ranked.drop (2 * k)) := by
      have long : k ≤ ranked.length := by
        have less := top_lt a.width
        omega
      have rest : ranked.drop (2 * k) =
          (ranked.drop k).drop (min (2 * k) ranked.length - k) := by
        rw [List.drop_drop, show k + (min (2 * k) ranked.length - k) = min (2 * k) ranked.length by
          omega]
        by_cases short : ranked.length ≤ 2 * k
        · rw [Nat.min_eq_right short, List.drop_eq_nil_of_le short, List.drop_length]
        · rw [Nat.min_eq_left (by omega)]
      rw [rest, List.take_append_drop, List.take_append_drop]
    have ones := part (ranked.take k) 1 (by
      intro entry member
      have named : entry.2 ∈ a.one := by
        rw [oneIs, ← List.map_take]
        exact List.mem_map_of_mem member
      obtain ⟨i, here⟩ := List.mem_iff_getElem?.mp named
      rw [codesOf_one decodable here]
      rfl)
    have twos := part ((ranked.drop k).take (min (2 * k) ranked.length - k)) 2 (by
      intro entry member
      have named : entry.2 ∈ a.two := by
        rw [twoIs, List.length_map, ← List.map_drop, ← List.map_take]
        exact List.mem_map_of_mem member
      obtain ⟨j, here⟩ := List.mem_iff_getElem?.mp named
      rw [codesOf_two decodable here]
      rfl)
    have raws := part (ranked.drop (2 * k)) (rawCodes a.width) (by
      intro entry member
      have apart := distinct
      rw [cut, List.map_append, List.map_append] at apart
      obtain ⟨-, behind, fromOne⟩ := List.nodup_append.mp apart
      obtain ⟨-, -, fromTwo⟩ := List.nodup_append.mp behind
      have inside : entry.2 ∈ (ranked.drop (2 * k)).map Prod.snd := List.mem_map_of_mem member
      have notOne : entry.2 ∉ a.one := by
        rw [oneIs, ← List.map_take]
        exact fun named => fromOne _ named _ (List.mem_append_right _ inside) rfl
      have notTwo : entry.2 ∉ a.two := by
        rw [twoIs, List.length_map, ← List.map_drop, ← List.map_take]
        exact fun named => fromTwo _ named _ inside rfl
      rw [codesOf_raw decodable notOne notTwo, List.length_cons, List.length_cons, digits_length,
        rawCodes]
      omega)
    conv_rhs => rw [cut]
    rw [List.map_append, List.map_append, List.sum_append, List.sum_append, ones, twos, raws,
      Nat.mul_one, mul_comm a.width, mul_comm _ 2, ← Nat.add_assoc]
    exact (((sumOf_modEq _).add ((sumOf_modEq _).mul_left 2)).add
      ((sumOf_modEq _).mul_right _)).mul_right _

end Lexindex.Packed
