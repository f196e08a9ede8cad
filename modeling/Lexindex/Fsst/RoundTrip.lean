import Mathlib
import Lexindex.Fsst.EncodeSound

/-!
# Trained tables round trip

What a trained table encodes it decodes, whole or as far as is asked for, and so do the tables of its
first symbols and a table that is read back from its bytes.
-/

set_option autoImplicit false

namespace Lexindex.Fsst

open Faulting

/-- `whole` decodes what `t` encodes of `s`: all of it, or of a cap at least as much as that. -/
def Lossless (t whole : Table) (s : List UInt8) : Prop :=
  ∃ packed, t.encoder.encode s = some packed ∧
    (∀ out cap, s.length ≤ cap → whole.decodeInto packed out cap = .ok (some (out ++ s))) ∧
    ∀ out cap, ∃ n, min cap s.length ≤ n ∧ n ≤ s.length ∧
      whole.decodeInto packed out cap = .ok (some (out ++ s.take n))

theorem mapM_written (text : List UInt8) : (text.map some).mapM id = some text := by
  induction text with
  | nil => rfl
  | cons b text ih =>
      rw [List.map_cons, List.mapM_cons, ih]
      rfl

theorem roomFor_enough {codes cap most : Nat} (word : most < 2 ^ 63) :
    min (8 * codes) (min cap most + 7) ≤ Table.roomFor codes cap := by
  rw [Table.roomFor]
  omega

theorem lossless_of_valid {t whole : Table} (valid : t.Valid)
    (has : ∀ {code word len : Nat}, t.Has code word len → whole.Has code word len)
    {s : List UInt8} (short : s.length < 2 ^ 63) : Lossless t whole s := by
  have decoded : ∃ packed, t.encoder.encode s = some packed ∧
      ∀ out cap, ∃ n, min cap s.length ≤ n ∧ n ≤ s.length ∧
        whole.decodeInto packed out cap = .ok (some (out ++ s.take n)) := by
    obtain ⟨packed, encoded, -⟩ :=
      decodeFrom_encodeFrom valid has s 0 s.length 0 (Nat.zero_le _) (by omega)
    refine ⟨packed, encoded, ?_⟩
    intro out cap
    obtain ⟨same, encoded', decodes⟩ :=
      decodeFrom_encodeFrom valid has s cap s.length 0 (Nat.zero_le _) (by omega)
    rw [encoded, Option.some.injEq] at encoded'
    subst encoded'
    have enough : Enough (List.replicate (Table.roomFor packed.length cap) none) 0 packed.length
        (min cap s.length) := by
      rw [Enough, List.length_replicate, Nat.zero_add]
      exact roomFor_enough short
    obtain ⟨room, o, answered, most, least, written⟩ := decodes _ enough rfl
    refine ⟨o, least, most, ?_⟩
    rw [Table.decodeInto, answered]
    simp only [bind, Except.bind]
    rw [written, mapM_written]
    rfl
  obtain ⟨packed, encoded, decodes⟩ := decoded
  refine ⟨packed, encoded, ?_, decodes⟩
  intro out cap whole_
  obtain ⟨n, least, most, answered⟩ := decodes out cap
  rw [answered, List.take_of_length_le (by omega)]

/-! ## Reading a written table -/

theorem readSymbols_written : ∀ (symbols : List (Nat × Nat)) (rest : List UInt8),
    (∀ symbol ∈ symbols, 1 ≤ symbol.2 ∧ symbol.2 ≤ 8 ∧ symbol.1 < 256 ^ symbol.2) →
    Table.readSymbols (symbols.map fun symbol => UInt8.ofNat symbol.2)
        (symbols.flatMap (fun (word, len) => (leBytes 8 word).take len) ++ rest) =
      some (symbols.map Prod.fst, rest) := by
  intro symbols rest
  induction symbols with
  | nil => intro _; rfl
  | cons symbol symbols ih =>
      intro sized
      obtain ⟨word, len⟩ := symbol
      obtain ⟨⟨least, most, small⟩, later⟩ := List.forall_mem_cons.mp sized
      simp only at least most small
      have lenIs : (UInt8.ofNat len).toNat = len := by
        rw [UInt8.toNat_ofNat', Nat.mod_eq_of_lt (by omega)]
      have length : (leBytes len word).length = len := leBytes_length ..
      rw [List.map_cons, List.flatMap_cons, Table.readSymbols]
      simp only [lenIs, leBytes_take most, List.append_assoc]
      rw [if_neg (not_not_intro ⟨least, most⟩), if_pos (by rw [List.length_append]; omega),
        List.drop_left' length, List.take_left' length, ih later, wordOf_eq,
        leNat_leBytes len word small]
      rfl

/-- A table is read as it was written. -/
theorem Table.fromBytes_writeTo {t : Table} (valid : t.Valid) : fromBytes t.writeTo = some t := by
  have few := valid.few
  rw [MAX_SYMBOLS] at few
  have parallel := valid.parallel
  have sized : ∀ symbol ∈ t.words.zip t.lens,
      1 ≤ symbol.2 ∧ symbol.2 ≤ 8 ∧ symbol.1 < 256 ^ symbol.2 := by
    intro symbol member
    obtain ⟨i, at_⟩ := List.mem_iff_getElem?.mp member
    exact valid.symbol (List.getElem?_zip_eq_some.mp at_)
  have countIs : (UInt8.ofNat t.lens.length).toNat = t.lens.length := by
    rw [UInt8.toNat_ofNat', Nat.mod_eq_of_lt (by omega)]
  have lens : (t.lens.map UInt8.ofNat).length = t.lens.length := List.length_map ..
  have words : (t.words.zip t.lens).map Prod.fst = t.words :=
    List.map_fst_zip (Nat.le_of_eq parallel.symm)
  have second : (t.words.zip t.lens).map Prod.snd = t.lens :=
    List.map_snd_zip (Nat.le_of_eq parallel)
  have symbols := readSymbols_written (t.words.zip t.lens) [] sized
  rw [List.append_nil, words] at symbols
  have bytes : (t.words.zip t.lens).map (fun symbol => UInt8.ofNat symbol.2) =
      t.lens.map UInt8.ofNat := by
    conv_rhs => rw [← second, List.map_map]
    rfl
  have back : (t.lens.map UInt8.ofNat).map UInt8.toNat = t.lens := by
    rw [List.map_map, ← second, List.map_map]
    apply List.map_congr_left
    intro symbol member
    obtain ⟨-, most, -⟩ := sized symbol member
    simp only [Function.comp]
    rw [UInt8.toNat_ofNat', Nat.mod_eq_of_lt (by omega)]
  rw [writeTo, List.cons_append, fromBytes, countIs, if_pos (by rw [List.length_append]; omega)]
  simp only
  rw [List.take_left' lens, List.drop_left' lens, ← bytes, symbols, bytes]
  simp only
  rw [back]

/-- Whatever the sample and the size a table was trained for, it decodes what it encodes of a slice,
the table of its first symbols does the same, the whole table decodes that too, and each is read as
it was written. -/
theorem trainTo_lossless (sample : List (List UInt8)) (max k : Nat) (s : List UInt8)
    (slice : s.length < 2 ^ 63) :
    Lossless (Table.trainTo sample max) (Table.trainTo sample max) s ∧
    Lossless ((Table.trainTo sample max).head k) ((Table.trainTo sample max).head k) s ∧
    Lossless ((Table.trainTo sample max).head k) (Table.trainTo sample max) s ∧
    Table.fromBytes (Table.trainTo sample max).writeTo = some (Table.trainTo sample max) ∧
    Table.fromBytes ((Table.trainTo sample max).head k).writeTo =
      some ((Table.trainTo sample max).head k) := by
  have valid := Table.trainTo_valid sample max
  exact ⟨lossless_of_valid valid (fun has => has) slice,
    lossless_of_valid (valid.head k) (fun has => has) slice,
    lossless_of_valid (valid.head k) Table.head_has slice,
    Table.fromBytes_writeTo valid, Table.fromBytes_writeTo (valid.head k)⟩

theorem trainTo_lossless_abab :
    Lossless (Table.trainTo [[97, 98, 97, 98]] 2) (Table.trainTo [[97, 98, 97, 98]] 2) [97, 98, 99] ∧
    Lossless ((Table.trainTo [[97, 98, 97, 98]] 2).head 1)
      ((Table.trainTo [[97, 98, 97, 98]] 2).head 1) [97, 98, 99] ∧
    Lossless ((Table.trainTo [[97, 98, 97, 98]] 2).head 1) (Table.trainTo [[97, 98, 97, 98]] 2)
      [97, 98, 99] ∧
    Table.fromBytes (Table.trainTo [[97, 98, 97, 98]] 2).writeTo =
      some (Table.trainTo [[97, 98, 97, 98]] 2) ∧
    Table.fromBytes ((Table.trainTo [[97, 98, 97, 98]] 2).head 1).writeTo =
      some ((Table.trainTo [[97, 98, 97, 98]] 2).head 1) :=
  trainTo_lossless [[97, 98, 97, 98]] 2 1 [97, 98, 99] (by decide)

end Lexindex.Fsst
