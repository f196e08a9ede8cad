import Mathlib
import Lexindex.Extsort.MergeSound

/-!
# Run files

A run file that is read to its end gives the keys it was written from.  One that is cut
short, or whose reading fails before its end, is told from one that ends.
-/

set_option autoImplicit false

namespace Lexindex.Extsort

theorem readExact_append {size : Nat} {front rest : List UInt8} (sized : front.length = size) :
    readExact size (front ++ rest) = some (front, rest) := by
  rw [readExact, if_pos (by rw [List.length_append]; omega), List.take_left' sized,
    List.drop_left' sized]

theorem readExact_short {size : Nat} {bytes : List UInt8} (short : bytes.length < size) :
    readExact size bytes = none :=
  if_neg (Nat.not_le_of_lt short)

/-- The bytes of a run's keys, without the count. -/
def keyBytes (keys : List String) : List UInt8 :=
  keys.flatMap fun key => leBytes 4 (bytesOf key).length ++ bytesOf key

theorem keyBytes_cons (key : String) (keys : List String) :
    keyBytes (key :: keys) =
      leBytes 4 (bytesOf key).length ++ (bytesOf key ++ keyBytes keys) := by
  rw [keyBytes, List.flatMap_cons, List.append_assoc]
  rfl

theorem leNat_length {key : String} (short : (bytesOf key).length < 2 ^ 32) :
    leNat (leBytes 4 (bytesOf key).length) = (bytesOf key).length :=
  leNat_leBytes 4 _ short

/-- A reader's first key, read past the length before it. -/
theorem next_key {key : String} {rest : List UInt8} {left : Nat}
    (short : (bytesOf key).length < 2 ^ 32) :
    RunReader.next { rest := leBytes 4 (bytesOf key).length ++ (bytesOf key ++ rest)
                     left := left + 1 } =
      some (some (key, { rest, left })) := by
  rw [RunReader.next, if_neg (Nat.succ_ne_zero left), readExact_append (leBytes_length ..),
    Option.bind_some, leNat_length short, readExact_append rfl, Option.bind_some,
    fromUtf8_bytesOf, Option.map_some]
  rfl

theorem drained_keyBytes {keys : List String}
    (short : ∀ key ∈ keys, (bytesOf key).length < 2 ^ 32) :
    drained keys.length (keyBytes keys) = (keys, false) := by
  induction keys with
  | nil => rfl
  | cons key keys ih =>
      obtain ⟨keyShort, short⟩ := List.forall_mem_cons.mp short
      rw [List.length_cons, keyBytes_cons, drained, next_key keyShort]
      simp only
      rw [ih short]

/-- Keys cut short end in an error. -/
theorem drained_cut {keys : List String} (short : ∀ key ∈ keys, (bytesOf key).length < 2 ^ 32) :
    ∀ {size : Nat}, size < (keyBytes keys).length →
      (drained keys.length ((keyBytes keys).take size)).2 = true := by
  induction keys with
  | nil =>
      intro size less
      exact absurd less (Nat.not_lt_zero size)
  | cons key keys ih =>
      obtain ⟨keyShort, short⟩ := List.forall_mem_cons.mp short
      intro size less
      have four : (leBytes 4 (bytesOf key).length).length = 4 := leBytes_length ..
      rw [keyBytes_cons, List.length_append, List.length_append, four] at less
      rw [List.length_cons, keyBytes_cons, drained]
      rcases Nat.lt_or_ge size 4 with inLength | pastLength
      · rw [RunReader.next, if_neg (Nat.succ_ne_zero _), readExact_short, Option.bind_none]
        rw [List.length_take]
        exact (Nat.min_le_left ..).trans_lt inLength
      · rw [List.take_append, four, List.take_of_length_le (by rw [four]; exact pastLength),
          List.take_append]
        rcases Nat.lt_or_ge (size - 4) (bytesOf key).length with inKey | pastKey
        · rw [Nat.sub_eq_zero_of_le inKey.le, List.take_zero, List.append_nil, RunReader.next,
            if_neg (Nat.succ_ne_zero _), readExact_append four, Option.bind_some,
            leNat_length keyShort, readExact_short, Option.bind_none]
          rw [List.length_take]
          exact (Nat.min_le_left ..).trans_lt inKey
        · rw [List.take_of_length_le pastKey, next_key keyShort]
          exact ih short (by omega)

/-- What is read of a file is no more than `faults` lets. -/
def cutShort (dir : Dir) (faults : Faults) (id : Nat) : Prop :=
  ∃ file size, dir id = some file ∧ faults id = some size ∧ size < file.length

section Read

variable {dir : Dir} {faults : Faults} {id : Nat} {keys : List String}
  (written : dir id = some (runBytes keys)) (few : keys.length < 2 ^ 64)
  (short : ∀ key ∈ keys, (bytesOf key).length < 2 ^ 32)
include written few short

theorem readRun_whole (whole : ¬ cutShort dir faults id) :
    readRun dir faults id = (keys, false) := by
  have all : readable faults id (runBytes keys) = runBytes keys := by
    rw [readable]
    cases cut : faults id with
    | none => rfl
    | some size =>
        have enough : (runBytes keys).length ≤ size :=
          Nat.le_of_not_lt fun less => whole ⟨_, _, written, cut, less⟩
        exact List.take_of_length_le enough
  rw [readRun, RunReader.openRun, written, Option.bind_some, all, runBytes, readExact_append (leBytes_length ..), Option.map_some]
  simp only
  rw [leNat_leBytes 8 _ few]
  exact drained_keyBytes short

theorem readRun_cut (cut : cutShort dir faults id) : (readRun dir faults id).2 = true := by
  obtain ⟨file, size, there, limit, less⟩ := cut
  rw [written, Option.some.injEq] at there
  have eight : (leBytes 8 keys.length).length = 8 := leBytes_length ..
  rw [← there, runBytes, List.length_append, eight] at less
  rw [readRun, RunReader.openRun, written, Option.bind_some, readable, limit]
  simp only
  rcases Nat.lt_or_ge size 8 with inCount | pastCount
  · rw [readExact_short, Option.map_none]
    rw [List.length_take]
    exact (Nat.min_le_left ..).trans_lt inCount
  · rw [runBytes, List.take_append, eight,
      List.take_of_length_le (by rw [eight]; exact pastCount), readExact_append eight,
      Option.map_some]
    simp only
    rw [RunReader.outcome, leNat_leBytes 8 _ few]
    exact drained_cut short (by rw [keyBytes]; omega)

end Read

end Lexindex.Extsort
