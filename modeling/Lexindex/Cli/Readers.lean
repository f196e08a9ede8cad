import Mathlib
import Lexindex.Cli.Dump

/-!
# The readers of a keys file

Three loops read keys a line at a time: the planner's, which takes the line's end off by hand, and the
command line's two, which leave that to the standard library.  The library takes a carriage return off
only before a newline, the planner also off a last line that has none.
-/

set_option autoImplicit false

namespace Lexindex.Cli

/-- What a reader comes to: the keys it delivered, the empty lines it dropped, and the line it failed
on, if it did. -/
structure Reading where
  keys : List String
  blank : Nat
  failed : Option Nat
deriving DecidableEq, Repr

/-- `strip_suffix` of a character, the string itself where it does not end in it. -/
def stripEnd (c : Char) (text : String) : String :=
  if text.toList.getLast? = some c then String.ofList text.toList.dropLast else text

/-- The planner's `read_lines`, the keys it hands on listed.  It does not count the empty lines. -/
def planLines : List (List UInt8) → Nat → List String → Nat → Reading
  | [], _, keys, blank => { keys, blank, failed := none }
  | raw :: rest, at_, keys, blank =>
      match fromUtf8 raw with
      | none => { keys, blank, failed := some (at_ + 1) }
      | some line =>
          let key := stripEnd '\r' (stripEnd '\n' line)
          if key = "" then planLines rest (at_ + 1) keys (blank + 1)
          else planLines rest (at_ + 1) (keys ++ [key]) blank

/-- The command line's `read_keys`, its vector and its count with the failure it returns. -/
def keysRead : List (List UInt8) → Nat → List String → Nat → Reading
  | [], _, keys, blank => { keys, blank, failed := none }
  | raw :: rest, i, keys, blank =>
      match lineText raw with
      | none => { keys, blank, failed := some (i + 1) }
      | some line =>
          if line = "" then keysRead rest (i + 1) keys (blank + 1)
          else keysRead rest (i + 1) (keys ++ [line]) blank

/-- The lines a source's `map_while` lets through, and the line it parks a failure for. -/
def parked : List (List UInt8) → Nat → List String × Option Nat
  | [], _ => ([], none)
  | raw :: rest, i =>
      match lineText raw with
      | none => ([], some (i + 1))
      | some line => (line :: (parked rest (i + 1)).1, (parked rest (i + 1)).2)

/-- `Source::keys`, run to its end. -/
def sourceKeys (bytes : List UInt8) : Reading :=
  let lines := parked (rawLines bytes) 0
  { keys := lines.1.filter (· ≠ ""), blank := lines.1.count "", failed := lines.2 }

/-- The planner, `plan -` and a build from memory, and a streamed build see the same keys of a file, or
fail on the same line after the same keys. -/
def ReadersAgree (bytes : List UInt8) : Prop :=
  ((planLines (rawLines bytes) 0 [] 0).keys = (keysRead (rawLines bytes) 0 [] 0).keys ∧
    (planLines (rawLines bytes) 0 [] 0).failed = (keysRead (rawLines bytes) 0 [] 0).failed) ∧
  (sourceKeys bytes).keys = (keysRead (rawLines bytes) 0 [] 0).keys ∧
    (sourceKeys bytes).failed = (keysRead (rawLines bytes) 0 [] 0).failed

/-! ## The command line's two -/

/-- `read_keys` returns what its loop collected, or fails on the line its loop did. -/
theorem readLines_eq (path : String) (lines : List (List UInt8)) : ∀ (i : Nat) (keys : List String)
    (blank : Nat), (keysRead lines i keys blank).failed = none →
      readLines path lines i = .ok ((keysRead lines i keys blank).keys.drop keys.length,
        (keysRead lines i keys blank).blank - blank) ∧
      keys <+: (keysRead lines i keys blank).keys ∧ blank ≤ (keysRead lines i keys blank).blank := by
  induction lines with
  | nil =>
      intro i keys blank _
      refine ⟨?_, List.prefix_refl keys, Nat.le_refl blank⟩
      simp only [keysRead, readLines, List.drop_length, Nat.sub_self]
  | cons raw lines ih =>
      intro i keys blank whole
      rw [keysRead] at whole ⊢
      rw [readLines]
      cases read : lineText raw with
      | none =>
          rw [read] at whole
          cases whole
      | some line =>
          rw [read] at whole
          simp only at whole ⊢
          by_cases empty : line = ""
          · rw [if_pos empty] at whole ⊢
            obtain ⟨rest, front, more⟩ := ih (i + 1) keys (blank + 1) whole
            refine ⟨?_, front, by omega⟩
            simp only [okOr, bind, Except.bind, rest, if_pos empty, pure, Except.pure]
            congr 2
            omega
          · rw [if_neg empty] at whole ⊢
            obtain ⟨rest, ⟨back, front⟩, more⟩ := ih (i + 1) (keys ++ [line]) blank whole
            refine ⟨?_, ⟨line :: back, by rw [← front, List.append_assoc]; rfl⟩, more⟩
            simp only [okOr, bind, Except.bind, rest, if_neg empty, pure, Except.pure]
            rw [← front, List.append_assoc, List.drop_left]
            simp

theorem readKeys_failed (path : String) (lines : List (List UInt8)) : ∀ (i : Nat)
    (keys : List String) (blank line : Nat), (keysRead lines i keys blank).failed = some line →
      readLines path lines i =
        .error (Fail.failed s!"{path}:{line}: stream did not contain valid UTF-8") := by
  induction lines with
  | nil =>
      intro i keys blank line failed
      cases failed
  | cons raw lines ih =>
      intro i keys blank line failed
      rw [keysRead] at failed
      rw [readLines]
      cases read : lineText raw with
      | none =>
          rw [read] at failed
          cases failed
          rfl
      | some text =>
          rw [read] at failed
          simp only at failed
          by_cases empty : text = ""
          · rw [if_pos empty] at failed
            rw [ih _ _ _ _ failed]
            rfl
          · rw [if_neg empty] at failed
            rw [ih _ _ _ _ failed]
            rfl

/-- The two readers of the command line never differ. -/
theorem keysRead_eq (lines : List (List UInt8)) : ∀ (i : Nat) (keys : List String) (blank : Nat),
    keysRead lines i keys blank =
      { keys := keys ++ (parked lines i).1.filter (· ≠ "")
        blank := blank + (parked lines i).1.count ""
        failed := (parked lines i).2 } := by
  induction lines with
  | nil =>
      intro i keys blank
      simp [keysRead, parked]
  | cons raw lines ih =>
      intro i keys blank
      rw [keysRead, parked]
      cases read : lineText raw with
      | none => simp
      | some line =>
          simp only
          by_cases empty : line = ""
          · rw [if_pos empty, ih, empty]
            simp only [List.count_cons_self, Reading.mk.injEq, and_true]
            refine ⟨by simp, by omega⟩
          · rw [if_neg empty, ih]
            simp [empty]

theorem sourceKeys_eq (bytes : List UInt8) :
    sourceKeys bytes = keysRead (rawLines bytes) 0 [] 0 := by
  rw [keysRead_eq, sourceKeys]
  simp

/-! ## A line's end -/

theorem fromUtf8_eq_some_iff {bytes : List UInt8} {key : String} :
    fromUtf8 bytes = some key ↔ bytesOf key = bytes := by
  constructor
  · exact bytesOf_fromUtf8
  · rintro rfl
    exact fromUtf8_bytesOf key

theorem bytesOf_push (key : String) (c : Char) :
    bytesOf (String.ofList (key.toList ++ [c])) = bytesOf key ++ String.utf8EncodeChar c := by
  rw [bytesOf_ofList, bytesOf_eq, List.flatMap_append, List.flatMap_singleton]

/-- An ASCII byte at the end of a text is its last character. -/
theorem fromUtf8_concat {front : List UInt8} {c : Char} {byte : UInt8}
    (single : String.utf8EncodeChar c = [byte]) (ascii : byte.toNat < 128) :
    fromUtf8 (front ++ [byte]) =
      (fromUtf8 front).map fun key => String.ofList (key.toList ++ [c]) := by
  cases read : fromUtf8 front with
  | some key =>
      rw [Option.map_some, fromUtf8_eq_some_iff, bytesOf_push, single, bytesOf_fromUtf8 read]
  | none =>
      rw [Option.map_none]
      cases whole : fromUtf8 (front ++ [byte]) with
      | none => rfl
      | some key =>
          have bytes := bytesOf_fromUtf8 whole
          rw [bytesOf_eq] at bytes
          rcases List.eq_nil_or_concat key.toList with empty | ⟨chars, last, split⟩
          · rw [empty] at bytes
            exact absurd bytes.symm (by simp)
          · rw [split, List.concat_eq_append, List.flatMap_append, List.flatMap_singleton] at bytes
            have nonempty := @String.utf8EncodeChar_ne_nil last
            obtain ⟨inits, final, encoded⟩ :=
              (List.eq_nil_or_concat (String.utf8EncodeChar last)).resolve_left nonempty
            rw [List.concat_eq_append] at encoded
            have ending := bytes
            rw [encoded, ← List.append_assoc] at ending
            obtain ⟨-, same⟩ := List.append_inj' ending rfl
            have member : byte ∈ String.utf8EncodeChar last := by
              rw [encoded, ← List.singleton_inj.mp same]
              exact List.mem_append_right _ (List.mem_singleton.mpr rfl)
            have own : byte ∈ String.utf8EncodeChar c := by
              rw [single]
              exact List.mem_singleton.mpr rfl
            have isLast : last = c := Char.toNat_inj.mp
              ((ascii_of_mem member ascii).trans (ascii_of_mem own ascii).symm)
            rw [isLast, single] at bytes
            obtain ⟨front_, -⟩ := List.append_inj' bytes rfl
            have held := fromUtf8_eq_some_iff.mpr ((bytesOf_ofList chars).trans front_)
            rw [read] at held
            cases held

theorem newline_bytes : String.utf8EncodeChar '\n' = [10] := by
  decide

theorem return_bytes : String.utf8EncodeChar '\r' = [13] := by
  decide

theorem stripEnd_push (chars : List Char) (c : Char) :
    stripEnd c (String.ofList (chars ++ [c])) = String.ofList chars := by
  rw [stripEnd, String.toList_ofList, if_pos List.getLast?_concat, List.dropLast_concat]

/-- A text ends in an ASCII character where its bytes end in its byte. -/
theorem stripEnd_other {bytes : List UInt8} {text : String} {c : Char} {byte : UInt8}
    (single : String.utf8EncodeChar c = [byte]) (read : fromUtf8 bytes = some text)
    (other : bytes.getLast? ≠ some byte) : stripEnd c text = text := by
  apply if_neg
  intro last
  rcases List.eq_nil_or_concat text.toList with empty | ⟨chars, final, split⟩
  · rw [empty] at last
    cases last
  · rw [List.concat_eq_append] at split
    rw [split, List.getLast?_concat, Option.some.injEq] at last
    apply other
    rw [← bytesOf_fromUtf8 read, bytesOf_eq, split, last, List.flatMap_append, List.flatMap_singleton,
      single, List.getLast?_concat]

/-- A line with its newline is the same text to every reader. -/
theorem lineText_newline (front : List UInt8) :
    lineText (front ++ [10]) =
      (fromUtf8 (front ++ [10])).map fun line => stripEnd '\r' (stripEnd '\n' line) := by
  rw [fromUtf8_concat newline_bytes (by decide), Option.map_map, lineText, stripLine,
    if_pos List.getLast?_concat, List.dropLast_concat]
  have strips : ((fun line => stripEnd '\r' (stripEnd '\n' line)) ∘ fun key : String =>
      String.ofList (key.toList ++ ['\n'])) = stripEnd '\r' := by
    funext key
    rw [Function.comp, stripEnd_push, String.ofList_toList]
  rw [strips]
  by_cases carriage : front.getLast? = some 13
  · obtain ⟨inits, rfl⟩ := List.getLast?_eq_some_iff.mp carriage
    rw [if_pos carriage, List.dropLast_concat, fromUtf8_concat return_bytes (by decide),
      Option.map_map]
    have back : (stripEnd '\r' ∘ fun key : String => String.ofList (key.toList ++ ['\r'])) = id := by
      funext key
      rw [Function.comp, stripEnd_push, String.ofList_toList, id]
    rw [back, Option.map_id, id]
  · rw [if_neg carriage]
    cases read : fromUtf8 front with
    | none => rfl
    | some key => rw [Option.map_some, stripEnd_other return_bytes read carriage]

/-- A last line without one is, but for a carriage return at its end. -/
theorem lineText_last {raw : List UInt8} (unended : raw.getLast? ≠ some 10) :
    lineText raw = fromUtf8 raw ∧ ∀ line, fromUtf8 raw = some line → stripEnd '\n' line = line := by
  refine ⟨by rw [lineText, stripLine, if_neg unended], ?_⟩
  intro line read
  exact stripEnd_other newline_bytes read unended

/-! ## Whole files -/

/-- Every line but the last has its newline. -/
def Ended : List (List UInt8) → Prop
  | [] => True
  | [_] => True
  | raw :: rest => raw.getLast? = some 10 ∧ Ended rest

theorem rawLines_ended (bytes : List UInt8) :
    Ended (rawLines bytes) ∧ (rawLines bytes).flatten = bytes ∧ ∀ raw ∈ rawLines bytes, raw ≠ [] := by
  induction bytes with
  | nil => exact ⟨trivial, rfl, by simp [rawLines]⟩
  | cons byte rest ih =>
      obtain ⟨ended, whole, some_⟩ := ih
      rw [rawLines]
      split
      · next newline =>
        refine ⟨?_, by rw [List.flatten_cons, whole]; rfl,
          List.forall_mem_cons.mpr ⟨List.cons_ne_nil _ _, some_⟩⟩
        cases cut : rawLines rest with
        | nil => trivial
        | cons line lines =>
            rw [cut] at ended
            exact ⟨by rw [newline]; rfl, ended⟩
      · cases cut : rawLines rest with
        | nil =>
            rw [cut] at whole
            exact ⟨trivial, by rw [← whole]; rfl, by simp⟩
        | cons line lines =>
            rw [cut] at ended whole some_
            obtain ⟨here, later⟩ := List.forall_mem_cons.mp some_
            refine ⟨?_, by rw [← whole]; rfl,
              List.forall_mem_cons.mpr ⟨List.cons_ne_nil _ _, later⟩⟩
            cases lines with
            | nil => trivial
            | cons next lines =>
                obtain ⟨newline, ended⟩ := ended
                refine ⟨?_, ended⟩
                rw [List.getLast?_cons, newline]
                rfl

/-- Whether some line is no text. -/
def Broken (lines : List (List UInt8)) : Prop :=
  ∃ raw ∈ lines, fromUtf8 raw = none

variable {raw : List UInt8} {rest : List (List UInt8)} {i blank : Nat} {keys : List String}

/-- A line that is the same text to both leaves them where they were. -/
theorem planLines_line
    (same : lineText raw = (fromUtf8 raw).map fun line => stripEnd '\r' (stripEnd '\n' line))
    (later : ∀ keys blank, planLines rest (i + 1) keys blank = keysRead rest (i + 1) keys blank) :
    planLines (raw :: rest) i keys blank = keysRead (raw :: rest) i keys blank := by
  rw [planLines, keysRead, same]
  cases fromUtf8 raw with
  | none => rfl
  | some line => simp only [Option.map_some, later]

/-- A last line is, but for a carriage return at its end. -/
theorem planLines_last (fine : raw.getLast? ≠ some 13 ∨ fromUtf8 raw = none) :
    lineText raw = (fromUtf8 raw).map fun line => stripEnd '\r' (stripEnd '\n' line) := by
  by_cases newline : raw.getLast? = some 10
  · obtain ⟨front, rfl⟩ := List.getLast?_eq_some_iff.mp newline
    exact lineText_newline front
  · obtain ⟨same, stays⟩ := lineText_last newline
    cases read : fromUtf8 raw with
    | none => rw [same, read]; rfl
    | some line =>
        rcases fine with other | broken
        · rw [same, read, Option.map_some, stays line read, stripEnd_other return_bytes read other]
        · rw [read] at broken
          cases broken

/-- The planner reads what the command line does, but where every line is text and the last of them
ends in a carriage return. -/
theorem planLines_eq : ∀ {lines : List (List UInt8)} {i blank : Nat} {keys : List String},
    Ended lines → (lines.flatten.getLast? ≠ some 13 ∨ Broken lines) → (∀ raw ∈ lines, raw ≠ []) →
      planLines lines i keys blank = keysRead lines i keys blank := by
  intro lines
  induction lines with
  | nil => exact fun _ _ _ => rfl
  | cons raw lines ih =>
      intro i blank keys ended fine some_
      obtain ⟨here, later⟩ := List.forall_mem_cons.mp some_
      cases lines with
      | nil =>
          refine planLines_line (planLines_last ?_) fun _ _ => rfl
          rcases fine with other | ⟨line, member, broken⟩
          · rw [List.flatten_singleton] at other
            exact .inl other
          · rw [List.mem_singleton.mp member] at broken
            exact .inr broken
      | cons next lines =>
          obtain ⟨newline, ended⟩ := ended
          obtain ⟨front, rfl⟩ := List.getLast?_eq_some_iff.mp newline
          have text := lineText_newline front
          cases read : fromUtf8 (front ++ [10]) with
          | none =>
              rw [read] at text
              rw [planLines, keysRead, read, text]
              rfl
          | some line =>
              refine planLines_line text fun keys blank => ih ended ?_ later
              have nonempty : (next :: lines).flatten ≠ [] := by
                intro none_
                rw [List.flatten_eq_nil_iff] at none_
                exact later next List.mem_cons_self (none_ next List.mem_cons_self)
              rcases fine with other | ⟨bad, member, broken⟩
              · rw [List.flatten_cons, List.getLast?_append_of_ne_nil _ nonempty] at other
                exact .inl other
              · rcases List.mem_cons.mp member with rfl | member
                · rw [read] at broken
                  cases broken
                · exact .inr ⟨bad, member, broken⟩

/-- There it delivers another last key, or none. -/
theorem planLines_ne : ∀ {lines : List (List UInt8)} {i blank : Nat} {keys : List String},
    Ended lines → lines.flatten.getLast? = some 13 → ¬ Broken lines → (∀ raw ∈ lines, raw ≠ []) →
      (planLines lines i keys blank).keys ≠ (keysRead lines i keys blank).keys := by
  intro lines
  induction lines with
  | nil =>
      intro _ _ _ _ carriage
      cases carriage
  | cons raw lines ih =>
      intro i blank keys ended carriage whole some_
      obtain ⟨here, later⟩ := List.forall_mem_cons.mp some_
      cases read : fromUtf8 raw with
      | none => exact absurd ⟨raw, List.mem_cons_self, read⟩ whole
      | some line =>
          cases lines with
          | nil =>
              rw [List.flatten_singleton] at carriage
              have unended : raw.getLast? ≠ some 10 := by
                rw [carriage]
                decide
              obtain ⟨same, stays⟩ := lineText_last unended
              obtain ⟨front, rfl⟩ := List.getLast?_eq_some_iff.mp carriage
              rw [fromUtf8_concat return_bytes (by decide)] at read
              obtain ⟨text, -, rfl⟩ := Option.map_eq_some_iff.mp read
              rw [← fromUtf8_concat return_bytes (by decide)] at read
              have kept : String.ofList (text.toList ++ ['\r']) ≠ "" := by
                intro empty
                have chars := congrArg String.toList empty
                rw [String.toList_ofList] at chars
                simp at chars
              rw [planLines, keysRead, same, read]
              simp only [stays _ read, stripEnd_push, String.ofList_toList, if_neg kept, planLines,
                keysRead]
              split
              · intro both
                simp at both
              · intro both
                have last := List.singleton_inj.mp (List.append_cancel_left both)
                have chars := congrArg (fun key : String => key.toList.length) last
                simp at chars
          | cons next lines =>
              obtain ⟨newline, ended⟩ := ended
              obtain ⟨front, rfl⟩ := List.getLast?_eq_some_iff.mp newline
              have text := lineText_newline front
              rw [read, Option.map_some] at text
              have nonempty : (next :: lines).flatten ≠ [] := by
                intro none_
                rw [List.flatten_eq_nil_iff] at none_
                exact later next List.mem_cons_self (none_ next List.mem_cons_self)
              rw [List.flatten_cons, List.getLast?_append_of_ne_nil _ nonempty] at carriage
              have rest : ¬ Broken (next :: lines) := fun ⟨bad, member, broken⟩ =>
                whole ⟨bad, List.mem_cons_of_mem _ member, broken⟩
              rw [planLines, keysRead, read, text]
              simp only
              split
              · exact ih ended carriage rest later
              · exact ih ended carriage rest later

/-- The readers agree on every file, but one that is text to its end and ends in a carriage return. -/
theorem readersAgree_iff (bytes : List UInt8) :
    ReadersAgree bytes ↔ (bytes.getLast? ≠ some 13 ∨ ∃ raw ∈ rawLines bytes, fromUtf8 raw = none) := by
  obtain ⟨ended, whole, some_⟩ := rawLines_ended bytes
  have source : sourceKeys bytes = keysRead (rawLines bytes) 0 [] 0 := sourceKeys_eq bytes
  constructor
  · intro agree
    by_contra neither
    rw [not_or, not_not] at neither
    obtain ⟨carriage, text⟩ := neither
    rw [← whole] at carriage
    exact planLines_ne ended carriage text some_ agree.1.1
  · intro fine
    rw [← whole] at fine
    have plan : planLines (rawLines bytes) 0 [] 0 = keysRead (rawLines bytes) 0 [] 0 :=
      planLines_eq ended (by rwa [whole] at fine ⊢) some_
    exact ⟨⟨congrArg Reading.keys plan, congrArg Reading.failed plan⟩, congrArg Reading.keys source,
      congrArg Reading.failed source⟩

/-- A file of one key and a carriage return is another key to the planner. -/
theorem readers_differ : ¬ ReadersAgree [97, 13] := by
  intro agree
  have one : rawLines [97, 13] = [[97, 13]] := by decide
  have read : fromUtf8 [97, 13] = some "a\r" := fromUtf8_eq_some_iff.mpr (by decide)
  refine planLines_ne (rawLines_ended [97, 13]).1 (by rw [one]; rfl) ?_ (rawLines_ended [97, 13]).2.2
    agree.1.1
  rintro ⟨raw, member, broken⟩
  rw [one, List.mem_singleton] at member
  rw [member, read] at broken
  cases broken

end Lexindex.Cli
