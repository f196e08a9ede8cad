import Mathlib
import Lexindex.Lib.Checked
import Lexindex.Lib.Utf8
import Lexindex.Overlay.CompactSorted
import Lexindex.Overlay.Renumber

/-!
# One key per line

The command line reads keys a line at a time and drops the empty ones, and writes a key as
itself and a newline.  A key with a line break is refused, and an empty key is not.
-/

set_option autoImplicit false

namespace Lexindex.Cli

/-- What went wrong: a command line that did not parse, or work that failed. -/
inductive Fail
  | usage (message : String)
  | failed (message : String)
  deriving DecidableEq, Repr

/-! ## Reading -/

/-- The lines of some bytes, each with the newline that ends it. -/
def rawLines : List UInt8 → List (List UInt8)
  | [] => []
  | byte :: rest =>
      if byte = 10 then [byte] :: rawLines rest
      else
        match rawLines rest with
        | [] => [[byte]]
        | line :: lines => (byte :: line) :: lines

/-- A line without its newline, and without a carriage return right before that. -/
def stripLine (raw : List UInt8) : List UInt8 :=
  if raw.getLast? = some 10 then
    if raw.dropLast.getLast? = some 13 then raw.dropLast.dropLast else raw.dropLast
  else raw

/-- A line as text.  The bytes taken off are characters of their own, so the rest is UTF-8
exactly when the whole line is. -/
def lineText (raw : List UInt8) : Option String :=
  fromUtf8 (stripLine raw)

/-- The keys of some lines and how many are empty, the first of them line `i` from nought. -/
def readLines (path : String) : List (List UInt8) → Nat → Except Fail (List String × Nat)
  | [], _ => .ok ([], 0)
  | raw :: rest, i => do
      let line ← okOr (lineText raw)
        (Fail.failed s!"{path}:{i + 1}: stream did not contain valid UTF-8")
      let (keys, blank) ← readLines path rest (i + 1)
      if line = "" then pure (keys, blank + 1) else pure (line :: keys, blank)

/-- The keys of a file, one per line, and how many empty lines were dropped. -/
def readKeys (path : String) (bytes : List UInt8) : Except Fail (List String × Nat) :=
  readLines path (rawLines bytes) 0

/-! ## Writing -/

/-- Whether a line could not carry the key. -/
def hasLineBreak (key : String) : Bool :=
  key.toList.any fun c => c = '\n' || c = '\r'

/-- One key and the newline that ends it, behind what was written before.  `takes` is whether
the writer takes what it has been given so far. -/
def writeKey (takes : List UInt8 → Bool) (out : List UInt8) (key : String) (id : Nat) :
    Except Fail (List UInt8) := do
  refuse (hasLineBreak key = true)
    (Fail.failed s!"id {id} holds a line break, which one key per line cannot carry")
  let out := out ++ (bytesOf key ++ [10])
  refuse (takes out = false) (Fail.failed "failed to write whole buffer")
  pure out

/-! ## The round trip -/

/-- An ASCII byte of a character's encoding is the whole character. -/
theorem ascii_of_mem {c : Char} {byte : UInt8} (member : byte ∈ String.utf8EncodeChar c)
    (ascii : byte.toNat < 128) : c.toNat = byte.toNat := by
  obtain ⟨digits, form, encoded⟩ := utf8Form c
  rw [encoded] at member
  obtain ⟨d, digit, rfl⟩ := List.mem_map.mp member
  have small := form.digit_lt d digit
  rw [UInt8.toNat_ofNat', Nat.mod_eq_of_lt (by omega)] at ascii ⊢
  cases form with
  | one _ => exact (List.mem_singleton.mp digit).symm
  | two _ _ =>
      simp only [List.mem_cons, List.not_mem_nil, or_false] at digit
      omega
  | three _ _ =>
      simp only [List.mem_cons, List.not_mem_nil, or_false] at digit
      omega
  | four _ _ =>
      simp only [List.mem_cons, List.not_mem_nil, or_false] at digit
      omega

theorem mem_of_ascii {key : String} {byte : UInt8} (member : byte ∈ bytesOf key)
    (ascii : byte.toNat < 128) : Char.ofNat byte.toNat ∈ key.toList := by
  rw [bytesOf_eq] at member
  obtain ⟨c, here, there⟩ := List.mem_flatMap.mp member
  rw [← ascii_of_mem there ascii, Char.ofNat_toNat]
  exact here

section Lines

variable {key : String} (whole : hasLineBreak key = false)
include whole

theorem newline_not_mem : (10 : UInt8) ∉ bytesOf key := by
  intro member
  have listed := mem_of_ascii member (by decide)
  rw [hasLineBreak, List.any_eq_false] at whole
  exact whole _ listed (by decide)

theorem return_not_mem : (13 : UInt8) ∉ bytesOf key := by
  intro member
  have listed := mem_of_ascii member (by decide)
  rw [hasLineBreak, List.any_eq_false] at whole
  exact whole _ listed (by decide)

/-- A key's line reads back as the key. -/
theorem lineText_key : lineText (bytesOf key ++ [10]) = some key := by
  have last : (bytesOf key).getLast? ≠ some 13 := fun is =>
    return_not_mem whole (List.mem_of_getLast? is)
  rw [lineText, stripLine, List.getLast?_concat, if_pos rfl, List.dropLast_concat, if_neg last]
  exact fromUtf8_bytesOf key

end Lines

/-- A line ends at its newline. -/
theorem rawLines_line {line rest : List UInt8} (none : (10 : UInt8) ∉ line) :
    rawLines (line ++ [10] ++ rest) = (line ++ [10]) :: rawLines rest := by
  induction line with
  | nil => rfl
  | cons byte line ih =>
      rw [List.mem_cons, not_or] at none
      rw [List.cons_append, List.cons_append, rawLines, if_neg (Ne.symm none.1), ih none.2]

/-- The lines some keys are written as. -/
def linesOf (keys : List String) : List UInt8 :=
  keys.flatMap fun key => bytesOf key ++ [10]

/-- What was written reads back without its empty keys. -/
theorem readLines_linesOf (path : String) {keys : List String} : ∀ {i : Nat},
    (∀ key ∈ keys, hasLineBreak key = false) →
      readLines path (rawLines (linesOf keys)) i =
        .ok (keys.filter (· ≠ ""), keys.count "") := by
  induction keys with
  | nil => exact fun _ => rfl
  | cons key keys ih =>
      intro i whole
      obtain ⟨here, whole⟩ := List.forall_mem_cons.mp whole
      rw [linesOf, List.flatMap_cons, rawLines_line (newline_not_mem here), readLines,
        lineText_key here, ← linesOf, ih whole]
      by_cases empty : key = ""
      · rw [empty, List.filter_cons_of_neg (by simp), List.count_cons_self]
        rfl
      · rw [List.filter_cons_of_pos (by simpa using empty), List.count_cons_of_ne empty]
        simp only [okOr, bind, Except.bind, if_neg empty]
        rfl

end Lexindex.Cli

/-!
## Dumping an index

`dump` writes the keys of a blob one per line, for `build` to read back.  What comes back is the
key set, but for the empty key: it is written as an empty line, which the reader drops.
-/

namespace Lexindex.Cli

open PerfectHash (Hashing PerfectHashIndex Built)

/-- A blob as its kind loads it.  A dictionary is the keys its walk yields, in rank order. -/
inductive Opened (fst : Fst) (h : Hashing)
  | stringIndex (idx : RankedIndex fst)
  | dictIndex (keys : List String)
  | hashedDictIndex (keys : List String)
  | perfectHashIndex (idx : PerfectHashIndex h)
  | stringOverlay (ov : Overlay (RankedIndex fst))
  | hashedOverlay (ov : Overlay (PerfectHashIndex h))
  | otherOverlay (tag : Nat)
  | compactHashIndex
  | closedHashIndex
  | mphf
  | doubleArrayIndex

variable {fst : Fst} {h : Hashing}

/-! ### The command -/

def keyless (path what : String) : Fail :=
  .failed (s!"{path}: a {what} stores no keys, so there is nothing to dump — keep the key list it " ++
    "was built from, which is the only way across a format change")

/-- Each key the walk yields with its id, written in turn; an id without a key ends the dump. -/
def writeKeys (path : String) (takes : List UInt8 → Bool) :
    List (Option String × Nat) → List UInt8 → Except Fail (List UInt8)
  | [], out => .ok out
  | (key, id) :: rest, out => do
      let key ← okOr key (Fail.failed s!"{path}: id {id} has no key")
      let out ← writeKey takes out key id
      writeKeys path takes rest out

/-- Keys as a walk that numbers them yields them. -/
def numbered (keys : List String) : List (Option String × Nat) :=
  keys.zipIdx.map fun e => (some e.1, e.2)

/-- `cmd_dump`: what it writes, or how it fails; `none` where an overlay's walk panics. -/
def cmdDump (path : String) (takes : List UInt8 → Bool) :
    Opened fst h → Option (Except Fail (List UInt8))
  | .stringIndex idx =>
      some (writeKeys path takes (idx.1.iter.map fun e => (some e.1, e.2)) [])
  | .dictIndex keys => some (writeKeys path takes (numbered keys) [])
  | .hashedDictIndex keys => some (writeKeys path takes (numbered keys) [])
  | .perfectHashIndex idx =>
      some (writeKeys path takes ((List.range idx.len).map fun id => (idx.key id, id)) [])
  | .stringOverlay ov => ov.keys.map fun keys => writeKeys path takes (numbered keys) []
  | .hashedOverlay ov => ov.keys.map fun keys => writeKeys path takes (numbered keys) []
  | .otherOverlay tag => some (.error (.failed
      s!"{path}: an overlay over a base tagged {tag} stores no keys of its own to dump"))
  | .compactHashIndex => some (.error (keyless path "CompactHashIndex"))
  | .closedHashIndex => some (.error (keyless path "ClosedHashIndex"))
  | .mphf => some (.error (keyless path "minimal perfect hash"))
  | .doubleArrayIndex => some (.error (.failed
      (s!"{path}: a DoubleArrayIndex answers no id -> key, so it cannot be dumped; keep the key " ++
        "list it was built from, which is the only way across a format change")))

/-! ### What a blob holds -/

/-- The blob is of a kind `dump` writes, as builds and edits leave it. -/
def Opened.Dumpable (hash : List UInt8 → UInt64) : Opened fst h → Prop
  | .stringIndex _ => True
  | .dictIndex _ => True
  | .hashedDictIndex _ => True
  | .perfectHashIndex idx => Built idx
  | .stringOverlay ov => ∃ base edits, (Overlay.new base).run hash edits = some ov
  | .hashedOverlay ov => ∃ base edits, Built base ∧ (Overlay.new base).run hash edits = some ov
  | _ => False

/-- The blob answers the key with an id. -/
def Opened.Holds (hash : List UInt8 → UInt64) : Opened fst h → String → Prop
  | .stringIndex idx, key => ∃ id, idx.1.id key = some id
  | .dictIndex keys, key => key ∈ keys
  | .hashedDictIndex keys, key => key ∈ keys
  | .perfectHashIndex idx, key => ∃ id, idx.id key = some id
  | .stringOverlay ov, key => ∃ id, ov.id hash key = some (some id)
  | .hashedOverlay ov, key => ∃ id, ov.id hash key = some (some id)
  | _, _ => False

/-- Whatever the path and the writer, the dump is an error or reads back as the key set. -/
def KeepsKeys (hash : List UInt8 → UInt64) (opened : Opened fst h) : Prop :=
  ∀ (path : String) (takes : List UInt8 → Bool), ∃ result, cmdDump path takes opened = some result ∧
    ((∃ e, result = .error e) ∨
      ∃ out keys blank, result = .ok out ∧ readKeys "-" out = .ok (keys, blank) ∧
        ∀ key, key ∈ keys ↔ opened.Holds hash key)

/-- The walk of a blob is this one, of just the keys it holds. -/
structure Walks (hash : List UInt8 → UInt64) (opened : Opened fst h) (keys : List String) :
    Prop where
  dump : ∀ path takes, ∃ ids : List Nat, ids.length = keys.length ∧
    cmdDump path takes opened =
      some (writeKeys path takes ((keys.zip ids).map fun e => (some e.1, e.2)) [])
  holds : ∀ key, key ∈ keys ↔ opened.Holds hash key

section Walks

variable {hash : List UInt8 → UInt64}

theorem numbered_eq (keys : List String) :
    numbered keys = (keys.zip (List.range keys.length)).map fun e => (some e.1, e.2) := by
  rw [numbered, List.zipIdx_eq_zip_range']
  rw [List.range_eq_range']

/-- A walk that numbers its keys. -/
theorem Walks.ofNumbered {opened : Opened fst h} {keys : List String}
    (dump : ∀ path takes, cmdDump path takes opened =
      some (writeKeys path takes (numbered keys) []))
    (holds : ∀ key, key ∈ keys ↔ opened.Holds hash key) : Walks hash opened keys where
  dump path takes := ⟨List.range keys.length, List.length_range, by rw [dump, numbered_eq]⟩
  holds := holds

theorem stringIndex_walks (idx : RankedIndex fst) :
    ∃ keys, Walks hash (.stringIndex idx : Opened fst h) keys := by
  obtain ⟨keys, ranked⟩ := idx.2
  refine ⟨keys, .ofNumbered (fun path takes => ?_) fun key => ?_⟩
  · rw [cmdDump, ranked.iter]
    rfl
  · rw [List.mem_iff_getElem?]
    exact exists_congr fun id => (ranked.id_iff key id).symm

theorem perfectHashIndex_walks {idx : PerfectHashIndex h} (built : Built idx) :
    ∃ keys, Walks hash (.perfectHashIndex idx : Opened fst h) keys := by
  have exact := built.exact
  have size : idx.arena.length = idx.len := by
    refine Nat.le_antisymm (Nat.le_of_not_lt fun more => ?_) (Nat.le_of_not_lt fun fewer => ?_)
    · have inside := (exact.range idx.len).mp (by
        change (idx.arena[idx.len]?).isSome
        simpa using more)
      exact absurd inside (lt_irrefl _)
    · have inside := (exact.range idx.arena.length).mpr fewer
      change (idx.arena[idx.arena.length]?).isSome at inside
      simp at inside
  refine ⟨idx.arena, .ofNumbered (fun path takes => ?_) fun key => ?_⟩
  · rw [cmdDump, numbered_eq, ← size]
    congr 2
    refine List.ext_getElem? fun i => ?_
    rw [List.getElem?_map, List.getElem?_map]
    by_cases inside : i < idx.arena.length
    · rw [List.getElem?_range inside, List.getElem?_eq_getElem (by simpa using inside)]
      simp [PerfectHashIndex.key, inside]
    · rw [List.getElem?_eq_none (by simpa using inside),
        List.getElem?_eq_none (by simpa using inside)]
      rfl
  · rw [List.mem_iff_getElem?]
    exact exists_congr fun id => (exact.inverse key id).symm

/-- An overlay over an exact base lists what it answers. -/
theorem overlay_listed {I : Type} [OverlayKeys I] {base : I} (exact : Overlay.ExactBase base)
    {edits : List Overlay.Edit} {ov : Overlay I}
    (reached : (Overlay.new base).run hash edits = some ov) :
    ∃ keys, ov.keys = some keys ∧ ∀ key, key ∈ keys ↔ ∃ id, ov.id hash key = some (some id) := by
  have shows := (Overlay.represents_new base).run exact.bounded reached
  obtain ⟨keys, listed, -, -, members⟩ := shows.listed exact
  exact ⟨keys, listed, members⟩

/-- Every kind that is dumped walks the keys it holds. -/
theorem Opened.Dumpable.walks {opened : Opened fst h} (dumpable : opened.Dumpable hash) :
    ∃ keys, Walks hash opened keys := by
  cases opened with
  | stringIndex idx => exact stringIndex_walks idx
  | dictIndex keys => exact ⟨keys, .ofNumbered (fun _ _ => rfl) fun _ => Iff.rfl⟩
  | hashedDictIndex keys => exact ⟨keys, .ofNumbered (fun _ _ => rfl) fun _ => Iff.rfl⟩
  | perfectHashIndex idx => exact perfectHashIndex_walks dumpable
  | stringOverlay ov =>
      obtain ⟨base, edits, reached⟩ := dumpable
      obtain ⟨keys, listed, members⟩ := overlay_listed base.exact reached
      exact ⟨keys, .ofNumbered (fun _ _ => by rw [cmdDump, listed]; rfl) members⟩
  | hashedOverlay ov =>
      obtain ⟨base, edits, built, reached⟩ := dumpable
      obtain ⟨keys, listed, members⟩ := overlay_listed built.exact reached
      exact ⟨keys, .ofNumbered (fun _ _ => by rw [cmdDump, listed]; rfl) members⟩
  | otherOverlay tag => exact dumpable.elim
  | compactHashIndex => exact dumpable.elim
  | closedHashIndex => exact dumpable.elim
  | mphf => exact dumpable.elim
  | doubleArrayIndex => exact dumpable.elim

end Walks

/-! ### What a dump writes -/

/-- A walk is written as lines, or fails: always where a key has a line break, and never where
none has and the writer takes everything. -/
theorem writeKeys_cases (path : String) (takes : List UInt8 → Bool) {keys : List String} :
    ∀ {ids : List Nat} {out : List UInt8}, ids.length = keys.length →
      (∃ e, writeKeys path takes ((keys.zip ids).map fun e => (some e.1, e.2)) out = .error e) ∧
          (takes = (fun _ => true) → ∃ key ∈ keys, hasLineBreak key = true) ∨
        writeKeys path takes ((keys.zip ids).map fun e => (some e.1, e.2)) out =
            .ok (out ++ linesOf keys) ∧
          ∀ key ∈ keys, hasLineBreak key = false := by
  induction keys with
  | nil => exact fun _ => .inr ⟨by rw [linesOf, List.flatMap_nil, List.append_nil]; rfl, by simp⟩
  | cons key keys ih =>
      intro ids out same
      cases ids with
      | nil => cases same
      | cons id ids =>
          have step : writeKeys path takes
              (((key :: keys).zip (id :: ids)).map fun e => (some e.1, e.2)) out =
              (writeKey takes out key id).bind fun out =>
                writeKeys path takes ((keys.zip ids).map fun e => (some e.1, e.2)) out := rfl
          rw [step, writeKey]
          cases broken : hasLineBreak key with
          | true => exact .inl ⟨⟨_, rfl⟩, fun _ => ⟨key, List.mem_cons_self, broken⟩⟩
          | false =>
              cases taken : takes (out ++ (bytesOf key ++ [10])) with
              | false =>
                  refine .inl ⟨⟨Fail.failed "failed to write whole buffer", ?_⟩, fun always => ?_⟩
                  · simp [refuse, taken, bind, Except.bind]
                  · rw [always] at taken
                    cases taken
              | true =>
                  have written : (do
                      refuse (false = true) (Fail.failed
                        s!"id {id} holds a line break, which one key per line cannot carry")
                      refuse (takes (out ++ (bytesOf key ++ [10])) = false)
                        (Fail.failed "failed to write whole buffer")
                      pure (out ++ (bytesOf key ++ [10])) : Except Fail (List UInt8)) =
                      .ok (out ++ (bytesOf key ++ [10])) := by
                    simp [refuse, taken, bind, Except.bind, pure, Except.pure]
                  rw [written]
                  rcases @ih ids (out ++ (bytesOf key ++ [10])) (Nat.succ.inj same) with
                    ⟨failed, why⟩ | ⟨result, whole⟩
                  · refine .inl ⟨failed, fun always => ?_⟩
                    obtain ⟨other, member, breaks⟩ := why always
                    exact ⟨other, List.mem_cons_of_mem _ member, breaks⟩
                  · refine .inr ⟨?_, List.forall_mem_cons.mpr ⟨broken, whole⟩⟩
                    have parted : linesOf (key :: keys) = (bytesOf key ++ [10]) ++ linesOf keys :=
                      List.flatMap_cons
                    rw [parted]
                    exact result.trans (congrArg Except.ok (List.append_assoc ..))

/-- A dump followed by a read keeps the key set just where the empty key is not in it, or some key
with a line break is, which makes the dump an error. -/
theorem dump_keeps_keys_iff (hash : List UInt8 → UInt64) {opened : Opened fst h}
    (dumpable : opened.Dumpable hash) :
    KeepsKeys hash opened ↔
      ¬ opened.Holds hash "" ∨ ∃ key, opened.Holds hash key ∧ hasLineBreak key = true := by
  obtain ⟨keys, walks⟩ := dumpable.walks
  constructor
  · intro keeps
    by_contra other
    rw [not_or, not_not] at other
    obtain ⟨empty, unbroken⟩ := other
    obtain ⟨ids, same, dumped⟩ := walks.dump "" fun _ => true
    obtain ⟨result, is, read⟩ := keeps "" fun _ => true
    rw [dumped, Option.some.injEq] at is
    rcases @writeKeys_cases "" (fun _ => true) keys ids [] same with ⟨-, why⟩ | ⟨written, whole⟩
    · obtain ⟨key, member, breaks⟩ := why rfl
      exact unbroken ⟨key, (walks.holds key).mp member, breaks⟩
    · rw [written] at is
      rcases read with ⟨e, failed⟩ | ⟨out, back, blank, made, readBack, members⟩
      · rw [failed] at is
        cases is
      · rw [made, Except.ok.injEq, List.nil_append] at is
        rw [← is, readKeys, readLines_linesOf "-" whole, Except.ok.injEq, Prod.mk.injEq]
          at readBack
        have present := (members "").mpr empty
        rw [← readBack.1] at present
        exact absurd (List.mem_filter.mp present).2 (by simp)
  · intro condition path takes
    obtain ⟨ids, same, dumped⟩ := walks.dump path takes
    refine ⟨_, dumped, ?_⟩
    rcases @writeKeys_cases path takes keys ids [] same with ⟨failed, -⟩ | ⟨written, whole⟩
    · exact .inl failed
    · refine .inr ⟨_, keys.filter (· ≠ ""), keys.count "", written, ?_, fun key => ?_⟩
      · rw [List.nil_append, readKeys, readLines_linesOf "-" whole]
      · have absent : ¬ opened.Holds hash "" := by
          rcases condition with none | ⟨broken, held, breaks⟩
          · exact none
          · rw [whole broken ((walks.holds broken).mpr held)] at breaks
            cases breaks
        rw [List.mem_filter, walks.holds]
        refine and_iff_left_of_imp fun held => ?_
        rw [decide_eq_true_eq]
        rintro rfl
        exact absent held

/-- A crate that writes nothing, enough for an index in memory. -/
def noBytes : Fst where
  finish _ := []
  read _ := none

theorem dump_keeps_keys_iff_one_key :
    KeepsKeys (fun _ => 0) (.stringIndex (RankedIndex.ofKeys ["a"]) : Opened noBytes Overlay.oneHash) ↔
      ¬ (.stringIndex (RankedIndex.ofKeys ["a"]) : Opened noBytes Overlay.oneHash).Holds
          (fun _ => 0) "" ∨
        ∃ key, (.stringIndex (RankedIndex.ofKeys ["a"]) : Opened noBytes Overlay.oneHash).Holds
          (fun _ => 0) key ∧ hasLineBreak key = true :=
  dump_keeps_keys_iff (fun _ => 0) trivial

/-- The index of the empty key alone dumps as an empty line, which reads back as no key. -/
theorem empty_key_lost :
    ∃ idx : RankedIndex noBytes, RankedIndex.build [""] = .ok idx ∧
      ¬ KeepsKeys (fun _ => 0) (.stringIndex idx : Opened noBytes Overlay.oneHash) := by
  refine ⟨_, RankedIndex.build_eq [""], fun keeps => ?_⟩
  have one : sortDedup bytesOf [""] = [""] :=
    (eq_sortDedup (fun _ _ => bytesOf_inj) [""] (List.pairwise_singleton ..) fun _ => Iff.rfl).symm
  have ranked : (RankedIndex.ofKeys [""] : RankedIndex noBytes).1.IsRanked [""] :=
    ⟨List.pairwise_singleton .., congrArg (rankedFrom · 0) one⟩
  obtain ⟨result, dumped, read⟩ := keeps "" fun _ => true
  rw [cmdDump, ranked.iter, Option.some.injEq] at dumped
  have line : result = .ok [10] := dumped.symm
  rw [line] at read
  rcases read with ⟨e, failed⟩ | ⟨out, keys, blank, made, back, members⟩
  · cases failed
  · rw [← Except.ok.inj made, show readKeys "-" [10] = .ok ([], 1) from rfl, Except.ok.injEq,
      Prod.mk.injEq] at back
    have held : ∃ id, (RankedIndex.ofKeys [""] : RankedIndex noBytes).1.id "" = some id :=
      ⟨0, (ranked.id_iff "" 0).mpr rfl⟩
    have listed := (members "").mpr held
    rw [← back.1] at listed
    exact absurd listed List.not_mem_nil

end Lexindex.Cli
