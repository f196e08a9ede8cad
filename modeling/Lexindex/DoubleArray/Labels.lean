import Mathlib
import Lexindex.DoubleArray.Build
import Lexindex.DoubleArray.TrieSound
import Lexindex.Lib.Patricia
import Lexindex.Lib.Search

/-!
# The labels of the characters

A character's label is its rank by frequency, counted from 1; a character of no key has
label 0, wherever the table or the list past it is asked for it.
-/

set_option autoImplicit false

namespace Lexindex.DoubleArray

/-- The label of `cp` where the characters are ranked as in `order`. -/
def labelIn (order : List Nat) (cp : Nat) : Nat :=
  if cp ∈ order then order.idxOf cp + 1 else 0

theorem labelIn_inj {order : List Nat} {a b : Nat} (aIn : a ∈ order) (bIn : b ∈ order)
    (same : labelIn order a = labelIn order b) : a = b := by
  rw [labelIn, labelIn, if_pos aIn, if_pos bIn, Nat.add_right_cancel_iff] at same
  exact (List.idxOf_inj aIn).mp same

theorem labelIn_le (order : List Nat) (cp : Nat) : labelIn order cp ≤ order.length := by
  rw [labelIn]
  split
  · rename_i member
    exact List.idxOf_lt_length_iff.mpr member
  · exact Nat.zero_le _

theorem labelIn_ne_zero {order : List Nat} {cp : Nat} : labelIn order cp ≠ 0 ↔ cp ∈ order := by
  rw [labelIn]
  split
  · rename_i member
    simp [member]
  · rename_i absent
    simp [absent]

/-- The characters ranked are those met, each once. -/
theorem charsOf_spec (cps : List Nat) :
    ((charsOf cps).map Prod.snd).Nodup ∧ ∀ cp, cp ∈ (charsOf cps).map Prod.snd ↔ cp ∈ cps := by
  have perm : (charsOf cps).Perm (((List.range ((cps.max?.map (· + 1)).getD 0)).map fun cp =>
      ((tally (fun cp => cp) 0 ((cps.max?.map (· + 1)).getD 0) cps).getD cp 0, cp)).filter
        fun e => 0 < e.1) :=
    List.mergeSort_perm ..
  have bound : ∀ cp ∈ cps, cp < (cps.max?.map (· + 1)).getD 0 := by
    intro cp member
    cases largest : cps.max? with
    | none =>
        rw [List.max?_eq_none_iff] at largest
        rw [largest] at member
        exact absurd member List.not_mem_nil
    | some most =>
        have le := (List.max?_eq_some_iff.mp largest).2 cp member
        rw [Option.map_some, Option.getD_some]
        omega
  generalize (cps.max?.map (· + 1)).getD 0 = length at perm bound
  obtain ⟨-, counts⟩ := tally_spec (fun cp : Nat => cp) 0 length cps
  refine ⟨?_, fun cp => ?_⟩
  · rw [(perm.map Prod.snd).nodup_iff, List.filter_map, List.map_map]
    exact (List.Nodup.filter _ List.nodup_range).map fun a b same => same
  · rw [(perm.map Prod.snd).mem_iff]
    simp only [List.mem_map, List.mem_filter, List.mem_range, decide_eq_true_eq]
    constructor
    · rintro ⟨e, ⟨⟨cp', small, rfl⟩, positive⟩, rfl⟩
      simp only [counts cp' small, List.countP_pos_iff, Nat.add_zero, decide_eq_true_eq] at positive
      obtain ⟨a, aIn, same⟩ := positive
      exact same ▸ aIn
    · intro member
      have small := bound cp member
      refine ⟨_, ⟨⟨cp, small, rfl⟩, ?_⟩, rfl⟩
      simp only [counts cp small, List.countP_pos_iff, Nat.add_zero, decide_eq_true_eq]
      exact ⟨cp, member, rfl⟩

section Table

variable {chars : List (Nat × Nat)}

theorem tableLen_le (chars : List (Nat × Nat)) : tableLen chars ≤ BMP := by
  rw [tableLen]
  cases largest : ((chars.map Prod.snd).filter (· < BMP)).max? with
  | none => exact Nat.zero_le _
  | some most =>
      have member := (List.max?_eq_some_iff.mp largest).1
      rw [List.mem_filter, decide_eq_true_iff] at member
      exact member.2

theorem lt_tableLen {cp : Nat} (member : cp ∈ chars.map Prod.snd) (small : cp < BMP) :
    cp < tableLen chars := by
  rw [tableLen]
  have among : cp ∈ (chars.map Prod.snd).filter (· < BMP) :=
    List.mem_filter.mpr ⟨member, decide_eq_true small⟩
  cases largest : ((chars.map Prod.snd).filter (· < BMP)).max? with
  | none =>
      rw [List.max?_eq_none_iff] at largest
      rw [largest] at among
      exact absurd among List.not_mem_nil
  | some most =>
      have le := (List.max?_eq_some_iff.mp largest).2 cp among
      rw [Option.map_some, Option.getD_some]
      omega

/-- The loop that fills the table, from rank `first` on. -/
theorem codeTable_fold (chars : List (Nat × Nat)) (first : Nat) (table : List Nat)
    (distinct : (chars.map Prod.snd).Nodup) :
    ((chars.zipIdx first).foldl
        (fun table e => if e.1.2 < BMP then table.set e.1.2 (e.2 + 1) else table) table).length =
      table.length ∧
    ∀ cp, cp < table.length → cp < BMP →
      ((chars.zipIdx first).foldl
        (fun table e => if e.1.2 < BMP then table.set e.1.2 (e.2 + 1) else table) table)[cp]? =
      some (if cp ∈ chars.map Prod.snd then first + (chars.map Prod.snd).idxOf cp + 1
        else table.getD cp 0) := by
  induction chars generalizing first table with
  | nil =>
      refine ⟨rfl, fun cp inside _ => ?_⟩
      rw [List.getD_eq_getElem _ _ inside]
      exact List.getElem?_eq_getElem inside
  | cons e chars ih =>
      obtain ⟨f, own⟩ := e
      rw [List.map_cons, List.nodup_cons] at distinct
      rw [List.zipIdx_cons, List.foldl_cons]
      obtain ⟨sized, entries⟩ :=
        ih (first + 1) (if own < BMP then table.set own (first + 1) else table) distinct.2
      have resized : (if own < BMP then table.set own (first + 1) else table).length =
          table.length := by
        split
        · exact List.length_set
        · rfl
      refine ⟨sized.trans resized, fun cp inside small => ?_⟩
      rw [entries cp (by omega) small, List.map_cons]
      by_cases here : cp = own
      · subst here
        rw [if_neg distinct.1, if_pos small, if_pos List.mem_cons_self, List.idxOf_cons_self,
          List.getD_eq_getElem?_getD, List.getElem?_set_self inside, Option.getD_some]
      · by_cases later : cp ∈ chars.map Prod.snd
        · rw [if_pos later, if_pos (List.mem_cons_of_mem _ later),
            List.idxOf_cons_ne _ fun same => here same.symm]
          congr 1
          omega
        · rw [if_neg later, if_neg fun member => (List.mem_cons.mp member).elim here later]
          split
          · rw [List.getD_eq_getElem?_getD, List.getD_eq_getElem?_getD,
              List.getElem?_set_ne fun same => here same.symm]
          · rfl

theorem codeTable_spec (distinct : (chars.map Prod.snd).Nodup) :
    (codeTable chars).length = tableLen chars ∧
      ∀ cp, cp < tableLen chars →
        (codeTable chars)[cp]? = some (labelIn (chars.map Prod.snd) cp) := by
  have small := tableLen_le chars
  obtain ⟨sized, entries⟩ :=
    codeTable_fold chars 0 (List.replicate (tableLen chars) 0) distinct
  rw [List.length_replicate] at sized entries
  refine ⟨sized, fun cp inside => ?_⟩
  rw [codeTable, entries cp inside (by omega), Nat.zero_add, labelIn,
    List.getD_eq_getElem _ _ (by rw [List.length_replicate]; exact inside), List.getElem_replicate]

/-- The characters past the table, each with its label. -/
theorem mem_suppOf (distinct : (chars.map Prod.snd).Nodup) {e : Nat × Nat} :
    e ∈ suppOf chars ↔ (BMP ≤ e.1 ∧ e.1 ∈ chars.map Prod.snd) ∧
      e.2 = labelIn (chars.map Prod.snd) e.1 := by
  rw [suppOf, (List.mergeSort_perm ..).mem_iff, List.mem_filterMap]
  constructor
  · rintro ⟨⟨⟨f, cp⟩, rank⟩, member, kept⟩
    rw [List.mem_zipIdx_iff_getElem?] at member
    simp only at member kept
    split at kept
    · cases kept
    · rename_i large
      rw [Option.some.injEq] at kept
      subst kept
      have read : (chars.map Prod.snd)[rank]? = some cp := by
        rw [List.getElem?_map, member]
        rfl
      obtain ⟨inside, exact⟩ := List.getElem?_eq_some_iff.mp read
      have among : cp ∈ chars.map Prod.snd := List.mem_of_getElem? read
      refine ⟨⟨Nat.le_of_not_lt large, among⟩, ?_⟩
      rw [labelIn, if_pos among]
      have position : (chars.map Prod.snd).idxOf cp = rank := by
        rw [← exact]
        exact distinct.idxOf_getElem rank inside
      rw [position]
  · rintro ⟨⟨large, among⟩, label⟩
    obtain ⟨cp, l⟩ := e
    simp only at large among label
    have inside := List.idxOf_lt_length_iff.mpr among
    have read : (chars.map Prod.snd)[(chars.map Prod.snd).idxOf cp]? = some cp := by
      rw [List.getElem?_eq_getElem inside, List.getElem_idxOf inside]
    rw [List.getElem?_map, Option.map_eq_some_iff] at read
    obtain ⟨⟨f, cp'⟩, read, same⟩ := read
    simp only at same
    subst same
    refine ⟨((f, cp'), (chars.map Prod.snd).idxOf cp'),
      List.mem_zipIdx_iff_getElem?.mpr read, ?_⟩
    simp only [if_neg (Nat.not_lt.mpr large)]
    rw [label, labelIn, if_pos among]

/-- The list past the table answers a character's label, or none. -/
theorem find_suppOf (distinct : (chars.map Prod.snd).Nodup) {cp : Nat} (large : BMP ≤ cp) :
    (((suppOf chars).find? fun e => e.1 = cp).map Prod.snd).getD 0 =
      labelIn (chars.map Prod.snd) cp := by
  cases found : (suppOf chars).find? fun e => e.1 = cp with
  | none =>
      rw [List.find?_eq_none] at found
      rw [labelIn, if_neg, Option.map_none, Option.getD_none]
      intro among
      exact found (cp, labelIn (chars.map Prod.snd) cp)
        ((mem_suppOf distinct).mpr ⟨⟨large, among⟩, rfl⟩) (by simp)
  | some e =>
      have own : e.1 = cp := by simpa using List.find?_some found
      have label := ((mem_suppOf distinct).mp (List.mem_of_find?_eq_some found)).2
      rw [Option.map_some, Option.getD_some, label, own]

/-- The label the builder gives a character. -/
theorem labelOf_eq (distinct : (chars.map Prod.snd).Nodup) (cp : Nat) :
    labelOf (codeTable chars) (suppOf chars) cp = labelIn (chars.map Prod.snd) cp := by
  obtain ⟨sized, entries⟩ := codeTable_spec distinct
  rw [labelOf]
  by_cases small : cp < BMP
  · rw [if_pos small, List.getD_eq_getElem?_getD]
    by_cases inside : cp < tableLen chars
    · rw [entries cp inside, Option.getD_some]
    · rw [List.getElem?_eq_none (by omega), Option.getD_none, labelIn,
        if_neg fun among => inside (lt_tableLen among small)]
  · rw [if_neg small]
    exact find_suppOf distinct (Nat.le_of_not_lt small)

end Table

end Lexindex.DoubleArray

/-!
## The lexicon of sorted keys

The keys' labels on end, with where each starts, are a lexicon: labels tell the characters of the
keys apart, so keys with a prefix of labels have one of characters, and lie together.
-/

namespace Lexindex.DoubleArray

/-! ### Keys on end -/

/-- Where each of some lists starts among all of them on end, and where the last one ends. -/
def startsOf {α : Type} (parts : List (List α)) : List Nat :=
  (List.range (parts.length + 1)).map fun i => (parts.take i).flatten.length

theorem startsOf_getD {α : Type} {parts : List (List α)} {i : Nat} (inside : i ≤ parts.length) :
    (startsOf parts).getD i 0 = (parts.take i).flatten.length := by
  have within : i < (startsOf parts).length := by
    rw [startsOf, List.length_map, List.length_range]
    omega
  rw [List.getD_eq_getElem _ _ within]
  simp [startsOf]

/-- The characters of the keys, and where each key's start. -/
theorem decodeKeys_eq (keys : List String) (cps starts : List Nat) :
    decodeKeys keys cps starts =
      (cps ++ (keys.map fun k => k.toList.map Char.toNat).flatten,
        starts ++ (startsOf (keys.map fun k => k.toList.map Char.toNat)).map (cps.length + ·)) := by
  induction keys generalizing cps starts with
  | nil => simp [decodeKeys, startsOf]
  | cons k keys ih =>
      have shifted : (startsOf ((k.toList.map Char.toNat) ::
          keys.map fun k => k.toList.map Char.toNat)).map (cps.length + ·) =
          cps.length :: (startsOf (keys.map fun k => k.toList.map Char.toNat)).map
            ((cps ++ k.toList.map Char.toNat).length + ·) := by
        rw [startsOf, List.length_cons, List.range_succ_eq_map, List.map_cons, List.map_cons,
          List.map_map, List.map_map, startsOf, List.map_map]
        refine congrArg₂ List.cons rfl (List.map_congr_left fun i _ => ?_)
        simp only [Function.comp_apply, Nat.succ_eq_add_one, List.take_succ_cons,
          List.flatten_cons, List.length_append]
        omega
      rw [decodeKeys, ih, List.map_cons, shifted, List.flatten_cons, List.append_assoc,
        List.append_assoc, List.singleton_append]

/-! ### Labels for characters -/

/-- Every key's labels. -/
def labelled (order : List Nat) (K : List (List Char)) : List (List Nat) :=
  K.map fun k => k.map fun c => labelIn order c.toNat

variable {order : List Nat} {K : List (List Char)}

theorem labelled_getD {i : Nat} : (labelled order K).getD i [] =
    (K.getD i []).map fun c => labelIn order c.toNat := by
  rw [labelled, List.getD_eq_getElem?_getD, List.getElem?_map, List.getD_eq_getElem?_getD]
  cases K[i]? <;> rfl

/-- The characters ranked are those of the keys. -/
structure Ranks (order : List Nat) (K : List (List Char)) : Prop where
  distinct : order.Nodup
  members : ∀ cp, cp ∈ order ↔ ∃ k ∈ K, ∃ c ∈ k, c.toNat = cp

theorem Ranks.mem (ranks : Ranks order K) {k : List Char} {c : Char} (isKey : k ∈ K) (inKey : c ∈ k) :
    c.toNat ∈ order :=
  (ranks.members _).mpr ⟨k, isKey, c, inKey, rfl⟩

theorem char_of_toNat {a b : Char} (same : a.toNat = b.toNat) : a = b :=
  Char.ext (UInt32.toNat_inj.mp same)

/-- Characters of one label are one character, if one of them is a key's. -/
theorem label_inj {a b : Char} (known : a.toNat ∈ order)
    (same : labelIn order a.toNat = labelIn order b.toNat) : a = b := by
  have other : b.toNat ∈ order := by
    rw [← labelIn_ne_zero, ← same]
    exact labelIn_ne_zero.mpr known
  exact char_of_toNat (labelIn_inj known other same)

/-- Labels in front of labels are characters in front of characters. -/
theorem prefix_of_labels {xs ys : List Char} (known : ∀ c ∈ xs, c.toNat ∈ order)
    (front : (xs.map fun c => labelIn order c.toNat) <+: ys.map fun c => labelIn order c.toNat) :
    xs <+: ys := by
  induction xs generalizing ys with
  | nil => exact List.nil_prefix
  | cons x xs ih =>
      cases ys with
      | nil => exact absurd (List.prefix_nil.mp front) (List.cons_ne_nil _ _)
      | cons y ys =>
          obtain ⟨xKnown, known⟩ := List.forall_mem_cons.mp known
          rw [List.map_cons, List.map_cons, List.cons_prefix_cons] at front
          rw [List.cons_prefix_cons]
          exact ⟨label_inj xKnown front.1, ih known front.2⟩

theorem eq_of_labels {xs ys : List Char} (known : ∀ c ∈ xs, c.toNat ∈ order)
    (same : (xs.map fun c => labelIn order c.toNat) = ys.map fun c => labelIn order c.toNat) :
    xs = ys := by
  refine (prefix_of_labels known (same ▸ List.prefix_refl _)).eq_of_length ?_
  have sizes := congrArg List.length same
  rwa [List.length_map, List.length_map] at sizes

theorem getD_mem {i : Nat} (inside : i < K.length) : K.getD i [] ∈ K := by
  rw [List.getD_eq_getElem _ _ inside]
  exact List.getElem_mem inside

/-- Keys are in order by where they stand. -/
theorem getD_lt (sorted : K.Pairwise (· < ·)) {i j : Nat} (less : i < j) (inside : j < K.length) :
    K.getD i [] < K.getD j [] := by
  rw [List.getD_eq_getElem _ _ (less.trans inside), List.getD_eq_getElem _ _ inside]
  exact List.pairwise_iff_getElem.mp sorted i j (less.trans inside) inside less

theorem getD_le (sorted : K.Pairwise (· < ·)) {i j : Nat} (le : i ≤ j) (inside : j < K.length) :
    K.getD i [] ≤ K.getD j [] := by
  rcases le.lt_or_eq with less | rfl
  · exact (getD_lt sorted less inside).le
  · exact le_refl _

/-- The labels of the keys from the first that is not empty on are a lexicon. -/
theorem lexicon_of (ranks : Ranks order K) (sorted : K.Pairwise (· < ·)) {low : Nat}
    (low_le : low ≤ K.length) (some_char : ∀ i, low ≤ i → i < K.length → K.getD i [] ≠ []) :
    Lexicon (labelled order K).flatten (startsOf (labelled order K)) low (labelled order K) := by
  have count : (labelled order K).length = K.length := List.length_map _
  have known : ∀ i, i < K.length → ∀ c ∈ K.getD i [], c.toNat ∈ order := fun i inside c member =>
    ranks.mem (getD_mem inside) member
  refine ⟨?_, List.length_flatten, fun i inside => ?_, fun i d c inside read => ?_,
    fun i j k p above first second inside front back => ?_, fun i j above less inside front => ?_,
    fun i above inside bare => ?_, by rw [count]; exact low_le⟩
  · rw [startsOf, List.length_map, List.length_range]
  · rw [startsOf_getD inside, startsOf_getD inside.le, List.take_add_one, List.flatten_append,
      List.length_append, Nat.add_sub_cancel_left, List.getElem?_eq_getElem inside,
      List.getD_eq_getElem _ _ inside]
    simp
  · rw [startsOf_getD inside.le, List.getD_eq_getElem?_getD,
      getElem?_flatten_iff.mpr ⟨i, (labelled order K)[i], d, List.getElem?_eq_getElem inside, ?_, rfl⟩,
      Option.getD_some]
    rwa [List.getD_eq_getElem _ _ inside] at read
  · -- The prefix is one of characters, and the keys between two that have it have it.
    rw [count] at inside
    rw [labelled_getD] at front back ⊢
    obtain ⟨q, qFront, rfl⟩ := List.prefix_map_iff.mp front
    have qKnown : ∀ c ∈ q, c.toNat ∈ order := fun c member =>
      known i (by omega) c (qFront.subset member)
    have between := prefix_between qFront (prefix_of_labels qKnown back)
      (getD_le sorted first (by omega)) (getD_le sorted second inside)
    exact between.map _
  · rw [count] at inside
    rw [labelled_getD, labelled_getD] at front
    have below := le_of_prefixed (prefix_of_labels (known j inside) front)
    exact absurd below (getD_lt sorted less inside).not_ge
  · rw [count] at inside
    rw [labelled_getD] at bare
    exact some_char i above inside (List.map_eq_nil_iff.mp bare)

end Lexindex.DoubleArray
