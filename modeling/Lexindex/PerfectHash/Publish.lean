import Mathlib
import Lexindex.Lib.Publish
import Lexindex.PerfectHash.Sound

/-!
# Which sources a streamed build publishes

A streamed build looks for a repeated key among the extras, and compares each of them with the
first key that has its hash.  Two extras that are the same key are not compared.
-/

set_option autoImplicit false

namespace Lexindex.PerfectHash

open Mphf (IndexError)

variable {h : Hashing}

/-- What is outside a build: the caller's check, asked after each pass, and the disk. -/
structure Surroundings where
  afterFirst : Except IndexError Unit
  afterSecond : Except IndexError Unit
  disk : Except IndexError Unit

/-- The two passes over a source that yields `keys` at each, with what the caller says of them. -/
def bothPasses (h : Hashing) (keys : List String) (fingerprints : Bool) (around : Surroundings) :
    Except IndexError (PerfectHashIndex h) := do
  refuse (keys.any (fun key => decide (2 ^ 32 ≤ (bytesOf key).length)) = true) tooLong
  around.afterFirst
  let idx ← buildToFile h keys fingerprints
  -- No second pass is made over no keys.
  if keys = [] then pure idx
  else do
    around.afterSecond
    pure idx

/-- `build_to_file`: what it returns, and what is at the path then. -/
def buildToFileAt (h : Hashing) (keys : List String) (fingerprints : Bool)
    (around : Surroundings) (target : Option (PerfectHashIndex h)) :
    Except IndexError Nat × Option (PerfectHashIndex h) :=
  let (done, target) := writeAtomically (bothPasses h keys fingerprints around) around.disk target
  (done.map fun _ => keys.length, target)

/-- However the rest goes, a source that repeats a key is an error and leaves the target. -/
def PublishesDistinct (h : Hashing) (keys : List String) : Prop :=
  ∀ (fingerprints : Bool) (around : Surroundings) (target : Option (PerfectHashIndex h)),
    ¬ keys.Nodup →
      (∃ e, (buildToFileAt h keys fingerprints around target).1 = .error e) ∧
        (buildToFileAt h keys fingerprints around target).2 = target

/-- The key is repeated, and the first with its hash. -/
def RepeatsFirst (h : Hashing) (keys : List String) (key : String) : Prop :=
  2 ≤ keys.count key ∧ keys.find? (fun other => h.hashKey other == h.hashKey key) = some key

/-- The hashes have each a slot of their own, and no slot is left. -/
def PlacesAll (slot : UInt64 → Nat) (hashes : List UInt64) : Prop :=
  (∀ a ∈ hashes, slot a < hashes.length) ∧ ∀ a ∈ hashes, ∀ b ∈ hashes, slot a = slot b → a = b

/-- The lengths and the count fit, and there is a perfect hash of the distinct hashes. -/
def Placeable (h : Hashing) (keys : List String) : Prop :=
  (∀ key ∈ keys, (bytesOf key).length < 2 ^ 32) ∧ keys.length < 2 ^ 32 ∧
    ∃ mph, h.buildMphf (sortDedup UInt64.toNat (keys.map h.hashKey)) = .ok mph ∧
      PlacesAll (h.slot mph) (sortDedup UInt64.toNat (keys.map h.hashKey))

theorem toNat_injective : Function.Injective UInt64.toNat :=
  fun _ _ => UInt64.toNat_inj.mp

/-- The perfect hash is built from the distinct hashes in order. -/
theorem mphInput_firsts (hashes : List UInt64) :
    (mphInput hashes).1 = sortDedup UInt64.toNat hashes :=
  eq_sortDedup toNat_injective hashes (mphInput_parted hashes).ascending
    (mphInput_parted hashes).members

section Slots

variable {slot : UInt64 → Nat} {extra : Nat → Bool}

/-- Representatives with slots of their own pass the check. -/
theorem checkSlots_ok (todo : List (UInt64 × Nat)) : ∀ {taken : List Bool},
    (∀ p ∈ todo, extra p.2 = false →
      slot p.1 < taken.length ∧ taken.getD (slot p.1) false = false) →
    (todo.Pairwise fun p q => extra p.2 = false → extra q.2 = false → slot p.1 ≠ slot q.1) →
      checkSlots slot extra todo taken = .ok () := by
  induction todo with
  | nil => exact fun _ _ => rfl
  | cons p todo ih =>
      intro taken free apart
      obtain ⟨here, free⟩ := List.forall_mem_cons.mp free
      obtain ⟨first, apart⟩ := List.pairwise_cons.mp apart
      rw [checkSlots]
      split
      · exact ih free apart
      · next rep =>
        rw [Bool.not_eq_true] at rep
        have clear : ¬ (taken.length ≤ slot p.1 ∨ taken.getD (slot p.1) false = true) := by
          rw [not_or, Nat.not_le, Bool.not_eq_true]
          exact here rep
        simp only [bind_eq_ok, refuse_eq_ok]
        refine ⟨(), clear, ih (fun q member other => ?_) apart⟩
        obtain ⟨inside, empty⟩ := free q member other
        refine ⟨by rwa [List.length_set], ?_⟩
        rw [List.getD_eq_getElem?_getD, List.getElem?_set_ne (first q member rep other),
          ← List.getD_eq_getElem?_getD]
        exact empty

variable {hashes firsts : List UInt64} {extras : List (UInt64 × Nat)}

/-- The slots are checked without error just when every hash has its own. -/
theorem checkSlots_iff (parted : Parted hashes firsts extras) :
    checkSlots slot (fun i => (extras.map Prod.snd).contains i) hashes.zipIdx
        (List.replicate firsts.length false) = .ok () ↔ PlacesAll slot firsts := by
  have isRep (i : Nat) :
      (extras.map Prod.snd).contains i = false ↔ i ∉ extras.map Prod.snd := by simp
  -- Where a hash first stands is no extra's place.
  have firstRep : ∀ hash ∈ hashes, hashes.idxOf hash ∉ extras.map Prod.snd := by
    intro hash member extra
    obtain ⟨p, pIn, place⟩ := List.mem_map.mp extra
    obtain ⟨here, j, less, there⟩ := (parted.repeats p).mp pIn
    rw [place, List.getElem?_idxOf member, Option.some.injEq] at here
    rw [← here] at there
    exact absurd (place ▸ less) (Nat.not_lt.mpr (idxOf_le there))
  have firstIn : ∀ hash ∈ hashes, (hash, hashes.idxOf hash) ∈ hashes.zipIdx := fun hash member =>
    mem_zipIdx.mpr (List.getElem?_idxOf member)
  constructor
  · intro checked
    obtain ⟨each, apart⟩ := checkSlots_spec _ checked
    rw [List.length_replicate] at each
    refine ⟨fun a member => ?_, fun a aIn b bIn same => ?_⟩
    · have listed := (parted.members a).mp member
      exact (each _ (firstIn a listed) ((isRep _).mpr (firstRep a listed))).1
    · have aListed := (parted.members a).mp aIn
      have bListed := (parted.members b).mp bIn
      by_contra differ
      have unequal : (a, hashes.idxOf a) ≠ (b, hashes.idxOf b) := fun both =>
        differ (congrArg Prod.fst both)
      have symmetric : Std.Symm fun p q : UInt64 × Nat =>
          (extras.map Prod.snd).contains p.2 = false →
            (extras.map Prod.snd).contains q.2 = false → slot p.1 ≠ slot q.1 :=
        ⟨fun p q held qRep pRep => (held pRep qRep).symm⟩
      exact (apart.forall (firstIn a aListed) (firstIn b bListed) unequal)
        ((isRep _).mpr (firstRep a aListed)) ((isRep _).mpr (firstRep b bListed)) same
  · rintro ⟨inside, apart⟩
    refine checkSlots_ok _ (fun p member rep => ?_) ?_
    · have listed : p.1 ∈ firsts :=
        (parted.members p.1).mpr (List.mem_of_getElem? (mem_zipIdx.mp member))
      rw [List.length_replicate, List.getD_eq_getElem?_getD, List.getElem?_replicate,
        if_pos (inside _ listed)]
      exact ⟨inside _ listed, rfl⟩
    · refine (zipIdx_nodup hashes).imp_of_mem fun {p q} pIn qIn differ pRep qRep same => differ ?_
      have pHere := mem_zipIdx.mp pIn
      have qHere := mem_zipIdx.mp qIn
      have hash : p.1 = q.1 := apart _ ((parted.members _).mpr (List.mem_of_getElem? pHere)) _
        ((parted.members _).mpr (List.mem_of_getElem? qHere)) same
      have place : p.2 = q.2 := by
        rcases Nat.lt_trichotomy p.2 q.2 with less | same | more
        · exact absurd (List.mem_map_of_mem ((parted.repeats q).mpr
            ⟨qHere, p.2, less, hash ▸ pHere⟩)) ((isRep _).mp qRep)
        · exact same
        · exact absurd (List.mem_map_of_mem ((parted.repeats p).mpr
            ⟨pHere, q.2, more, hash ▸ qHere⟩)) ((isRep _).mp pRep)
      exact Prod.ext hash place

end Slots

/-! ## Repeats -/

theorem two_le_count {α : Type} [DecidableEq α] {items : List α} {item : α} :
    2 ≤ items.count item ↔ ∃ i j : Nat, i < j ∧ items[i]? = some item ∧ items[j]? = some item := by
  rw [← List.duplicate_iff_two_le_count, List.duplicate_iff_exists_distinct_get]
  constructor
  · rintro ⟨i, j, less, first, second⟩
    exact ⟨i, j, less, List.getElem?_eq_some_iff.mpr ⟨i.isLt, first.symm⟩,
      List.getElem?_eq_some_iff.mpr ⟨j.isLt, second.symm⟩⟩
  · rintro ⟨i, j, less, first, second⟩
    obtain ⟨iIn, iIs⟩ := List.getElem?_eq_some_iff.mp first
    obtain ⟨jIn, jIs⟩ := List.getElem?_eq_some_iff.mp second
    exact ⟨⟨i, iIn⟩, ⟨j, jIn⟩, less, iIs.symm, jIs.symm⟩

/-- The first item with a value stands where the value first does. -/
theorem find?_eq_idxOf {α β : Type} [DecidableEq β] {value : α → β} {b : β} {items : List α}
    (member : b ∈ items.map value) :
    items.find? (fun item => value item == b) = items[(items.map value).idxOf b]? := by
  induction items with
  | nil => exact absurd member List.not_mem_nil
  | cons a items ih =>
      rw [List.map_cons]
      by_cases here : value a = b
      · rw [List.find?_cons_of_pos (by simpa using here), here, List.idxOf_cons_self]
        rfl
      · rw [List.find?_cons_of_neg (by simpa using here), List.idxOf_cons_ne _ here,
          List.getElem?_cons_succ]
        refine ih ((List.mem_cons.mp member).resolve_left fun same => here same.symm)

section Repeats

variable {keys : List String} {firsts : List UInt64} {extras : List (UInt64 × Nat)}

/-- Some extra is the first key with its hash just when a first key is repeated. -/
theorem extra_repeats_iff (parted : Parted (keys.map h.hashKey) firsts extras) :
    (∃ e ∈ extras, keys[e.2]? = keys.find? fun other => h.hashKey other == e.1) ↔
      ∃ key, RepeatsFirst h keys key := by
  constructor
  · rintro ⟨e, member, same⟩
    obtain ⟨key, here, hashed⟩ := parted.extra_place member
    obtain ⟨extraAt, j, less, there⟩ := (parted.repeats e).mp member
    have listed := List.mem_of_getElem? extraAt
    rw [here] at same
    refine ⟨key, two_le_count.mpr ⟨(keys.map h.hashKey).idxOf e.1, e.2,
      (idxOf_le there).trans_lt less, ?_, here⟩, hashed ▸ same.symm⟩
    rw [← find?_eq_idxOf listed]
    exact same.symm
  · rintro ⟨key, twice, first⟩
    obtain ⟨i, j, less, one, other⟩ := two_le_count.mp twice
    have hashAt : ∀ {i : Nat}, keys[i]? = some key →
        (keys.map h.hashKey)[i]? = some (h.hashKey key) := by
      intro i at_
      rw [List.getElem?_map, at_]
      rfl
    exact ⟨(h.hashKey key, j), (parted.repeats _).mpr ⟨hashAt other, i, less, hashAt one⟩,
      other.trans first.symm⟩

/-- What the streamed build compares: an extra's row with the row of its hash's first key. -/
theorem compared_iff {slot : UInt64 → Nat} (parted : Parted (keys.map h.hashKey) firsts extras)
    (checked : checkSlots slot (fun i => (extras.map Prod.snd).contains i)
      (keys.map h.hashKey).zipIdx (List.replicate firsts.length false) = .ok ())
    {e : UInt64 × Nat} (member : e ∈ extras) :
    (fillArena keys ((keys.map h.hashKey).zipIdx.map (rowOf slot firsts.length extras)))[
          rowOf slot firsts.length extras e]? =
        (fillArena keys ((keys.map h.hashKey).zipIdx.map (rowOf slot firsts.length extras)))[
          slot e.1]? ↔
      keys[e.2]? = keys.find? fun other => h.hashKey other == e.1 := by
  obtain ⟨-, -, row⟩ := fillArena_rows parted checked
  obtain ⟨key, here, hashed⟩ := parted.extra_place member
  obtain ⟨extraAt, j, less, there⟩ := (parted.repeats e).mp member
  have listed := List.mem_of_getElem? extraAt
  have first := find?_eq_idxOf listed
  have place := List.getElem?_idxOf listed
  rw [List.getElem?_map] at place
  obtain ⟨least, leastAt, leastHash⟩ := Option.map_eq_some_iff.mp place
  -- The first place of the hash is before the extra, so it is no extra's.
  have isRep : (keys.map h.hashKey).idxOf e.1 ∉ extras.map Prod.snd := by
    intro extra
    obtain ⟨p, pIn, at_⟩ := List.mem_map.mp extra
    obtain ⟨pHere, i, before, pThere⟩ := (parted.repeats p).mp pIn
    rw [at_, List.getElem?_idxOf listed, Option.some.injEq] at pHere
    rw [← pHere] at pThere
    exact absurd (at_ ▸ before) (Nat.not_lt.mpr (idxOf_le pThere))
  have own := row e.2 key here
  have rep := row _ least leastAt
  rw [rowOf_rep isRep, leastHash] at rep
  rw [hashed] at own
  rw [own, rep, first, leastAt, here]

end Repeats

/-- The streamed build succeeds just on what it can place, with no first key repeated. -/
theorem buildToFile_ok_iff {keys : List String} (some_key : keys ≠ []) (fingerprints : Bool) :
    (∃ idx, buildToFile h keys fingerprints = .ok idx) ↔
      Placeable h keys ∧ ∀ key, ¬ RepeatsFirst h keys key := by
  have parted := mphInput_parted (keys.map h.hashKey)
  have input := mphInput_firsts (keys.map h.hashKey)
  simp only [buildToFile, bind_eq_ok, pure_eq_ok, refuse_eq_ok, if_neg some_key]
  rw [Placeable, ← input]
  generalize (mphInput (keys.map h.hashKey)).1 = firsts at *
  generalize (mphInput (keys.map h.hashKey)).2 = extras at *
  have short : ¬ keys.any (fun key => decide (2 ^ 32 ≤ (bytesOf key).length)) = true ↔
      ∀ key ∈ keys, (bytesOf key).length < 2 ^ 32 := by
    simp
  have differ {mph : h.Mphf}
      (checked : checkSlots (h.slot mph) (fun i => (extras.map Prod.snd).contains i)
        (keys.map h.hashKey).zipIdx (List.replicate firsts.length false) = .ok ()) :
      (extras.any (fun e => (fillArena keys ((keys.map h.hashKey).zipIdx.map
          (rowOf (h.slot mph) firsts.length extras)))[rowOf (h.slot mph) firsts.length extras e]? ==
        (fillArena keys ((keys.map h.hashKey).zipIdx.map
          (rowOf (h.slot mph) firsts.length extras)))[h.slot mph e.1]?) = true) ↔
        ∃ key, RepeatsFirst h keys key := by
    rw [List.any_eq_true, ← extra_repeats_iff parted]
    refine exists_congr fun e => and_congr_right fun member => ?_
    rw [beq_iff_eq]
    exact compared_iff parted checked member
  constructor
  · rintro ⟨idx, -, fits, -, few, mph, built, ⟨⟩, checked, -, apart, -⟩
    refine ⟨⟨short.mp fits, Nat.lt_of_not_le few, mph, built, (checkSlots_iff parted).mp checked⟩,
      not_exists.mp ?_⟩
    rwa [← differ checked]
  · rintro ⟨⟨fits, few, mph, built, places⟩, never⟩
    have checked := (checkSlots_iff parted).mpr places
    refine ⟨_, (), short.mpr fits, (), Nat.not_le.mpr few, mph, built, (), checked, (), ?_, rfl⟩
    rw [differ checked]
    exact not_exists.mpr never

/-! ## Publishing -/

/-- An error of the build is one of the whole, and the target stays. -/
theorem buildToFileAt_refused {keys : List String} {fingerprints : Bool} {around : Surroundings}
    {target : Option (PerfectHashIndex h)}
    (refused : ¬ ∃ idx, buildToFile h keys fingerprints = .ok idx) :
    (∃ e, (buildToFileAt h keys fingerprints around target).1 = .error e) ∧
      (buildToFileAt h keys fingerprints around target).2 = target := by
  rw [buildToFileAt]
  rcases writeAtomically_cases (bothPasses h keys fingerprints around) around.disk target with
    ⟨contents, written, -⟩ | ⟨e, failed⟩
  · simp only [bothPasses, bind_eq_ok] at written
    obtain ⟨-, -, -, -, idx, built, -⟩ := written
    exact absurd ⟨idx, built⟩ refused
  · rw [failed]
    exact ⟨⟨e, rfl⟩, rfl⟩

/-- Where nothing outside fails, what the build makes is published. -/
theorem buildToFileAt_built {keys : List String} {fingerprints : Bool}
    {target : Option (PerfectHashIndex h)} {idx : PerfectHashIndex h} (some_key : keys ≠ [])
    (built : buildToFile h keys fingerprints = .ok idx)
    (short : ∀ key ∈ keys, (bytesOf key).length < 2 ^ 32) :
    buildToFileAt h keys fingerprints ⟨.ok (), .ok (), .ok ()⟩ target =
      (.ok keys.length, some idx) := by
  have fits : ¬ keys.any (fun key => decide (2 ^ 32 ≤ (bytesOf key).length)) = true := by
    simpa using short
  simp only [buildToFileAt, bothPasses, refuse, if_neg fits, built, if_neg some_key]
  rfl

/-- A streamed build keeps to distinct keys just on the sources whose keys are distinct, of which
the first with a hash is repeated, or which it cannot place. -/
theorem publishes_distinct_iff (h : Hashing) (keys : List String) :
    PublishesDistinct h keys ↔
      keys.Nodup ∨ (∃ key, RepeatsFirst h keys key) ∨ ¬ Placeable h keys := by
  constructor
  · intro distinct
    by_contra other
    rw [not_or, not_or, not_not] at other
    obtain ⟨repeats, never, placeable⟩ := other
    have some_key : keys ≠ [] := fun none => repeats (none ▸ List.nodup_nil)
    obtain ⟨idx, built⟩ :=
      (buildToFile_ok_iff some_key false).mpr ⟨placeable, not_exists.mp never⟩
    obtain ⟨⟨e, failed⟩, -⟩ := distinct false ⟨.ok (), .ok (), .ok ()⟩ none repeats
    rw [buildToFileAt_built some_key built placeable.1] at failed
    cases failed
  · intro condition fingerprints around target repeats
    have some_key : keys ≠ [] := fun none => repeats (none ▸ List.nodup_nil)
    refine buildToFileAt_refused fun built => ?_
    obtain ⟨placeable, never⟩ := (buildToFile_ok_iff some_key fingerprints).mp built
    rcases condition with once | ⟨key, first⟩ | not_placeable
    · exact repeats once
    · exact never key first
    · exact not_placeable placeable

/-- Hashes that are the lengths, over the perfect hash of a sorted list: a hash's place in it. -/
def byLength : Hashing where
  hashPair key := (key.length.toUInt64, 0)
  Mphf := List UInt64
  buildMphf hashes := .ok hashes
  slot hashes hash := hashes.idxOf hash

/-- A key twice, behind another with its hash: the build publishes all three. -/
theorem repeated_extra_published : ¬ PublishesDistinct byLength ["b", "a", "a"] := by
  have hashes : ["b", "a", "a"].map byLength.hashKey = [1, 1, 1] := rfl
  have distinct : sortDedup UInt64.toNat [1, 1, 1] = [1] :=
    (eq_sortDedup toNat_injective [1, 1, 1] (List.pairwise_singleton ..) (by simp)).symm
  have placeable : Placeable byLength ["b", "a", "a"] := by
    rw [Placeable, hashes, distinct]
    exact ⟨by decide +kernel, by decide +kernel, [1], rfl, by simp [byLength], by simp⟩
  have never : ∀ key, ¬ RepeatsFirst byLength ["b", "a", "a"] key := by
    rintro key ⟨twice, first⟩
    have member := List.mem_of_find?_eq_some first
    fin_cases member
    · exact absurd twice (by decide)
    · exact absurd first (by decide)
    · exact absurd first (by decide)
  obtain ⟨idx, built⟩ := (buildToFile_ok_iff (by decide) false).mpr ⟨placeable, never⟩
  intro distinct
  obtain ⟨⟨e, failed⟩, -⟩ := distinct false ⟨.ok (), .ok (), .ok ()⟩ none (by decide)
  rw [buildToFileAt_built (by decide) built placeable.1] at failed
  cases failed

end Lexindex.PerfectHash
