import Mathlib
import Lexindex.PerfectHash.Sound

/-!
# Two orders of the same keys

The slots of an index depend on the keys alone, the ids past them on the order the keys came in.
Sorted keys and the same keys in another order get the same ids where the keys that share a hash
stand in that order so that the same ones repeat it, in the same order.
-/

set_option autoImplicit false

namespace Lexindex.PerfectHash

/-- A smaller key has the hash. -/
def Beaten (hashKey : String → UInt64) (keys : List String) (key : String) : Prop :=
  ∃ other ∈ keys, hashKey other = hashKey key ∧ bytesOf other < bytesOf key

/-- Of the keys with one hash the least comes first, and the others, over all hashes, come in
ascending order. -/
structure LeastFirst (hashKey : String → UInt64) (keys : List String) : Prop where
  least : ∀ a ∈ keys, ∀ b ∈ keys, hashKey a = hashKey b → ¬ Beaten hashKey keys a → a ≠ b →
    keys.idxOf a < keys.idxOf b
  others : ∀ a ∈ keys, ∀ b ∈ keys, Beaten hashKey keys a → Beaten hashKey keys b →
    bytesOf a < bytesOf b → keys.idxOf a < keys.idxOf b

/-- The keys at the places of the extras. -/
def tailOf (keys : List String) (extras : List (UInt64 × Nat)) : List String :=
  extras.map fun p => keys.getD p.2 ""

section Tail

variable {hashKey : String → UInt64} {keys : List String} {firsts : List UInt64}
  {extras : List (UInt64 × Nat)}

theorem getD_place {keys : List String} {i : Nat} {key : String} (here : keys[i]? = some key) :
    keys.getD i "" = key := by
  rw [List.getD_eq_getElem?_getD, here]
  rfl

theorem idxOf_place {keys : List String} (distinct : keys.Nodup) {i : Nat} {key : String}
    (here : keys[i]? = some key) : keys.idxOf key = i := by
  obtain ⟨inside, rfl⟩ := List.getElem?_eq_some_iff.mp here
  exact distinct.idxOf_getElem i inside

variable (distinct : keys.Nodup) (parted : Parted (keys.map hashKey) firsts extras)
include distinct parted

/-- The extras are the keys with the hash of an earlier one. -/
theorem mem_tailOf (key : String) : key ∈ tailOf keys extras ↔
    key ∈ keys ∧ ∃ other ∈ keys, hashKey other = hashKey key ∧
      keys.idxOf other < keys.idxOf key := by
  rw [tailOf, List.mem_map]
  constructor
  · rintro ⟨p, member, rfl⟩
    obtain ⟨key, here, hashed⟩ := parted.extra_place member
    obtain ⟨j, less, there⟩ := ((parted.repeats p).mp member).2
    rw [List.getElem?_map] at there
    obtain ⟨other, otherHere, same⟩ := Option.map_eq_some_iff.mp there
    rw [getD_place here]
    refine ⟨List.mem_of_getElem? here, other, List.mem_of_getElem? otherHere,
      same.trans hashed.symm, ?_⟩
    rwa [idxOf_place distinct here, idxOf_place distinct otherHere]
  · rintro ⟨member, other, otherIn, same, less⟩
    have here := List.getElem?_idxOf member
    refine ⟨(hashKey key, keys.idxOf key), (parted.repeats _).mpr ⟨?_, _, less, ?_⟩,
      getD_place here⟩
    · rw [List.getElem?_map, here]
      rfl
    · rw [List.getElem?_map, List.getElem?_idxOf otherIn, Option.map_some, same]

/-- The extras stand in the order of the keys. -/
theorem tailOf_ordered : (tailOf keys extras).Pairwise fun a b => keys.idxOf a < keys.idxOf b := by
  refine List.pairwise_map.mpr (parted.ordered.imp_of_mem fun {p q} pIn qIn less => ?_)
  obtain ⟨a, aHere, -⟩ := parted.extra_place pIn
  obtain ⟨b, bHere, -⟩ := parted.extra_place qIn
  rwa [getD_place aHere, getD_place bHere, idxOf_place distinct aHere, idxOf_place distinct bHere]

end Tail

/-- In an ascending list, the order of the places is that of the keys. -/
theorem idxOf_lt_iff {keys : List String} (ascending : Ascending bytesOf keys) {a b : String}
    (aIn : a ∈ keys) (bIn : b ∈ keys) :
    keys.idxOf a < keys.idxOf b ↔ bytesOf a < bytesOf b := by
  have aLt := List.idxOf_lt_length_iff.mpr aIn
  have bLt := List.idxOf_lt_length_iff.mpr bIn
  have forward : ∀ {x y : String}, (xLt : keys.idxOf x < keys.length) →
      (yLt : keys.idxOf y < keys.length) → keys.idxOf x < keys.idxOf y →
        bytesOf x < bytesOf y := by
    intro x y xLt yLt less
    have ordered := List.pairwise_iff_getElem.mp ascending _ _ xLt yLt less
    rwa [List.getElem_idxOf, List.getElem_idxOf] at ordered
  refine ⟨forward aLt bLt, fun less => ?_⟩
  rcases Nat.lt_trichotomy (keys.idxOf a) (keys.idxOf b) with before | same | after
  · exact before
  · rw [(List.idxOf_inj aIn).mp same] at less
    exact absurd less (lt_irrefl _)
  · exact absurd (forward bLt aLt after) (lt_asymm less)

section Orders

variable {hashKey : String → UInt64} {stream keys : List String} {firsts : List UInt64}
  {extras sortedExtras : List (UInt64 × Nat)}

/-- The least key of a hash. -/
theorem exists_least {key : String} (member : key ∈ stream) :
    ∃ least ∈ stream, hashKey least = hashKey key ∧ ¬ Beaten hashKey stream least ∧
      bytesOf least ≤ bytesOf key := by
  have some_key : (stream.filter fun other => hashKey other = hashKey key) ≠ [] :=
    List.ne_nil_of_mem (List.mem_filter.mpr ⟨member, by simp⟩)
  have nonempty : (stream.filter fun other => hashKey other = hashKey key).toFinset.Nonempty := by
    rwa [List.toFinset_nonempty_iff]
  obtain ⟨least, leastIn, below⟩ := Finset.exists_min_image _ bytesOf nonempty
  simp only [List.mem_toFinset, List.mem_filter, decide_eq_true_eq] at leastIn below
  refine ⟨least, leastIn.1, leastIn.2, fun ⟨other, otherIn, same, less⟩ => ?_,
    below key ⟨member, rfl⟩⟩
  exact absurd less (not_lt.mpr (below other ⟨otherIn, same.trans leastIn.2⟩))

/-- The extras of the sorted keys are those of the keys as they stand, in the same order, exactly
where the least of each hash comes first and the others in order. -/
theorem same_tail_iff (distinct : stream.Nodup)
    (parted : Parted (stream.map hashKey) firsts extras) (ascending : Ascending bytesOf keys)
    (sorted : Parted (keys.map hashKey) firsts sortedExtras)
    (members : ∀ key, key ∈ keys ↔ key ∈ stream) :
    tailOf stream extras = tailOf keys sortedExtras ↔ LeastFirst hashKey stream := by
  have streamed := mem_tailOf distinct parted
  have beaten : ∀ key, key ∈ tailOf keys sortedExtras ↔
      key ∈ stream ∧ Beaten hashKey stream key := by
    intro key
    rw [mem_tailOf ascending.nodup sorted, members]
    refine and_congr_right fun member => exists_congr fun other => ?_
    rw [members]
    refine and_congr_right fun otherIn => and_congr_right fun _ => ?_
    exact idxOf_lt_iff ascending ((members other).mpr otherIn) ((members key).mpr member)
  have inOrder := tailOf_ordered ascending.nodup sorted
  have ascends : Ascending bytesOf (tailOf keys sortedExtras) := by
    refine inOrder.imp_of_mem fun {a b} aIn bIn less => ?_
    exact (idxOf_lt_iff ascending ((members a).mpr ((beaten a).mp aIn).1)
      ((members b).mpr ((beaten b).mp bIn).1)).mp less
  have standing := tailOf_ordered distinct parted
  constructor
  · intro same
    refine ⟨fun a aIn b bIn hashed unbeaten apart => ?_, fun a aIn b bIn aBeaten bBeaten less => ?_⟩
    · have stays : a ∉ tailOf stream extras := by
        rw [same, beaten]
        exact fun there => unbeaten there.2
      rcases Nat.lt_trichotomy (stream.idxOf a) (stream.idxOf b) with before | equal | after
      · exact before
      · exact absurd ((List.idxOf_inj aIn).mp equal) apart
      · exact absurd ((streamed a).mpr ⟨aIn, b, bIn, hashed.symm, after⟩) stays
    · have aTail := (beaten a).mpr ⟨aIn, aBeaten⟩
      have bTail := (beaten b).mpr ⟨bIn, bBeaten⟩
      rw [same] at standing
      rcases Nat.lt_trichotomy ((tailOf keys sortedExtras).idxOf a)
        ((tailOf keys sortedExtras).idxOf b) with before | equal | after
      · have aLt := List.idxOf_lt_length_iff.mpr aTail
        have bLt := List.idxOf_lt_length_iff.mpr bTail
        have ordered := List.pairwise_iff_getElem.mp standing _ _ aLt bLt before
        rwa [List.getElem_idxOf, List.getElem_idxOf] at ordered
      · rw [(List.idxOf_inj aTail).mp equal] at less
        exact absurd less (lt_irrefl _)
      · exact absurd ((idxOf_lt_iff ascends bTail aTail).mp after) (lt_asymm less)
  · intro order
    have same : ∀ key, key ∈ tailOf stream extras ↔ key ∈ tailOf keys sortedExtras := by
      intro key
      rw [streamed, beaten]
      refine and_congr_right fun member => ⟨fun ⟨other, otherIn, hashed, earlier⟩ => ?_, ?_⟩
      · by_contra unbeaten
        have apart : key ≠ other := by
          rintro rfl
          exact lt_irrefl _ earlier
        exact absurd (order.least key member other otherIn hashed.symm unbeaten apart)
          (lt_asymm earlier)
      · intro isBeaten
        obtain ⟨least, leastIn, hashed, unbeaten, -⟩ := @exists_least hashKey stream key member
        refine ⟨least, leastIn, hashed, order.least least leastIn key member hashed unbeaten ?_⟩
        rintro rfl
        exact unbeaten isBeaten
    have also : Ascending bytesOf (tailOf stream extras) := by
      refine standing.imp_of_mem fun {a b} aIn bIn less => ?_
      have aThere := (beaten a).mp ((same a).mp aIn)
      have bThere := (beaten b).mp ((same b).mp bIn)
      rcases lt_trichotomy (bytesOf a) (bytesOf b) with before | equal | after
      · exact before
      · rw [bytesOf_inj equal] at less
        exact absurd less (lt_irrefl _)
      · exact absurd (order.others b bThere.1 a aThere.1 bThere.2 aThere.2 after) (lt_asymm less)
    exact also.unique ascends same

end Orders

section Ids

variable {h : Hashing} {keys others : List String} {firsts : List UInt64}
  {extras otherExtras : List (UInt64 × Nat)} {mph : h.Mphf} {idx other : PerfectHashIndex h}

/-- Two indexes of the same keys over one perfect hash answer them alike exactly where their
extras are the same in the same order. -/
theorem same_ids_iff (filled : Filled keys firsts extras mph idx)
    (also : Filled others firsts otherExtras mph other) (same : keys.Perm others) :
    (∀ key ∈ keys, idx.id key = other.id key) ↔ tailOf keys extras = tailOf others otherExtras := by
  have sizes : idx.arena.length = other.arena.length := by
    rw [filled.size, also.size, same.length_eq]
  constructor
  · intro alike
    have rows : idx.arena = other.arena := by
      refine List.ext_getElem sizes fun i inside otherInside => ?_
      have here := List.getElem?_eq_getElem inside
      have member := filled.perm.subset (List.mem_of_getElem? here)
      have answered := (filled.id_iff _ _).mpr here
      rw [alike _ member, also.id_iff, List.getElem?_eq_getElem otherInside,
        Option.some.injEq] at answered
      exact answered.symm
    rw [tailOf, tailOf, ← filled.tail_eq, ← also.tail_eq, rows]
  · intro tails key member
    have late : ∀ j : Nat, idx.arena[firsts.length + j]? = other.arena[firsts.length + j]? := by
      intro j
      rw [← List.getElem?_drop, ← List.getElem?_drop, filled.tail_eq, also.tail_eq]
      exact congrArg (·[j]?) tails
    obtain ⟨i, here⟩ := List.mem_iff_getElem?.mp member
    obtain ⟨k, there⟩ := List.mem_iff_getElem?.mp (same.subset member)
    rcases filled.row here with ⟨-, placed⟩ | ⟨j, -, -, -, -, placed⟩
    · rcases also.row there with ⟨-, otherPlaced⟩ | ⟨j, -, -, -, -, otherPlaced⟩
      · rw [(filled.id_iff _ _).mpr placed, (also.id_iff _ _).mpr otherPlaced]
      · rw [(also.id_iff _ _).mpr otherPlaced]
        exact (filled.id_iff _ _).mpr ((late j).trans otherPlaced)
    · rw [(filled.id_iff _ _).mpr placed]
      exact ((also.id_iff _ _).mpr ((late j).symm.trans placed)).symm

end Ids

end Lexindex.PerfectHash
