import Mathlib
import Lexindex.Mphf.Batch
import Lexindex.Mphf.Sound

/-!
# What a batch answers

The ring holds, at every key of a block, the buckets of the keys a lead on, and
the staged pipeline writes each bumped key's hole once its entry is known.  So a
batch is the first level's value of every key it places and the remap's hole of
every key it bumps, whatever the length of the batch and the pattern of bumped
keys.
-/

set_option autoImplicit false

namespace Lexindex.Mphf

/-- The seed of `h`'s bucket, 0 where there is none. -/
def Level.seedFor (l : Level) (h : Nat) : Nat :=
  (l.seedOf h).getD 0

/-- The hole a bumped key takes. -/
def V2.holeOf (t : V2) (h : Nat) : Nat :=
  (t.bumpedHole h).getD 0

theorem Level.Sound.seedOf_eq {l : Level} (sound : l.Sound) {h : Nat} (word : h < 2 ^ 64) :
    l.seedOf h = some (l.seedFor h) := by
  obtain ⟨seed, read⟩ := sound.seedOf_some word
  rw [Level.seedFor, read, Option.getD_some]

theorem V2.Sound.bumpedHole_eq {t : V2} (sound : t.Sound) (h : Nat) :
    t.bumpedHole h = some (t.holeOf h) := by
  obtain ⟨hole, read, _⟩ := sound.bumpedHole_lt h
  rw [V2.holeOf, read, Option.getD_some]

/-! ## The ring -/

/-- The ring before key `i`, `suffix` the keys from there: the buckets of the next
`lead` keys, each in its key's slot. -/
structure RingHolds (l : Level) (lead i : Nat) (ring suffix : List Nat) : Prop where
  length : ring.length = seedAhead
  buckets : ∀ d h, d < lead → suffix[d]? = some h →
    ring.getD ((i + d) % seedAhead) 0 = bucketOf h l.buckets

theorem slots_differ {i lead d : Nat} (leadLe : lead ≤ seedAhead) (later : d + 1 < lead) :
    (i + lead) % seedAhead ≠ (i + 1 + d) % seedAhead := by
  simp only [seedAhead] at *
  omega

theorem RingHolds.advance {l : Level} {lead i : Nat} {ring : List Nat} {h : Nat}
    {suffix : List Nat} (leadLe : lead ≤ seedAhead)
    (holds : RingHolds l lead i ring (h :: suffix)) :
    RingHolds l lead (i + 1)
      (V2.pullIn l ((i + lead) % seedAhead) ring (h :: suffix)[lead]?) suffix := by
  have slotInside : (i + lead) % seedAhead < ring.length := by
    rw [holds.length]
    exact Nat.mod_lt _ (by decide)
  cases ahead : (h :: suffix)[lead]? with
  | none =>
      refine ⟨holds.length, ?_⟩
      intro d key inLead listed
      have shifted : (h :: suffix)[d + 1]? = some key := by simpa using listed
      by_cases last : d + 1 = lead
      · rw [last, ahead] at shifted
        cases shifted
      · have exact := holds.buckets (d + 1) key (by omega) shifted
        rwa [show i + (d + 1) = i + 1 + d by omega] at exact
  | some coming =>
      refine ⟨by simp [V2.pullIn, holds.length], ?_⟩
      intro d key inLead listed
      have shifted : (h :: suffix)[d + 1]? = some key := by simpa using listed
      by_cases last : d + 1 = lead
      · rw [last, ahead] at shifted
        rw [← Option.some.inj shifted, V2.pullIn, show i + 1 + d = i + lead by omega,
          List.getD_eq_getElem?_getD, List.getElem?_set_self slotInside, Option.getD_some]
      · have exact := holds.buckets (d + 1) key (by omega) shifted
        rw [show i + (d + 1) = i + 1 + d by omega] at exact
        rw [V2.pullIn, List.getD_eq_getElem?_getD, List.getElem?_set_ne (slots_differ leadLe (by omega)),
          ← List.getD_eq_getElem?_getD]
        exact exact

theorem firstRing_holds (l : Level) {lead : Nat} (leadLe : lead ≤ seedAhead)
    (hashes : List Nat) : RingHolds l lead 0 (V2.firstRing l lead hashes) hashes := by
  have taken : ((hashes.take lead).map (bucketOf · l.buckets)).length ≤ seedAhead := by
    rw [List.length_map, List.length_take]
    omega
  refine ⟨?_, ?_⟩
  · simp only [V2.firstRing, List.length_append, List.length_replicate]
    omega
  · intro d h inLead listed
    have inside : d < hashes.length := (List.getElem?_eq_some_iff.mp listed).1
    have slot : (0 + d) % seedAhead = d := by
      rw [Nat.zero_add]
      exact Nat.mod_eq_of_lt (by omega)
    rw [slot, V2.firstRing, List.getD_eq_getElem?_getD, List.getElem?_append_left (by
      rw [List.length_map, List.length_take]
      omega), List.getElem?_map, List.getElem?_take_of_lt inLead, listed]
    rfl

/-! ## A block through the first level -/

/-- What the first level answers for a key, its own level's value under `form`. -/
def Level.answer (l : Level) (form : Form) (h : Nat) : Nat :=
  l.valueIn form h (l.seedFor h)

/-- Offsets of the keys a level bumped, the first key at offset `k`. -/
def bumpedOffsets (l : Level) : Nat → List Nat → List Nat
  | _, [] => []
  | k, h :: keys =>
      if l.seedFor h = 0 then k :: bumpedOffsets l (k + 1) keys else bumpedOffsets l (k + 1) keys

theorem tail_take_succ {α : Type} (items : List α) (count : Nat) :
    (items.take (count + 1)).tail = items.tail.take count := by
  cases items <;> simp

theorem answerBlockFrom_eq {l : Level} (sound : l.Sound) (form : Form) {lead : Nat}
    (leadPositive : 0 < lead) (leadLe : lead ≤ seedAhead) (base : Nat) :
    ∀ (keys tail : List Nat) (k : Nat) (ring : List Nat), (∀ h ∈ keys, h < 2 ^ 64) →
      RingHolds l lead (base + k) ring (keys ++ tail) →
      ∃ last, RingHolds l lead (base + k + keys.length) last tail ∧
        V2.answerBlockFrom l form lead base k ring keys
            (((keys ++ tail).drop lead).take keys.length) =
          some { ring := last, answers := keys.map (l.answer form)
                 bumped := bumpedOffsets l k keys } := by
  intro keys
  induction keys with
  | nil =>
      intro tail k ring _ holds
      exact ⟨ring, by simpa using holds, rfl⟩
  | cons h keys ih =>
      intro tail k ring words holds
      rw [List.cons_append] at holds
      have word := words h (List.mem_cons_self ..)
      have bucket := holds.buckets 0 h leadPositive (by simp)
      have read := sound.seedOf_eq word
      rw [Level.seedOf, ← bucket, Nat.add_zero] at read
      have advanced := RingHolds.advance leadLe holds
      rw [show base + k + 1 = base + (k + 1) by omega] at advanced
      obtain ⟨last, lastHolds, restPass⟩ := ih tail (k + 1) _
        (fun other member => words other (List.mem_cons_of_mem _ member)) advanced
      refine ⟨last, ?_, ?_⟩
      · rwa [show base + (k + 1) + keys.length = base + k + (h :: keys).length by
          simp only [List.length_cons]; omega] at lastHolds
      · have nextHead : (((h :: (keys ++ tail)).drop lead).take (h :: keys).length).head? =
            (h :: (keys ++ tail))[lead]? := by
          rw [List.head?_take, if_neg (by simp), List.head?_drop]
        have nextTail : (((h :: (keys ++ tail)).drop lead).take (h :: keys).length).tail =
            ((keys ++ tail).drop lead).take keys.length := by
          rw [List.length_cons, tail_take_succ, List.tail_drop, List.drop_succ_cons]
        rw [List.cons_append, V2.answerBlockFrom]
        simp only [nextHead, nextTail, read, Option.bind_eq_bind, Option.bind_some, restPass,
          Option.pure_def, List.map_cons, bumpedOffsets]
        rfl

/-! ## The bumped keys -/

/-- `out` with the answer of each offset of `offsets` written there. -/
def written (answerAt : Nat → Nat) (offsets out : List Nat) : List Nat :=
  offsets.foldl (fun out offset => out.set offset (answerAt offset)) out

theorem written_append (answerAt : Nat → Nat) (first rest out : List Nat) :
    written answerAt (first ++ rest) out = written answerAt rest (written answerAt first out) :=
  List.foldl_append

theorem written_getElem? (answerAt : Nat → Nat) : ∀ (offsets out : List Nat) (i : Nat),
    (written answerAt offsets out)[i]? =
      if i ∈ offsets ∧ i < out.length then some (answerAt i) else out[i]? := by
  intro offsets
  induction offsets with
  | nil => intro out i; simp [written]
  | cons offset rest ih =>
      intro out i
      have step : written answerAt (offset :: rest) out =
          written answerAt rest (out.set offset (answerAt offset)) := rfl
      rw [step, ih, List.length_set]
      simp only [List.mem_cons]
      by_cases inRest : i ∈ rest
      · by_cases inside : i < out.length <;> simp [inRest, inside]
      · by_cases here : i = offset
        · subst here
          by_cases inside : i < out.length
          · simp [inRest, inside]
          · simp [inRest, inside]
        · rw [if_neg (by simp [inRest]), if_neg (by simp [inRest, here]),
            List.getElem?_set_ne (Ne.symm here)]

/-- The pipeline's list before step `i`: the keys more than a gap behind have landed. -/
def landedBefore (t : V2) (block offsets : List Nat) (i : Nat) : List V2.Pending :=
  offsets.mapIdx fun j offset =>
    { offset
      landed :=
        if j + stageGap < i then
          ((t.bumpedValue (block.getD offset 0)).getD none).getD V2.nowhere
        else 0 }

theorem landStage_eq {t : V2} (sound : t.Sound) (block offsets : List Nat) (i : Nat) :
    t.landStage block (landedBefore t block offsets i) i =
      some (landedBefore t block offsets (i + 1)) := by
  rw [V2.landStage]
  split
  · rename_i early
    congr 1
    refine List.ext_getElem? fun j => ?_
    simp only [landedBefore, List.getElem?_mapIdx]
    cases offsets[j]? with
    | none => rfl
    | some offset => simp [show ¬ j + stageGap < i by omega, show ¬ j + stageGap < i + 1 by omega]
  · rename_i later
    simp only [landedBefore, List.getElem?_mapIdx]
    cases listed : offsets[i - stageGap]? with
    | none =>
        simp only [Option.map_none]
        congr 1
        refine List.ext_getElem? fun j => ?_
        simp only [List.getElem?_mapIdx]
        by_cases here : j = i - stageGap
        · rw [here, listed]
          rfl
        · have same : j + stageGap < i ↔ j + stageGap < i + 1 := by omega
          simp only [same]
    | some offset =>
        obtain ⟨landed, found, _⟩ := V2.bumpedValueFrom_lt sound.tail (h := block.getD offset 0)
          t.rest 1 0 sound.rest
        have read : t.bumpedValue (block.getD offset 0) = some landed := found
        simp only [Option.map_some, read, Option.bind_eq_bind, Option.bind_some, Option.pure_def]
        congr 1
        refine List.ext_getElem? fun j => ?_
        rw [List.getElem?_set]
        simp only [List.getElem?_mapIdx, List.length_mapIdx]
        have inside := (List.getElem?_eq_some_iff.mp listed).1
        by_cases here : i - stageGap = j
        · rw [if_pos here, ← here, if_pos inside, listed]
          simp only [Option.map_some, read, Option.getD_some]
          rw [if_pos (by omega)]
        · have same : j + stageGap < i ↔ j + stageGap < i + 1 := by omega
          rw [if_neg here]
          simp only [same]

theorem nowhere_ne {t : V2} (sound : t.Sound) {h value : Nat}
    (landed : t.bumpedValue h = some (some value)) : value ≠ V2.nowhere := by
  obtain ⟨found, read, bounded⟩ := V2.bumpedValueFrom_lt sound.tail (h := h)
    t.rest 1 0 sound.rest
  have same : found = some value := Option.some.inj (read.symm.trans landed)
  have below := bounded value same
  have fits := sound.entriesWord
  rw [sound.entries, V2.entries] at fits
  simp only [V2.nowhere]
  omega

theorem answerStage_eq {t : V2} (sound : t.Sound) (block offsets out : List Nat) (i : Nat) :
    t.answerStage (landedBefore t block offsets (i + 1))
        (written (fun offset => t.holeOf (block.getD offset 0))
          (offsets.take (i - 2 * stageGap)) out) i =
      some (written (fun offset => t.holeOf (block.getD offset 0))
        (offsets.take (i + 1 - 2 * stageGap)) out) := by
  rw [V2.answerStage]
  split
  · rename_i early
    rw [show i - 2 * stageGap = i + 1 - 2 * stageGap by omega]
  · rename_i later
    rw [show i + 1 - 2 * stageGap = i - 2 * stageGap + 1 by omega, List.take_add_one, written_append]
    simp only [landedBefore, List.getElem?_mapIdx]
    cases listed : offsets[i - 2 * stageGap]? with
    | none => rfl
    | some offset =>
        have behind : i - 2 * stageGap + stageGap < i + 1 := by
          simp only [stageGap] at *
          omega
        simp only [Option.map_some, if_pos behind, Option.toList_some]
        have hole := sound.bumpedHole_eq (block.getD offset 0)
        obtain ⟨found, read, _⟩ := V2.bumpedValueFrom_lt sound.tail (h := block.getD offset 0)
          t.rest 1 0 sound.rest
        have landed : t.bumpedValue (block.getD offset 0) = some found := read
        rw [V2.bumpedHole, landed] at hole
        rw [landed]
        cases found with
        | none =>
            have zero : t.holeOf (block.getD offset 0) = 0 := (Option.some.inj hole).symm
            simp only [Option.getD_some, Option.getD_none, if_true]
            simp only [written, List.foldl_cons, List.foldl_nil, zero]
        | some value =>
            have read : t.remap.get value = some (t.holeOf (block.getD offset 0)) := hole
            simp only [Option.getD_some, if_neg (nowhere_ne sound landed), read,
              Option.bind_eq_bind, Option.bind_some, Option.pure_def]
            rfl

theorem resolveFrom_eq {t : V2} (sound : t.Sound) (block offsets out : List Nat) :
    ∀ steps i : Nat,
      t.resolveFrom block steps i (landedBefore t block offsets i)
          (written (fun offset => t.holeOf (block.getD offset 0))
            (offsets.take (i - 2 * stageGap)) out) =
        some (written (fun offset => t.holeOf (block.getD offset 0))
          (offsets.take (i + steps - 2 * stageGap)) out) := by
  intro steps
  induction steps with
  | zero => intro i; rfl
  | succ steps ih =>
      intro i
      rw [V2.resolveFrom, landStage_eq sound, Option.bind_eq_bind, Option.bind_some,
        answerStage_eq sound, Option.bind_eq_bind, Option.bind_some, ih (i + 1),
        show i + 1 + steps = i + (steps + 1) by omega]

/-- Every bumped key is answered by its hole, and nothing else is written. -/
theorem resolveBumped_eq {t : V2} (sound : t.Sound) (block offsets out : List Nat) :
    t.resolveBumped block offsets out =
      some (written (fun offset => t.holeOf (block.getD offset 0)) offsets out) := by
  have start : (offsets.map fun offset => ({ offset, landed := 0 } : V2.Pending)) =
      landedBefore t block offsets 0 := by
    refine List.ext_getElem? fun j => ?_
    simp [landedBefore, List.getElem?_mapIdx]
  have run := resolveFrom_eq sound block offsets out (offsets.length + 2 * stageGap) 0
  rw [V2.resolveBumped, start]
  rw [show 0 + (offsets.length + 2 * stageGap) - 2 * stageGap = offsets.length by omega,
    List.take_length, Nat.zero_sub, List.take_zero] at run
  exact run

/-! ## The whole batch -/

/-- What a batch answers for a key: the first level's value where it places the
key, the remap's hole where it bumps it. -/
def batchAnswer (t : V2) (l : Level) (form : Form) (h : Nat) : Nat :=
  if l.seedFor h = 0 then t.holeOf h else l.answer form h

theorem mem_bumpedOffsets {l : Level} : ∀ {keys : List Nat} {k i : Nat},
    k + i ∈ bumpedOffsets l k keys ↔ ∃ h, keys[i]? = some h ∧ l.seedFor h = 0 := by
  have above : ∀ (keys : List Nat) (k : Nat), ∀ o ∈ bumpedOffsets l k keys, k ≤ o := by
    intro keys
    induction keys with
    | nil => intro k o member; simp [bumpedOffsets] at member
    | cons h keys ih =>
        intro k o member
        rw [bumpedOffsets] at member
        split at member
        · rcases List.mem_cons.mp member with rfl | member
          · exact Nat.le_refl _
          · have later := ih (k + 1) o member
            omega
        · have later := ih (k + 1) o member
          omega
  intro keys
  induction keys with
  | nil => intro k i; simp [bumpedOffsets]
  | cons h keys ih =>
      intro k i
      rw [bumpedOffsets]
      cases i with
      | zero =>
          have notLater : k ∉ bumpedOffsets l (k + 1) keys := by
            intro member
            have later := above keys (k + 1) k member
            omega
          split <;> rename_i seed <;> simp [seed, notLater]
      | succ i =>
          have shifted : k + (i + 1) = k + 1 + i := by omega
          rw [shifted]
          split
          · have apart : ¬ k + 1 + i = k := by omega
            rw [List.mem_cons, ih]
            simp [apart]
          · rw [ih]
            simp

/-- The answers of a block: the pass's, with the bumped keys' holes written over. -/
theorem block_answers (t : V2) (l : Level) (form : Form) (block : List Nat) :
    written (fun offset => t.holeOf (block.getD offset 0)) (bumpedOffsets l 0 block)
        (block.map (l.answer form)) = block.map (batchAnswer t l form) := by
  refine List.ext_getElem? fun i => ?_
  have member := @mem_bumpedOffsets l block 0 i
  rw [Nat.zero_add] at member
  rw [written_getElem?, List.length_map, List.getElem?_map, List.getElem?_map]
  cases listed : block[i]? with
  | none =>
      have outside : ¬ i < block.length := by
        intro inside
        rw [List.getElem?_eq_getElem inside] at listed
        cases listed
      rw [if_neg (fun both => outside both.2)]
      rfl
  | some h =>
      have inside := (List.getElem?_eq_some_iff.mp listed).1
      have exact : block.getD i 0 = h := by
        rw [List.getD_eq_getElem?_getD, listed, Option.getD_some]
      rw [listed] at member
      by_cases bumped : l.seedFor h = 0
      · rw [if_pos ⟨member.mpr ⟨h, rfl, bumped⟩, inside⟩, exact, Option.map_some, batchAnswer,
          if_pos bumped]
      · have notListed : i ∉ bumpedOffsets l 0 block := by
          intro listedBumped
          obtain ⟨other, same, zero⟩ := member.mp listedBumped
          rw [← Option.some.inj same] at zero
          exact bumped zero
        rw [if_neg (fun both => notListed both.1), Option.map_some, Option.map_some, batchAnswer,
          if_neg bumped]

theorem batchFrom_eq {t : V2} (sound : t.Sound) {l : Level} (levelSound : l.Sound) (form : Form)
    {lead : Nat} (leadPositive : 0 < lead) (leadLe : lead ≤ seedAhead) :
    ∀ (blocks base : Nat) (ring hashes : List Nat), hashes.length ≤ blocks * batchBlock →
      (∀ h ∈ hashes, h < 2 ^ 64) → RingHolds l lead base ring hashes →
      t.batchFrom l form lead blocks base ring hashes =
        some (hashes.map (batchAnswer t l form)) := by
  intro blocks
  induction blocks with
  | zero =>
      intro base ring hashes enough _ _
      have none : hashes = [] := List.length_eq_zero_iff.mp (by omega)
      rw [none]
      rfl
  | succ blocks ih =>
      intro base ring hashes enough words holds
      have split := List.take_append_drop batchBlock hashes
      have blockWords : ∀ h ∈ hashes.take batchBlock, h < 2 ^ 64 := fun h member =>
        words h (List.mem_of_mem_take member)
      have restWords : ∀ h ∈ hashes.drop batchBlock, h < 2 ^ 64 := fun h member =>
        words h (List.mem_of_mem_drop member)
      have startHolds : RingHolds l lead (base + 0) ring
          (hashes.take batchBlock ++ hashes.drop batchBlock) := by
        rw [split]
        exact holds
      obtain ⟨last, lastHolds, passed⟩ := answerBlockFrom_eq levelSound form leadPositive leadLe
        base (hashes.take batchBlock) (hashes.drop batchBlock) 0 ring blockWords startHolds
      rw [split] at passed
      have restAnswers : t.batchFrom l form lead blocks (base + batchBlock) last
          (hashes.drop batchBlock) = some ((hashes.drop batchBlock).map (batchAnswer t l form)) := by
        apply ih
        · rw [List.length_drop]
          rw [Nat.succ_mul] at enough
          omega
        · exact restWords
        · by_cases whole : batchBlock ≤ hashes.length
          · rwa [List.length_take, Nat.min_eq_left whole, Nat.add_zero] at lastHolds
          · have nothing : hashes.drop batchBlock = [] := List.drop_eq_nil_of_le (by omega)
            rw [nothing] at lastHolds ⊢
            exact ⟨lastHolds.length, by intro d h _ listed; simp at listed⟩
      rw [V2.batchFrom]
      simp only [passed, Option.bind_eq_bind, Option.bind_some, resolveBumped_eq sound,
        block_answers, restAnswers, Option.pure_def]
      rw [← List.map_append, split]

theorem batch_eq {t : V2} (sound : t.Sound) {l : Level} (levelSound : l.Sound)
    (shipped retry : Bool) {hashes : List Nat} (words : ∀ h ∈ hashes, h < 2 ^ 64) :
    t.batch shipped retry l hashes =
      some (hashes.map (batchAnswer t l (if shipped then Level.shippedForm else l.form))) := by
  have leadBounds : 0 < (if retry then retryAhead else seedAhead) ∧
      (if retry then retryAhead else seedAhead) ≤ seedAhead := by
    cases retry <;> decide
  rw [V2.batch]
  apply batchFrom_eq sound levelSound _ leadBounds.1 leadBounds.2
  · rw [Nat.mul_comm]
    exact le_mul_divCeil _ _ (by decide)
  · exact words
  · exact firstRing_holds l leadBounds.2 hashes

end Lexindex.Mphf
