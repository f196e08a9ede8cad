import Mathlib
import Lexindex.Plan.Samples

/-!
# The samples are functions of the key set

What a draw holds and what it dropped are together what it was offered, the cutoff lies between
them, and nothing is dropped while fewer than were wanted are held.  So what is held at the end are
the smallest hashes, in whatever order they came.
-/

set_option autoImplicit false

namespace Lexindex.Plan

/-! ## What a draw holds -/

section Draws

variable {α : Type} {p : Selection (Prod.fst : Nat × α → Nat)} {want cutoff : Nat}
  {items kept : List (Nat × α)}

/-- Of the items offered, some are held and the others dropped. -/
def Draws (want : Nat) (items : List (Nat × α)) (cutoff : Nat) (kept : List (Nat × α)) : Prop :=
  ∃ dropped, (kept ++ dropped).Perm items ∧ (∀ k ∈ kept, k.1 ≤ cutoff) ∧
    (∀ d ∈ dropped, cutoff ≤ d.1) ∧ (dropped = [] ∨ want ≤ kept.length) ∧
      (MAX_HASH ≤ cutoff ∨ want ≤ kept.length)

theorem draws_nil : Draws want ([] : List (Nat × α)) MAX_HASH [] :=
  ⟨[], List.Perm.refl _, by simp, by simp, .inl rfl, .inl (Nat.le_refl _)⟩

theorem Draws.refuse (draws : Draws want items cutoff kept) {x : Nat × α} (above : cutoff < x.1)
    (word : x.1 ≤ MAX_HASH) : Draws want (items ++ [x]) cutoff kept := by
  obtain ⟨dropped, perm, low, high, -, full⟩ := draws
  have enough : want ≤ kept.length := by
    rcases full with most | enough
    · omega
    · exact enough
  refine ⟨dropped ++ [x], ?_, low, ?_, .inr enough, .inr enough⟩
  · rw [← List.append_assoc]
    exact perm.append_right [x]
  · intro d member
    rcases List.mem_append.mp member with old | new
    · exact high d old
    · rw [List.mem_singleton.mp new]
      exact Nat.le_of_lt above

theorem Draws.admit (draws : Draws want items cutoff kept) {x : Nat × α} (below : x.1 ≤ cutoff) :
    Draws want (items ++ [x]) cutoff (kept ++ [x]) := by
  obtain ⟨dropped, perm, low, high, few, full⟩ := draws
  refine ⟨dropped, ?_, ?_, high, ?_, ?_⟩
  · rw [List.append_assoc]
    refine List.Perm.trans ?_ (perm.append_right [x])
    rw [List.append_assoc]
    exact List.perm_append_comm.append_left kept
  · intro k member
    rcases List.mem_append.mp member with old | new
    · exact low k old
    · rw [List.mem_singleton.mp new]
      exact below
  · rw [List.length_append, List.length_singleton]
    rcases few with none_ | enough
    · exact .inl none_
    · exact .inr (by omega)
  · rw [List.length_append, List.length_singleton]
    omega

theorem trimTo_short (few : kept.length ≤ want) : trimTo p want cutoff kept = (cutoff, kept) :=
  if_pos few

/-- A trim leaves the wanted count, and drops no less a hash than it keeps. -/
theorem trimTo_long (positive : 0 < want) (many : want < kept.length) : ∃ cutoff' kept' dropped,
    trimTo p want cutoff kept = (cutoff', kept') ∧ (kept' ++ dropped).Perm kept ∧
      kept'.length = want ∧ (∃ k ∈ kept', k.1 = cutoff') ∧ (∀ k ∈ kept', k.1 ≤ cutoff') ∧
        ∀ d ∈ dropped, cutoff' ≤ d.1 := by
  have perm := p.perm kept (want - 1)
  have parts := p.parts kept (want - 1)
  have next : want - 1 + 1 = want := by omega
  rw [next] at parts
  have length : ((p.select kept (want - 1)).take want).length = want := by
    rw [List.length_take, perm.length_eq]
    omega
  cases greatest : (((p.select kept (want - 1)).take want).map Prod.fst).max? with
  | none =>
      rw [List.max?_eq_none_iff, List.map_eq_nil_iff] at greatest
      rw [greatest, List.length_nil] at length
      omega
  | some m =>
      obtain ⟨held, most⟩ := List.max?_eq_some_iff.mp greatest
      obtain ⟨k, member, same⟩ := List.mem_map.mp held
      refine ⟨m, (p.select kept (want - 1)).take want, (p.select kept (want - 1)).drop want, ?_,
        ?_, length, ⟨k, member, same⟩, ?_, ?_⟩
      · rw [trimTo, if_neg (by omega)]
        simp only [greatest, Option.getD_some]
      · rw [List.take_append_drop]
        exact perm
      · intro k' member'
        exact most k'.1 (List.mem_map_of_mem member')
      · intro d later
        rw [← same]
        exact parts k member d later

theorem Draws.trim (draws : Draws want items cutoff kept) (positive : 0 < want)
    (many : want < kept.length) : ∃ cutoff' kept', trimTo p want cutoff kept = (cutoff', kept') ∧
      kept'.length = want ∧ Draws want items cutoff' kept' := by
  obtain ⟨dropped, perm, low, high, -, -⟩ := draws
  obtain ⟨cutoff', kept', cut, trimmed, cutPerm, length, ⟨k, member, same⟩, least, most⟩ :=
    trimTo_long (p := p) positive many
  refine ⟨cutoff', kept', trimmed, length, cut ++ dropped, ?_, least, ?_, .inr (Nat.le_of_eq length.symm),
    .inr (Nat.le_of_eq length.symm)⟩
  · rw [← List.append_assoc]
    exact (cutPerm.append_right dropped).trans perm
  · intro d member'
    rcases List.mem_append.mp member' with new | old
    · exact most d new
    · have held := low k (cutPerm.mem_iff.mp (List.mem_append_left _ member))
      have above := high d old
      omega

/-- What a draw ends with: as many as were wanted of the smallest. -/
theorem Draws.smallest (draws : Draws want items cutoff kept) (positive : 0 < want)
    (distinct : (items.map Prod.fst).Nodup) :
    ((trimTo p want cutoff kept).2.mergeSort fun a b => a.1 ≤ b.1) =
      (items.mergeSort fun a b => a.1 ≤ b.1).take want := by
  have finish : ∀ {cutoff : Nat} {kept : List (Nat × α)}, Draws want items cutoff kept →
      kept.length ≤ want → (kept.mergeSort fun a b => a.1 ≤ b.1) =
        (items.mergeSort fun a b => a.1 ≤ b.1).take want := by
    intro cutoff kept draws few
    obtain ⟨dropped, perm, low, high, none_, -⟩ := draws
    have parts : ∀ a ∈ kept, ∀ b ∈ dropped, a.1 ≤ b.1 := fun a front b back =>
      (low a front).trans (high b back)
    rw [smallest_of_parts perm parts distinct]
    rcases none_ with all | enough
    · subst all
      rw [List.append_nil] at perm
      rw [List.take_of_length_le (by rw [List.length_mergeSort, perm.length_eq]),
        List.take_of_length_le (by rw [List.length_mergeSort, ← perm.length_eq]; exact few)]
    · rw [Nat.le_antisymm few enough]
  by_cases few : kept.length ≤ want
  · rw [trimTo_short few]
    exact finish draws few
  · obtain ⟨cutoff', kept', trimmed, length, draws'⟩ := draws.trim (p := p) positive (by omega)
    rw [trimmed]
    exact finish draws' (Nat.le_of_eq length)

/-- An item that is held changes, its hash apart. -/
theorem Draws.fill {i : Nat} {x y : Nat × α} (draws : Draws want (items ++ [x]) cutoff kept)
    (at_ : kept[i]? = some x) (same : y.1 = x.1) :
    Draws want (items ++ [y]) cutoff (kept.set i y) := by
  obtain ⟨dropped, perm, low, high, few, full⟩ := draws
  obtain ⟨inside, here⟩ := List.getElem?_eq_some_iff.mp at_
  have parts : kept = kept.take i ++ x :: kept.drop (i + 1) := by
    rw [← here, ← List.drop_eq_getElem_cons inside, List.take_append_drop]
  have out : (kept.take i ++ (kept.drop (i + 1) ++ dropped)).Perm items := by
    rw [parts, List.append_assoc, List.cons_append] at perm
    exact List.Perm.cons_inv
      (List.perm_middle.symm.trans (perm.trans (List.perm_append_singleton ..)))
  refine ⟨dropped, ?_, ?_, high, by rwa [List.length_set], by rwa [List.length_set]⟩
  · rw [List.set_eq_take_append_cons_drop, if_pos inside, List.append_assoc, List.cons_append]
    exact List.perm_middle.trans ((out.cons y).trans (List.perm_append_singleton ..).symm)
  · intro k member
    rcases List.mem_or_eq_of_mem_set member with old | rfl
    · exact low k old
    · rw [same]
      exact low x (List.mem_of_getElem? at_)

/-- An item that is dropped changes, its hash apart. -/
theorem Draws.fill_dropped {x y : Nat × α} (draws : Draws want (items ++ [x]) cutoff kept)
    (absent : x ∉ kept) (same : y.1 = x.1) : Draws want (items ++ [y]) cutoff kept := by
  obtain ⟨dropped, perm, low, high, few, full⟩ := draws
  have held : x ∈ dropped := by
    have member := perm.mem_iff.mpr (List.mem_append_right items (List.mem_singleton.mpr rfl))
    exact (List.mem_append.mp member).resolve_left absent
  obtain ⟨front, back, rfl⟩ := List.append_of_mem held
  have out : (kept ++ (front ++ back)).Perm items := by
    have whole : (x :: (kept ++ (front ++ back))).Perm (items ++ [x]) := by
      refine List.Perm.trans ?_ perm
      rw [← List.append_assoc, ← List.append_assoc]
      exact List.perm_middle.symm
    exact List.Perm.cons_inv (whole.trans (List.perm_append_singleton ..))
  refine ⟨front ++ y :: back, ?_, low, ?_, .inr ?_, full⟩
  · rw [← List.append_assoc]
    refine List.perm_middle.trans ?_
    rw [List.append_assoc]
    exact (out.cons y).trans (List.perm_append_singleton ..).symm
  · intro d member
    rcases List.mem_append.mp member with old | later
    · exact high d (List.mem_append_left _ old)
    · rcases List.mem_cons.mp later with rfl | old
      · rw [same]
        exact high x held
      · exact high d (List.mem_append_right _ (List.mem_cons_of_mem _ old))
  · rcases few with none_ | enough
    · simp at none_
    · exact enough

end Draws

/-! ## Keys -/

namespace HashSample

variable {hash : String → UInt64} {p : Selection (Prod.fst : Nat × String → Nat)}

/-- A key with its hash. -/
def hashed (hash : String → UInt64) (key : String) : Nat × String :=
  ((hash key).toNat, key)

theorem hash_le (key : String) : (hash key).toNat ≤ MAX_HASH := by
  have small := (hash key).toNat_lt
  rw [MAX_HASH]
  omega

theorem offer_eq (s : HashSample) (call : Route × String) :
    s.offer hash p call = s.keep p (hash call.2).toNat call.2 := by
  obtain ⟨route, key⟩ := call
  cases route with
  | push => rfl
  | wantedThenKeep =>
      simp only [offer, wanted]
      by_cases below : (hash key).toNat ≤ s.cutoff
      · rw [if_pos below]
      · rw [if_neg below, keep, if_pos (by omega)]

/-- What holds of a draw between calls. -/
structure Sound (hash : String → UInt64) (want : Nat) (keys : List String) (s : HashSample) :
    Prop where
  wants : s.want = want
  draws : Draws want (keys.map (hashed hash)) s.cutoff s.kept
  few : s.kept.length < 2 * want

theorem Sound.keep {want : Nat} (positive : 0 < want) {keys : List String} {s : HashSample}
    (sound : Sound hash want keys s) (key : String) :
    Sound hash want (keys ++ [key]) (s.keep p (hash key).toNat key) := by
  obtain ⟨same, draws, few⟩ := sound
  have items : (keys ++ [key]).map (hashed hash) =
      keys.map (hashed hash) ++ [((hash key).toNat, key)] := List.map_append
  rw [HashSample.keep]
  by_cases above : s.cutoff < (hash key).toNat
  · rw [if_pos above]
    refine ⟨same, ?_, few⟩
    rw [items]
    exact draws.refuse above (hash_le key)
  · rw [if_neg above]
    have admitted := draws.admit (x := ((hash key).toNat, key)) (Nat.le_of_not_lt above)
    rw [← items] at admitted
    simp only [same]
    by_cases full : 2 * want ≤ (s.kept ++ [((hash key).toNat, key)]).length
    · rw [if_pos ⟨positive, full⟩]
      obtain ⟨cutoff', kept', trimmed, length, draws'⟩ :=
        admitted.trim (p := p) positive (by omega)
      simp only [trim, trimmed]
      refine ⟨rfl, draws', ?_⟩
      change kept'.length < 2 * want
      omega
    · rw [if_neg (fun both => full both.2)]
      exact ⟨rfl, admitted, Nat.lt_of_not_le full⟩

theorem after_sound {want : Nat} (positive : 0 < want) (calls : List (Route × String)) :
    Sound hash want (calls.map Prod.snd) (after hash p want calls) := by
  induction calls using List.reverseRecOn with
  | nil => exact ⟨rfl, draws_nil, by rw [after, List.foldl_nil, new, List.length_nil]; omega⟩
  | append_singleton calls call ih =>
      rw [after, List.foldl_append, List.map_append]
      change Sound hash want (calls.map Prod.snd ++ [call.2])
        ((after hash p want calls).offer hash p call)
      rw [offer_eq]
      exact ih.keep positive call.2

theorem hashed_sorted (keys : List String) :
    ((keys.map (hashed hash)).mergeSort fun a b => a.1 ≤ b.1) =
      (keys.mergeSort fun a b => (hash a).toNat ≤ (hash b).toNat).map (hashed hash) :=
  (List.map_mergeSort (f := hashed hash) (s := fun a b => decide (a.1 ≤ b.1))
    fun _ _ _ _ => rfl).symm

/-- The draw ends with the keys of the smallest hashes. -/
theorem finish_eq {want : Nat} (positive : 0 < want) {keys : List String} {s : HashSample}
    (sound : Sound hash want keys s) (distinct : (keys.map hash).Nodup) :
    s.finish p = smallestKeys hash want keys := by
  obtain ⟨same, draws, -⟩ := sound
  have hashes : ((keys.map (hashed hash)).map Prod.fst).Nodup := by
    rw [List.map_map]
    have apart := List.Nodup.map (fun _ _ => UInt64.toNat_inj.mp) distinct
    rw [List.map_map] at apart
    exact apart
  have smallest := draws.smallest (p := p) positive hashes
  rw [hashed_sorted, ← List.map_take] at smallest
  have kept : ((trimTo p want s.cutoff s.kept).2.map Prod.snd).Perm
      ((keys.mergeSort fun a b => (hash a).toNat ≤ (hash b).toNat).take want) := by
    have perm := (List.mergeSort_perm (trimTo p want s.cutoff s.kept).2
      fun a b => decide (a.1 ≤ b.1)).symm.map Prod.snd
    rw [smallest, List.map_map] at perm
    rw [show (Prod.snd ∘ hashed hash) = id from rfl, List.map_id] at perm
    exact perm
  have unique : (((trimTo p want s.cutoff s.kept).2.map Prod.snd).map bytesOf).Nodup := by
    have nodup : keys.Nodup := List.Nodup.of_map hash distinct
    have sorted : (keys.mergeSort fun a b => (hash a).toNat ≤ (hash b).toNat).Nodup :=
      (List.mergeSort_perm ..).nodup_iff.mpr nodup
    exact List.Nodup.map (fun _ _ => bytesOf_inj)
      (kept.nodup_iff.mpr (sorted.sublist (List.take_sublist ..)))
  rw [finish, trim, same]
  exact mergeSort_eq_of_perm kept unique

theorem smallestKeys_perm {want : Nat} {keys others : List String} (perm : keys.Perm others)
    (distinct : (keys.map hash).Nodup) :
    smallestKeys hash want keys = smallestKeys hash want others := by
  have hashes : (keys.map fun key => (hash key).toNat).Nodup := by
    have apart := List.Nodup.map (fun _ _ => UInt64.toNat_inj.mp) distinct
    rw [List.map_map] at apart
    exact apart
  rw [smallestKeys, smallestKeys, mergeSort_eq_of_perm perm hashes]

end HashSample

/-! ## Runs -/

namespace RunSample

variable {hash : String → UInt64} {p : Selection (Prod.fst : Nat × List String → Nat)}

/-- A run with the hash of its start. -/
def started (hash : String → UInt64) (run : List String) : Nat × List String :=
  (startHash hash run, run)

/-- What holds of a draw between two runs of a stream. -/
structure Sound (hash : String → UInt64) (want len : Nat) (done : List (List String))
    (s : RunSample) : Prop where
  wants : s.runs = want
  lens : s.len = len
  between : s.offered % len = 0
  opens : s.opens = none
  draws : Draws want (done.map (started hash)) s.cutoff s.kept
  few : s.kept.length < 2 * want

/-- What holds of a draw while a run is filling: it is held where the draw says, or it has been
dropped and no run with its hash is held. -/
structure Filling (hash : String → UInt64) (want len : Nat) (done : List (List String))
    (run : List String) (s : RunSample) : Prop where
  wants : s.runs = want
  lens : s.len = len
  inside : s.offered % len = run.length % len
  opens : s.opens = none
  draws : Draws want (done.map (started hash) ++ [started hash run]) s.cutoff s.kept
  few : s.kept.length < 2 * want
  held : ∀ i, s.open_ = some i → s.kept[i]? = some (started hash run)
  dropped : s.open_ = none → ∀ k ∈ s.kept, k.1 ≠ startHash hash run

variable {want len : Nat} {done : List (List String)} {run : List String} {s : RunSample}

/-- The first key of a run opens it, or it is refused. -/
theorem Sound.opened (positive : 0 < want) (sound : Sound hash want len done s) (key : String)
    (fresh : ∀ r ∈ done, startHash hash r ≠ (hash key).toNat) :
    Filling hash want len done [key] (s.push hash p key) := by
  obtain ⟨wants, lens, between, -, draws, few⟩ := sound
  have next : (s.offered + 1) % len = [key].length % len := by
    rw [Nat.add_mod, between, Nat.zero_add, Nat.mod_mod]
    rfl
  have first : s.offered % s.len = 0 := by rw [lens, between]
  rw [push, wanted, if_pos first]
  by_cases below : (hash key).toNat ≤ s.cutoff
  · have admitted := draws.admit (x := started hash [key]) below
    simp only [if_pos below, Option.isSome_some, if_true, keep]
    by_cases full : 2 * s.runs ≤ (s.kept ++ [((hash key).toNat, [key])]).length
    · rw [if_pos full, trim, if_neg (by simp only; omega)]
      obtain ⟨cutoff', kept', trimmed, length, draws'⟩ :=
        admitted.trim (p := p) positive (by
          change want < (s.kept ++ [((hash key).toNat, [key])]).length
          omega)
      have same : ∀ k ∈ kept', k.1 = (hash key).toNat → k = started hash [key] := by
        intro k member hashes
        obtain ⟨dropped, perm, -⟩ := draws'
        rcases List.mem_append.mp (perm.mem_iff.mp (List.mem_append_left _ member)) with old | new
        · obtain ⟨r, inside, rfl⟩ := List.mem_map.mp old
          exact absurd hashes (fresh r inside)
        · exact List.mem_singleton.mp new
      have trimmed_ : trimTo p s.runs s.cutoff (s.kept ++ [((hash key).toNat, [key])]) =
          (cutoff', kept') := by
        rw [wants]
        exact trimmed
      simp only [trimmed_, Option.bind_some, List.getElem?_append_right (Nat.le_refl _),
        Nat.sub_self, List.getElem?_cons_zero, Option.map_some]
      refine ⟨wants, lens, next, rfl, draws', ?_, ?_, ?_⟩
      · change kept'.length < 2 * want
        omega
      · intro i found
        obtain ⟨inside, holds, -⟩ := List.findIdx?_eq_some_iff_getElem.mp found
        rw [List.getElem?_eq_getElem inside, same _ (List.getElem_mem inside) (of_decide_eq_true holds)]
      · intro none_ k member
        have apart := List.findIdx?_eq_none_iff.mp none_ k member
        exact of_decide_eq_false apart
    · rw [if_neg full]
      refine ⟨wants, lens, next, rfl, admitted, ?_, ?_, ?_⟩
      · change (s.kept ++ [((hash key).toNat, [key])]).length < 2 * want
        omega
      · intro i found
        cases found
        change (s.kept ++ [started hash [key]])[s.kept.length]? = some (started hash [key])
        rw [List.getElem?_append_right (Nat.le_refl _), Nat.sub_self]
        rfl
      · intro none_
        cases none_
  · simp only [if_neg below, Option.isSome_none]
    refine ⟨wants, lens, next, rfl, ?_, few, ?_, ?_⟩
    · exact draws.refuse (x := started hash [key]) (Nat.lt_of_not_le below) (HashSample.hash_le key)
    · intro i found
      cases found
    · intro _ k member same
      obtain ⟨-, -, low, -⟩ := draws
      have small := low k member
      rw [same] at small
      exact below small

/-- Each later key of a run is held with it, or dropped with it. -/
theorem Filling.filled (filling : Filling hash want len done run s) (nonempty : run ≠ [])
    (room : run.length < len) (key : String) :
    Filling hash want len done (run ++ [key]) (s.push hash p key) := by
  obtain ⟨wants, lens, inside, opens, draws, few, held, dropped⟩ := filling
  have start : startHash hash (run ++ [key]) = startHash hash run := by
    cases run with
    | nil => exact absurd rfl nonempty
    | cons first rest => rfl
  have positive : 0 < run.length := List.length_pos_of_ne_nil nonempty
  have mid : ¬ s.offered % s.len = 0 := by
    rw [lens, inside, Nat.mod_eq_of_lt room]
    omega
  have next : (s.offered + 1) % len = (run ++ [key]).length % len := by
    rw [List.length_append, Nat.add_mod, inside, ← Nat.add_mod]
    rfl
  rw [push, wanted, if_neg mid]
  cases filling : s.open_ with
  | none =>
      simp only [Option.isSome_none]
      have absent := dropped filling
      refine ⟨wants, lens, next, opens, ?_, few, ?_, ?_⟩
      · exact draws.fill_dropped (fun member => absent _ member rfl) start
      · intro i found
        cases found
      · intro _ k member
        rw [start]
        exact absent k member
  | some i =>
      have at_ := held i filling
      simp only [Option.isSome_some, if_true, keep, opens]
      have set_ : s.kept.modify i (fun run => (run.1, run.2 ++ [key])) =
          s.kept.set i (started hash (run ++ [key])) := by
        obtain ⟨below, exact_⟩ := List.getElem?_eq_some_iff.mp at_
        rw [List.modify_eq_set_getElem?, at_]
        simp only [Option.map_eq_map, Option.map_some, Option.getD_some, started, start]
      rw [set_]
      obtain ⟨below, -⟩ := List.getElem?_eq_some_iff.mp at_
      refine ⟨wants, lens, next, rfl, draws.fill at_ start, ?_, ?_, ?_⟩
      · simp only [List.length_set]
        exact few
      · intro j found
        cases found
        exact List.getElem?_set_self below
      · intro none_
        cases none_

/-- A run offered key by key. -/
theorem Sound.ran (positive : 0 < want) (sound : Sound hash want len done s) (run : List String)
    (nonempty : run ≠ []) (short : run.length ≤ len)
    (fresh : ∀ r ∈ done, startHash hash r ≠ startHash hash run) :
    Filling hash want len done run (run.foldl (push hash p) s) := by
  induction run using List.reverseRecOn with
  | nil => exact absurd rfl nonempty
  | append_singleton run key ih =>
      rw [List.foldl_append]
      rw [List.length_append, List.length_singleton] at short
      cases run with
      | nil => exact sound.opened positive key fresh
      | cons first run =>
          exact (ih (List.cons_ne_nil _ _) (by omega) fresh).filled (List.cons_ne_nil _ _)
            (by omega) key

theorem Filling.whole (filling : Filling hash want len done run s) (full : run.length = len) :
    Sound hash want len (done ++ [run]) s where
  wants := filling.wants
  lens := filling.lens
  between := by rw [filling.inside, full, Nat.mod_self]
  opens := filling.opens
  draws := by
    rw [List.map_append]
    exact filling.draws
  few := filling.few

theorem aligned_nil (len : Nat) : aligned len [] = [] := by
  have none_ : divCeil 0 len = 0 := by
    rw [divCeil]
    rcases Nat.eq_zero_or_pos len with zero | positive
    · rw [zero, Nat.div_zero]
    · exact Nat.div_eq_of_lt (by omega)
  rw [aligned, List.length_nil, none_]
  rfl

theorem aligned_short {len : Nat} {keys : List String} (nonempty : keys ≠ [])
    (short : keys.length ≤ len) : aligned len keys = [keys] := by
  have positive : 0 < keys.length := List.length_pos_of_ne_nil nonempty
  have one : divCeil keys.length len = 1 := by
    rw [divCeil]
    exact Nat.div_eq_of_lt_le (by omega) (by omega)
  rw [aligned, one]
  simp [List.take_of_length_le short]

theorem aligned_long {len : Nat} (positive : 0 < len) {keys : List String}
    (long : len ≤ keys.length) :
    aligned len keys = keys.take len :: aligned len (keys.drop len) := by
  have count : divCeil keys.length len = divCeil (keys.drop len).length len + 1 := by
    rw [divCeil, divCeil, List.length_drop, ← Nat.add_div_right _ positive]
    congr 1
    omega
  rw [aligned, aligned, count, List.range_succ_eq_map, List.map_cons, List.map_map, Nat.mul_zero,
    List.drop_zero]
  congr 1
  apply List.map_congr_left
  intro i _
  rw [Function.comp, List.drop_drop, Nat.mul_succ, Nat.add_comm]

/-- A stream offered key by key, from a place where a run may start. -/
theorem Sound.streamed (positive : 0 < want) (long : 0 < len) : ∀ (most : Nat)
    {keys : List String} {done : List (List String)} {s : RunSample}, keys.length ≤ most →
      Sound hash want len done s →
      ((done ++ aligned len keys).map (startHash hash)).Nodup →
        (keys.foldl (push hash p) s).runs = want ∧
        Draws want ((done ++ aligned len keys).map (started hash))
          (keys.foldl (push hash p) s).cutoff (keys.foldl (push hash p) s).kept := by
  intro most
  induction most with
  | zero =>
      intro keys done s few sound _
      have none_ : keys = [] := List.length_eq_zero_iff.mp (Nat.le_zero.mp few)
      rw [none_, aligned_nil, List.append_nil]
      exact ⟨sound.wants, sound.draws⟩
  | succ most ih =>
      intro keys done s few sound distinct
      by_cases nothing : keys = []
      · rw [nothing, aligned_nil, List.append_nil]
        exact ⟨sound.wants, sound.draws⟩
      have fresh : ∀ {run : List String} {rest : List (List String)},
          aligned len keys = run :: rest → ∀ r ∈ done, startHash hash r ≠ startHash hash run := by
        intro run rest cut r member same
        rw [cut, List.map_append, List.nodup_append] at distinct
        exact distinct.2.2 _ (List.mem_map_of_mem member) _
          (List.mem_map_of_mem List.mem_cons_self) same
      by_cases whole : len ≤ keys.length
      · have cut := aligned_long long whole
        have length : (keys.take len).length = len := List.length_take_of_le whole
        have some_ : keys.take len ≠ [] := by
          intro none_
          rw [none_, List.length_nil] at length
          omega
        have filled := (sound.ran (p := p) positive (keys.take len) some_ (Nat.le_of_eq length)
          (fresh cut)).whole length
        have later := @ih (keys.drop len) (done ++ [keys.take len]) _ (by
          rw [List.length_drop]
          omega) filled (by
          rw [List.append_assoc, List.singleton_append, ← cut]
          exact distinct)
        rw [← List.foldl_append, List.take_append_drop, List.append_assoc, List.singleton_append,
          ← cut] at later
        exact later
      · have cut := aligned_short nothing (Nat.le_of_lt (Nat.lt_of_not_le whole))
        have filled := sound.ran (p := p) positive keys nothing
          (Nat.le_of_lt (Nat.lt_of_not_le whole)) (fresh cut)
        rw [cut, List.map_append]
        exact ⟨filled.wants, filled.draws⟩

theorem trim_kept (s : RunSample) :
    (s.trim p).kept = (trimTo p s.runs s.cutoff s.kept).2 := by
  rw [trim]
  by_cases few : s.kept.length ≤ s.runs
  · rw [if_pos few, trimTo_short few]
  · rw [if_neg few]

theorem aligned_flatten {len : Nat} (long : 0 < len) : ∀ (most : Nat) {keys : List String},
    keys.length ≤ most → (aligned len keys).flatten = keys ∧ ∀ run ∈ aligned len keys, run ≠ [] := by
  intro most
  induction most with
  | zero =>
      intro keys few
      rw [List.length_eq_zero_iff.mp (Nat.le_zero.mp few), aligned_nil]
      exact ⟨rfl, by simp⟩
  | succ most ih =>
      intro keys few
      by_cases nothing : keys = []
      · rw [nothing, aligned_nil]
        exact ⟨rfl, by simp⟩
      by_cases whole : len ≤ keys.length
      · obtain ⟨flat, some_⟩ := @ih (keys.drop len) (by rw [List.length_drop]; omega)
        rw [aligned_long long whole, List.flatten_cons, flat, List.take_append_drop]
        refine ⟨rfl, List.forall_mem_cons.mpr ⟨?_, some_⟩⟩
        intro none_
        have length := List.length_take_of_le whole
        rw [none_, List.length_nil] at length
        omega
      · rw [aligned_short nothing (Nat.le_of_lt (Nat.lt_of_not_le whole))]
        refine ⟨List.append_nil keys, ?_⟩
        intro run member
        rwa [List.mem_singleton.mp member]

/-- Runs with distinct keys start at distinct hashes. -/
theorem starts_nodup : ∀ {runs : List (List String)}, (∀ run ∈ runs, run ≠ []) →
    (runs.flatten.map hash).Nodup → (runs.map (startHash hash)).Nodup := by
  intro runs
  induction runs with
  | nil => exact fun _ _ => List.nodup_nil
  | cons run runs ih =>
      intro some_ distinct
      obtain ⟨here, later⟩ := List.forall_mem_cons.mp some_
      rw [List.flatten_cons, List.map_append, List.nodup_append] at distinct
      obtain ⟨-, rest, apart⟩ := distinct
      rw [List.map_cons, List.nodup_cons]
      refine ⟨?_, ih later rest⟩
      intro member
      obtain ⟨other, inside, same⟩ := List.mem_map.mp member
      cases run with
      | nil => exact here rfl
      | cons first tail =>
          cases other with
          | nil => exact later [] inside rfl
          | cons second others =>
              have second_ : second ∈ runs.flatten :=
                List.mem_flatten.mpr ⟨_, inside, List.mem_cons_self⟩
              exact apart _ (List.mem_map_of_mem List.mem_cons_self) _
                (List.mem_map_of_mem second_) (UInt64.toNat_inj.mp same).symm

theorem runsFor_eq {want : Nat} (positive : 0 < want) :
    0 < lenFor want ∧ 0 < runsFor want ∧ runsFor want = want / lenFor want := by
  have long : 0 < lenFor want := Nat.lt_of_lt_of_le Nat.one_pos (Nat.le_max_right ..)
  have short : lenFor want ≤ want := by
    rw [lenFor]
    omega
  have some_ : 1 ≤ want / lenFor want := (Nat.one_le_div_iff long).mpr short
  exact ⟨long, Nat.lt_of_lt_of_le Nat.one_pos (Nat.le_max_right ..), Nat.max_eq_left some_⟩

/-- The draw ends with the keys of the runs that start at the smallest hashes. -/
theorem finish_eq {want : Nat} (positive : 0 < want) {keys : List String}
    (distinct : (keys.map hash).Nodup) :
    (after hash p want keys).finish p = smallestRuns hash want keys := by
  obtain ⟨long, runs, count⟩ := runsFor_eq positive
  obtain ⟨flat, some_⟩ := aligned_flatten long keys.length (Nat.le_refl keys.length)
  have starts : ((aligned (lenFor want) keys).map (startHash hash)).Nodup :=
    starts_nodup some_ (by rwa [flat])
  have sound : Sound hash (runsFor want) (lenFor want) [] (new want) :=
    ⟨rfl, rfl, Nat.zero_mod _, rfl, draws_nil, by rw [new, List.length_nil]; omega⟩
  obtain ⟨wants, draws⟩ := sound.streamed (p := p) runs long keys.length (Nat.le_refl _) starts
  rw [List.nil_append] at draws
  have smallest := draws.smallest (p := p) runs (by
    rw [List.map_map]
    exact starts)
  have sorted : (((aligned (lenFor want) keys).map (started hash)).mergeSort fun a b => a.1 ≤ b.1) =
      ((aligned (lenFor want) keys).mergeSort fun a b => startHash hash a ≤ startHash hash b).map
        (started hash) :=
    (List.map_mergeSort (f := started hash) (s := fun a b => decide (a.1 ≤ b.1))
      fun _ _ _ _ => rfl).symm
  rw [sorted, ← List.map_take, count] at smallest
  have kept : (((after hash p want keys).trim p).kept.flatMap Prod.snd).Perm
      (((aligned (lenFor want) keys).mergeSort fun a b =>
        startHash hash a ≤ startHash hash b).take (want / lenFor want)).flatten := by
    have perm := (List.mergeSort_perm ((after hash p want keys).trim p).kept
      fun a b => decide (a.1 ≤ b.1)).symm.flatMap_right Prod.snd
    rw [trim_kept, after, wants, count, smallest] at perm
    rw [List.flatMap_map] at perm
    rw [trim_kept, after, wants, count, ← List.flatMap_id]
    exact perm
  have unique : ((((after hash p want keys).trim p).kept.flatMap Prod.snd).map bytesOf).Nodup := by
    have whole : ((aligned (lenFor want) keys).mergeSort fun a b =>
        startHash hash a ≤ startHash hash b).flatten.Nodup := by
      have perm := (List.mergeSort_perm (aligned (lenFor want) keys) fun a b =>
        decide (startHash hash a ≤ startHash hash b)).flatten
      rw [perm.nodup_iff, flat]
      exact List.Nodup.of_map hash distinct
    have part := whole.sublist (List.take_sublist (want / lenFor want) _).flatten
    exact List.Nodup.map (fun _ _ => bytesOf_inj) (kept.nodup_iff.mpr part)
  exact mergeSort_eq_of_perm kept unique

end RunSample

/-- Whatever the order of arrival, the hash function and the selection: the draw of keys ends with the
wanted count of the smallest hashes and never holds twice as many, and the draw of runs ends with the
aligned runs that start at the smallest. -/
theorem samples_exact (hash : String → UInt64)
    (keySel : Selection (Prod.fst : Nat × String → Nat))
    (runSel : Selection (Prod.fst : Nat × List String → Nat)) {want : Nat} (positive : 1 ≤ want) :
    (∀ calls : List (HashSample.Route × String), ((calls.map Prod.snd).map hash).Nodup →
      (∀ before, before <+: calls →
        (HashSample.after hash keySel want before).kept.length < 2 * want) ∧
      (HashSample.after hash keySel want calls).finish keySel =
        smallestKeys hash want (calls.map Prod.snd) ∧
      ∀ others : List (HashSample.Route × String),
        (others.map Prod.snd).Perm (calls.map Prod.snd) →
          (HashSample.after hash keySel want others).finish keySel =
            (HashSample.after hash keySel want calls).finish keySel) ∧
    ∀ keys : List String, (keys.map hash).Nodup →
      (RunSample.after hash runSel want keys).finish runSel = smallestRuns hash want keys := by
  constructor
  · intro calls distinct
    have sound (before : List (HashSample.Route × String)) :
        HashSample.Sound hash want (before.map Prod.snd) (HashSample.after hash keySel want before) :=
      HashSample.after_sound positive before
    have ends := HashSample.finish_eq (p := keySel) positive (sound calls) distinct
    refine ⟨?_, ends, ?_⟩
    · intro before _
      exact (sound before).few
    · intro others perm
      have apart : ((others.map Prod.snd).map hash).Nodup :=
        (perm.map hash).nodup_iff.mpr distinct
      rw [ends, HashSample.finish_eq positive (HashSample.after_sound positive others) apart]
      exact HashSample.smallestKeys_perm perm apart
  · intro keys distinct
    exact RunSample.finish_eq positive distinct

theorem samples_exact_three :
    (HashSample.after (fun key => UInt64.ofNat key.length) (Selection.bySort _) 2
        [(.push, "ccc"), (.wantedThenKeep, "a"), (.push, "bb")]).finish (Selection.bySort _) =
      smallestKeys (fun key => UInt64.ofNat key.length) 2 ["ccc", "a", "bb"] ∧
    (RunSample.after (fun key => UInt64.ofNat key.length) (Selection.bySort _) 2
        ["a", "bb", "ccc"]).finish (Selection.bySort _) =
      smallestRuns (fun key => UInt64.ofNat key.length) 2 ["a", "bb", "ccc"] :=
  have exact_ := samples_exact (fun key => UInt64.ofNat key.length) (Selection.bySort _)
    (Selection.bySort _) (show 1 ≤ 2 by decide)
  ⟨(exact_.1 _ (by decide)).2.1, exact_.2 _ (by decide)⟩

end Lexindex.Plan
