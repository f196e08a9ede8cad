import Mathlib
import Lexindex.Phrase.Trie
import Lexindex.Phrase.TrieGrown

/-!
# Laying out keeps the nodes apart

Every node that is placed has a slot of its own, marked taken, whose check names its parent's slot, and
every slot without a node is vacant.  A node's children are put in free slots only, so placing them
changes no other's.
-/

set_option autoImplicit false

namespace Lexindex.Phrase

/-- A slot's record, vacant past the end. -/
def Laying.slot (l : Laying) (s : Nat) : Slot :=
  l.slots.getD s VACANT

/-- The map has the words its slots need, and marks none past them. -/
structure Laying.Sized (l : Laying) : Prop where
  some_ : 0 < l.slots.length
  words : l.taken.length = (l.slots.length - 1) / 64 + 1
  free : ∀ s, l.slots.length ≤ s → streamBit l.taken s = false

theorem getD_resize {α : Type} {items : List α} {size : Nat} {fill : α}
    (grown : items.length ≤ size) (i : Nat) : (resize items size fill).getD i fill = items.getD i fill := by
  rw [resize, List.take_of_length_le grown, List.getD_eq_getElem?_getD, List.getD_eq_getElem?_getD]
  by_cases inside : i < items.length
  · rw [List.getElem?_append_left inside]
  · rw [List.getElem?_append_right (by omega), List.getElem?_eq_none (l := items) (by omega),
      List.getElem?_replicate]
    split <;> rfl

theorem length_resize {α : Type} {items : List α} {size : Nat} (fill : α)
    (grown : items.length ≤ size) : (resize items size fill).length = size := by
  rw [resize, List.length_append, List.length_replicate, List.take_of_length_le grown]
  omega

namespace Laying

variable {g : Grown} {l : Laying} {parent base : Nat}

/-- A child's slot. -/
def kidSlot (base : Nat) (kid : Link) : Nat :=
  base + kid.byte.toNat

/-- A child's record in it. -/
def kidRecord (g : Grown) (parent : Nat) (slot : Slot) (kid : Link) : Slot :=
  { slot with check := parent, phrase := g.ends.getD kid.child 0 }

theorem slot_modify {l : Laying} {f : Slot → Slot} {s : Nat} (inside : s < l.slots.length) (x : Nat) :
    (l.slots.modify s f).getD x VACANT = if x = s then f (l.slot s) else l.slot x := by
  rw [slot, slot, List.getD_eq_getElem?_getD, List.getElem?_modify, List.getD_eq_getElem?_getD,
    List.getD_eq_getElem?_getD]
  by_cases here : x = s
  · subst here
    rw [if_pos rfl, List.getElem?_eq_getElem inside]
    simp
  · have apart : ¬ s = x := fun same => here same.symm
    simp [here, apart]

/-- A child put in its slot changes that slot only. -/
theorem Sized.put_spec (sized : l.Sized) (g : Grown) (parent base : Nat) (kid : Link) :
    (put g parent base l kid).Sized ∧
    (∀ x, (put g parent base l kid).slot x =
      if x = kidSlot base kid then kidRecord g parent (l.slot x) kid else l.slot x) ∧
    (∀ x, streamBit (put g parent base l kid).taken x =
      (decide (x = kidSlot base kid) || streamBit l.taken x)) ∧
    (put g parent base l kid).slots.length = max l.slots.length (kidSlot base kid + 1) := by
  obtain ⟨some_, words, free⟩ := sized
  by_cases past : l.slots.length ≤ kidSlot base kid
  · have slots := length_resize VACANT (show l.slots.length ≤ kidSlot base kid + 1 by omega)
    have wordCount := length_resize 0#64 (show l.taken.length ≤ kidSlot base kid / 64 + 1 by omega)
    have length : (put g parent base l kid).slots.length = kidSlot base kid + 1 := by
      change (List.modify (if l.slots.length ≤ kidSlot base kid then _ else _) _ _).length = _
      rw [if_pos past, List.length_modify]
      exact slots
    have bits : ∀ x, streamBit (put g parent base l kid).taken x =
        (decide (x = kidSlot base kid) || streamBit l.taken x) := by
      intro x
      change streamBit (setBit (if l.slots.length ≤ kidSlot base kid then _ else _) _) x = _
      have words_ : l.taken.length ≤ kidSlot base kid / 64 + 1 := by omega
      have last : kidSlot base kid / 64 < (resize l.taken (kidSlot base kid / 64 + 1) 0#64).length := by
        omega
      rw [if_pos past, show base + kid.byte.toNat = kidSlot base kid from rfl, streamBit_setBit last,
        streamBit, streamBit, getD_resize words_]
    refine ⟨⟨by omega, ?_, ?_⟩, ?_, bits, by omega⟩
    · rw [length]
      change (setBit (if l.slots.length ≤ kidSlot base kid then _ else _) _).length = _
      rw [if_pos past, setBit_length, Nat.add_sub_cancel]
      exact wordCount
    · intro x above
      rw [length] at above
      rw [bits, free x (by omega), Bool.or_false]
      exact decide_eq_false (by omega)
    · intro x
      change (List.modify (if l.slots.length ≤ kidSlot base kid then _ else _) _ _).getD x VACANT = _
      rw [if_pos past]
      have grown : ∀ y, ({ l with slots := resize l.slots (kidSlot base kid + 1) VACANT } : Laying).slot
          y = l.slot y := fun y => getD_resize (by omega) y
      have changed := slot_modify
        (l := { l with slots := resize l.slots (kidSlot base kid + 1) VACANT })
        (f := fun slot => { slot with check := parent, phrase := g.ends.getD kid.child 0 })
        (s := kidSlot base kid) (by rw [slots]; exact Nat.lt_succ_self _) x
      rw [grown, grown] at changed
      rw [show base + kid.byte.toNat = kidSlot base kid from rfl, changed]
      by_cases here : x = kidSlot base kid
      · rw [if_pos here, if_pos here, here]
        rfl
      · rw [if_neg here, if_neg here]
  · have below : kidSlot base kid < l.slots.length := by omega
    have length : (put g parent base l kid).slots.length = l.slots.length := by
      change (List.modify (if l.slots.length ≤ kidSlot base kid then _ else _) _ _).length = _
      rw [if_neg past, List.length_modify]
    have bits : ∀ x, streamBit (put g parent base l kid).taken x =
        (decide (x = kidSlot base kid) || streamBit l.taken x) := by
      intro x
      change streamBit (setBit (if l.slots.length ≤ kidSlot base kid then _ else _) _) x = _
      rw [if_neg past, streamBit_setBit]
      · rfl
      · change kidSlot base kid / 64 < _
        omega
    refine ⟨⟨by omega, ?_, ?_⟩, ?_, bits, by omega⟩
    · rw [length]
      change (setBit (if l.slots.length ≤ kidSlot base kid then _ else _) _).length = _
      rw [if_neg past, setBit_length, words]
    · intro x above
      rw [length] at above
      rw [bits, free x above, Bool.or_false]
      exact decide_eq_false (by omega)
    · intro x
      change (List.modify (if l.slots.length ≤ kidSlot base kid then _ else _) _ _).getD x VACANT = _
      rw [if_neg past, show base + kid.byte.toNat = kidSlot base kid from rfl, slot_modify below]
      by_cases here : x = kidSlot base kid
      · rw [if_pos here, if_pos here, here]
        rfl
      · rw [if_neg here, if_neg here]

/-- A node's children put in their slots. -/
theorem Sized.puts_spec (g : Grown) (parent base : Nat) (kids : List Link) : ∀ {l : Laying}, l.Sized →
    (kids.map Link.byte).Nodup →
    (kids.foldl (put g parent base) l).Sized ∧
    (∀ x, (∀ kid ∈ kids, kidSlot base kid ≠ x) →
      (kids.foldl (put g parent base) l).slot x = l.slot x) ∧
    (∀ kid ∈ kids, (kids.foldl (put g parent base) l).slot (kidSlot base kid) =
      kidRecord g parent (l.slot (kidSlot base kid)) kid) ∧
    (∀ x, streamBit (kids.foldl (put g parent base) l).taken x = true ↔
      (∃ kid ∈ kids, kidSlot base kid = x) ∨ streamBit l.taken x = true) ∧
    (∀ kid ∈ kids, kidSlot base kid < (kids.foldl (put g parent base) l).slots.length) ∧
    l.slots.length ≤ (kids.foldl (put g parent base) l).slots.length ∧
    ∀ m, (∀ kid ∈ kids, kidSlot base kid ≤ m) →
      (kids.foldl (put g parent base) l).slots.length ≤ max l.slots.length (m + 1) := by
  induction kids with
  | nil =>
      intro l sized _
      refine ⟨sized, fun _ _ => rfl, by simp, by simp, by simp, Nat.le_refl _, ?_⟩
      intro m _
      exact Nat.le_max_left ..
  | cons kid kids ih =>
      intro l sized distinct
      rw [List.map_cons, List.nodup_cons] at distinct
      obtain ⟨fresh, distinct⟩ := distinct
      obtain ⟨sized', slots', bits', length'⟩ := sized.put_spec g parent base kid
      obtain ⟨sized'', same, records, bits, inside, grows, most⟩ := ih sized' distinct
      have apart : ∀ other ∈ kids, kidSlot base other ≠ kidSlot base kid := by
        intro other member both
        apply fresh
        have bytes : other.byte = kid.byte := UInt8.toNat_inj.mp (by
          rw [kidSlot, kidSlot] at both
          omega)
        rw [← bytes]
        exact List.mem_map_of_mem member
      rw [List.foldl_cons]
      refine ⟨sized'', ?_, ?_, ?_, ?_, by omega, ?_⟩
      · intro x other
        obtain ⟨here, later⟩ := List.forall_mem_cons.mp other
        rw [same x later, slots' x, if_neg here.symm]
      · intro other member
        rcases List.mem_cons.mp member with rfl | later
        · rw [same _ apart, slots', if_pos rfl]
        · rw [records other later, slots', if_neg (apart other later)]
      · intro x
        rw [bits, bits', Bool.or_eq_true, decide_eq_true_eq]
        constructor
        · rintro (⟨other, member, at_⟩ | here | old)
          · exact .inl ⟨other, List.mem_cons_of_mem _ member, at_⟩
          · exact .inl ⟨kid, List.mem_cons_self, here.symm⟩
          · exact .inr old
        · rintro (⟨other, member, at_⟩ | old)
          · rcases List.mem_cons.mp member with rfl | later
            · exact .inr (.inl at_.symm)
            · exact .inl ⟨other, later, at_⟩
          · exact .inr (.inr old)
      · intro other member
        rcases List.mem_cons.mp member with rfl | later
        · omega
        · exact inside other later
      · intro m bounded
        obtain ⟨here, later⟩ := List.forall_mem_cons.mp bounded
        have bound := most m later
        omega

/-- The base of a node whose children are placed. -/
theorem slot_setBase {l : Laying} {parent : Nat} (inside : parent < l.slots.length) (base x : Nat) :
    (l.setBase parent base).slot x =
      if x = parent then { l.slot parent with base := base } else l.slot x :=
  slot_modify inside x

theorem Sized.setBase (sized : l.Sized) (parent base : Nat) : (l.setBase parent base).Sized := by
  obtain ⟨some_, words, free⟩ := sized
  have length : (l.setBase parent base).slots.length = l.slots.length := List.length_modify ..
  refine ⟨by omega, by rw [length]; exact words, ?_⟩
  intro s above
  exact free s (by omega)

/-- A base a search answers: all the children's slots are free, and not far past the end. -/
theorem baseFor_spec (sized : l.Sized) (low : 256 ≤ l.lowest) {first : Link} {rest : List Link}
    (least : ∀ kid ∈ first :: rest, first.byte.toNat ≤ kid.byte.toNat)
    (found : l.baseFor first.byte (first :: rest) = some base) :
    (∀ kid ∈ first :: rest, streamBit l.taken (kidSlot base kid) = false) ∧
      kidSlot base first ≤ max l.lowest l.slots.length + (if rest = [] then 0 else 63) := by
  have small := first.byte.toNat_lt
  cases rest with
  | nil =>
      rw [baseFor, Option.some.injEq] at found
      obtain ⟨above, free, lowest⟩ := freeFrom_spec l.taken l.lowest
      have most := lowest (max l.lowest l.slots.length) (Nat.le_max_left ..)
        (sized.free _ (Nat.le_max_right ..))
      have here : kidSlot base first = freeFrom l.taken l.lowest := by
        rw [kidSlot]
        omega
      refine ⟨?_, by rw [if_pos rfl]; omega⟩
      intro kid member
      rw [List.mem_singleton.mp member, here]
      exact free
  | cons second rest =>
      rw [baseFor] at found
      · obtain ⟨s, above, rfl, most, fits⟩ :=
          firstFit_spec l.taken first.byte (first :: second :: rest) sized.free _ found
        refine ⟨?_, by rw [kidSlot, if_neg (List.cons_ne_nil second rest)]; omega⟩
        intro kid member
        have bit := fits kid member
        have order := least kid member
        rw [slotFor] at bit
        rw [kidSlot, ← bit]
        congr 1
        omega
      · intro one same
        cases same

/-- There is always one. -/
theorem baseFor_some (sized : l.Sized) (first : Link) (rest : List Link) :
    ∃ base, l.baseFor first.byte (first :: rest) = some base := by
  cases rest with
  | nil => exact ⟨_, rfl⟩
  | cons second rest =>
      have words := sized.words
      have some_ := sized.some_
      rw [baseFor]
      · exact firstFit_some sized.free _ (Nat.succ_pos _) (by omega)
      · intro one same
        cases same

end Laying

/-! ## A node's children -/

theorem Grown.mem_kids {g : Grown} {node : Nat} {link : Link} :
    link ∈ g.kids node ↔ link ∈ g.links ∧ link.parent = node := by
  rw [Grown.kids, List.mem_filter, List.mem_mergeSort, decide_eq_true_eq]

theorem Link.le_total (a b : Link) : (a.le b || b.le a) = true := by
  rw [Link.le, Link.le, Bool.or_eq_true, decide_eq_true_eq, decide_eq_true_eq]
  omega

theorem Link.le_trans (a b c : Link) (ab : a.le b = true) (bc : b.le c = true) :
    a.le c = true := by
  rw [Link.le, decide_eq_true_eq] at ab bc ⊢
  omega

/-- The first child has the least byte. -/
theorem Grown.kids_least {g : Grown} {node : Nat} {first : Link} {rest : List Link}
    (kids : g.kids node = first :: rest) :
    ∀ kid ∈ first :: rest, first.byte.toNat ≤ kid.byte.toNat := by
  have sorted : (g.kids node).Pairwise fun a b => a.le b = true :=
    (List.pairwise_mergeSort Link.le_trans Link.le_total g.links).filter _
  have members : ∀ kid ∈ first :: rest, kid.parent = node := by
    intro kid member
    rw [← kids] at member
    exact (Grown.mem_kids.mp member).2
  rw [kids, List.pairwise_cons] at sorted
  intro kid member
  rcases List.mem_cons.mp member with rfl | later
  · exact Nat.le_refl _
  · have order := sorted.1 kid later
    rw [Link.le, decide_eq_true_eq, members first List.mem_cons_self, members kid member] at order
    omega

namespace Spells

variable {g : Grown} {paths : List (List UInt8)} (spells : Spells g paths)
include spells

theorem child_pos {link : Link} (member : link ∈ g.links) :
    0 < link.child ∧ link.child < g.ends.length ∧ link.parent < g.ends.length := by
  have child : link.child ∈ List.range' 1 (paths.length - 1) := by
    rw [← spells.count]
    exact List.mem_map_of_mem member
  obtain ⟨p, parent, _⟩ := spells.link link member
  obtain ⟨inside, -⟩ := List.getElem?_eq_some_iff.mp parent
  rw [List.mem_range'_1] at child
  rw [spells.size]
  omega

theorem links_nodup : (g.links.map Link.child).Nodup := by
  rw [spells.count]
  exact List.nodup_range'

/-- No two edges lead to one node. -/
theorem link_unique {a b : Link} (one : a ∈ g.links) (other : b ∈ g.links)
    (same : a.child = b.child) : a = b :=
  List.inj_on_of_nodup_map spells.links_nodup one other same

/-- A node's edges have bytes of their own. -/
theorem byte_unique {a b : Link} (one : a ∈ g.links) (other : b ∈ g.links)
    (parent : a.parent = b.parent) (byte : a.byte = b.byte) : a = b := by
  obtain ⟨p, from_, into⟩ := spells.link a one
  rw [parent] at from_
  have into' := spells.child_of_link other from_
  rw [byte] at into
  exact spells.link_unique one other (spells.index_unique into into')

theorem kids_nodup (node : Nat) : (g.kids node).Nodup :=
  ((List.mergeSort_perm g.links Link.le).nodup_iff.mpr spells.links_nodup.of_map).filter _

theorem kids_bytes (node : Nat) : ((g.kids node).map Link.byte).Nodup := by
  apply List.Nodup.map_on ?_ (spells.kids_nodup node)
  intro a one b other byte
  obtain ⟨one, parent⟩ := Grown.mem_kids.mp one
  obtain ⟨other, parent'⟩ := Grown.mem_kids.mp other
  exact spells.byte_unique one other (parent.trans parent'.symm) byte

theorem kids_children (node : Nat) : ((g.kids node).map Link.child).Nodup := by
  apply List.Nodup.map_on ?_ (spells.kids_nodup node)
  intro a one b other child
  exact spells.link_unique (Grown.mem_kids.mp one).1 (Grown.mem_kids.mp other).1 child

end Spells

end Lexindex.Phrase

/-!
## The slots the phrases take

An only child takes one slot past the end, and several take at most 319: 63 of the window the search
stops in and 256 of the bytes.  Only as many nodes branch as there are leaves, and every leaf is a phrase
of its own.
-/

namespace Lexindex.Phrase

/-- The slots a node's children take past the end. -/
def weight : Nat → Nat
  | 0 => 0
  | 1 => 1
  | _ => 319

theorem weight_le (n : Nat) : weight n ≤ n + 318 * (n - 1) := by
  match n with
  | 0 => exact Nat.zero_le _
  | 1 => exact Nat.le_refl 1
  | n + 2 =>
      change 319 ≤ _
      omega

theorem Grown.length_kids (g : Grown) (node : Nat) :
    (g.kids node).length = g.links.countP fun link => link.parent = node := by
  rw [Grown.kids, ← List.countP_eq_length_filter]
  exact (List.mergeSort_perm g.links Link.le).countP_eq _

/-- Every edge is counted at its parent. -/
theorem sum_countP (size : Nat) (links : List Link) (below : ∀ link ∈ links, link.parent < size) :
    ∑ node ∈ Finset.range size, (links.countP fun link => link.parent = node) = links.length := by
  induction links with
  | nil => simp
  | cons link links ih =>
      have here := below link List.mem_cons_self
      have rest := ih fun other member => below other (List.mem_cons_of_mem _ member)
      calc ∑ node ∈ Finset.range size, ((link :: links).countP fun other => other.parent = node)
          = ∑ node ∈ Finset.range size, ((links.countP fun other => other.parent = node) +
              if link.parent = node then 1 else 0) := by
            apply Finset.sum_congr rfl
            intro node _
            rw [List.countP_cons]
            simp
        _ = links.length + 1 := by
            rw [Finset.sum_add_distrib, rest, Finset.sum_ite_eq, if_pos (Finset.mem_range.mpr here)]

namespace Grows

variable {phrases : List (List UInt8)} {g : Grown} {paths : List (List UInt8)}
  (grows : Grows phrases g paths)
include grows

/-- A node without children is a phrase, or the root. -/
theorem leaf_phrase {node : Nat} {p : List UInt8} (here : paths[node]? = some p)
    (leaf : g.kids node = []) : p = [] ∨ p ∈ phrases := by
  rcases (grows.prefixes p).mp (List.mem_of_getElem? here) with empty | ⟨q, member, tail, rfl⟩
  · exact .inl empty
  · cases tail with
    | nil =>
        rw [List.append_nil] at member
        exact .inr member
    | cons b tail =>
        have further : p ++ [b] ∈ paths :=
          (grows.prefixes _).mpr (.inr ⟨_, member, tail, by rw [List.append_assoc]; rfl⟩)
        obtain ⟨link, known, -, parent⟩ := grows.spells.linked p b further
        have kid := Grown.mem_kids.mpr ⟨known, grows.spells.index_unique parent here⟩
        rw [leaf] at kid
        cases kid

/-- There are no more leaves than phrases and the root. -/
theorem leaves_le : ((Finset.range g.ends.length).filter fun node => g.kids node = []).card ≤
    phrases.length + 1 := by
  have into : ((Finset.range g.ends.length).filter fun node => g.kids node = []).card ≤
      (Insert.insert [] phrases.toFinset : Finset (List UInt8)).card := by
    apply Finset.card_le_card_of_injOn fun node => paths.getD node []
    · intro node member
      rw [Finset.mem_coe, Finset.mem_filter, Finset.mem_range, grows.spells.size] at member
      have here := List.getElem?_eq_getElem member.1
      change paths.getD node [] ∈ _
      rw [List.getD_eq_getElem?_getD, here, Option.getD_some, Finset.mem_coe, Finset.mem_insert,
        List.mem_toFinset]
      exact grows.leaf_phrase here member.2
    · intro one member other member' same
      rw [Finset.mem_coe, Finset.mem_filter, Finset.mem_range, grows.spells.size] at member member'
      have here := List.getElem?_eq_getElem member.1
      have here' := List.getElem?_eq_getElem member'.1
      simp only [List.getD_eq_getElem?_getD, here, here', Option.getD_some] at same
      rw [same] at here
      exact grows.spells.index_unique here here'
  calc _ ≤ (Insert.insert [] phrases.toFinset : Finset (List UInt8)).card := into
    _ ≤ phrases.toFinset.card + 1 := Finset.card_insert_le ..
    _ ≤ phrases.length + 1 := Nat.add_le_add_right (List.toFinset_card_le phrases) 1

/-- All the slots the nodes' children take. -/
theorem weights_le : ∑ node ∈ Finset.range g.ends.length, weight (g.kids node).length ≤
    g.ends.length - 1 + 318 * phrases.length := by
  have links : g.links.length = g.ends.length - 1 := by
    rw [grows.spells.size, ← List.length_map Link.child, grows.spells.count, List.length_range']
  have edges : ∑ node ∈ Finset.range g.ends.length, (g.kids node).length = g.ends.length - 1 := by
    rw [← links, ← sum_countP g.ends.length g.links fun link member =>
      (grows.spells.child_pos member).2.2]
    exact Finset.sum_congr rfl fun node _ => g.length_kids node
  have leaves := grows.leaves_le
  have some_ : 0 < g.ends.length := by
    rw [grows.spells.size]
    exact (List.getElem?_eq_some_iff.mp grows.spells.root).1
  have branches : ∑ node ∈ Finset.range g.ends.length, ((g.kids node).length - 1) ≤
      phrases.length := by
    have each : ∑ node ∈ Finset.range g.ends.length, ((g.kids node).length - 1) + g.ends.length =
        ∑ node ∈ Finset.range g.ends.length, (g.kids node).length +
          ((Finset.range g.ends.length).filter fun node => g.kids node = []).card := by
      have ones : g.ends.length = ∑ _node ∈ Finset.range g.ends.length, 1 := by
        rw [← Finset.card_eq_sum_ones, Finset.card_range]
      conv_lhs => rhs; rw [ones]
      rw [Finset.card_filter, ← Finset.sum_add_distrib, ← Finset.sum_add_distrib]
      apply Finset.sum_congr rfl
      intro node _
      cases g.kids node with
      | nil => rfl
      | cons link links =>
          rw [if_neg (List.cons_ne_nil link links), List.length_cons]
          rfl
    omega
  calc ∑ node ∈ Finset.range g.ends.length, weight (g.kids node).length
      ≤ ∑ node ∈ Finset.range g.ends.length,
          ((g.kids node).length + 318 * ((g.kids node).length - 1)) :=
        Finset.sum_le_sum fun node _ => weight_le _
    _ = g.ends.length - 1 +
          318 * ∑ node ∈ Finset.range g.ends.length, ((g.kids node).length - 1) := by
        rw [Finset.sum_add_distrib, edges, Finset.mul_sum]
    _ ≤ g.ends.length - 1 + 318 * phrases.length := by omega

/-- The slots some of the nodes' children take. -/
theorem weights_done {nodes : List Nat} (distinct : nodes.Nodup)
    (below : ∀ node ∈ nodes, node < g.ends.length) :
    (nodes.map fun node => weight (g.kids node).length).sum ≤
      g.ends.length - 1 + 318 * phrases.length := by
  rw [← List.sum_toFinset _ distinct]
  refine Nat.le_trans (Finset.sum_le_sum_of_subset ?_) grows.weights_le
  intro node member
  rw [List.mem_toFinset] at member
  exact Finset.mem_range.mpr (below node member)

end Grows

end Lexindex.Phrase
