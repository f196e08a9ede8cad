import Mathlib
import Lexindex.Phrase.TrieLaid

/-!
# The walk over the laid out phrases

Every node that is laid out has a slot of its own, marked taken, whose check names its parent's slot, and
every slot without a node is vacant.  A step from a node therefore finds the child its bytes have and no
other, and the padding keeps every slot it reads inside.
-/

set_option autoImplicit false

namespace Lexindex.Phrase

/-- What laying out keeps of the nodes whose children are placed and of those whose are not, each node
with its slot. -/
structure Laid (g : Grown) (done pending : List (Nat × Nat)) (l : Laying) : Prop where
  sized : l.Sized
  low : 256 ≤ l.lowest
  nodes : ((done ++ pending).map Prod.fst).Nodup
  apart : ((done ++ pending).map Prod.snd).Nodup
  root : (0, 0) ∈ done ++ pending
  rootCheck : (l.slot 0).check = 2 ^ 32 - 1
  inside : ∀ x ∈ done ++ pending, x.1 < g.ends.length ∧ x.2 < l.slots.length ∧ x.2 < 2 ^ 32 - 1
  marked : ∀ x ∈ done ++ pending, (l.slot x.2).phrase = g.ends.getD x.1 0
  taken : ∀ s, streamBit l.taken s = true ↔ ∃ x ∈ done ++ pending, x.2 = s
  vacant : ∀ s, (∀ x ∈ done ++ pending, x.2 ≠ s) → l.slot s = VACANT
  parent : ∀ x ∈ done ++ pending, x ≠ (0, 0) → ∃ y ∈ done, ∃ link ∈ g.links,
    link.parent = y.1 ∧ link.child = x.1 ∧ (l.slot x.2).check = y.2 ∧
      x.2 = Laying.kidSlot (l.slot y.2).base link
  placed : ∀ y ∈ done, ∀ link ∈ g.links, link.parent = y.1 →
    (link.child, Laying.kidSlot (l.slot y.2).base link) ∈ done ++ pending ∧
      (l.slot (Laying.kidSlot (l.slot y.2).base link)).check = y.2

/-- What placing a node's children does to the array. -/
theorem Laying.place_inv {g : Grown} {l l' : Laying} {parent base : Nat} {kids : List Link}
    (placed : l.place g parent kids = some (l', base)) : ∃ first more, kids = first :: more ∧
      l.baseFor first.byte (first :: more) = some base ∧ base + 255 < 2 ^ 32 - 1 ∧
      l' = { kids.foldl (put g parent base) (l.setBase parent base) with
        lowest := freeFrom (kids.foldl (put g parent base) (l.setBase parent base)).taken
          (kids.foldl (put g parent base) (l.setBase parent base)).lowest } := by
  cases kids with
  | nil => cases placed
  | cons first more =>
      rw [place] at placed
      cases found : l.baseFor first.byte (first :: more) with
      | none =>
          rw [found] at placed
          cases placed
      | some base' =>
          rw [found] at placed
          simp only at placed
          split at placed
          · next small =>
            rw [Option.some.injEq, Prod.mk.injEq] at placed
            obtain ⟨same, rfl⟩ := placed
            exact ⟨first, more, rfl, found, small, same.symm⟩
          · cases placed

theorem Laying.lowest_puts (g : Grown) (parent base : Nat) (kids : List Link) : ∀ (l : Laying),
    (kids.foldl (put g parent base) l).lowest = l.lowest := by
  induction kids with
  | nil => exact fun _ => rfl
  | cons kid kids ih => exact fun l => ih _

namespace Laid

variable {g : Grown} {paths : List (List UInt8)} {done pending rest : List (Nat × Nat)} {l l' : Laying}
  {x : Nat × Nat}

/-- Two nodes that are met have one number, or one slot, only if they are one. -/
theorem node_unique (laid : Laid g done pending l) {y : Nat × Nat} (one : x ∈ done ++ pending)
    (other : y ∈ done ++ pending) (same : x.1 = y.1) : x = y :=
  List.inj_on_of_nodup_map laid.nodes one other same

theorem slot_unique (laid : Laid g done pending l) {y : Nat × Nat} (one : x ∈ done ++ pending)
    (other : y ∈ done ++ pending) (same : x.2 = y.2) : x = y :=
  List.inj_on_of_nodup_map laid.apart one other same

/-- Before the first node only the root has a slot. -/
theorem start (spells : Spells g paths) : Laid g [] [(0, 0)] (Laying.start g) := by
  have some_ : 0 < g.ends.length := by
    rw [spells.size]
    exact (List.getElem?_eq_some_iff.mp spells.root).1
  have bit : ∀ s, streamBit [1#64] s = true ↔ 0 = s := by
    intro s
    rw [streamBit]
    rcases Nat.lt_or_ge s 64 with below | above
    · rw [Nat.div_eq_of_lt below, Nat.mod_eq_of_lt below]
      simp [eq_comm]
    · rw [List.getD_eq_default _ _ (by rw [List.length_singleton]; omega), BitVec.getLsbD_zero]
      constructor
      · intro off
        cases off
      · omega
  refine ⟨⟨Nat.one_pos, by change 1 = (1 - 1) / 64 + 1; decide, ?_⟩, Nat.le_refl 256, List.nodup_singleton _, List.nodup_singleton _,
    List.mem_singleton.mpr rfl, rfl, ?_, ?_, ?_, ?_, ?_, ?_⟩
  · intro s above
    rw [← Bool.not_eq_true]
    intro on
    have zero := (bit s).mp on
    have one : (Laying.start g).slots.length = 1 := rfl
    omega
  · intro x member
    rw [List.mem_singleton.mp member]
    exact ⟨some_, Nat.one_pos, by decide⟩
  · intro x member
    rw [List.mem_singleton.mp member]
    rfl
  · intro s
    refine (bit s).trans ?_
    simp
  · intro s other
    have far := other (0, 0) (List.mem_singleton.mpr rfl)
    exact List.getD_eq_default _ _ (Nat.pos_of_ne_zero far.symm)
  · intro x member notRoot
    exact absurd (List.mem_singleton.mp member) notRoot
  · intro y member
    cases member

/-- A node without children needs no slot more. -/
theorem leaf (laid : Laid g done (x :: rest) l) (none_ : g.kids x.1 = []) :
    Laid g (done ++ [x]) rest l := by
  have same : done ++ [x] ++ rest = done ++ x :: rest := by
    rw [List.append_assoc]
    rfl
  obtain ⟨sized, low, nodes, apart, root, rootCheck, inside, marked, taken, vacant, parent, placed⟩ :=
    laid
  refine ⟨sized, low, ?_, ?_, ?_, rootCheck, ?_, ?_, ?_, ?_, ?_, ?_⟩ <;> rw [same]
  · exact nodes
  · exact apart
  · exact root
  · exact inside
  · exact marked
  · exact taken
  · exact vacant
  · intro z member notRoot
    obtain ⟨y, met, below⟩ := parent z member notRoot
    exact ⟨y, List.mem_append_left _ met, below⟩
  · intro y met link member from_
    rcases List.mem_append.mp met with before | last
    · exact placed y before link member from_
    · rw [List.mem_singleton.mp last] at from_
      have kid := Grown.mem_kids.mpr ⟨member, from_⟩
      rw [none_] at kid
      cases kid

/-- No node that is met is a child of one that waits. -/
theorem fresh_child (spells : Spells g paths) (laid : Laid g done (x :: rest) l) {kid : Link}
    (member : kid ∈ g.kids x.1) : ∀ z ∈ done ++ x :: rest, z.1 ≠ kid.child := by
  obtain ⟨member, from_⟩ := Grown.mem_kids.mp member
  intro z met same
  have positive := (spells.child_pos member).1
  have notRoot : z ≠ (0, 0) := by
    rintro rfl
    exact absurd same (Nat.ne_of_lt positive)
  obtain ⟨y, before, link, known, parent, child, -⟩ := laid.parent z met notRoot
  have one := spells.link_unique known member (child.trans same)
  have here : y = x := laid.node_unique (List.mem_append_left _ before)
    (List.mem_append_right _ List.mem_cons_self) (by rw [← parent, one, from_])
  have nodes := laid.nodes
  rw [List.map_append, List.nodup_append] at nodes
  exact nodes.2.2 x.1 (here ▸ List.mem_map_of_mem before) x.1
    (List.mem_map_of_mem List.mem_cons_self) rfl

/-- A node's children put in free slots. -/
theorem place (spells : Spells g paths) (laid : Laid g done (x :: rest) l) {base : Nat}
    (placed : l.place g x.2 (g.kids x.1) = some (l', base)) :
    Laid g (done ++ [x])
      (rest ++ (g.kids x.1).map fun kid => (kid.child, Laying.kidSlot base kid)) l' ∧
    max l'.lowest l'.slots.length ≤ max l.lowest l.slots.length + weight (g.kids x.1).length := by
  obtain ⟨first, more, isKids, found, small, rfl⟩ := Laying.place_inv placed
  have least := Grown.kids_least isKids
  have bytes := spells.kids_bytes x.1
  have children := spells.kids_children x.1
  have known : ∀ kid ∈ g.kids x.1, kid ∈ g.links ∧ kid.parent = x.1 :=
    fun kid member => Grown.mem_kids.mp member
  have fresh : ∀ kid ∈ g.kids x.1, ∀ z ∈ done ++ x :: rest, z.1 ≠ kid.child :=
    fun kid member => laid.fresh_child spells member
  obtain ⟨free, near⟩ := Laying.baseFor_spec laid.sized laid.low least found
  rw [← isKids] at free
  generalize isAll : g.kids x.1 = kids at *
  have at_ : x ∈ done ++ x :: rest := List.mem_append_right _ List.mem_cons_self
  obtain ⟨-, insideX, -⟩ := laid.inside x at_
  have bits := laid.taken
  have unused : ∀ kid ∈ kids, ∀ z ∈ done ++ x :: rest, z.2 ≠ Laying.kidSlot base kid := by
    intro kid member z met same
    have on := (bits _).mpr ⟨z, met, same⟩
    rw [free kid member] at on
    cases on
  obtain ⟨sized, same, records, bits', inside', grows, most⟩ :=
    (laid.sized.setBase x.2 base).puts_spec g x.2 base kids bytes
  have lowest := Laying.lowest_puts g x.2 base kids (l.setBase x.2 base)
  generalize kids.foldl (Laying.put g x.2 base) (l.setBase x.2 base) = put at *
  change put.lowest = l.lowest at lowest
  have length : (l.setBase x.2 base).slots.length = l.slots.length := List.length_modify ..
  rw [length] at grows most
  have based := Laying.slot_setBase insideX base
  have all : done ++ [x] ++ (rest ++ kids.map fun kid => (kid.child, Laying.kidSlot base kid)) =
      (done ++ x :: rest) ++ kids.map fun kid => (kid.child, Laying.kidSlot base kid) := by
    rw [← List.append_assoc, List.append_assoc done [x] rest]
    rfl
  have pair : ∀ {z : Nat × Nat},
      z ∈ (kids.map fun kid => (kid.child, Laying.kidSlot base kid)) ↔
        ∃ kid ∈ kids, z = (kid.child, Laying.kidSlot base kid) := by
    intro z
    rw [List.mem_map]
    exact exists_congr fun kid => and_congr_right fun _ => eq_comm
  -- The slot of the node itself, of its children, and of every other node.
  have own : put.slot x.2 = { l.slot x.2 with base := base } := by
    rw [same x.2 fun kid member => (unused kid member x at_).symm, based, if_pos rfl]
  have kidAt : ∀ kid ∈ kids, put.slot (Laying.kidSlot base kid) =
      { base := 0, check := x.2, phrase := g.ends.getD kid.child 0 } := by
    intro kid member
    rw [records kid member, based, if_neg (unused kid member x at_).symm,
      laid.vacant _ (unused kid member)]
    rfl
  have other : ∀ s, s ≠ x.2 → (∀ kid ∈ kids, Laying.kidSlot base kid ≠ s) →
      put.slot s = l.slot s := by
    intro s notOwn notKid
    rw [same s notKid, based, if_neg notOwn]
  have kept : ∀ z ∈ done ++ x :: rest, (put.slot z.2).check = (l.slot z.2).check ∧
      (put.slot z.2).phrase = (l.slot z.2).phrase := by
    intro z met
    by_cases here : z.2 = x.2
    · rw [here, own]
      exact ⟨rfl, rfl⟩
    · rw [other z.2 here fun kid member => (unused kid member z met).symm]
      exact ⟨rfl, rfl⟩
  have before : ∀ y ∈ done, put.slot y.2 = l.slot y.2 := by
    intro y met
    have here := List.mem_append_left (x :: rest) met
    refine other y.2 ?_ fun kid member => (unused kid member y here).symm
    intro both
    have apart := laid.apart
    rw [List.map_append, List.nodup_append] at apart
    exact apart.2.2 y.2 (List.mem_map_of_mem met) x.2 (List.mem_map_of_mem List.mem_cons_self) both
  have rise := (freeFrom_spec put.taken put.lowest).1
  refine ⟨⟨⟨sized.some_, sized.words, sized.free⟩, ?_, ?_, ?_, ?_, ?_, ?_, ?_, ?_, ?_, ?_, ?_⟩, ?_⟩
  · change 256 ≤ freeFrom put.taken put.lowest
    have low := laid.low
    omega
  · rw [all, List.map_append, List.nodup_append, List.map_map]
    refine ⟨laid.nodes, children, ?_⟩
    intro one old two new both
    obtain ⟨z, met, rfl⟩ := List.mem_map.mp old
    obtain ⟨kid, member, rfl⟩ := List.mem_map.mp new
    exact fresh kid member z met both
  · rw [all, List.map_append, List.nodup_append, List.map_map]
    refine ⟨laid.apart, ?_, ?_⟩
    · have spread : kids.map (Prod.snd ∘ fun kid => (kid.child, Laying.kidSlot base kid)) =
          (kids.map Link.byte).map fun b => base + b.toNat := by
        rw [List.map_map]
        rfl
      rw [spread]
      apply bytes.map
      intro a b both
      exact UInt8.toNat_inj.mp (Nat.add_left_cancel both)
    · intro one old two new both
      obtain ⟨z, met, rfl⟩ := List.mem_map.mp old
      obtain ⟨kid, member, rfl⟩ := List.mem_map.mp new
      exact unused kid member z met both
  · rw [all]
    exact List.mem_append_left _ laid.root
  · exact (kept (0, 0) laid.root).1.trans laid.rootCheck
  · rw [all]
    intro z met
    rcases List.mem_append.mp met with old | new
    · obtain ⟨node, slot, width⟩ := laid.inside z old
      exact ⟨node, Nat.lt_of_lt_of_le slot grows, width⟩
    · obtain ⟨kid, member, rfl⟩ := pair.mp new
      have byte := kid.byte.toNat_lt
      refine ⟨(spells.child_pos (known kid member).1).2.1, inside' kid member, ?_⟩
      change base + kid.byte.toNat < 2 ^ 32 - 1
      omega
  · rw [all]
    intro z met
    rcases List.mem_append.mp met with old | new
    · exact (kept z old).2.trans (laid.marked z old)
    · obtain ⟨kid, member, rfl⟩ := pair.mp new
      exact congrArg Slot.phrase (kidAt kid member)
  · intro s
    rw [all]
    refine (bits' s).trans ?_
    constructor
    · rintro (⟨kid, member, rfl⟩ | on)
      · exact ⟨_, List.mem_append_right _ (pair.mpr ⟨kid, member, rfl⟩), rfl⟩
      · obtain ⟨z, met, here⟩ := (bits s).mp on
        exact ⟨z, List.mem_append_left _ met, here⟩
    · rintro ⟨z, met, rfl⟩
      rcases List.mem_append.mp met with old | new
      · exact .inr ((bits _).mpr ⟨z, old, rfl⟩)
      · obtain ⟨kid, member, rfl⟩ := pair.mp new
        exact .inl ⟨kid, member, rfl⟩
  · intro s none_
    rw [all] at none_
    have notOld : ∀ z ∈ done ++ x :: rest, z.2 ≠ s :=
      fun z met => none_ z (List.mem_append_left _ met)
    refine (other s (notOld x at_).symm ?_).trans (laid.vacant s notOld)
    intro kid member
    exact none_ _ (List.mem_append_right _ (pair.mpr ⟨kid, member, rfl⟩))
  · rw [all]
    intro z met notRoot
    rcases List.mem_append.mp met with old | new
    · obtain ⟨y, met, link, member, from_, child, check, here⟩ := laid.parent z old notRoot
      refine ⟨y, List.mem_append_left _ met, link, member, from_, child,
        (kept z old).1.trans check, ?_⟩
      change z.2 = Laying.kidSlot (put.slot y.2).base link
      rw [before y met]
      exact here
    · obtain ⟨kid, member, rfl⟩ := pair.mp new
      refine ⟨x, List.mem_append_right _ (List.mem_singleton.mpr rfl), kid, (known kid member).1,
        (known kid member).2, rfl, congrArg Slot.check (kidAt kid member), ?_⟩
      change _ = Laying.kidSlot (put.slot x.2).base kid
      rw [own]
  · rw [all]
    intro y met link member from_
    change (link.child, Laying.kidSlot (put.slot y.2).base link) ∈ _ ∧
      (put.slot (Laying.kidSlot (put.slot y.2).base link)).check = y.2
    rcases List.mem_append.mp met with old | last
    · obtain ⟨here, check⟩ := laid.placed y old link member from_
      rw [before y old]
      exact ⟨List.mem_append_left _ here, (kept _ here).1.trans check⟩
    · rw [List.mem_singleton.mp last] at from_ ⊢
      have kid : link ∈ kids := by
        rw [← isAll]
        exact Grown.mem_kids.mpr ⟨member, from_⟩
      rw [own]
      exact ⟨List.mem_append_right _ (pair.mpr ⟨link, kid, rfl⟩),
        congrArg Slot.check (kidAt link kid)⟩
  · change max (freeFrom put.taken put.lowest) put.slots.length ≤ _
    have least' := (freeFrom_spec put.taken put.lowest).2.2 (max put.lowest put.slots.length)
      (Nat.le_max_left ..) (sized.free _ (Nat.le_max_right ..))
    rw [isKids] at most ⊢
    cases more with
    | nil =>
        rw [if_pos rfl] at near
        have last := most (Laying.kidSlot base first) (by
          intro kid member
          rw [List.mem_singleton.mp member])
        change _ ≤ _ + 1
        omega
    | cons second more =>
        rw [if_neg (List.cons_ne_nil second more)] at near
        rw [Laying.kidSlot] at near
        have last := most (base + 255) (by
          intro kid _
          have byte := kid.byte.toNat_lt
          rw [Laying.kidSlot]
          omega)
        change _ ≤ _ + 319
        omega

/-- What the children of the nodes that are placed took of the slots. -/
def Fits (g : Grown) (done : List (Nat × Nat)) (l : Laying) : Prop :=
  max l.lowest l.slots.length ≤
    256 + (done.map fun x => weight (g.kids x.1).length).sum

theorem fits_concat {g : Grown} {done : List (Nat × Nat)} {x : Nat × Nat} {l l' : Laying}
    (fits : Fits g done l) (most : max l'.lowest l'.slots.length ≤
      max l.lowest l.slots.length + weight (g.kids x.1).length) : Fits g (done ++ [x]) l' := by
  rw [Fits] at fits ⊢
  rw [List.map_append, List.sum_append, List.map_singleton, List.sum_singleton]
  omega

/-- However far laying out comes, what it answers has every node's children placed. -/
theorem layOut (spells : Spells g paths) : ∀ (fuel : Nat) {done pending : List (Nat × Nat)}
    {l l' : Laying}, Laid g done pending l → layOut g fuel pending l = some l' →
      ∃ all, Laid g all [] l' := by
  intro fuel
  induction fuel with
  | zero =>
      intro done pending l l' laid answered
      cases pending with
      | nil =>
          rw [Phrase.layOut, Option.some.injEq] at answered
          exact ⟨done, answered ▸ laid⟩
      | cons x pending => cases answered
  | succ fuel ih =>
      intro done pending l l' laid answered
      cases pending with
      | nil =>
          rw [Phrase.layOut, Option.some.injEq] at answered
          exact ⟨done, answered ▸ laid⟩
      | cons x pending =>
          obtain ⟨old, parent⟩ := x
          rw [Phrase.layOut] at answered
          split at answered
          · next leaf => exact ih (laid.leaf leaf) answered
          · cases placed : l.place g parent (g.kids old) with
            | none =>
                rw [placed] at answered
                cases answered
            | some next =>
                obtain ⟨next, base⟩ := next
                rw [placed] at answered
                exact ih (laid.place spells placed).1 answered

/-- Where the numbers of the slots stay in their 32 bits, every node's children are placed. -/
theorem layOut_some (spells : Spells g paths) {room : Nat}
    (bound : ∀ {nodes : List Nat}, nodes.Nodup → (∀ node ∈ nodes, node < g.ends.length) →
      (nodes.map fun node => weight (g.kids node).length).sum ≤ room)
    (narrow : 256 + room + 63 + 255 < 2 ^ 32 - 1) : ∀ (fuel : Nat) {done pending : List (Nat × Nat)}
    {l : Laying}, Laid g done pending l → Fits g done l → g.ends.length ≤ fuel + done.length →
      ∃ l', Phrase.layOut g fuel pending l = some l' := by
  have count : ∀ {done pending : List (Nat × Nat)} {l : Laying}, Laid g done pending l →
      (done.map Prod.fst).Nodup ∧ (∀ node ∈ done.map Prod.fst, node < g.ends.length) ∧
        done.length + pending.length ≤ g.ends.length := by
    intro done pending l laid
    have nodes := laid.nodes
    have below : ∀ node ∈ (done ++ pending).map Prod.fst, node < g.ends.length := by
      intro node member
      obtain ⟨x, met, rfl⟩ := List.mem_map.mp member
      exact (laid.inside x met).1
    have few := (nodes.subperm fun node member => List.mem_range.mpr (below node member)).length_le
    rw [List.length_map, List.length_append, List.length_range] at few
    rw [List.map_append] at nodes below
    exact ⟨(List.nodup_append.mp nodes).1,
      fun node member => below node (List.mem_append_left _ member), few⟩
  intro fuel
  induction fuel with
  | zero =>
      intro done pending l laid _ enough
      have few := (count laid).2.2
      cases pending with
      | nil => exact ⟨l, by rw [Phrase.layOut]⟩
      | cons x pending =>
          rw [List.length_cons] at few
          omega
  | succ fuel ih =>
      intro done pending l laid fits enough
      cases pending with
      | nil => exact ⟨l, by rw [Phrase.layOut]⟩
      | cons x pending =>
          obtain ⟨old, parent⟩ := x
          rw [Phrase.layOut]
          split
          · next leaf =>
            apply ih (laid.leaf leaf) (fits_concat fits (Nat.le_add_right ..))
            rw [List.length_append, List.length_singleton]
            omega
          · next inner =>
            obtain ⟨first, more, isKids⟩ := List.exists_cons_of_ne_nil inner
            obtain ⟨base, found⟩ := Laying.baseFor_some laid.sized first more
            have near := (Laying.baseFor_spec laid.sized laid.low (Grown.kids_least isKids) found).2
            have small : base + 255 < 2 ^ 32 - 1 := by
              obtain ⟨distinct, below, -⟩ := count laid
              have taken := bound distinct below
              rw [List.map_map] at taken
              rw [Laying.kidSlot] at near
              rw [Fits] at fits
              have most : (if more = [] then 0 else 63) ≤ 63 := by split <;> omega
              change (done.map fun x => weight (g.kids x.1).length).sum ≤ room at taken
              omega
            have placed : ∃ next, l.place g parent (g.kids old) = some (next, base) := by
              rw [isKids, Laying.place]
              simp only [found]
              rw [if_pos small]
              exact ⟨_, rfl⟩
            obtain ⟨next, placed⟩ := placed
            rw [placed]
            obtain ⟨laid', most⟩ := laid.place spells placed
            apply ih laid' (fits_concat fits most)
            rw [List.length_append, List.length_singleton]
            omega

end Laid

namespace Trie

/-- The marks a walk sees from a node on, one for each byte that has a child. -/
def walk (trie : Trie) : Nat → Nat → List UInt8 → List Nat
  | _, _, [] => []
  | node, base, b :: bytes =>
      match trie.step node base b with
      | none => []
      | some (child, base, mark) => mark :: trie.walk child base bytes

/-- The slots it reads. -/
def reads (trie : Trie) : Nat → Nat → List UInt8 → List Nat
  | _, _, [] => []
  | node, base, b :: bytes =>
      (base + b.toNat) ::
        match trie.step node base b with
        | none => []
        | some (child, base, _) => trie.reads child base bytes

/-- The mark of the root. -/
def rootMark (trie : Trie) : Nat :=
  (trie.slots.getD 0 VACANT).phrase

theorem padded_getD (slots : List Slot) (s : Nat) :
    (padded slots).getD s VACANT = slots.getD s VACANT := by
  rw [padded]
  split
  · exact getD_resize (by omega) s
  · rfl

theorem le_foldl_max {item : Nat} (items : List Nat) : ∀ (start : Nat),
    (item ∈ items → item ≤ items.foldl max start) ∧ start ≤ items.foldl max start := by
  induction items with
  | nil => exact fun start => ⟨fun member => absurd member List.not_mem_nil, Nat.le_refl start⟩
  | cons first items ih =>
      intro start
      obtain ⟨later, least⟩ := ih (max start first)
      rw [List.foldl_cons]
      refine ⟨?_, Nat.le_trans (Nat.le_max_left ..) least⟩
      intro member
      rcases List.mem_cons.mp member with rfl | rest
      · exact Nat.le_trans (Nat.le_max_right ..) least
      · exact later rest

/-- Every byte's slot past a base the array holds is in the array. -/
theorem padded_length {slots : List Slot} {s : Nat} (inside : s < slots.length) :
    (slots.getD s VACANT).base + 256 ≤ (padded slots).length := by
  have member : (slots.getD s VACANT).base ∈ slots.map Slot.base := by
    rw [List.getD_eq_getElem?_getD, List.getElem?_eq_getElem inside]
    exact List.mem_map_of_mem (List.getElem_mem inside)
  have most := (le_foldl_max (slots.map Slot.base) 0).1 member
  rw [padded]
  split
  · next short =>
    rw [length_resize VACANT (Nat.le_of_lt short)]
    omega
  · omega

section Walk

variable {phrases : List (List UInt8)} {g : Grown} {paths : List (List UInt8)}
  {all : List (Nat × Nat)} {l : Laying}

/-- A node's base, as a walk carries it. -/
def baseOf (l : Laying) (x : Nat × Nat) : Nat :=
  (l.slot x.2).base

theorem step_some (grows : Grows phrases g paths) (laid : Laid g all [] l) {x : Nat × Nat}
    (met : x ∈ all) {p : List UInt8} (here : paths[x.1]? = some p) {b : UInt8}
    (further : p ++ [b] ∈ paths) : ∃ y ∈ all, paths[y.1]? = some (p ++ [b]) ∧
      (Trie.mk (padded l.slots)).step x.2 (baseOf l x) b =
        some (y.2, baseOf l y, markOf phrases (p ++ [b])) := by
  obtain ⟨link, member, rfl, parent⟩ := grows.spells.linked p b further
  have from_ := grows.spells.index_unique parent here
  obtain ⟨placed, check⟩ := laid.placed x met link member from_
  rw [List.append_nil] at placed
  have child := grows.spells.child_of_link member parent
  have marked := laid.marked _ (List.mem_append_left [] placed)
  refine ⟨_, placed, child, ?_⟩
  rw [step, padded_getD]
  refine (if_pos check).trans ?_
  rw [List.getD_eq_getElem?_getD, grows.marks _ _ child, Option.getD_some] at marked
  rw [← marked]
  rfl

theorem step_none (grows : Grows phrases g paths) (laid : Laid g all [] l) {x : Nat × Nat}
    (met : x ∈ all) {p : List UInt8} (here : paths[x.1]? = some p) {b : UInt8}
    (missing : p ++ [b] ∉ paths) :
    (Trie.mk (padded l.slots)).step x.2 (baseOf l x) b = none := by
  rw [step, padded_getD]
  apply if_neg
  change ¬ (l.slot (baseOf l x + b.toNat)).check = x.2
  intro check
  have narrow := (laid.inside x (List.mem_append_left [] met)).2.2
  by_cases node : ∃ z ∈ all ++ [], z.2 = baseOf l x + b.toNat
  · obtain ⟨z, known, slot⟩ := node
    have notRoot : z ≠ (0, 0) := by
      rintro rfl
      rw [← slot, laid.rootCheck] at check
      omega
    obtain ⟨y, other, link, member, from_, child, check', at_⟩ := laid.parent z known notRoot
    rw [slot, check] at check'
    have same : x = y := laid.slot_unique (List.mem_append_left [] met)
      (List.mem_append_left [] other) check'
    rw [← same, slot] at at_
    have byte : b = link.byte := UInt8.toNat_inj.mp (Nat.add_left_cancel at_)
    apply missing
    rw [byte]
    exact List.mem_of_getElem? (grows.spells.child_of_link member (by rw [from_, ← same, here]))
  · have empty := laid.vacant (baseOf l x + b.toNat) fun z known slot => node ⟨z, known, slot⟩
    rw [empty] at check
    change 2 ^ 32 - 1 = x.2 at check
    omega

/-- What a walk sees from a node on. -/
theorem walk_from (grows : Grows phrases g paths) (laid : Laid g all [] l) (text : List UInt8) :
    ∀ {x : Nat × Nat} {p : List UInt8}, x ∈ all → paths[x.1]? = some p →
      (∀ k mark, ((Trie.mk (padded l.slots)).walk x.2 (baseOf l x) text)[k]? = some mark ↔
        k < text.length ∧ p ++ text.take (k + 1) ∈ paths ∧
          mark = markOf phrases (p ++ text.take (k + 1))) ∧
      ∀ s ∈ (Trie.mk (padded l.slots)).reads x.2 (baseOf l x) text,
        s < (padded l.slots).length := by
  induction text with
  | nil =>
      intro x p met here
      refine ⟨?_, fun s member => absurd member List.not_mem_nil⟩
      intro k mark
      rw [walk]
      simp
  | cons b text ih =>
      intro x p met here
      have byte := b.toNat_lt
      have room : baseOf l x + b.toNat < (padded l.slots).length := by
        have most := padded_length (laid.inside x (List.mem_append_left [] met)).2.1
        change baseOf l x + 256 ≤ _ at most
        omega
      rw [walk, reads]
      by_cases further : p ++ [b] ∈ paths
      · obtain ⟨y, met', here', found⟩ := step_some grows laid met here further
        rw [found]
        obtain ⟨marks, inside⟩ := ih met' here'
        refine ⟨?_, ?_⟩
        · intro k mark
          cases k with
          | zero =>
              simp only [List.getElem?_cons_zero, Option.some.injEq, List.length_cons,
                Nat.zero_lt_succ, true_and, Nat.zero_add, List.take_succ_cons, List.take_zero]
              exact ⟨fun same => ⟨further, same.symm⟩, fun same => same.2.symm⟩
          | succ k =>
              simp only [List.getElem?_cons_succ, List.length_cons, Nat.succ_lt_succ_iff,
                List.take_succ_cons]
              rw [marks k mark, List.append_assoc]
              rfl
        · intro s member
          rcases List.mem_cons.mp member with rfl | later
          · exact room
          · exact inside s later
      · rw [step_none grows laid met here further]
        refine ⟨?_, ?_⟩
        · intro k mark
          simp only [List.getElem?_nil, reduceCtorEq, false_iff]
          rintro ⟨-, held, -⟩
          apply further
          have short : p ++ [b] <+: p ++ (b :: text).take (k + 1) := by
            rw [List.take_succ_cons]
            exact (List.prefix_append_right_inj p).mpr ⟨text.take k, rfl⟩
          rcases (grows.prefixes _).mp held with empty | ⟨q, member, before⟩
          · rw [List.take_succ_cons] at empty
            simp at empty
          · exact (grows.prefixes _).mpr (.inr ⟨q, member, short.trans before⟩)
        · intro s member
          rw [List.mem_singleton.mp member]
          exact room

end Walk

/-- For every list of phrases whose array is built, and it is built for the callers' phrases: a walk
from the root goes on exactly as long as the bytes it read are a prefix of a phrase, the mark of each
node it meets is that of the bytes that lead to it, the marks it meets, the root's included, name exactly
the phrases that are prefixes of the text, and every slot it reads is in the array. -/
theorem of_exact (phrases : List (List UInt8)) :
    (∀ trie, Trie.of phrases = some trie → ∀ text : List UInt8,
      (∀ k mark, (trie.walk 0 trie.root text)[k]? = some mark ↔ k < text.length ∧
        (∃ q ∈ phrases, text.take (k + 1) <+: q) ∧ mark = markOf phrases (text.take (k + 1))) ∧
      (∀ p, (∃ id, id + 1 ∈ trie.rootMark :: trie.walk 0 trie.root text ∧
        phrases[id]? = some p) ↔ p ∈ phrases ∧ p <+: text) ∧
      ∀ s ∈ trie.reads 0 trie.root text, s < trie.slots.length) ∧
    (phrases.length ≤ IDS_MAX → (∀ p ∈ phrases, p.length ≤ LABEL_MAX) →
      ∃ trie, Trie.of phrases = some trie) := by
  obtain ⟨paths, grows, few⟩ := grown_of phrases
  refine ⟨?_, ?_⟩
  · intro trie built text
    rw [Trie.of, Option.map_eq_some_iff] at built
    obtain ⟨l, built, rfl⟩ := built
    obtain ⟨all, laid⟩ := Laid.layOut grows.spells _ (Laid.start grows.spells) built
    have met : (0, 0) ∈ all := by
      have member := laid.root
      rwa [List.append_nil] at member
    obtain ⟨marks, inside⟩ := walk_from grows laid text met grows.spells.root
    have root : (Trie.mk (padded l.slots)).root = baseOf l (0, 0) := by
      rw [Trie.root, padded_getD]
      rfl
    have rootMark : (Trie.mk (padded l.slots)).rootMark = markOf phrases [] := by
      rw [Trie.rootMark, padded_getD]
      refine (laid.marked _ laid.root).trans ?_
      rw [List.getD_eq_getElem?_getD, grows.marks 0 [] grows.spells.root]
      rfl
    rw [root]
    have each : ∀ k mark, ((Trie.mk (padded l.slots)).walk 0 (baseOf l (0, 0)) text)[k]? = some mark ↔
        k < text.length ∧ (∃ q ∈ phrases, text.take (k + 1) <+: q) ∧
          mark = markOf phrases (text.take (k + 1)) := by
      intro k mark
      rw [marks k mark, List.nil_append]
      apply and_congr_right
      intro below
      apply and_congr_left
      intro _
      rw [grows.prefixes]
      apply or_iff_right
      intro empty
      rw [List.take_eq_nil_iff] at empty
      rcases empty with none_ | none_
      · cases none_
      · rw [none_] at below
        exact absurd below (Nat.not_lt_zero k)
    refine ⟨each, ?_, inside⟩
    intro p
    rw [rootMark]
    constructor
    · rintro ⟨id, seen, named⟩
      refine ⟨List.mem_of_getElem? named, ?_⟩
      rcases List.mem_cons.mp seen with mark | later
      · rw [(markOf_spec phrases []).2 id mark.symm, Option.some.injEq] at named
        rw [← named]
        exact List.nil_prefix
      · obtain ⟨k, at_⟩ := List.getElem?_of_mem later
        obtain ⟨-, -, mark⟩ := (each k (id + 1)).mp at_
        rw [(markOf_spec phrases _).2 id mark.symm, Option.some.injEq] at named
        rw [← named]
        exact List.take_prefix ..
    · rintro ⟨member, before⟩
      obtain ⟨unmarked, named⟩ := markOf_spec phrases p
      obtain ⟨id, mark⟩ := Nat.exists_eq_succ_of_ne_zero fun zero => unmarked.mp zero member
      refine ⟨id, ?_, named id mark⟩
      cases length : p.length with
      | zero =>
          rw [List.length_eq_zero_iff.mp length] at mark
          rw [mark]
          exact List.mem_cons_self
      | succ k =>
          have whole := List.prefix_iff_eq_take.mp before
          rw [length] at whole
          refine List.mem_cons_of_mem _ (List.mem_of_getElem? ((each k (id + 1)).mpr ⟨?_, ?_, ?_⟩))
          · have shorter := before.length_le
            omega
          · rw [← whole]
            exact ⟨p, member, List.prefix_refl p⟩
          · rw [← whole]
            exact mark.symm
  · intro count short
    have bytes : phrases.flatten.length ≤ phrases.length * LABEL_MAX := by
      rw [List.length_flatten]
      have most := List.sum_le_card_nsmul (phrases.map List.length) LABEL_MAX (by
        intro length member
        obtain ⟨p, known, rfl⟩ := List.mem_map.mp member
        exact short p known)
      rwa [List.length_map, smul_eq_mul] at most
    have nodes := grows.spells.size
    have small : phrases.length * LABEL_MAX ≤ IDS_MAX * LABEL_MAX := Nat.mul_le_mul_right _ count
    have laid := Laid.start grows.spells
    obtain ⟨l, built⟩ := Laid.layOut_some grows.spells grows.weights_done (by
      simp only [IDS_MAX, LABEL_MAX] at *
      omega) _ laid (Nat.le_refl _) (Nat.le_refl (Grown.of phrases).ends.length)
    refine ⟨{ slots := padded l.slots }, ?_⟩
    rw [Trie.of, Option.map_eq_some_iff]
    exact ⟨l, built, rfl⟩

theorem of_exact_pair : ∃ trie, Trie.of [[97], [97, 98]] = some trie ∧
    (trie.walk 0 trie.root [97, 98, 99])[1]? = some 2 := by
  obtain ⟨trie, built⟩ := (of_exact [[97], [97, 98]]).2 (by decide) (by decide)
  refine ⟨trie, built, (((of_exact _).1 trie built [97, 98, 99]).1 1 2).mpr ⟨by decide, ?_, by decide⟩⟩
  exact ⟨[97, 98], by decide, by decide⟩

end Trie

end Lexindex.Phrase
