import Mathlib
import Lexindex.Phrase.Trie

/-!
# The tree the phrases grow

A node stands for the bytes that lead to it, and no two nodes for the same.  The nodes are the prefixes
of the phrases, and a node's mark names the last phrase that is its bytes.
-/

set_option autoImplicit false

namespace Lexindex.Phrase

/-- The mark of some bytes: the last phrase they are, plus one. -/
def markOf (phrases : List (List UInt8)) (p : List UInt8) : Nat :=
  phrases.zipIdx.foldl (fun mark q => if q.1 = p then q.2 + 1 else mark) 0

theorem markOf_nil (p : List UInt8) : markOf [] p = 0 := rfl

theorem markOf_concat (phrases : List (List UInt8)) (q p : List UInt8) :
    markOf (phrases ++ [q]) p = if q = p then phrases.length + 1 else markOf phrases p := by
  rw [markOf, List.zipIdx_append, List.foldl_append, ← markOf]
  simp

/-- A mark names a phrase that is its bytes, and none where there is none. -/
theorem markOf_spec (phrases : List (List UInt8)) (p : List UInt8) :
    (markOf phrases p = 0 ↔ p ∉ phrases) ∧
      ∀ id, markOf phrases p = id + 1 → phrases[id]? = some p := by
  induction phrases using List.reverseRecOn with
  | nil =>
      rw [markOf_nil]
      exact ⟨by simp, by simp⟩
  | append_singleton phrases q ih =>
      rw [markOf_concat]
      by_cases same : q = p
      · rw [if_pos same]
        refine ⟨by simp [same], ?_⟩
        intro id mark
        have last : id = phrases.length := by omega
        rw [last, List.getElem?_append_right (Nat.le_refl _), Nat.sub_self, same]
        rfl
      · rw [if_neg same, ih.1, List.mem_append, List.mem_singleton]
        refine ⟨by simp [Ne.symm same], ?_⟩
        intro id mark
        have held := ih.2 id mark
        obtain ⟨inside, -⟩ := List.getElem?_eq_some_iff.mp held
        rw [List.getElem?_append_left inside, held]

/-- The nodes stand for `paths`, one each. -/
structure Spells (g : Grown) (paths : List (List UInt8)) : Prop where
  root : paths[0]? = some []
  nodup : paths.Nodup
  size : g.ends.length = paths.length
  link : ∀ l ∈ g.links, ∃ p, paths[l.parent]? = some p ∧ paths[l.child]? = some (p ++ [l.byte])
  linked : ∀ p b, p ++ [b] ∈ paths → ∃ l ∈ g.links, l.byte = b ∧ paths[l.parent]? = some p
  count : g.links.map Link.child = List.range' 1 (paths.length - 1)

namespace Spells

variable {g : Grown} {paths : List (List UInt8)} (spells : Spells g paths)
include spells

theorem index_unique {i j : Nat} {p : List UInt8} (one : paths[i]? = some p)
    (other : paths[j]? = some p) : i = j := by
  obtain ⟨inside, _⟩ := List.getElem?_eq_some_iff.mp one
  exact (List.getElem?_inj inside spells.nodup).mp (one.trans other.symm)

/-- A link goes from a node to the one a byte further. -/
theorem child_of_link {l : Link} (member : l ∈ g.links) {p : List UInt8}
    (parent : paths[l.parent]? = some p) : paths[l.child]? = some (p ++ [l.byte]) := by
  obtain ⟨p', parent', child⟩ := spells.link l member
  rw [parent, Option.some.injEq] at parent'
  rw [child, parent']

theorem child_some {node : Nat} {p : List UInt8} (at_ : paths[node]? = some p) {b : UInt8} {c : Nat}
    (found : g.child node b = some c) : paths[c]? = some (p ++ [b]) := by
  rw [Grown.child, Option.map_eq_some_iff] at found
  obtain ⟨l, found, rfl⟩ := found
  have member := List.mem_of_find?_eq_some found
  have holds := List.find?_some found
  rw [Bool.and_eq_true, decide_eq_true_eq, decide_eq_true_eq] at holds
  rw [← holds.2]
  exact spells.child_of_link member (by rw [holds.1]; exact at_)

theorem child_none {node : Nat} {p : List UInt8} (at_ : paths[node]? = some p) {b : UInt8}
    (missing : g.child node b = none) : p ++ [b] ∉ paths := by
  intro held
  obtain ⟨l, member, byte, parent⟩ := spells.linked p b held
  rw [Grown.child, Option.map_eq_none_iff, List.find?_eq_none] at missing
  have apart := missing l member
  rw [Bool.and_eq_true, decide_eq_true_eq, decide_eq_true_eq] at apart
  exact apart ⟨spells.index_unique parent at_, byte⟩

/-- One byte further: a node there was, or a new one. -/
theorem grow {node : Nat} {p : List UInt8} (at_ : paths[node]? = some p) (b : UInt8) :
    ∃ more, Spells (Grown.grow (g, node) b).1 (paths ++ more) ∧
      (paths ++ more)[(Grown.grow (g, node) b).2]? = some (p ++ [b]) ∧
      (∀ q ∈ more, q = p ++ [b] ∧ q ∉ paths) ∧ more.length ≤ 1 ∧
      (Grown.grow (g, node) b).1.ends = g.ends ++ List.replicate more.length 0 := by
  rw [Grown.grow]
  cases found : g.child node b with
  | some c =>
      simp only
      exact ⟨[], by rw [List.append_nil]; exact spells,
        by rw [List.append_nil]; exact spells.child_some at_ found, by simp, by simp, by simp⟩
  | none =>
      simp only
      have fresh := spells.child_none at_ found
      have size := spells.size
      obtain ⟨inside, -⟩ := List.getElem?_eq_some_iff.mp at_
      have last : (paths ++ [p ++ [b]])[g.ends.length]? = some (p ++ [b]) := by
        rw [size, List.getElem?_append_right (Nat.le_refl _), Nat.sub_self]
        rfl
      have old : ∀ {i : Nat} {q : List UInt8}, paths[i]? = some q →
          (paths ++ [p ++ [b]])[i]? = some q := by
        intro i q here
        obtain ⟨below, -⟩ := List.getElem?_eq_some_iff.mp here
        rw [List.getElem?_append_left below, here]
      refine ⟨[p ++ [b]], ⟨old spells.root, ?_, ?_, ?_, ?_, ?_⟩, last, ?_, Nat.le_refl 1, rfl⟩
      · exact List.nodup_append.mpr ⟨spells.nodup, List.nodup_singleton _, by
          intro q held r new same
          rw [List.mem_singleton.mp new] at same
          exact fresh (same ▸ held)⟩
      · rw [List.length_append, List.length_append, size]
        rfl
      · intro l member
        rcases List.mem_append.mp member with before | new
        · obtain ⟨q, parent, child⟩ := spells.link l before
          exact ⟨q, old parent, old child⟩
        · rw [List.mem_singleton.mp new]
          exact ⟨p, old at_, last⟩
      · intro q b' held
        rcases List.mem_append.mp held with before | new
        · obtain ⟨l, member, byte, parent⟩ := spells.linked q b' before
          exact ⟨l, List.mem_append_left _ member, byte, old parent⟩
        · obtain ⟨same, byte⟩ := List.append_inj' (List.mem_singleton.mp new) rfl
          refine ⟨⟨node, b, g.ends.length⟩, List.mem_append_right _ (List.mem_singleton.mpr rfl),
            (List.singleton_inj.mp byte).symm, ?_⟩
          rw [same]
          exact old at_
      · rw [List.map_append, spells.count, List.map_singleton, List.length_append,
          List.length_singleton, Nat.add_sub_cancel, size]
        have some_ : paths.length = paths.length - 1 + 1 := by omega
        conv_rhs => rw [some_, List.range'_concat]
        rw [Nat.one_mul, show 1 + (paths.length - 1) = paths.length by omega]
      · intro q member
        rw [List.mem_singleton.mp member]
        exact ⟨rfl, fresh⟩

end Spells

/-- What the inserted phrases leave: a node for every prefix, with its mark. -/
structure Grows (phrases : List (List UInt8)) (g : Grown) (paths : List (List UInt8)) : Prop where
  spells : Spells g paths
  prefixes : ∀ p, p ∈ paths ↔ p = [] ∨ ∃ q ∈ phrases, p <+: q
  marks : ∀ (node : Nat) (p : List UInt8), paths[node]? = some p →
    g.ends[node]? = some (markOf phrases p)

/-- The bytes of a phrase, one after the other. -/
theorem Spells.grown (rest : List UInt8) : ∀ {g : Grown}
    {paths : List (List UInt8)} {node : Nat} {p : List UInt8}, Spells g paths →
    paths[node]? = some p → ∃ more, Spells (rest.foldl Grown.grow (g, node)).1 (paths ++ more) ∧
      (paths ++ more)[(rest.foldl Grown.grow (g, node)).2]? = some (p ++ rest) ∧
      (∀ q ∈ more, q <+: p ++ rest ∧ q ∉ paths) ∧
      (∀ q, p <+: q → q <+: p ++ rest → q ∈ paths ++ more) ∧ more.length ≤ rest.length ∧
      (rest.foldl Grown.grow (g, node)).1.ends = g.ends ++ List.replicate more.length 0 := by
  induction rest with
  | nil =>
      intro g paths node p spells at_
      refine ⟨[], by rw [List.append_nil]; exact spells, ?_, by simp, ?_, by simp, by simp⟩
      · rw [List.append_nil, List.append_nil]
        exact at_
      · intro q longer shorter
        rw [List.append_nil] at shorter ⊢
        rw [← longer.eq_of_length_le shorter.length_le]
        exact List.mem_of_getElem? at_
  | cons b rest ih =>
      intro g paths node p spells at_
      obtain ⟨one, spells', at', fresh, few, ends'⟩ := spells.grow at_ b
      obtain ⟨more, spells'', at'', fresh', all, few', ends''⟩ := @ih _ _ _ _ spells' at'
      rw [List.append_assoc] at spells'' at''
      have whole : p ++ [b] ++ rest = p ++ b :: rest := by
        rw [List.append_assoc]
        rfl
      rw [whole] at at'' fresh' all
      refine ⟨one ++ more, spells'', at'', ?_, ?_, ?_, ?_⟩
      · intro q member
        rcases List.mem_append.mp member with new | later
        · obtain ⟨same, absent⟩ := fresh q new
          refine ⟨?_, absent⟩
          rw [same, ← whole]
          exact List.prefix_append ..
        · obtain ⟨short, absent⟩ := fresh' q later
          exact ⟨short, fun held => absent (List.mem_append_left _ held)⟩
      · intro q longer shorter
        by_cases same : q = p
        · rw [same]
          exact List.mem_append_left _ (List.mem_of_getElem? at_)
        · rw [← List.append_assoc]
          apply all q ?_ shorter
          obtain ⟨tail, rfl⟩ := longer
          cases tail with
          | nil => exact absurd (List.append_nil p) same
          | cons next tail =>
              rw [List.prefix_append_right_inj, List.cons_prefix_cons] at shorter
              rw [shorter.1, List.prefix_append_right_inj]
              exact ⟨tail, rfl⟩
      · rw [List.length_append, List.length_cons]
        omega
      · rw [List.foldl_cons, ends'', ends', List.append_assoc, List.length_append,
          List.replicate_add]

theorem Grows.insert {phrases : List (List UInt8)} {g : Grown} {paths : List (List UInt8)}
    (grows : Grows phrases g paths) (q : List UInt8) : ∃ more,
      Grows (phrases ++ [q]) (g.insert (q, phrases.length)) (paths ++ more) ∧
        more.length ≤ q.length := by
  obtain ⟨spells, prefixes, marks⟩ := grows
  obtain ⟨more, spells', at_, fresh, all, few, ends⟩ := Spells.grown q spells spells.root
  rw [List.nil_append] at at_ fresh all
  have size := spells.size
  have same : (g.insert (q, phrases.length)).links = (q.foldl Grown.grow (g, 0)).1.links := rfl
  have marked : (g.insert (q, phrases.length)).ends =
      (g.ends ++ List.replicate more.length 0).set (q.foldl Grown.grow (g, 0)).2
        (phrases.length + 1) := by
    rw [← ends]
    rfl
  refine ⟨more, ⟨⟨spells'.root, spells'.nodup, ?_, spells'.link, spells'.linked, spells'.count⟩, ?_,
    ?_⟩, few⟩
  · rw [marked, List.length_set, ← ends]
    exact spells'.size
  · intro p
    rw [List.mem_append, prefixes]
    constructor
    · rintro ((empty | ⟨r, member, before⟩) | new)
      · exact .inl empty
      · exact .inr ⟨r, List.mem_append_left _ member, before⟩
      · exact .inr ⟨q, List.mem_append_right _ (List.mem_singleton.mpr rfl), (fresh p new).1⟩
    · rintro (empty | ⟨r, member, before⟩)
      · exact .inl (.inl empty)
      · rcases List.mem_append.mp member with old | new
        · exact .inl (.inr ⟨r, old, before⟩)
        · rw [List.mem_singleton.mp new] at before
          rcases List.mem_append.mp (all p List.nil_prefix before) with held | later
          · exact .inl ((prefixes p).mp held)
          · exact .inr later
  · intro node p here
    rw [marked, markOf_concat, List.getElem?_set]
    obtain ⟨inside, -⟩ := List.getElem?_eq_some_iff.mp here
    rw [List.length_append] at inside
    by_cases last : (q.foldl Grown.grow (g, 0)).2 = node
    · rw [last, here, Option.some.injEq] at at_
      rw [if_pos last, if_pos at_.symm, if_pos (by
        rw [last, List.length_append, List.length_replicate]
        omega)]
    · have apart : ¬ q = p := fun is => last (spells'.index_unique at_ (is ▸ here))
      rw [if_neg last, if_neg apart]
      by_cases old : node < paths.length
      · rw [List.getElem?_append_left old] at here
        rw [List.getElem?_append_left (by omega), marks node p here]
      · rw [List.getElem?_append_right (by omega)] at here
        have absent := (fresh p (List.mem_of_getElem? here)).2
        have unmarked : markOf phrases p = 0 := (markOf_spec phrases p).1.mpr fun member =>
          absent ((prefixes p).mpr (.inr ⟨p, member, List.prefix_refl p⟩))
        rw [List.getElem?_append_right (by omega), List.getElem?_replicate,
          if_pos (by omega), unmarked]

/-- The tree of some phrases, with no more nodes than they have bytes and one. -/
theorem grown_of (phrases : List (List UInt8)) : ∃ paths, Grows phrases (Grown.of phrases) paths ∧
    paths.length ≤ phrases.flatten.length + 1 := by
  induction phrases using List.reverseRecOn with
  | nil =>
      refine ⟨[[]], ⟨⟨rfl, List.nodup_singleton _, rfl, ?_, ?_, rfl⟩, ?_, ?_⟩, Nat.le_refl 1⟩
      · intro l member
        cases member
      · intro p b member
        simp at member
      · simp
      · intro node p here
        cases node with
        | zero => rfl
        | succ node => cases here
  | append_singleton phrases q ih =>
      obtain ⟨paths, grows, few⟩ := ih
      obtain ⟨more, grows', few'⟩ := grows.insert q
      refine ⟨paths ++ more, ?_, ?_⟩
      · rw [Grown.of, List.zipIdx_append, List.foldl_append, Nat.zero_add]
        exact grows'
      · rw [List.length_append, List.flatten_append, List.length_append, List.flatten_singleton]
        omega

end Lexindex.Phrase
