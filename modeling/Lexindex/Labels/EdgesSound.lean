import Mathlib
import Lexindex.Labels.EdgeCount

/-!
# The walk finds the edges

After every key the path's depths are those of the trie's nodes on it, and the labels closed so
far are those of the edges that leave it.  Closing the path at a depth closes the edges below it;
closing it at the root leaves none open.
-/

set_option autoImplicit false

namespace Lexindex.Labels

open Faulting (bytesBetween)
open DictIndex (lcp lcp_eq)
open Patricia

theorem bytesBetween_eq_label (last : List UInt8) (a b : Nat) (less : a ≤ last.length) :
    bytesBetween last a b = label (last.take a, last.take b) := by
  rw [label, bytesBetween, List.length_take_of_le less, List.drop_take]

/-- What the path's edges below a depth are, and what stays of the path. -/
theorem closeEdges_spec (last : List UInt8) (shared : Nat) : ∀ {opened : List Nat},
    opened.Pairwise (· > ·) → (∀ d ∈ opened, d ≤ last.length) →
    ∃ (left : List Nat) (spans : List (Nat × Nat)), closeEdges last shared opened =
        some (left, spans.map fun s => bytesBetween last s.1 s.2) ∧
      left.Pairwise (· > ·) ∧ (∀ d, d ∈ left ↔ d = shared ∨ d < shared ∧ d ∈ opened) ∧
      spans.Nodup ∧
      ∀ a b, (a, b) ∈ spans ↔ shared ≤ a ∧ Next (fun d => d = shared ∨ d ∈ opened) a b := by
  intro opened
  induction opened with
  | nil =>
      intro _ _
      refine ⟨[shared], [], rfl, List.pairwise_singleton _ _, by simp, List.nodup_nil, ?_⟩
      intro a b
      refine ⟨fun member => absurd member List.not_mem_nil, ?_⟩
      rintro ⟨-, upper, lower, less, -⟩
      simp only [List.not_mem_nil, or_false] at upper lower
      omega
  | cons deep opened ih =>
      intro descending inside
      obtain ⟨deepest, descending'⟩ := List.pairwise_cons.mp descending
      rw [closeEdges]
      by_cases above : deep ≤ shared
      · rw [if_pos above]
        refine ⟨_, [], rfl, ?_, ?_, List.nodup_nil, ?_⟩
        · split
          · exact descending
          · refine List.pairwise_cons.mpr ⟨?_, descending⟩
            intro d member
            rcases List.mem_cons.mp member with rfl | member
            · omega
            · have less := deepest d member
              omega
        · intro d
          have order : ∀ d ∈ opened, d < shared := fun d member => by
            have less := deepest d member
            omega
          split
          · next same =>
            subst same
            rw [List.mem_cons]
            constructor
            · rintro (rfl | member)
              · exact .inl rfl
              · exact .inr ⟨order d member, .inr member⟩
            · rintro (rfl | ⟨-, member⟩)
              · exact .inl rfl
              · exact member
          · next apart =>
            rw [List.mem_cons]
            refine or_congr_right ⟨fun member => ⟨?_, member⟩, fun both => both.2⟩
            rcases List.mem_cons.mp member with rfl | member
            · omega
            · exact order d member
        · intro a b
          refine ⟨fun member => absurd member List.not_mem_nil, ?_⟩
          rintro ⟨least, -, lower, less, -⟩
          rcases lower with rfl | member
          · omega
          · rcases List.mem_cons.mp member with rfl | member
            · omega
            · have order := deepest b member
              omega
      · rw [if_neg above]
        obtain ⟨left, spans, closed, leftDescending, kept, nodup, edges⟩ := ih descending'
          fun d member => inside d (List.mem_cons_of_mem _ member)
        have reach : shared ≤ upperEnd opened shared ∧ upperEnd opened shared < deep ∧
            (upperEnd opened shared = shared ∨ upperEnd opened shared ∈ opened) ∧
            ∀ d ∈ opened, d ≤ upperEnd opened shared := by
          cases opened with
          | nil =>
              exact ⟨Nat.le_refl _, Nat.lt_of_not_le above, .inl rfl, fun d member =>
                absurd member List.not_mem_nil⟩
          | cons up opened =>
              have first := deepest up List.mem_cons_self
              refine ⟨Nat.le_max_right .., max_lt first (Nat.lt_of_not_le above), ?_, ?_⟩
              · rcases Nat.le_total up shared with low | high
                · exact .inl (max_eq_right low)
                · exact .inr (by rw [upperEnd, max_eq_left high]; exact List.mem_cons_self)
              · intro d member
                refine le_trans ?_ (Nat.le_max_left ..)
                rcases List.mem_cons.mp member with rfl | member
                · exact Nat.le_refl _
                · exact ((List.pairwise_cons.mp descending').1 d member).le
        obtain ⟨least, ends, known, most⟩ := reach
        generalize upperEnd opened shared = up at *
        refine ⟨left, (up, deep) :: spans, ?_, leftDescending, ?_, ?_, ?_⟩
        · rw [labelAt, if_pos ⟨ends.le, inside deep List.mem_cons_self⟩, closed]
          rfl
        · intro d
          rw [kept]
          refine or_congr_right (and_congr_right fun less => ?_)
          rw [List.mem_cons]
          refine ⟨.inr, fun member => member.resolve_left fun same => above (by omega)⟩
        · refine List.nodup_cons.mpr ⟨fun member => ?_, nodup⟩
          rcases ((edges up deep).mp member).2.lower with same | member
          · omega
          · exact absurd (deepest deep member) (lt_irrefl deep)
        · intro a b
          rw [List.mem_cons, edges]
          constructor
          · rintro (same | ⟨low, upper, lower, less, bare⟩)
            · obtain ⟨rfl, rfl⟩ := Prod.mk.inj same
              refine ⟨least, known.imp_right (List.mem_cons_of_mem _), .inr List.mem_cons_self, ends, ?_⟩
              rintro d (rfl | member) more fewer
              · omega
              · rcases List.mem_cons.mp member with rfl | member
                · omega
                · have order := most d member
                  omega
            · refine ⟨low, upper.imp_right (List.mem_cons_of_mem _),
                lower.imp_right (List.mem_cons_of_mem _), less, ?_⟩
              rintro d (rfl | member) more fewer
              · exact bare d (.inl rfl) more fewer
              · rcases List.mem_cons.mp member with rfl | member
                · rcases lower with rfl | member
                  · omega
                  · have order := deepest b member
                    omega
                · exact bare d (.inr member) more fewer
          · rintro ⟨low, upper, lower, less, bare⟩
            -- Nothing is below the deepest, and it ends one edge.
            have belowDeep : a ≠ deep := by
              rintro rfl
              rcases lower with rfl | member
              · omega
              · rcases List.mem_cons.mp member with rfl | member
                · omega
                · have order := deepest b member
                  omega
            have upper' : a = shared ∨ a ∈ opened :=
              upper.imp_right fun member => (List.mem_cons.mp member).resolve_left belowDeep
            by_cases here : b = deep
            · subst here
              refine .inl (Prod.ext ?_ rfl)
              change a = up
              have high : a ≤ up := by
                rcases upper' with rfl | member
                · exact least
                · exact most a member
              rcases Nat.eq_or_lt_of_le high with same | more
              · exact same
              · exact (bare up (known.imp_right (List.mem_cons_of_mem _)) more ends).elim
            · refine .inr ⟨low, upper', lower.imp_right fun member =>
                (List.mem_cons.mp member).resolve_left here, less, ?_⟩
              exact fun d known => bare d (known.imp_right (List.mem_cons_of_mem _))

/-- After some keys: the path's depths are those of its nodes, and the edges that leave it are closed. -/
structure Walked (keys : List (List UInt8)) (opened : List Nat)
    (edges : List (List UInt8 × List UInt8)) : Prop where
  descending : opened.Pairwise (· > ·)
  depths : ∀ d, d ∈ opened ↔ Depth (Node keys) (lastOf keys) d
  closed : Lists edges fun p q => Edge (Node keys) p q ∧ ¬ q <+: lastOf keys

theorem walked_nil : Walked [] [0] [] := by
  refine ⟨List.pairwise_singleton _ _, fun d => ?_, List.nodup_nil, fun p q => ?_⟩
  · constructor
    · intro member
      rw [List.mem_singleton.mp member]
      exact ⟨Nat.le_refl 0, .inl rfl⟩
    · intro depth
      rw [List.mem_singleton]
      exact Nat.le_zero.mp depth.1
  · refine ⟨fun member => absurd member List.not_mem_nil, fun open_ => ?_⟩
    rw [open_.1.lower.of_nil] at open_
    exact absurd List.nil_prefix open_.2

/-- The path closed at a depth: a node there, and the edges below it. -/
theorem Walked.close {keys : List (List UInt8)} {opened : List Nat}
    {edges : List (List UInt8 × List UInt8)} (walked : Walked keys opened edges) {shared : Nat}
    (short : shared ≤ (lastOf keys).length) :
    ∃ left more, closeEdges (lastOf keys) shared opened = some (left, more.map label) ∧
      left.Pairwise (· > ·) ∧
      (∀ d, d ∈ left ↔ d ≤ shared ∧
        (Node keys ((lastOf keys).take d) ∨ (lastOf keys).take d = (lastOf keys).take shared)) ∧
      Lists (edges ++ more) fun p q =>
        Edge (fun r => Node keys r ∨ r = (lastOf keys).take shared) p q ∧
          ¬ q <+: (lastOf keys).take shared := by
  obtain ⟨descending, depths, nodup, closed⟩ := walked
  have meets := meets_last keys
  obtain ⟨left, spans, ran, leftDescending, kept, spansNodup, spanned⟩ :=
    closeEdges_spec (lastOf keys) shared descending fun d member => ((depths d).mp member).1
  generalize lastOf keys = last at *
  have size : (last.take shared).length = shared := List.length_take_of_le short
  have depth : ∀ d, (d = shared ∨ d ∈ opened) ↔
      Depth (fun r => Node keys r ∨ r = last.take shared) last d := by
    intro d
    rw [depths]
    constructor
    · rintro (rfl | ⟨inside, node⟩)
      · exact ⟨short, .inr rfl⟩
      · exact ⟨inside, .inl node⟩
    · rintro ⟨inside, node | same⟩
      · exact .inr ⟨inside, node⟩
      · have sizes := congrArg List.length same
        rw [List.length_take_of_le inside, size] at sizes
        exact .inl sizes
  have next : ∀ a b, Next (fun d => d = shared ∨ d ∈ opened) a b ↔
      Next (Depth (fun r => Node keys r ∨ r = last.take shared) last) a b := by
    intro a b
    rw [show (fun d => d = shared ∨ d ∈ opened) =
      Depth (fun r => Node keys r ∨ r = last.take shared) last from funext fun d => propext (depth d)]
  let pairOf : Nat × Nat → List UInt8 × List UInt8 := fun s => (last.take s.1, last.take s.2)
  have spanInside : ∀ s ∈ spans, shared ≤ s.1 ∧ s.1 < s.2 ∧ s.2 ≤ last.length := by
    rintro ⟨a, b⟩ member
    obtain ⟨least, jump⟩ := (spanned a b).mp member
    exact ⟨least, jump.less, ((next a b).mp jump).lower.1⟩
  refine ⟨left, spans.map pairOf, ?_, leftDescending, ?_, ?_, ?_⟩
  · rw [ran, List.map_map]
    congr 2
    apply List.map_congr_left
    intro s member
    obtain ⟨-, less, inside⟩ := spanInside s member
    exact bytesBetween_eq_label last s.1 s.2 (by omega)
  · intro d
    rw [kept, depths]
    constructor
    · rintro (rfl | ⟨less, inside, node⟩)
      · exact ⟨Nat.le_refl d, .inr rfl⟩
      · exact ⟨less.le, .inl node⟩
    · rintro ⟨least, node⟩
      rcases Nat.eq_or_lt_of_le least with same | less
      · exact .inl same
      · refine .inr ⟨less, by omega, node.resolve_right fun same => ?_⟩
        have sizes := congrArg List.length same
        rw [List.length_take_of_le (by omega), size] at sizes
        omega
  · -- The new edges are on the path, the old ones off it.
    refine List.nodup_append.mpr ⟨nodup, ?_, ?_⟩
    · refine List.Nodup.map_on ?_ spansNodup
      rintro ⟨a, b⟩ member ⟨a', b'⟩ member' same
      obtain ⟨-, less, inside⟩ := spanInside _ member
      obtain ⟨-, less', inside'⟩ := spanInside _ member'
      obtain ⟨first, second⟩ := Prod.mk.inj same
      have sizeA := congrArg List.length first
      have sizeB := congrArg List.length second
      simp only [List.length_take] at sizeA sizeB
      exact Prod.ext (by omega) (by omega)
    · rintro ⟨p, q⟩ old other new rfl
      obtain ⟨s, -, same⟩ := List.mem_map.mp new
      refine ((closed p q).mp old).2 ?_
      rw [← (Prod.mk.inj same).2]
      exact List.take_prefix _ _
  · intro p q
    rw [List.mem_append, closed]
    constructor
    · rintro (⟨edge, off⟩ | member)
      · exact ⟨(meets.edge_off (List.take_prefix _ _) off).mpr edge,
          fun on => off (on.trans (List.take_prefix _ _))⟩
      · obtain ⟨⟨a, b⟩, known, same⟩ := List.mem_map.mp member
        obtain ⟨rfl, rfl⟩ := Prod.mk.inj same
        obtain ⟨least, less, inside⟩ := spanInside _ known
        have jump := (next a b).mp ((spanned a b).mp known).2
        refine ⟨(edge_on.mpr ⟨a, b, rfl, rfl, jump⟩).1, fun on => ?_⟩
        have sizes := on.length_le
        rw [size, List.length_take_of_le inside] at sizes
        omega
    · rintro ⟨edge, off⟩
      by_cases on : q <+: last
      · obtain ⟨a, b, rfl, rfl, jump⟩ := edge_on.mp ⟨edge, on⟩
        refine .inr (List.mem_map.mpr ⟨(a, b), (spanned a b).mpr ⟨?_, (next a b).mpr jump⟩, rfl⟩)
        by_contra low
        have inside := jump.lower.1
        have far : shared < b := by
          by_contra near
          exact off (List.take_prefix_take_left (by omega))
        exact jump.bare shared ((depth shared).mp (.inl rfl)) (by omega) far
      · exact .inl ⟨(meets.edge_off (List.take_prefix _ _) on).mp edge, on⟩

/-- A key's end is the deepest of its path. -/
theorem openKey_spec {left : List Nat} {len : Nat} (descending : left.Pairwise (· > ·))
    (some_ : left ≠ []) (inside : ∀ d ∈ left, d ≤ len) :
    (openKey left len).Pairwise (· > ·) ∧ ∀ d, d ∈ openKey left len ↔ d ∈ left ∨ d = len := by
  cases left with
  | nil => exact absurd rfl some_
  | cons at_ left =>
      have first := inside at_ List.mem_cons_self
      rw [openKey]
      split
      · next less =>
        refine ⟨List.pairwise_cons.mpr ⟨fun d member => ?_, descending⟩, fun d => ?_⟩
        · rcases List.mem_cons.mp member with rfl | member
          · exact less
          · exact ((List.pairwise_cons.mp descending).1 d member).trans less
        · rw [List.mem_cons, or_comm]
      · refine ⟨descending, fun d => ⟨.inl, fun member => member.elim id fun same => ?_⟩⟩
        rw [same, show len = at_ by omega]
        exact List.mem_cons_self

/-- A key past the others walked. -/
theorem Walked.step {keys : List (List UInt8)} {key : List UInt8} {opened : List Nat}
    {edges : List (List UInt8 × List UInt8)} (walked : Walked keys opened edges)
    (sorted : (keys ++ [key]).Pairwise (· < ·)) :
    ∃ left more, closeEdges (lastOf keys) (lcp (lastOf keys) key) opened = some (left, more.map label) ∧
      Walked (keys ++ [key]) (openKey left key.length) (edges ++ more) := by
  rw [lcp_eq]
  obtain ⟨left, more, ran, descending, kept, nodup, closed⟩ :=
    walked.close (common_le_left (lastOf keys) key)
  have shared := take_common (lastOf keys) key
  have short := common_le_right (lastOf keys) key
  have onLast := common_le_left (lastOf keys) key
  have nodes : Node (keys ++ [key]) =
      fun r => (Node keys r ∨ r = (lastOf keys).take (common (lastOf keys) key)) ∨ r = key := by
    funext r
    rw [node_snoc sorted, or_assoc]
  -- A node before the key that starts it is no deeper than what it shares.
  have starts : ∀ r, (Node keys r ∨ r = (lastOf keys).take (common (lastOf keys) key)) → r <+: key →
      r <+: (lastOf keys).take (common (lastOf keys) key) := by
    rintro r (node | rfl) front
    · have front' := starts_last sorted node front
      exact List.prefix_take_iff.mpr ⟨front', length_le_common front' front⟩
    · exact List.prefix_refl _
  have past : ∀ r, (Node keys r ∨ r = (lastOf keys).take (common (lastOf keys) key)) → key <+: r →
      r = key := by
    rintro r (node | rfl) front
    · exact eq_of_starts_node sorted node front
    · exact (front.eq_of_length_le (by rw [shared, List.length_take]; omega)).symm
  generalize common (lastOf keys) key = depth at *
  obtain ⟨descending', opens⟩ := openKey_spec descending
    (List.ne_nil_of_mem ((kept depth).mpr ⟨Nat.le_refl _, .inr rfl⟩))
    fun d member => ((kept d).mp member).1.trans short
  refine ⟨left, more, ran, descending', ?_, nodup, ?_⟩
  · intro d
    rw [opens, kept, lastOf_snoc, nodes, Depth]
    constructor
    · rintro (⟨low, node⟩ | rfl)
      · have same : (lastOf keys).take d = key.take d := by
          rw [← min_eq_left low, ← List.take_take, shared, List.take_take]
        rw [← same]
        exact ⟨by omega, .inl node⟩
      · exact ⟨Nat.le_refl _, .inr (List.take_length ..)⟩
    · rintro ⟨inside, node | whole⟩
      · refine .inl ?_
        have front := starts _ node (List.take_prefix d key)
        have sizes := front.length_le
        rw [List.length_take_of_le inside, List.length_take_of_le onLast] at sizes
        have same : (lastOf keys).take d = key.take d := by
          rw [← min_eq_left sizes, ← List.take_take, shared, List.take_take]
        rw [same]
        exact ⟨sizes, node⟩
      · refine .inr ?_
        have sizes := congrArg List.length whole
        rw [List.length_take_of_le inside] at sizes
        exact sizes
  · intro p q
    rw [closed, lastOf_snoc, nodes]
    constructor
    · rintro ⟨edge, off⟩
      have away : ¬ q <+: key := fun on => off (starts q edge.lower on)
      exact ⟨(edge_snoc past away).mpr edge, away⟩
    · rintro ⟨edge, off⟩
      refine ⟨(edge_snoc past off).mp edge, fun on => off (on.trans ?_)⟩
      rw [shared]
      exact List.take_prefix _ _

/-- The path closed at the root: every edge, each once. -/
theorem Walked.finish {keys : List (List UInt8)} {opened : List Nat}
    {edges : List (List UInt8 × List UInt8)} (walked : Walked keys opened edges) :
    ∃ more, closeEdges (lastOf keys) 0 opened = some ([0], more.map label) ∧
      Lists (edges ++ more) (Edge (Node keys)) := by
  obtain ⟨left, more, ran, descending, kept, nodup, closed⟩ := walked.close (Nat.zero_le _)
  have root : ∀ d, d ∈ left ↔ d = 0 := by
    intro d
    rw [kept]
    exact ⟨fun low => Nat.le_zero.mp low.1, fun zero => ⟨zero.le, .inr (by rw [zero])⟩⟩
  have only : left = [0] := by
    cases left with
    | nil => exact absurd ((root 0).mpr rfl) List.not_mem_nil
    | cons d left =>
        have first := (root d).mp List.mem_cons_self
        cases left with
        | nil => rw [first]
        | cons e left =>
            have second := (root e).mp (List.mem_cons_of_mem _ List.mem_cons_self)
            have order := (List.pairwise_cons.mp descending).1 e List.mem_cons_self
            omega
  refine ⟨more, by rw [ran, only], nodup, fun p q => ?_⟩
  have nodes : (fun r => Node keys r ∨ r = (lastOf keys).take 0) = Node keys := by
    funext r
    rw [List.take_zero]
    exact propext (or_iff_left_of_imp fun root => .inl root)
  rw [closed, nodes, List.take_zero, and_iff_left_iff_imp]
  intro edge root
  rw [List.prefix_nil.mp root] at edge
  exact edge.apart (List.prefix_nil.mp edge.down)

theorem Walked.all {keys : List (List UInt8)} : ∀ {before : List (List UInt8)} {opened : List Nat}
    {edges : List (List UInt8 × List UInt8)}, Walked before opened edges →
    (before ++ keys).Pairwise (· < ·) →
    ∃ opened' more, walkAll (lastOf before) opened keys =
        some ((lastOf (before ++ keys), opened'), more.map label) ∧
      Walked (before ++ keys) opened' (edges ++ more) := by
  induction keys with
  | nil =>
      intro before opened edges walked _
      refine ⟨opened, [], ?_, ?_⟩
      · rw [List.append_nil]
        rfl
      · rwa [List.append_nil, List.append_nil]
  | cons key keys ih =>
      intro before opened edges walked sorted
      have whole : before ++ key :: keys = before ++ [key] ++ keys := by
        rw [List.append_assoc, List.singleton_append]
      rw [whole] at sorted ⊢
      obtain ⟨left, more, ran, stepped⟩ := walked.step (List.pairwise_append.mp sorted).1
      obtain ⟨opened', rest, walkedRest, finished⟩ := ih stepped sorted
      refine ⟨opened', more ++ rest, ?_, ?_⟩
      · rw [lastOf_snoc] at walkedRest
        rw [walkAll, EdgeCount.walk, ran]
        change (walkAll key (openKey left key.length) keys).bind _ = _
        rw [walkedRest, List.map_append]
        rfl
      · rwa [← List.append_assoc]

/-- The walk forward finds the edges. -/
theorem edgesByWalk_spec {keys : List (List UInt8)} (sorted : keys.Pairwise (· < ·)) :
    ∃ edges opened labels rest, Lists edges (Edge (Node keys)) ∧
      walkAll [] [0] keys = some ((lastOf keys, opened), labels) ∧
      closeEdges (lastOf keys) 0 opened = some ([0], rest) ∧ edges.map label = labels ++ rest := by
  obtain ⟨opened, walkedEdges, ran, walked⟩ := walked_nil.all (List.nil_append keys ▸ sorted)
  rw [List.nil_append, List.nil_append] at walked
  rw [List.nil_append] at ran
  obtain ⟨more, closed, lists⟩ := walked.finish
  exact ⟨walkedEdges ++ more, opened, walkedEdges.map label, more.map label, lists, ran, closed,
    List.map_append⟩

end Lexindex.Labels
