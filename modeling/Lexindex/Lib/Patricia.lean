import Mathlib
import Lexindex.Lib.PrefixCode

/-!
# Patricia tries

The trie of a list of keys with its unary paths contracted, told by its nodes as lists of
symbols: the root, every branching point and every key's end.  An edge leads from a node to
the next one below it.  Where keys arrive in order, a new key adds its own end and the point
where it leaves the key before, and nothing else.
-/

set_option autoImplicit false

namespace Lexindex

/-! ## What two lists share -/

section Common

variable {α : Type} [DecidableEq α]

/-- How many entries two lists share from the front. -/
def common : List α → List α → Nat
  | x :: xs, y :: ys => if x = y then common xs ys + 1 else 0
  | _, _ => 0

theorem common_le_left (xs ys : List α) : common xs ys ≤ xs.length := by
  induction xs generalizing ys with
  | nil => exact Nat.le_refl 0
  | cons x xs ih =>
      cases ys with
      | nil => exact Nat.zero_le _
      | cons y ys =>
          rw [common]
          split
          · exact Nat.succ_le_succ (ih ys)
          · exact Nat.zero_le _

theorem common_comm (xs ys : List α) : common xs ys = common ys xs := by
  induction xs generalizing ys with
  | nil => cases ys <;> rfl
  | cons x xs ih =>
      cases ys with
      | nil => rfl
      | cons y ys => simp only [common, ih ys, eq_comm]

theorem common_le_right (xs ys : List α) : common xs ys ≤ ys.length := by
  rw [common_comm]
  exact common_le_left ys xs

theorem take_common (xs ys : List α) : xs.take (common xs ys) = ys.take (common xs ys) := by
  induction xs generalizing ys with
  | nil => rfl
  | cons x xs ih =>
      cases ys with
      | nil => rfl
      | cons y ys =>
          rw [common]
          split
          · next same =>
            rw [List.take_succ_cons, List.take_succ_cons, same, ih ys]
          · rfl

theorem length_le_common {p xs ys : List α} (left : p <+: xs) (right : p <+: ys) :
    p.length ≤ common xs ys := by
  induction p generalizing xs ys with
  | nil => exact Nat.zero_le _
  | cons x p ih =>
      obtain ⟨xs, rfl⟩ := left
      obtain ⟨ys, rfl⟩ := right
      rw [List.cons_append, List.cons_append, common, if_pos rfl, List.length_cons]
      exact Nat.succ_le_succ (ih (List.prefix_append p xs) (List.prefix_append p ys))

/-- Two lists share one of them whole, or go on apart from where they stop to. -/
theorem common_cases (xs ys : List α) : xs <+: ys ∨ ys <+: xs ∨ ∃ x y, x ≠ y ∧
    xs.take (common xs ys) ++ [x] <+: xs ∧ xs.take (common xs ys) ++ [y] <+: ys := by
  induction xs generalizing ys with
  | nil => exact .inl List.nil_prefix
  | cons x xs ih =>
      cases ys with
      | nil => exact .inr (.inl List.nil_prefix)
      | cons y ys =>
          by_cases same : x = y
          · subst same
            rw [common, if_pos rfl, List.take_succ_cons]
            rcases ih ys with before | after | ⟨u, v, apart, left, right⟩
            · exact .inl (List.cons_prefix_cons.mpr ⟨rfl, before⟩)
            · exact .inr (.inl (List.cons_prefix_cons.mpr ⟨rfl, after⟩))
            · exact .inr (.inr ⟨u, v, apart, List.cons_prefix_cons.mpr ⟨rfl, left⟩,
                List.cons_prefix_cons.mpr ⟨rfl, right⟩⟩)
          · refine .inr (.inr ⟨x, y, same, ?_, ?_⟩)
            · rw [common, if_neg same]
              exact List.prefix_append [x] xs
            · rw [common, if_neg same]
              exact List.prefix_append [y] ys

end Common

/-- What two lists start with is what every list between them starts with. -/
theorem prefix_between {α : Type} [LinearOrder α] {p a b c : List α} (first : p <+: a)
    (last : p <+: c) (low : a ≤ b) (high : b ≤ c) : p <+: b := by
  induction p generalizing a b c with
  | nil => exact List.nil_prefix
  | cons x p ih =>
      obtain ⟨a, rfl⟩ := first
      obtain ⟨c, rfl⟩ := last
      cases b with
      | nil => exact absurd low (List.nil_lt_cons x (p ++ a)).not_ge
      | cons y b =>
          rw [List.cons_append, ← not_lt, List.cons_lt_cons_iff, not_or, not_and, not_lt] at low high
          have same : y = x := le_antisymm high.1 low.1
          exact List.cons_prefix_cons.mpr ⟨same.symm, ih (List.prefix_append p a)
            (List.prefix_append p c) (not_lt.mp (low.2 same)) (not_lt.mp (high.2 same.symm))⟩

namespace Patricia

variable {α : Type}

/-- Two keys go on from here with different symbols. -/
def Branches (keys : List (List α)) (p : List α) : Prop :=
  ∃ a ∈ keys, ∃ b ∈ keys, ∃ x y, x ≠ y ∧ p ++ [x] <+: a ∧ p ++ [y] <+: b

/-- The root, a branching point, or the end of a key. -/
def Node (keys : List (List α)) (p : List α) : Prop :=
  p = [] ∨ Branches keys p ∨ p ∈ keys

/-- From a node to the next one below it. -/
structure Edge (N : List α → Prop) (p q : List α) : Prop where
  upper : N p
  lower : N q
  down : p <+: q
  apart : p ≠ q
  bare : ∀ r, N r → p <+: r → r <+: q → r = p ∨ r = q

/-- The symbols along an edge. -/
def label (e : List α × List α) : List α :=
  e.2.drop e.1.length

/-- Each pair of the relation once, and no other pair. -/
def Lists (edges : List (List α × List α)) (R : List α → List α → Prop) : Prop :=
  edges.Nodup ∧ ∀ p q, (p, q) ∈ edges ↔ R p q

theorem Branches.mono {keys more : List (List α)} {p : List α} (branches : Branches keys p) :
    Branches (keys ++ more) p := by
  obtain ⟨a, memberA, b, memberB, x, y, apart, left, right⟩ := branches
  exact ⟨a, List.mem_append_left _ memberA, b, List.mem_append_left _ memberB, x, y, apart, left,
    right⟩

theorem Node.mono {keys more : List (List α)} {p : List α} (node : Node keys p) :
    Node (keys ++ more) p := by
  rcases node with root | branches | member
  · exact .inl root
  · exact .inr (.inl branches.mono)
  · exact .inr (.inr (List.mem_append_left _ member))

/-- Every node but the root starts a key. -/
theorem Node.starts {keys : List (List α)} {p : List α} (node : Node keys p) :
    p = [] ∨ ∃ a ∈ keys, p <+: a := by
  rcases node with root | ⟨a, member, -, -, x, -, -, left, -⟩ | member
  · exact .inl root
  · exact .inr ⟨a, member, (List.prefix_append p [x]).trans left⟩
  · exact .inr ⟨p, member, List.prefix_refl p⟩

theorem Node.of_nil {p : List α} (node : Node [] p) : p = [] := by
  rcases node.starts with root | ⟨a, member, -⟩
  · exact root
  · cases member

/-! ## A key past the others -/

/-- The key before, and the root's path where there is none. -/
def lastOf (keys : List (List α)) : List α :=
  keys.getLast?.getD []

theorem lastOf_snoc (keys : List (List α)) (key : List α) : lastOf (keys ++ [key]) = key := by
  rw [lastOf, List.getLast?_append]
  rfl

theorem lastOf_mem {keys : List (List α)} (some_ : keys ≠ []) : lastOf keys ∈ keys := by
  rw [lastOf, List.getLast?_eq_some_getLast some_]
  exact List.getLast_mem some_

theorem node_last (keys : List (List α)) : Node keys (lastOf keys) := by
  by_cases none_ : keys = []
  · subst none_
    exact .inl rfl
  · exact .inr (.inr (lastOf_mem none_))

section Sorted

variable [LinearOrder α] {keys : List (List α)} {key : List α}

theorem le_lastOf (sorted : keys.Pairwise (· < ·)) {a : List α} (member : a ∈ keys) :
    a ≤ lastOf keys := by
  induction keys using List.reverseRecOn with
  | nil => cases member
  | append_singleton keys last _ =>
      rw [lastOf_snoc]
      rcases List.mem_append.mp member with before | here
      · exact ((List.pairwise_append.mp sorted).2.2 a before last List.mem_cons_self).le
      · exact (List.mem_singleton.mp here).le

/-- The keys are ascending and the next one is past them. -/
theorem past_last (sorted : (keys ++ [key]).Pairwise (· < ·)) {a : List α} (member : a ∈ keys) :
    a < key :=
  (List.pairwise_append.mp sorted).2.2 a member key List.mem_cons_self

/-- A node that starts the next key starts the last one. -/
theorem starts_last (sorted : (keys ++ [key]).Pairwise (· < ·)) {r : List α} (node : Node keys r)
    (starts : r <+: key) : r <+: lastOf keys := by
  rcases node.starts with rfl | ⟨a, member, front⟩
  · exact List.nil_prefix
  · have some_ : keys ≠ [] := List.ne_nil_of_mem member
    exact prefix_between front starts
      (le_lastOf (List.pairwise_append.mp sorted).1 member)
      (past_last sorted (lastOf_mem some_)).le

/-- The next key starts no node but its own end. -/
theorem eq_of_starts_node (sorted : (keys ++ [key]).Pairwise (· < ·)) {r : List α}
    (node : Node keys r) (starts : key <+: r) : r = key := by
  rcases node.starts with rfl | ⟨a, member, front⟩
  · exact (List.prefix_nil.mp starts).symm
  · exact absurd (past_last sorted member) (le_of_prefixed (starts.trans front)).not_gt

variable [DecidableEq α]

/-- The next key adds its end, and where it leaves the last one. -/
theorem node_snoc (sorted : (keys ++ [key]).Pairwise (· < ·)) (r : List α) :
    Node (keys ++ [key]) r ↔
      Node keys r ∨ r = (lastOf keys).take (common (lastOf keys) key) ∨ r = key := by
  constructor
  · rintro (root | ⟨a, memberA, b, memberB, x, y, apart, left, right⟩ | member)
    · exact .inl (.inl root)
    · -- One of the two keys is the new one: the other may be taken for the last.
      have key_case : ∀ a ∈ keys, ∀ x y, x ≠ y → r ++ [x] <+: a → r ++ [y] <+: key →
          Node keys r ∨ r = (lastOf keys).take (common (lastOf keys) key) ∨ r = key := by
        intro a member x y apart left right
        have before := (List.prefix_append r [x]).trans left
        have starts := (List.prefix_append r [y]).trans right
        have some_ : keys ≠ [] := List.ne_nil_of_mem member
        have onLast : r <+: lastOf keys := prefix_between before starts
          (le_lastOf (List.pairwise_append.mp sorted).1 member)
          (past_last sorted (lastOf_mem some_)).le
        by_cases goes : r ++ [y] <+: lastOf keys
        · exact .inl (.inr (.inl ⟨a, member, lastOf keys, lastOf_mem some_, x, y, apart, left, goes⟩))
        · refine .inr (.inl ?_)
          have least := length_le_common onLast starts
          rcases Nat.eq_or_lt_of_le least with exact | longer
          · rw [← exact]
            exact List.prefix_iff_eq_take.mp onLast
          · refine absurd ?_ goes
            have shared := take_common (lastOf keys) key
            have taken : r ++ [y] <+: key.take (common (lastOf keys) key) := by
              rw [List.prefix_take_iff]
              exact ⟨right, by rw [List.length_append, List.length_singleton]; omega⟩
            rw [← shared] at taken
            exact taken.trans (List.take_prefix _ _)
      rcases List.mem_append.mp memberA with oldA | newA
      · rcases List.mem_append.mp memberB with oldB | newB
        · exact .inl (.inr (.inl ⟨a, oldA, b, oldB, x, y, apart, left, right⟩))
        · rw [List.mem_singleton.mp newB] at right
          exact key_case a oldA x y apart left right
      · rw [List.mem_singleton.mp newA] at left
        rcases List.mem_append.mp memberB with oldB | newB
        · exact key_case b oldB y x apart.symm right left
        · rw [List.mem_singleton.mp newB] at right
          have same := (List.prefix_of_prefix_length_le left right (by simp)).eq_of_length (by simp)
          exact absurd (List.append_cancel_left same) (by simpa using apart)
    · rcases List.mem_append.mp member with old | new
      · exact .inl (.inr (.inr old))
      · exact .inr (.inr (List.mem_singleton.mp new))
  · rintro (old | rfl | rfl)
    · exact old.mono
    · by_cases none_ : keys = []
      · subst none_
        exact .inl rfl
      have known : lastOf keys ∈ keys ++ [key] := List.mem_append_left _ (lastOf_mem none_)
      have added : key ∈ keys ++ [key] := List.mem_append_right _ List.mem_cons_self
      rcases common_cases (lastOf keys) key with before | after | ⟨x, y, apart, left, right⟩
      · have whole := length_le_common (List.prefix_refl _) before
        rw [List.take_of_length_le whole]
        exact .inr (.inr known)
      · have whole := length_le_common after (List.prefix_refl _)
        rw [take_common, List.take_of_length_le whole]
        exact .inr (.inr added)
      · exact .inr (.inl ⟨_, known, _, added, x, y, apart, left, right⟩)
    · exact .inr (.inr (List.mem_append_right _ List.mem_cons_self))

end Sorted

/-! ## Edges on and off a path -/

/-- The nodes as the path of `last` sees them: every node shares a node with it. -/
structure Meets (N : List α → Prop) (last : List α) : Prop where
  root : N []
  here : N last
  meet : ∀ r, N r → ∃ m, N m ∧ m <+: r ∧ m <+: last ∧ ∀ r', r' <+: r → r' <+: last → r' <+: m

theorem meets_last [DecidableEq α] (keys : List (List α)) : Meets (Node keys) (lastOf keys) := by
  refine ⟨.inl rfl, node_last keys, fun r node => ?_⟩
  have shared : ∀ r', r' <+: r → r' <+: lastOf keys → r' <+: r.take (common r (lastOf keys)) :=
    fun r' left right => List.prefix_take_iff.mpr ⟨left, length_le_common left right⟩
  refine ⟨r.take (common r (lastOf keys)), ?_, List.take_prefix _ _, ?_, shared⟩
  · rcases common_cases r (lastOf keys) with before | after | ⟨x, y, apart, left, right⟩
    · rwa [List.take_of_length_le (length_le_common (List.prefix_refl r) before)]
    · rw [take_common, List.take_of_length_le (length_le_common after (List.prefix_refl _))]
      exact node_last keys
    · -- Neither is the root's path, so both start a key.
      have some_ : keys ≠ [] := by
        rintro rfl
        exact absurd (List.prefix_nil.mp right) (by simp)
      rcases node.starts with rfl | ⟨a, member, front⟩
      · exact absurd (List.prefix_nil.mp left) (by simp)
      · exact .inr (.inl ⟨a, member, _, lastOf_mem some_, x, y, apart, left.trans front, right⟩)
  · rw [take_common]
    exact List.take_prefix _ _

section Path

variable {N : List α → Prop} {last s p q : List α}

/-- A node put on the path changes no edge that leaves it. -/
theorem Meets.edge_off (meets : Meets N last) (onPath : s <+: last) (off : ¬ q <+: last) :
    Edge (fun r => N r ∨ r = s) p q ↔ Edge N p q := by
  have apart : ∀ r, r <+: last → r ≠ q := fun r front same => off (same ▸ front)
  constructor
  · intro edge
    have lower : N q := edge.lower.resolve_right fun same => apart s onPath same.symm
    refine ⟨?_, lower, edge.down, edge.apart, fun r node => edge.bare r (.inl node)⟩
    rcases edge.upper with old | rfl
    · exact old
    · obtain ⟨m, node, front, frontLast, least⟩ := meets.meet q lower
      rcases edge.bare m (.inl node) (least p edge.down onPath) front with same | same
      · rwa [← same]
      · exact absurd same (apart m frontLast)
  · intro edge
    refine ⟨.inl edge.upper, .inl edge.lower, edge.down, edge.apart, ?_⟩
    rintro r (old | rfl) above below
    · exact edge.bare r old above below
    · obtain ⟨m, node, front, frontLast, least⟩ := meets.meet q edge.lower
      have reaches := least r below onPath
      rcases edge.bare m node (above.trans reaches) front with same | same
      · rw [same] at reaches
        exact .inl (reaches.eq_of_length (Nat.le_antisymm reaches.length_le above.length_le))
      · exact absurd same (apart m frontLast)

/-- A key past every node adds no edge but the one to its end. -/
theorem edge_snoc {key : List α} (past : ∀ r, N r → key <+: r → r = key) (off : ¬ q <+: key) :
    Edge (fun r => N r ∨ r = key) p q ↔ Edge N p q := by
  constructor
  · intro edge
    have lower : N q := edge.lower.resolve_right fun same => off (same ▸ List.prefix_refl key)
    have upper : N p := by
      refine edge.upper.resolve_right fun same => ?_
      have front := edge.down
      rw [same] at front
      exact off ((past q lower front) ▸ List.prefix_refl q)
    exact ⟨upper, lower, edge.down, edge.apart, fun r node => edge.bare r (.inl node)⟩
  · intro edge
    refine ⟨.inl edge.upper, .inl edge.lower, edge.down, edge.apart, ?_⟩
    rintro r (old | rfl) above below
    · exact edge.bare r old above below
    · exact absurd (past q edge.lower below ▸ List.prefix_refl q) off

/-- One depth and the next. -/
structure Next (D : Nat → Prop) (a b : Nat) : Prop where
  upper : D a
  lower : D b
  less : a < b
  bare : ∀ d, D d → a < d → d < b → False

/-- The depths of the nodes on a path. -/
def Depth (N : List α → Prop) (last : List α) (d : Nat) : Prop :=
  d ≤ last.length ∧ N (last.take d)

theorem Depth.of_front {r : List α} (node : N r) (front : r <+: last) : Depth N last r.length :=
  ⟨front.length_le, by rwa [← List.prefix_iff_eq_take.mp front]⟩

/-- The edges on a path lead from one depth to the next. -/
theorem edge_on : (Edge N p q ∧ q <+: last) ↔
    ∃ a b, p = last.take a ∧ q = last.take b ∧ Next (Depth N last) a b := by
  constructor
  · rintro ⟨edge, front⟩
    have up := edge.down.trans front
    refine ⟨p.length, q.length, List.prefix_iff_eq_take.mp up, List.prefix_iff_eq_take.mp front,
      .of_front edge.upper up, .of_front edge.lower front, ?_, ?_⟩
    · refine Nat.lt_of_le_of_ne edge.down.length_le fun same => ?_
      exact edge.apart (edge.down.eq_of_length same)
    · rintro d ⟨inside, node⟩ above below
      have size : (last.take d).length = d := List.length_take_of_le inside
      have between := edge.bare _ node
        (List.prefix_of_prefix_length_le up (List.take_prefix d last) (by omega))
        (List.prefix_of_prefix_length_le (List.take_prefix d last) front (by omega))
      rcases between with same | same
      · rw [same] at size
        omega
      · rw [same] at size
        omega
  · rintro ⟨a, b, rfl, rfl, next⟩
    obtain ⟨⟨insideA, upper⟩, ⟨insideB, lower⟩, less, bare⟩ := next
    have sizeA : (last.take a).length = a := List.length_take_of_le insideA
    have sizeB : (last.take b).length = b := List.length_take_of_le insideB
    refine ⟨⟨upper, lower, List.take_prefix_take_left less.le, ?_, ?_⟩, List.take_prefix _ _⟩
    · intro same
      have sizes := congrArg List.length same
      omega
    · intro r node above below
      have front := below.trans (List.take_prefix b last)
      have long := above.length_le
      have short := below.length_le
      rw [sizeA] at long
      rw [sizeB] at short
      rcases Nat.eq_or_lt_of_le long with same | longer
      · rw [List.prefix_iff_eq_take.mp front, ← same]
        exact .inl rfl
      · rcases Nat.eq_or_lt_of_le short with same | shorter
        · rw [List.prefix_iff_eq_take.mp front, same]
          exact .inr rfl
        · exact (bare _ (.of_front node front) longer shorter).elim

end Path

end Patricia

end Lexindex
