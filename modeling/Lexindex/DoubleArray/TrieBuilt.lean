import Mathlib
import Lexindex.DoubleArray.TrieSound

/-!
# The loop that numbers the nodes

What holds while nodes are still waiting, a step at a time, and what the trie is once
none are.
-/

set_option autoImplicit false

namespace Lexindex.DoubleArray

/-- The trie once nothing waits: where the last node's children end. -/
def Trie.closed (t : Trie) : Trie :=
  { t with first := t.first ++ [t.label.length % 2 ^ 32] }

/-- Node `v` is the prefix `p`: its word is the key it spells, its children the prefixes one label
longer, in label order. -/
structure Node (low : Nat) (L : List (List Nat)) (t : Trie) (paths : List (List Nat)) (v : Nat)
    (p : List Nat) : Prop where
  word : IsWord low L p (t.wordOf v)
  kids : ∀ k ∈ t.kids v, paths[k]? = some (p ++ [t.labelOf k])
  ascending : (t.row v).Pairwise (· < ·)
  complete : ∀ c i, low ≤ i → i < L.length → p ++ [c] <+: L.getD i [] → c ∈ t.row v

/-- The loop with `span` waiting; node `k` is the prefix `paths[k]`. -/
structure Built (low : Nat) (L : List (List Nat)) (t : Trie) (span : List (Nat × Nat × Nat))
    (paths : List (List Nat)) : Prop where
  labels : t.label.length = paths.length
  words : t.word.length = paths.length
  waiting : t.first.length + span.length = paths.length
  root : paths[0]? = some []
  distinct : paths.Nodup
  named : ∀ p ∈ paths, p ∈ prefixes L
  spans : ∀ i s, span[i]? = some s →
    ∃ p, paths[t.first.length + i]? = some p ∧ Spans low L p s
  fresh : ∀ k, t.first.length ≤ k → k < paths.length → t.word[k]? = some NO_WORD
  parent : ∀ k, 0 < k → k < paths.length → ∃ v q c, v < t.first.length ∧ paths[v]? = some q ∧
    paths[k]? = some (q ++ [c])
  numbered : ∀ v p, v < t.first.length → paths[v]? = some p → Node low L t.closed paths v p

section Loop

variable {labels starts : List Nat} {low : Nat} {L : List (List Nat)}

theorem getElem?_inj {paths : List (List Nat)} (distinct : paths.Nodup) {v w : Nat} {p : List Nat}
    (left : paths[v]? = some p) (right : paths[w]? = some p) : v = w := by
  obtain ⟨vIn, vExact⟩ := List.getElem?_eq_some_iff.mp left
  obtain ⟨wIn, wExact⟩ := List.getElem?_eq_some_iff.mp right
  exact (distinct.getElem_inj_iff).mp (vExact.trans wExact.symm)

/-- The word a node is given is the key it spells. -/
theorem Lexicon.isWord (lexicon : Lexicon labels starts low L) {p : List Nat} {lo hi d : Nat}
    (spans : Spans low L p (lo, hi, d)) :
    IsWord low L p (if lo < hi ∧ starts.getD (lo + 1) 0 - starts.getD lo 0 = d then lo
      else NO_WORD) := by
  have spelled := lexicon.spelled_iff spans
  have lowLe : low ≤ lo := spans.low_le
  have highLe : hi ≤ L.length := spans.high_le
  have first : ∀ i, low ≤ i → i < L.length → L.getD i [] = p → i = lo ∧ lo < hi := by
    intro i iLow inside same
    have under := (spans.exact i iLow inside).mpr (by rw [same])
    simp only at under
    refine ⟨?_, by omega⟩
    by_contra other
    refine lexicon.shorter_first lo i lowLe (by omega) inside ?_
    rw [same]
    exact (spans.exact lo lowLe (by omega)).mp ⟨Nat.le_refl _, show lo < hi by omega⟩
  by_cases here : lo < hi ∧ starts.getD (lo + 1) 0 - starts.getD lo 0 = d
  · rw [if_pos here]
    obtain ⟨some_key, same⟩ := spelled.mp here
    refine ⟨fun i iLow inside found => (first i iLow inside found).1.symm, fun absent => ?_⟩
    exact absurd same (absent lo lowLe (by omega))
  · rw [if_neg here]
    refine ⟨fun i iLow inside found => ?_, fun _ => rfl⟩
    obtain ⟨rfl, some_key⟩ := first i iLow inside found
    exact absurd (spelled.mpr ⟨some_key, found⟩) here

variable {t : Trie} {span : List (Nat × Nat × Nat)} {paths : List (List Nat)}

/-- A node numbered already is left as it is. -/
theorem Node.kept {t' : Trie} {v : Nat} {p : List Nat} {more : List (List Nat)}
    (node : Node low L t paths v p) (word : t'.wordOf v = t.wordOf v) (kids : t'.kids v = t.kids v)
    (same : ∀ k, k < paths.length → t'.labelOf k = t.labelOf k) :
    Node low L t' (paths ++ more) v p := by
  have inside : ∀ k ∈ t.kids v, k < paths.length := fun k member =>
    (List.getElem?_eq_some_iff.mp (node.kids k member)).1
  have row : t'.row v = t.row v := by
    rw [Trie.row, Trie.row, kids]
    exact List.map_congr_left fun k member => same k (inside k member)
  refine ⟨word ▸ node.word, fun k member => ?_, row ▸ node.ascending, row ▸ node.complete⟩
  rw [kids] at member
  rw [List.getElem?_append_left (inside k member), same k (inside k member)]
  exact node.kids k member

theorem kids_closed {first more : List Nat} {label word : List Nat} {v last : Nat}
    (inside : v < first.length) :
    Trie.kids { label := label, word := word, first := first ++ last :: more } v =
      Trie.kids { label := t.label, word := t.word, first := first ++ [last] } v := by
  have same : ∀ w, w ≤ first.length →
      (first ++ last :: more).getD w 0 = (first ++ [last]).getD w 0 := by
    intro w le
    rw [List.getD_eq_getElem?_getD, List.getD_eq_getElem?_getD]
    by_cases before : w < first.length
    · rw [List.getElem?_append_left before, List.getElem?_append_left before]
    · have last : w = first.length := by omega
      subst last
      rw [List.getElem?_append_right (Nat.le_refl _), List.getElem?_append_right (Nat.le_refl _),
        Nat.sub_self, List.getElem?_cons_zero, List.getElem?_cons_zero]
  rw [Trie.kids, Trie.kids, Trie.firstOf, Trie.firstOf, Trie.firstOf, Trie.firstOf,
    same v (by omega), same (v + 1) (by omega)]

/-- A node's number, the word it has and the runs under it given. -/
def Trie.numberedAs (t : Trie) (word : Nat) (runs : List (Nat × Nat × Nat)) : Trie :=
  { label := t.label ++ runs.map fun r => r.1
    word := t.word.set t.first.length word ++ runs.map fun _ => NO_WORD
    first := t.first ++ [t.label.length % 2 ^ 32] }

theorem labelOf_kept (word : Nat) (runs : List (Nat × Nat × Nat)) {k : Nat}
    (inside : k < t.label.length) :
    (t.numberedAs word runs).closed.labelOf k = t.closed.labelOf k := by
  rw [Trie.labelOf, Trie.labelOf, Trie.closed, Trie.closed, Trie.numberedAs,
    List.getD_eq_getElem?_getD, List.getD_eq_getElem?_getD, List.getElem?_append_left inside]

/-- The labels of the children numbered now. -/
theorem labelOf_added (word : Nat) (runs : List (Nat × Nat × Nat)) {i : Nat} {r : Nat × Nat × Nat}
    (at_ : runs[i]? = some r) :
    (t.numberedAs word runs).closed.labelOf (t.label.length + i) = r.1 := by
  rw [Trie.labelOf, Trie.closed, Trie.numberedAs, List.getD_eq_getElem?_getD,
    List.getElem?_append_right (Nat.le_add_right ..), Nat.add_sub_cancel_left, List.getElem?_map,
    at_]
  rfl

theorem wordOf_numberedAs (word : Nat) (runs : List (Nat × Nat × Nat)) {v : Nat}
    (inside : v < t.word.length) :
    (t.numberedAs word runs).closed.wordOf v =
      if v = t.first.length then word else t.closed.wordOf v := by
  rw [Trie.wordOf, Trie.wordOf, Trie.closed, Trie.closed, Trie.numberedAs,
    List.getD_eq_getElem?_getD, List.getD_eq_getElem?_getD,
    List.getElem?_append_left (by rw [List.length_set]; exact inside), List.getElem?_set]
  by_cases here : t.first.length = v
  · rw [if_pos here, if_pos here.symm, if_pos (here ▸ inside), Option.getD_some]
  · rw [if_neg here, if_neg fun same => here same.symm]

/-- The children numbered now. -/
theorem kids_added (word : Nat) (runs : List (Nat × Nat × Nat))
    (small : t.label.length + runs.length < 2 ^ 32) :
    (t.numberedAs word runs).closed.kids t.first.length =
      List.range' t.label.length runs.length := by
  have firsts : (t.numberedAs word runs).closed.first =
      t.first ++ [t.label.length, t.label.length + runs.length] := by
    rw [Trie.closed, Trie.numberedAs, List.append_assoc, List.length_append, List.length_map,
      Nat.mod_eq_of_lt small, Nat.mod_eq_of_lt (by omega), List.singleton_append]
  have own : (t.numberedAs word runs).closed.firstOf t.first.length = t.label.length := by
    rw [Trie.firstOf, firsts, List.getD_eq_getElem?_getD,
      List.getElem?_append_right (Nat.le_refl _), Nat.sub_self]
    rfl
  have past : (t.numberedAs word runs).closed.firstOf (t.first.length + 1) =
      t.label.length + runs.length := by
    rw [Trie.firstOf, firsts, List.getD_eq_getElem?_getD,
      List.getElem?_append_right (Nat.le_add_right ..), Nat.add_sub_cancel_left]
    rfl
  rw [Trie.kids, own, past, Nat.add_sub_cancel_left]

theorem row_added (word : Nat) (runs : List (Nat × Nat × Nat))
    (small : t.label.length + runs.length < 2 ^ 32) :
    (t.numberedAs word runs).closed.row t.first.length = runs.map fun r => r.1 := by
  rw [Trie.row, kids_added word runs small]
  refine List.ext_getElem (by simp) fun i left right => ?_
  have inside : i < runs.length := by simpa using right
  rw [List.getElem_map, List.getElem_range', Nat.one_mul, List.getElem_map]
  exact labelOf_added word runs (List.getElem?_eq_getElem inside)

/-- A step numbers one node, and its children wait behind the others. -/
theorem Built.numberedAs (built : Built low L t span paths) (few : nodeCount L < 2 ^ 32)
    {p : List Nat} {word d : Nat} {s : Nat × Nat × Nat} {rest runs : List (Nat × Nat × Nat)}
    (next : span = s :: rest) (here : paths[t.first.length]? = some p) (isWord : IsWord low L p word)
    (each : ∀ r ∈ runs, Spans low L (p ++ [r.1]) (r.2.1, r.2.2, d) ∧ p ++ [r.1] ∈ prefixes L)
    (ascending : (runs.map fun r => r.1).Pairwise (· < ·))
    (complete : ∀ c i, low ≤ i → i < L.length → p ++ [c] <+: L.getD i [] →
      c ∈ runs.map fun r => r.1) :
    Built low L (t.numberedAs word runs) (rest ++ runs.map fun r => (r.2.1, r.2.2, d))
      (paths ++ runs.map fun r => p ++ [r.1]) := by
  have inside : t.first.length < paths.length := (List.getElem?_eq_some_iff.mp here).1
  have waiting := built.waiting
  rw [next, List.length_cons] at waiting
  have numbered : (t.numberedAs word runs).first.length = t.first.length + 1 := by
    rw [Trie.numberedAs, List.length_append, List.length_singleton]
  have added : (runs.map fun r => p ++ [r.1]).Nodup := by
    refine (List.nodup_map_iff_inj_on ?_).mpr fun r rIn r' r'In same => ?_
    · exact List.Nodup.of_map _ (ascending.imp Nat.ne_of_lt)
    · have labels := List.append_cancel_left same
      rw [List.cons.injEq] at labels
      exact List.inj_on_of_nodup_map (ascending.imp Nat.ne_of_lt) rIn r'In labels.1
  have named : ∀ q ∈ paths ++ runs.map (fun r => p ++ [r.1]), q ∈ prefixes L := by
    intro q member
    rcases List.mem_append.mp member with member | member
    · exact built.named q member
    · obtain ⟨r, rIn, rfl⟩ := List.mem_map.mp member
      exact (each r rIn).2
  have distinct : (paths ++ runs.map fun r => p ++ [r.1]).Nodup := by
    refine List.nodup_append.mpr ⟨built.distinct, added, fun q qIn q' q'In same => ?_⟩
    obtain ⟨r, rIn, rfl⟩ := List.mem_map.mp q'In
    obtain ⟨k, kIn, kExact⟩ := List.getElem_of_mem qIn
    have read : paths[k]? = some (p ++ [r.1]) := by
      rw [List.getElem?_eq_getElem kIn, kExact, same]
    by_cases isRoot : k = 0
    · subst isRoot
      rw [built.root, Option.some.injEq] at read
      simp at read
    · obtain ⟨v, q', c, before, parent, child⟩ := built.parent k (by omega) kIn
      rw [read, Option.some.injEq] at child
      have same_parent := List.append_inj_left' child rfl
      have own := getElem?_inj built.distinct here (same_parent ▸ parent)
      omega
  have bound := length_le_nodeCount distinct named
  rw [List.length_append, List.length_map] at bound
  have labels := built.labels
  have small : t.label.length + runs.length < 2 ^ 32 := by omega
  refine ⟨?_, ?_, ?_, ?_, distinct, named, ?_, ?_, ?_, ?_⟩
  · rw [Trie.numberedAs, List.length_append, List.length_append, List.length_map, List.length_map,
      labels]
  · rw [Trie.numberedAs, List.length_append, List.length_append, List.length_map, List.length_map,
      List.length_set, built.words]
  · rw [numbered, List.length_append, List.length_append, List.length_map, List.length_map]
    omega
  · rw [List.getElem?_append_left (by omega), built.root]
  · intro i s' at_
    rw [numbered]
    by_cases old : i < rest.length
    · rw [List.getElem?_append_left old] at at_
      obtain ⟨q, read, spans⟩ := built.spans (i + 1) s' (by rw [next, List.getElem?_cons_succ, at_])
      refine ⟨q, ?_, spans⟩
      rw [List.getElem?_append_left (by omega), Nat.add_assoc, Nat.add_comm 1 i, read]
    · rw [List.getElem?_append_right (Nat.le_of_not_lt old), List.getElem?_map,
        Option.map_eq_some_iff] at at_
      obtain ⟨r, rAt, rfl⟩ := at_
      refine ⟨p ++ [r.1], ?_, (each r (List.mem_of_getElem? rAt)).1⟩
      have index : t.first.length + 1 + i - paths.length = i - rest.length := by omega
      rw [List.getElem?_append_right (by omega), index, List.getElem?_map, rAt]
      rfl
  · intro k above below
    rw [numbered] at above
    rw [List.length_append, List.length_map] at below
    have words := built.words
    rw [Trie.numberedAs]
    by_cases old : k < paths.length
    · rw [List.getElem?_append_left (by rw [List.length_set]; omega),
        List.getElem?_set_ne (by omega)]
      exact built.fresh k (by omega) old
    · have here_ : k - t.word.length < runs.length := by omega
      rw [List.getElem?_append_right (by rw [List.length_set]; omega), List.length_set,
        List.getElem?_map, List.getElem?_eq_getElem here_]
      rfl
  · intro k positive below
    rw [List.length_append, List.length_map] at below
    by_cases old : k < paths.length
    · obtain ⟨v, q, c, before, parent, child⟩ := built.parent k positive old
      refine ⟨v, q, c, by omega, ?_, ?_⟩
      · rw [List.getElem?_append_left (by omega), parent]
      · rw [List.getElem?_append_left old, child]
    · have here_ : k - paths.length < runs.length := by omega
      refine ⟨t.first.length, p, (runs[k - paths.length]).1, by omega, ?_, ?_⟩
      · rw [List.getElem?_append_left inside, here]
      · rw [List.getElem?_append_right (Nat.le_of_not_lt old), List.getElem?_map,
          List.getElem?_eq_getElem here_]
        rfl
  · intro v q before read
    rw [numbered] at before
    rw [List.getElem?_append_left (by omega)] at read
    have words := built.words
    by_cases own : v = t.first.length
    · subst own
      rw [here, Option.some.injEq] at read
      subst read
      refine ⟨?_, fun k member => ?_, ?_, ?_⟩
      · rw [wordOf_numberedAs word runs (by omega), if_pos rfl]
        exact isWord
      · rw [kids_added word runs small, List.mem_range'_1] at member
        have here_ : k - t.label.length < runs.length := by omega
        have label := labelOf_added (t := t) word runs (List.getElem?_eq_getElem here_)
        have index : t.label.length + (k - t.label.length) = k := by omega
        rw [index] at label
        rw [label, List.getElem?_append_right (by omega), ← labels, List.getElem?_map,
          List.getElem?_eq_getElem here_]
        rfl
      · rw [row_added word runs small]
        exact ascending
      · rw [row_added word runs small]
        exact complete
    · have earlier : v < t.first.length := by omega
      refine (built.numbered v q earlier read).kept ?_ ?_ ?_
      · rw [wordOf_numberedAs word runs (by omega), if_neg own]
      · rw [Trie.closed, Trie.numberedAs, Trie.closed, List.append_assoc, List.singleton_append]
        exact kids_closed earlier
      · intro k kIn
        exact labelOf_kept word runs (by omega)

theorem Built.step (built : Built low L t span paths) (lexicon : Lexicon labels starts low L)
    (few : nodeCount L < 2 ^ 32) {lo hi d : Nat} {rest : List (Nat × Nat × Nat)}
    (next : span = (lo, hi, d) :: rest) :
    ∃ more, Built low L (Trie.number labels starts t lo hi d).1
      (rest ++ (Trie.number labels starts t lo hi d).2) (paths ++ more) := by
  obtain ⟨p, here, spans⟩ := built.spans 0 (lo, hi, d) (by rw [next]; rfl)
  rw [Nat.add_zero] at here
  have inside : t.first.length < paths.length := (List.getElem?_eq_some_iff.mp here).1
  obtain ⟨each, ascending, complete⟩ := lexicon.sortedRuns_spec spans _ rfl
  have depth : d = p.length := spans.depth
  -- A node's word is no key's until it is numbered.
  have unset : t.word = t.word.set t.first.length NO_WORD := by
    have fresh := built.fresh t.first.length (Nat.le_refl _) inside
    obtain ⟨wordIn, wordExact⟩ := List.getElem?_eq_some_iff.mp fresh
    exact (wordExact ▸ List.set_getElem_self wordIn).symm
  have whole : Trie.number labels starts t lo hi d =
      (t.numberedAs (if lo < hi ∧ starts.getD (lo + 1) 0 - starts.getD lo 0 = d then lo
          else NO_WORD) (Trie.sortedRuns labels starts d
          (if lo < hi ∧ starts.getD (lo + 1) 0 - starts.getD lo 0 = d then lo + 1 else lo) hi),
        (Trie.sortedRuns labels starts d
          (if lo < hi ∧ starts.getD (lo + 1) 0 - starts.getD lo 0 = d then lo + 1 else lo)
          hi).map fun r => (r.2.1, r.2.2, (d + 1) % 2 ^ 32)) := by
    rw [Trie.number, Trie.numberedAs]
    by_cases spelled : lo < hi ∧ starts.getD (lo + 1) 0 - starts.getD lo 0 = d
    · simp only [if_pos spelled]
    · simp only [if_neg spelled]
      rw [← unset]
  have deep : d + 1 < 2 ^ 32 := by
    have shallow := length_lt_nodeCount (built.named p (List.mem_of_getElem? here))
    omega
  rw [whole, Nat.mod_eq_of_lt deep]
  exact ⟨_, built.numberedAs few next here (lexicon.isWord spans) each ascending complete⟩

/-- A finished trie: every prefix of a key is one node. -/
structure TrieOf (low : Nat) (L : List (List Nat)) (t : Trie) (paths : List (List Nat)) : Prop where
  labels : t.label.length = paths.length
  small : paths.length < 2 ^ 32
  root : paths[0]? = some []
  distinct : paths.Nodup
  named : ∀ p ∈ paths, p ∈ prefixes L
  node : ∀ v p, paths[v]? = some p → Node low L t paths v p

theorem buildFrom_trieOf (lexicon : Lexicon labels starts low L) (few : nodeCount L < 2 ^ 32)
    (fuel : Nat) (built : Built low L t span paths)
    (enough : labels.length + 1 ≤ fuel + t.first.length) :
    ∃ trie paths, Trie.buildFrom labels starts fuel span t = some trie ∧
      TrieOf low L trie paths := by
  induction fuel generalizing t span paths with
  | zero =>
      -- Every node is a prefix, and a prefix is a label read or the root.
      have nodes := length_le_nodeCount built.distinct built.named
      have most := nodeCount_le L
      have waiting := built.waiting
      have total := lexicon.labels_length
      have none_left : span = [] := List.length_eq_zero_iff.mp (by omega)
      subst none_left
      rw [List.length_nil] at waiting
      exact ⟨_, paths, rfl, built.labels, by omega, built.root, built.distinct, built.named,
        fun v p read => built.numbered v p
          (by have inside := (List.getElem?_eq_some_iff.mp read).1; omega) read⟩
  | succ fuel ih =>
      cases span with
      | nil =>
          have nodes := length_le_nodeCount built.distinct built.named
          have waiting := built.waiting
          rw [List.length_nil] at waiting
          exact ⟨_, paths, rfl, built.labels, by omega, built.root, built.distinct, built.named,
            fun v p read => built.numbered v p
              (by have inside := (List.getElem?_eq_some_iff.mp read).1; omega) read⟩
      | cons s rest =>
          obtain ⟨lo, hi, d⟩ := s
          obtain ⟨more, next⟩ := built.step lexicon few rfl
          refine ih next ?_
          rw [Trie.number, List.length_append, List.length_singleton]
          omega

/-- The trie of a lexicon of fewer nodes than a node's number can name. -/
theorem Lexicon.build (lexicon : Lexicon labels starts low L) (few : nodeCount L < 2 ^ 32) :
    ∃ trie paths, Trie.build labels starts low = some trie ∧ TrieOf low L trie paths := by
  have starts_length := lexicon.starts_length
  have low_le := lexicon.low_le
  have root : Spans low L [] (low, starts.length - 1, 0) :=
    ⟨rfl, Nat.le_refl _, by simp only; omega, by simp only; omega, fun i above below =>
      ⟨fun _ => List.nil_prefix, fun _ => ⟨above, by simp only; omega⟩⟩⟩
  have start : Built low L { label := [0], word := [NO_WORD], first := [] }
      [(low, starts.length - 1, 0)] [[]] := by
    refine ⟨rfl, rfl, rfl, rfl, List.nodup_singleton _, ?_, ?_, ?_, ?_, ?_⟩
    · intro p member
      rw [List.mem_singleton] at member
      exact mem_prefixes.mpr (.inl member)
    · intro i s read
      obtain ⟨inside, exact⟩ := List.getElem?_eq_some_iff.mp read
      have only : i = 0 := by simpa using inside
      subst only
      exact ⟨[], rfl, exact ▸ root⟩
    · intro k _ below
      have only : k = 0 := by simpa using below
      subst only
      rfl
    · intro k positive below
      have only : k = 0 := by simpa using below
      omega
    · intro v p before
      exact absurd before (Nat.not_lt_zero v)
  exact buildFrom_trieOf lexicon few _ start (Nat.le_refl _)

end Loop

end Lexindex.DoubleArray
