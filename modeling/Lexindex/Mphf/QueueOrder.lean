import Mathlib
import Lexindex.Mphf.Queue

/-!
# Every bucket with keys, once

The queue's set bits are the buckets queued, none before its cursor, and a round
takes one of them away.  So the rounds end, and the buckets they took are those
with keys, each once and each inside the window it was taken from.
-/

set_option autoImplicit false

namespace Lexindex.Mphf.Queue

open Priority

section

variable {slice last : Nat} {size : Nat → Nat}

/-- The queue and the buckets queued agree. -/
structure Valid (slice last : Nat) (size : Nat → Nat) (q : Queue) : Prop where
  queueLength : q.queue.length = divCeil ((last + lead slice) * classes) 64
  liveLength : q.live.length = last / 64 + 1
  pushedLe : q.pushed ≤ last
  frontLe : q.front ≤ q.pushed
  pushedWindow : q.pushed ≤ q.front + runWindow
  live : ∀ b, streamBit q.live b = true → q.front ≤ b ∧ b < q.pushed ∧ size b ≠ 0
  queued : ∀ i, streamBit q.queue i = true ↔
    ∃ b, streamBit q.live b = true ∧ i = bitFor slice size b
  cursor : ∀ i, streamBit q.queue i = true → q.cursor * 64 ≤ i

/-- A bucket still to be taken: queued, or with keys and not yet pushed. -/
def Todo (last : Nat) (size : Nat → Nat) (q : Queue) (b : Nat) : Prop :=
  streamBit q.live b = true ∨ q.pushed ≤ b ∧ b < last ∧ size b ≠ 0

theorem streamBit_replicate (k b : Nat) : streamBit (List.replicate k 0#64) b = false := by
  rw [streamBit, List.getD_eq_getElem?_getD, List.getElem?_replicate]
  split <;> simp

theorem start_valid : (start slice last).Valid slice last size where
  queueLength := List.length_replicate ..
  liveLength := List.length_replicate ..
  pushedLe := Nat.zero_le _
  frontLe := Nat.zero_le _
  pushedWindow := Nat.zero_le _
  live := by
    intro b set
    rw [start, streamBit_replicate] at set
    cases set
  queued := by
    intro i
    rw [start, streamBit_replicate]
    simp [streamBit_replicate]
  cursor := by
    intro i set
    rw [start, streamBit_replicate] at set
    cases set

theorem start_todo {b : Nat} :
    (start slice last).Todo last size b ↔ b < last ∧ size b ≠ 0 := by
  rw [Todo, start, streamBit_replicate]
  simp

/-! ## The lowest bucket queued -/

theorem firstLive_spec (live : List Word) (pushed : Nat) :
    ∀ (w : Nat) (word : Word),
      (word ≠ 0#64 → firstLive live pushed w word = (w, word)) ∧
      (word = 0#64 → (firstLive live pushed w word).2 = 0#64 ∧
          (∀ k, w < k → k * 64 < pushed → live.getD k 0#64 = 0#64) ∨
        (firstLive live pushed w word).2 ≠ 0#64 ∧ w < (firstLive live pushed w word).1 ∧
          (firstLive live pushed w word).2 = live.getD (firstLive live pushed w word).1 0#64 ∧
          ∀ k, w < k → k < (firstLive live pushed w word).1 → live.getD k 0#64 = 0#64) := by
  intro w word
  induction w, word using firstLive.induct live pushed with
  | case1 w word more ih =>
      obtain ⟨zero, more⟩ := more
      rw [firstLive, if_pos ⟨zero, more⟩]
      refine ⟨fun nonzero => absurd zero nonzero, fun _ => ?_⟩
      by_cases next : live.getD (w + 1) 0#64 = 0#64
      · rcases ih.2 next with ⟨none, rest⟩ | ⟨some, later, exact, rest⟩
        · refine Or.inl ⟨none, ?_⟩
          intro k above below
          by_cases here : k = w + 1
          · rw [here]
            exact next
          · exact rest k (by omega) below
        · refine Or.inr ⟨some, by omega, exact, ?_⟩
          intro k above below
          by_cases here : k = w + 1
          · rw [here]
            exact next
          · exact rest k (by omega) below
      · rw [ih.1 next]
        refine Or.inr ⟨next, Nat.lt_succ_self w, rfl, ?_⟩
        intro k above below
        simp only at below
        omega
  | case2 w word stop =>
      rw [firstLive, if_neg stop]
      refine ⟨fun _ => rfl, fun zero => Or.inl ⟨zero, ?_⟩⟩
      intro k above below
      exfalso
      apply stop
      exact ⟨zero, by omega⟩

theorem streamBit_of_word {words : List Word} {w i : Nat} (small : i < 64) :
    streamBit words (w * 64 + i) = (words.getD w 0#64).getLsbD i := by
  have wordIs : (w * 64 + i) / 64 = w := by omega
  have bitIs : (w * 64 + i) % 64 = i := by omega
  rw [streamBit, wordIs, bitIs]

theorem ctz_le {x : Word} {i : Nat} (set : x.getLsbD i = true) : x.ctz.toNat ≤ i := by
  by_contra before
  rw [BitVec.getLsbD_false_of_lt_ctz (by omega)] at set
  cases set

theorem streamBit_zero_word {words : List Word} {b : Nat}
    (zero : words.getD (b / 64) 0#64 = 0#64) : streamBit words b = false := by
  rw [streamBit, zero, BitVec.getLsbD_zero]

theorem skipEmpty_spec (size : Nat → Nat) (last : Nat) :
    ∀ pushed, pushed ≤ last → pushed ≤ skipEmpty size last pushed ∧
      skipEmpty size last pushed ≤ last ∧
      (∀ b, pushed ≤ b → b < skipEmpty size last pushed → size b = 0) ∧
      (skipEmpty size last pushed < last → size (skipEmpty size last pushed) ≠ 0) := by
  intro pushed
  induction pushed using skipEmpty.induct size last with
  | case1 pushed more ih =>
      intro _
      obtain ⟨from_, upTo, empty, found⟩ := ih (by omega)
      rw [skipEmpty, if_pos more]
      refine ⟨by omega, upTo, ?_, found⟩
      intro b above below
      by_cases here : b = pushed
      · rw [here]
        exact more.2
      · exact empty b (by omega) below
  | case2 pushed stop =>
      intro le
      rw [skipEmpty, if_neg stop]
      refine ⟨Nat.le_refl _, le, by omega, ?_⟩
      intro inside empty
      exact stop ⟨inside, empty⟩

/-- What the front is once it has advanced: the lowest bucket queued, or the next to push. -/
theorem Valid.advance {q : Queue} (valid : q.Valid slice last size) :
    (q.advance size last).Valid slice last size ∧
      (∀ b, (q.advance size last).Todo last size b ↔ q.Todo last size b) ∧
      q.front ≤ (q.advance size last).front ∧
      (streamBit (q.advance size last).live (q.advance size last).front = true ∨
        (q.advance size last).front = (q.advance size last).pushed ∧
          ((q.advance size last).pushed < last → size (q.advance size last).pushed ≠ 0) ∧
          ∀ b, streamBit (q.advance size last).live b = false) := by
  have masked : ∀ i, i < 64 →
      (q.live.getD (q.front / 64) 0#64 &&& (BitVec.allOnes 64 <<< (q.front % 64))).getLsbD i =
        (streamBit q.live (q.front / 64 * 64 + i) && decide (q.front % 64 ≤ i)) := by
    intro i small
    rw [BitVec.getLsbD_and, BitVec.getLsbD_shiftLeft, BitVec.getLsbD_allOnes,
      streamBit_of_word small]
    congr 1
    by_cases above : q.front % 64 ≤ i
    · simp only [small, decide_true, above, Bool.true_and, Bool.and_eq_true, Bool.not_eq_true',
        decide_eq_false_iff_not, decide_eq_true_eq]
      omega
    · simp only [small, decide_true, above, decide_false, Bool.true_and, Bool.and_eq_false_iff,
        Bool.not_eq_false', decide_eq_true_eq]
      omega
  generalize wordIs : q.live.getD (q.front / 64) 0#64 &&&
    (BitVec.allOnes 64 <<< (q.front % 64)) = word at *
  have noneBelow : ∀ b, streamBit q.live b = true → b / 64 = q.front / 64 →
      word.getLsbD (b % 64) = true := by
    intro b set sameWord
    have above := (valid.live b set).1
    have whole : q.front / 64 * 64 + b % 64 = b := by omega
    rw [masked _ (Nat.mod_lt _ (by decide)), whole, set, Bool.true_and, decide_eq_true_eq]
    omega
  obtain ⟨ofSome, ofZero⟩ := firstLive_spec q.live q.pushed (q.front / 64) word
  by_cases found : (firstLive q.live q.pushed (q.front / 64) word).2 = 0#64
  · have noneLive : ∀ b, streamBit q.live b = false := by
      intro b
      by_contra set
      rw [Bool.not_eq_false] at set
      obtain ⟨above, below, _⟩ := valid.live b set
      have zero : word = 0#64 := by
        by_contra nonzero
        rw [ofSome nonzero] at found
        exact nonzero found
      rcases ofZero zero with ⟨_, rest⟩ | ⟨nonzero, _⟩
      · by_cases sameWord : b / 64 = q.front / 64
        · have inWord := noneBelow b set sameWord
          rw [zero, BitVec.getLsbD_zero] at inWord
          cases inWord
        · rw [streamBit_zero_word (rest (b / 64) (by omega) (by omega))] at set
          cases set
      · exact nonzero found
    obtain ⟨from_, upTo, empty, keyed⟩ := skipEmpty_spec size last q.pushed valid.pushedLe
    have unfolded : q.advance size last =
        { q with front := skipEmpty size last q.pushed, pushed := skipEmpty size last q.pushed } := by
      rw [Queue.advance]
      simp only [wordIs]
      rw [if_pos found]
    rw [unfolded]
    refine ⟨?_, ?_, ?_, Or.inr ⟨rfl, keyed, noneLive⟩⟩
    · refine ⟨valid.queueLength, valid.liveLength, upTo, Nat.le_refl _, Nat.le_add_right _ _, ?_, valid.queued,
        valid.cursor⟩
      intro b set
      rw [noneLive b] at set
      cases set
    · intro b
      simp only [Todo, noneLive b, Bool.false_eq_true, false_or]
      constructor
      · rintro ⟨above, below, keys⟩
        exact ⟨by omega, below, keys⟩
      · rintro ⟨above, below, keys⟩
        refine ⟨?_, below, keys⟩
        by_contra under
        exact keys (empty b above (by omega))
    · exact Nat.le_trans valid.frontLe from_
  · have unfolded : q.advance size last =
        { q with front := (firstLive q.live q.pushed (q.front / 64) word).1 * 64 +
            (firstLive q.live q.pushed (q.front / 64) word).2.ctz.toNat } := by
      rw [Queue.advance]
      simp only [wordIs]
      rw [if_neg found]
    have lowest : q.front ≤ (q.advance size last).front ∧
        streamBit q.live (q.advance size last).front = true ∧
        ∀ b, streamBit q.live b = true → (q.advance size last).front ≤ b := by
      rw [unfolded]
      by_cases zero : word = 0#64
      · rcases ofZero zero with ⟨none, _⟩ | ⟨nonzero, later, exact, rest⟩
        · exact absurd none found
        · have set := BitVec.getLsbD_true_ctz_of_ne_zero nonzero
          have small := BitVec.lt_of_getLsbD set
          have below := fun i => @ctz_le (q.live.getD (firstLive q.live q.pushed (q.front / 64) word).1
            0#64) i
          rw [← exact] at below
          rw [exact, ← streamBit_of_word (by rwa [← exact]), ← exact] at set
          simp only
          refine ⟨by omega, set, ?_⟩
          intro b bSet
          have above := (valid.live b bSet).1
          have pastWord : q.front / 64 < b / 64 := by
            by_contra under
            have inWord := noneBelow b bSet (by omega)
            rw [zero, BitVec.getLsbD_zero] at inWord
            cases inWord
          by_cases sameWord : b / 64 = (firstLive q.live q.pushed (q.front / 64) word).1
          · have inWord : (firstLive q.live q.pushed (q.front / 64) word).2.getLsbD (b % 64) =
                true := by
              rw [exact, ← sameWord]
              exact bSet
            have ctzLe := below _ inWord
            omega
          · have notEarlier : ¬ b / 64 < (firstLive q.live q.pushed (q.front / 64) word).1 := by
              intro earlier
              rw [streamBit_zero_word (rest _ pastWord earlier)] at bSet
              cases bSet
            omega
      · have set := BitVec.getLsbD_true_ctz_of_ne_zero zero
        have small := BitVec.lt_of_getLsbD set
        have bit := set
        rw [masked _ small, Bool.and_eq_true, decide_eq_true_eq] at bit
        rw [ofSome zero]
        simp only
        refine ⟨by omega, bit.1, ?_⟩
        intro b bSet
        have above := (valid.live b bSet).1
        by_cases sameWord : b / 64 = q.front / 64
        · have ctzLe := ctz_le (noneBelow b bSet sameWord)
          omega
        · omega
    obtain ⟨from_, set, least⟩ := lowest
    obtain ⟨_, below, _⟩ := valid.live _ set
    have same : (q.advance size last).live = q.live ∧ (q.advance size last).pushed = q.pushed ∧
        (q.advance size last).queue = q.queue ∧ (q.advance size last).cursor = q.cursor := by
      rw [unfolded]
      exact ⟨rfl, rfl, rfl, rfl⟩
    obtain ⟨live, pushed, queue, cursor⟩ := same
    refine ⟨?_, ?_, from_, Or.inl (by rw [live]; exact set)⟩
    · have window := valid.pushedWindow
      refine ⟨by rw [queue]; exact valid.queueLength, by rw [live]; exact valid.liveLength,
        by rw [pushed]; exact valid.pushedLe, by rw [pushed]; exact Nat.le_of_lt below,
        by rw [pushed]; omega, ?_, by rw [queue, live]; exact valid.queued,
        by rw [queue, cursor]; exact valid.cursor⟩
      intro b bSet
      rw [live] at bSet
      rw [pushed]
      exact ⟨least b bSet, (valid.live b bSet).2⟩
    · intro b
      rw [Todo, Todo, live, pushed]

/-! ## Filling the window -/

theorem Valid.push {q : Queue} (valid : q.Valid slice last size) (below : q.pushed < last)
    (window : q.pushed < q.front + runWindow) :
    (q.push slice size).Valid slice last size ∧
      (∀ b, streamBit (q.push slice size).live b = true ↔
        streamBit q.live b = true ∨ b = q.pushed ∧ size b ≠ 0) := by
  have bitInside : bitFor slice size q.pushed / 64 < q.queue.length := by
    rw [valid.queueLength]
    exact bitFor_inside below
  have liveInside : q.pushed / 64 < q.live.length := by
    rw [valid.liveLength]
    omega
  unfold Queue.push
  by_cases empty : size q.pushed = 0
  · rw [if_pos empty]
    refine ⟨⟨valid.queueLength, valid.liveLength, below, Nat.le_succ_of_le valid.frontLe, window,
      ?_, valid.queued, valid.cursor⟩, ?_⟩
    · intro b set
      obtain ⟨above, under, keys⟩ := valid.live b set
      exact ⟨above, Nat.lt_succ_of_lt under, keys⟩
    · intro b
      constructor
      · exact Or.inl
      · rintro (set | ⟨rfl, keys⟩)
        · exact set
        · exact absurd empty keys
  · rw [if_neg empty]
    have liveIs : ∀ b, streamBit (setBit q.live q.pushed) b = true ↔
        streamBit q.live b = true ∨ b = q.pushed := by
      intro b
      rw [streamBit_setBit liveInside, Bool.or_eq_true, decide_eq_true_eq, or_comm]
    refine ⟨⟨?_, ?_, below, Nat.le_succ_of_le valid.frontLe, window, ?_, ?_, ?_⟩, ?_⟩
    · rw [setBit_length]
      exact valid.queueLength
    · rw [setBit_length]
      exact valid.liveLength
    · intro b set
      rcases (liveIs b).mp set with earlier | rfl
      · obtain ⟨above, under, keys⟩ := valid.live b earlier
        exact ⟨above, Nat.lt_succ_of_lt under, keys⟩
      · exact ⟨valid.frontLe, Nat.lt_succ_self _, empty⟩
    · intro i
      rw [streamBit_setBit bitInside, Bool.or_eq_true, decide_eq_true_eq, valid.queued]
      constructor
      · rintro (rfl | ⟨b, set, rfl⟩)
        · exact ⟨q.pushed, (liveIs _).mpr (Or.inr rfl), rfl⟩
        · exact ⟨b, (liveIs b).mpr (Or.inl set), rfl⟩
      · rintro ⟨b, set, rfl⟩
        rcases (liveIs b).mp set with earlier | rfl
        · exact Or.inr ⟨b, earlier, rfl⟩
        · exact Or.inl rfl
    · intro i set
      rw [streamBit_setBit bitInside, Bool.or_eq_true, decide_eq_true_eq] at set
      rcases set with rfl | set
      · simp only
        omega
      · have after := valid.cursor i set
        simp only
        omega
    · intro b
      rw [liveIs]
      constructor
      · rintro (earlier | rfl)
        · exact Or.inl earlier
        · exact Or.inr ⟨rfl, empty⟩
      · rintro (earlier | ⟨rfl, _⟩)
        · exact Or.inl earlier
        · exact Or.inr rfl

theorem push_front (q : Queue) : (q.push slice size).front = q.front := by
  unfold Queue.push
  split <;> rfl

theorem push_pushed (q : Queue) : (q.push slice size).pushed = q.pushed + 1 := by
  unfold Queue.push
  split <;> rfl

theorem Valid.pushTo :
    ∀ (count : Nat) {q : Queue}, q.Valid slice last size → q.pushed + count ≤ last →
      q.pushed + count ≤ q.front + runWindow →
      (pushTo slice size count q).Valid slice last size ∧
        (pushTo slice size count q).front = q.front ∧
        (pushTo slice size count q).pushed = q.pushed + count ∧
        ∀ b, streamBit (pushTo slice size count q).live b = true ↔
          streamBit q.live b = true ∨ q.pushed ≤ b ∧ b < q.pushed + count ∧ size b ≠ 0 := by
  intro count
  induction count with
  | zero =>
      intro q valid _ _
      refine ⟨valid, rfl, rfl, ?_⟩
      intro b
      rw [Queue.pushTo]
      constructor
      · exact Or.inl
      · rintro (set | ⟨above, below, _⟩)
        · exact set
        · omega
  | succ count ih =>
      intro q valid inside window
      obtain ⟨pushed, liveIs⟩ := valid.push (by omega) (by omega)
      obtain ⟨validAfter, front, pushedAfter, liveAfter⟩ :=
        ih pushed (by rw [push_pushed]; omega) (by rw [push_pushed, push_front]; omega)
      rw [Queue.pushTo]
      refine ⟨validAfter, by rw [front, push_front], by rw [pushedAfter, push_pushed]; omega, ?_⟩
      intro b
      rw [liveAfter, liveIs, push_pushed, or_assoc]
      apply or_congr_right
      constructor
      · rintro (⟨rfl, keys⟩ | ⟨above, below, keys⟩)
        · exact ⟨Nat.le_refl _, by omega, keys⟩
        · exact ⟨by omega, by omega, keys⟩
      · rintro ⟨above, below, keys⟩
        by_cases here : b = q.pushed
        · exact Or.inl ⟨here, keys⟩
        · exact Or.inr ⟨by omega, by omega, keys⟩

/-! ## Taking a bucket -/

theorem firstSet_spec (queue : List Word) :
    ∀ cursor, (∀ k, k < cursor → queue.getD k 0#64 = 0#64) →
      (∃ i, streamBit queue i = true) →
      ∃ w, firstSet queue cursor = some w ∧ queue.getD w 0#64 ≠ 0#64 ∧ w < queue.length ∧
        ∀ k, k < w → queue.getD k 0#64 = 0#64 := by
  intro cursor
  induction cursor using firstSet.induct queue with
  | case1 cursor inside zero ih =>
      intro before some
      rw [firstSet, if_pos inside, if_pos zero]
      apply ih _ some
      intro k below
      by_cases here : k = cursor
      · rw [here]
        exact zero
      · exact before k (by omega)
  | case2 cursor inside nonzero =>
      intro before _
      rw [firstSet, if_pos inside, if_neg nonzero]
      exact ⟨cursor, rfl, nonzero, inside, before⟩
  | case3 cursor outside =>
      rintro before ⟨i, set⟩
      exfalso
      by_cases early : i / 64 < cursor
      · rw [streamBit_zero_word (before _ early)] at set
        cases set
      · have past : queue.getD (i / 64) 0#64 = 0#64 := by
          rw [List.getD_eq_getElem?_getD, List.getElem?_eq_none (by omega)]
          rfl
        rw [streamBit_zero_word past] at set
        cases set

theorem streamBit_set {words : List Word} {w : Nat} (inside : w < words.length) (x : Word) (i : Nat) :
    streamBit (words.set w x) i = if i / 64 = w then x.getLsbD (i % 64) else streamBit words i := by
  rw [streamBit, List.getD_eq_getElem?_getD, List.getElem?_set]
  by_cases here : w = i / 64
  · rw [if_pos here, if_pos (by omega), if_pos here.symm]
    rfl
  · rw [if_neg here, if_neg (fun same => here same.symm), ← List.getD_eq_getElem?_getD]
    rfl

theorem Valid.take {q : Queue} (valid : q.Valid slice last size)
    (some_ : ∃ b, streamBit q.live b = true) :
    ∃ b after, q.take slice = some (b, after) ∧ streamBit q.live b = true ∧
      after.Valid slice last size ∧ after.front = q.front ∧ after.pushed = q.pushed ∧
      ∀ c, streamBit after.live c = true ↔ streamBit q.live c = true ∧ c ≠ b := by
  obtain ⟨b₀, set₀⟩ := some_
  have zeroBefore : ∀ k, k < q.cursor → q.queue.getD k 0#64 = 0#64 := by
    intro k below
    apply BitVec.eq_of_getLsbD_eq
    intro i small
    rw [← streamBit_of_word small, BitVec.getLsbD_zero]
    by_contra set
    have after := valid.cursor _ (Bool.not_eq_false _ ▸ set)
    omega
  obtain ⟨w, found, nonzero, inside, earlier⟩ :=
    firstSet_spec q.queue q.cursor zeroBefore ⟨_, (valid.queued _).mpr ⟨b₀, set₀, rfl⟩⟩
  have lowSet := BitVec.getLsbD_true_ctz_of_ne_zero nonzero
  have lowSmall := BitVec.lt_of_getLsbD lowSet
  have bitSet : streamBit q.queue (w * 64 + (q.queue.getD w 0#64).ctz.toNat) = true := by
    rw [streamBit_of_word lowSmall]
    exact lowSet
  obtain ⟨b, liveSet, bitIs⟩ := (valid.queued _).mp bitSet
  have bucketIs := bitFor_back slice size b
  rw [← bitIs] at bucketIs
  have queueAfter : ∀ i,
      streamBit (q.queue.set w (q.queue.getD w 0#64 &&& (q.queue.getD w 0#64 - 1#64))) i = true ↔
        streamBit q.queue i = true ∧ i ≠ bitFor slice size b := by
    intro i
    rw [streamBit_set inside, ← bitIs]
    by_cases here : i / 64 = w
    · have bitWord : streamBit q.queue i = (q.queue.getD w 0#64).getLsbD (i % 64) := by
        rw [streamBit, here]
      rw [if_pos here, clearLowest_getLsbD nonzero, bitWord, Bool.and_eq_true, Bool.not_eq_true',
        decide_eq_false_iff_not, and_comm]
      apply and_congr_right
      intro _
      rw [not_congr]
      omega
    · rw [if_neg here]
      refine ⟨fun set => ⟨set, ?_⟩, fun set => set.1⟩
      omega
  have liveAfter : ∀ c, streamBit (clearBit q.live b) c = true ↔
      streamBit q.live c = true ∧ c ≠ b := by
    intro c
    rw [streamBit_clearBit, Bool.and_eq_true, Bool.not_eq_true', decide_eq_false_iff_not, and_comm]
  refine ⟨b, { q with
    cursor := w
    queue := q.queue.set w (q.queue.getD w 0#64 &&& (q.queue.getD w 0#64 - 1#64))
    live := clearBit q.live b }, ?_, liveSet, ?_, rfl, rfl, liveAfter⟩
  · rw [Queue.take, found, Option.bind_eq_bind, Option.bind_some]
    simp only [bucketIs, Option.pure_def]
  · refine ⟨?_, ?_, valid.pushedLe, valid.frontLe, valid.pushedWindow, ?_, ?_, ?_⟩
    · rw [List.length_set]
      exact valid.queueLength
    · rw [clearBit_length]
      exact valid.liveLength
    · intro c set
      exact valid.live c ((liveAfter c).mp set).1
    · intro i
      rw [queueAfter, valid.queued]
      constructor
      · rintro ⟨⟨c, set, rfl⟩, apart⟩
        refine ⟨c, (liveAfter c).mpr ⟨set, ?_⟩, rfl⟩
        rintro rfl
        exact apart rfl
      · rintro ⟨c, set, rfl⟩
        obtain ⟨set, apart⟩ := (liveAfter c).mp set
        exact ⟨⟨c, set, rfl⟩, fun same => apart (bitFor_inj same)⟩
    · intro i set
      have stays := ((queueAfter i).mp set).1
      change w * 64 ≤ i
      by_contra before
      rw [streamBit_zero_word (earlier (i / 64) (by omega))] at stays
      cases stays

/-! ## Rounds -/

/-- A round takes one of the buckets still to be taken, inside its window, or there is none. -/
theorem Valid.pop {q : Queue} (valid : q.Valid slice last size) :
    (q.pop slice size last = some none ∧ ∀ b, ¬ q.Todo last size b) ∨
      ∃ b after, q.pop slice size last = some (some (b, after)) ∧ after.Valid slice last size ∧
        q.Todo last size b ∧ q.front ≤ after.front ∧
        (after.front ≤ b ∧ b < min last (after.front + runWindow)) ∧
        ∀ c, after.Todo last size c ↔ q.Todo last size c ∧ c ≠ b := by
  obtain ⟨advanced, sameTodo, frontLe, lowest⟩ := valid.advance
  have unfolded : q.pop slice size last =
      if (q.advance size last).front = last then some none
      else
        ((Queue.pushTo slice size
          (min last ((q.advance size last).front + runWindow) - (q.advance size last).pushed)
          (q.advance size last)).take slice).map some := rfl
  rw [unfolded]
  simp only [← sameTodo]
  generalize q.advance size last = p at *
  by_cases done : p.front = last
  · rw [if_pos done]
    refine Or.inl ⟨rfl, ?_⟩
    have full := advanced.pushedLe
    have front := advanced.frontLe
    rintro b (set | ⟨above, below, _⟩)
    · obtain ⟨above, below, _⟩ := advanced.live b set
      omega
    · omega
  · rw [if_neg done]
    right
    have pushedLe := advanced.pushedLe
    have frontLePushed := advanced.frontLe
    have window := advanced.pushedWindow
    have count : p.pushed + (min last (p.front + runWindow) - p.pushed) =
        min last (p.front + runWindow) := by omega
    obtain ⟨pushed, front, pushedIs, liveIs⟩ :=
      Valid.pushTo (min last (p.front + runWindow) - p.pushed) advanced
        (by rw [count]; exact Nat.min_le_left _ _) (by rw [count]; exact Nat.min_le_right _ _)
    rw [count] at pushedIs liveIs
    have someLive : ∃ b, streamBit (Queue.pushTo slice size
        (min last (p.front + runWindow) - p.pushed) p).live b = true := by
      rcases lowest with set | ⟨atPushed, keyed, _⟩
      · exact ⟨p.front, (liveIs _).mpr (Or.inl set)⟩
      · refine ⟨p.pushed, (liveIs _).mpr (Or.inr ⟨Nat.le_refl _, ?_, keyed (by omega)⟩)⟩
        simp only [runWindow]
        omega
    obtain ⟨b, after, taken, liveB, validAfter, frontAfter, pushedAfter, liveAfter⟩ :=
      pushed.take someLive
    have bounds := pushed.live b liveB
    have todoAfter : ∀ c, (Queue.pushTo slice size
        (min last (p.front + runWindow) - p.pushed) p).Todo last size c ↔ p.Todo last size c := by
      intro c
      rw [Todo, Todo, liveIs, pushedIs, or_assoc]
      apply or_congr_right
      constructor
      · rintro (⟨above, below, keys⟩ | ⟨above, below, keys⟩)
        · exact ⟨above, by omega, keys⟩
        · exact ⟨by omega, below, keys⟩
      · rintro ⟨above, below, keys⟩
        by_cases inWindow : c < min last (p.front + runWindow)
        · exact Or.inl ⟨above, inWindow, keys⟩
        · exact Or.inr ⟨by omega, below, keys⟩
    rw [taken]
    refine ⟨b, after, rfl, validAfter, (todoAfter b).mp (Or.inl liveB), by omega, ?_, ?_⟩
    · rw [frontAfter, front]
      rw [front, pushedIs] at bounds
      exact ⟨bounds.1, bounds.2.1⟩
    · intro c
      rw [← todoAfter, Todo, liveAfter, pushedAfter, Todo]
      have notLater : b < p.pushed ∨ b < min last (p.front + runWindow) := by
        rw [pushedIs] at bounds
        exact Or.inr bounds.2.1
      rw [pushedIs] at *
      constructor
      · rintro (⟨set, apart⟩ | ⟨above, below, keys⟩)
        · exact ⟨Or.inl set, apart⟩
        · exact ⟨Or.inr ⟨above, below, keys⟩, by omega⟩
      · rintro ⟨set | later, apart⟩
        · exact Or.inl ⟨set, apart⟩
        · exact Or.inr later

/-! ## The whole order -/

/-- The buckets the rounds take, in order; `none` when they do not end in `fuel` rounds. -/
def orderFrom (slice : Nat) (size : Nat → Nat) (last : Nat) : Nat → Queue → Option (List Nat)
  | 0, _ => none
  | fuel + 1, q => do
      match ← q.pop slice size last with
      | none => pure []
      | some (b, q) => do
          let rest ← orderFrom slice size last fuel q
          pure (b :: rest)

def order (slice : Nat) (size : Nat → Nat) (last : Nat) : Option (List Nat) :=
  orderFrom slice size last (last + 1) (start slice last)

theorem Valid.todo_lt {q : Queue} (valid : q.Valid slice last size) {b : Nat}
    (todo : q.Todo last size b) : b < last := by
  have pushedLe := valid.pushedLe
  rcases todo with set | ⟨_, below, _⟩
  · have under := (valid.live b set).2.1
    omega
  · exact below

open Classical in
/-- How many buckets are still to be taken. -/
noncomputable def left (last : Nat) (size : Nat → Nat) (q : Queue) : Nat :=
  ((Finset.range last).filter fun b => q.Todo last size b).card

theorem Valid.left_lt {q after : Queue} (valid : q.Valid slice last size) {b : Nat}
    (todo : q.Todo last size b)
    (todoAfter : ∀ c, after.Todo last size c ↔ q.Todo last size c ∧ c ≠ b) :
    after.left last size < q.left last size := by
  classical
  apply Finset.card_lt_card
  rw [Finset.ssubset_iff_of_subset]
  · refine ⟨b, Finset.mem_filter.mpr ⟨Finset.mem_range.mpr (valid.todo_lt todo), todo⟩, ?_⟩
    intro member
    exact ((todoAfter b).mp (Finset.mem_filter.mp member).2).2 rfl
  · intro c member
    rw [Finset.mem_filter] at member ⊢
    exact ⟨member.1, ((todoAfter c).mp member.2).1⟩

theorem Valid.order {fuel : Nat} :
    ∀ {q : Queue}, q.Valid slice last size → q.left last size < fuel →
      ∃ taken, orderFrom slice size last fuel q = some taken ∧ taken.Nodup ∧
        ∀ b, b ∈ taken ↔ q.Todo last size b := by
  induction fuel with
  | zero =>
      intro q _ enough
      exact absurd enough (Nat.not_lt_zero _)
  | succ fuel ih =>
      intro q valid enough
      rcases valid.pop with ⟨popped, none⟩ | ⟨b, after, popped, validAfter, todo, _, _, todoAfter⟩
      · refine ⟨[], ?_, List.nodup_nil, ?_⟩
        · rw [orderFrom, popped]
          rfl
        · intro b
          simp [none b]
      · have fewer := valid.left_lt todo todoAfter
        obtain ⟨rest, ordered, nodup, members⟩ := ih validAfter (by omega)
        refine ⟨b :: rest, ?_, ?_, ?_⟩
        · rw [orderFrom, popped, Option.bind_eq_bind, Option.bind_some]
          simp only [ordered, Option.bind_eq_bind, Option.bind_some, Option.pure_def]
        · rw [List.nodup_cons]
          refine ⟨?_, nodup⟩
          rw [members, todoAfter]
          exact fun again => again.2 rfl
        · intro c
          rw [List.mem_cons, members, todoAfter]
          constructor
          · rintro (rfl | ⟨later, _⟩)
            · exact todo
            · exact later
          · intro queued
            by_cases here : c = b
            · exact Or.inl here
            · exact Or.inr ⟨queued, here⟩

/-- A run takes each of its buckets with keys once, and no other. -/
theorem order_exact (slice : Nat) (size : Nat → Nat) (last : Nat) :
    ∃ taken, order slice size last = some taken ∧ taken.Nodup ∧
      ∀ b, b ∈ taken ↔ b < last ∧ size b ≠ 0 := by
  classical
  have few : (start slice last).left last size ≤ last := by
    have subset := Finset.card_filter_le (Finset.range last)
      (fun b => (start slice last).Todo last size b)
    rw [Finset.card_range] at subset
    exact subset
  obtain ⟨taken, ordered, nodup, members⟩ :=
    (@start_valid slice last size).order (Nat.lt_succ_of_le few)
  refine ⟨taken, ordered, nodup, ?_⟩
  intro b
  rw [members, start_todo]

end

end Lexindex.Mphf.Queue
