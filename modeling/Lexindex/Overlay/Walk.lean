import Mathlib
import Lexindex.Overlay.Blob
import Lexindex.Overlay.Refines

/-!
# Reading additions back

The additions of a blob are pushed one by one.  The walk refuses them, pushes them all, or
comes to one the arena has no room for, which the source does not expect.
-/

set_option autoImplicit false

namespace Lexindex.Overlay

open Mphf (IndexError)

theorem record_length (key : String) : (record key).length = 4 + (bytesOf key).length := by
  rw [record, List.length_append, leBytes_length]

/-- A record is read back from where it starts. -/
theorem readAddition_record {front rest : List UInt8} {key : String}
    (short : (bytesOf key).length < 2 ^ 32) :
    readAddition (front ++ (record key ++ rest)) front.length =
      .ok (key, front.length + (record key).length) := by
  have len : readU32 (front ++ (record key ++ rest)) front.length = (bytesOf key).length := by
    rw [readU32, List.drop_left, record, List.append_assoc]
    exact leNat_here short
  have bytes : ((front ++ (record key ++ rest)).drop (front.length + 4)).take
      (bytesOf key).length = bytesOf key := by
    rw [← List.drop_drop, List.drop_left, record, List.append_assoc,
      List.drop_left' (leBytes_length ..), List.take_left]
  have room : ¬ (front ++ (record key ++ rest)).length < front.length + 4 := by
    rw [List.length_append, List.length_append, record_length]
    omega
  have more : ¬ (front ++ (record key ++ rest)).length <
      front.length + 4 + (bytesOf key).length := by
    rw [List.length_append, List.length_append, record_length]
    omega
  rw [readAddition, len]
  simp only
  rw [bytes, fromUtf8_bytesOf, refuse, refuse, if_neg room, if_neg more, record_length,
    ← Nat.add_assoc]
  rfl

/-- What is read is a record. -/
theorem readAddition_ok {bytes : List UInt8} {at_ next : Nat} {key : String}
    (read : readAddition bytes at_ = .ok (key, next)) :
    ∃ rest, bytes.drop at_ = record key ++ rest ∧ (bytesOf key).length < 2 ^ 32 ∧
      next = at_ + (record key).length := by
  simp only [readAddition, bind_eq_ok, refuse_eq_ok, okOr_eq_ok, pure_eq_ok] at read
  obtain ⟨_, room, _, more, string, decoded, same⟩ := read
  rw [Prod.mk.injEq] at same
  obtain ⟨rfl, rfl⟩ := same
  have four : ((bytes.drop at_).take 4).length = 4 := by
    rw [List.length_take, List.length_drop]
    omega
  have spelled : bytesOf string = (bytes.drop (at_ + 4)).take (readU32 bytes at_) := by
    rw [fromUtf8, String.fromUTF8?] at decoded
    split at decoded
    · rw [Option.some.injEq] at decoded
      rw [← decoded, bytesOf, String.fromUTF8]
    · cases decoded
  have size : (bytesOf string).length = readU32 bytes at_ := by
    rw [spelled, List.length_take, List.length_drop]
    omega
  have written : leBytes 4 (bytesOf string).length = (bytes.drop at_).take 4 := by
    have back := leBytes_leNat ((bytes.drop at_).take 4)
    rw [four] at back
    rw [size, readU32, back]
  refine ⟨bytes.drop (at_ + 4 + readU32 bytes at_), ?_, ?_, ?_⟩
  · rw [record, written, spelled, List.append_assoc, ← List.drop_drop (i := readU32 bytes at_),
      List.take_append_drop, ← List.drop_drop, List.take_append_drop]
  · rw [size, readU32]
    exact leNat_take_lt 4 _
  · rw [record_length, size, Nat.add_assoc]

section Push

variable {I : Type} {hash : List UInt8 → UInt64}

/-- Keys pushed in turn. -/
def pushAll (hash : List UInt8 → UInt64) (keys : List String) (ov : Overlay I) :
    Option (Overlay I) :=
  keys.foldlM (fun ov key => (ov.pushAdded hash key).map Prod.snd) ov

theorem pushAll_append (keys : List String) (key : String) (ov : Overlay I) :
    pushAll hash (keys ++ [key]) ov =
      (pushAll hash keys ov).bind fun ov => (ov.pushAdded hash key).map Prod.snd := by
  rw [pushAll, List.foldlM_append]
  refine congrArg _ (funext fun ov => ?_)
  rw [List.foldlM_cons]
  cases (ov.pushAdded hash key).map Prod.snd <;> rfl

/-- A push looks at neither the tombstones nor the count. -/
theorem pushAdded_marked (ov : Overlay I) (key : String) (words : List Word) (live : Nat) :
    ({ ov with dead := words, live := live } : Overlay I).pushAdded hash key =
      (ov.pushAdded hash key).map fun pushed =>
        (pushed.1, { pushed.2 with dead := words, live := live }) := by
  rw [pushAdded, pushAdded]
  simp only
  split
  · rfl
  · cases ov.addedLookup.lookup (hash (bytesOf key)) <;> rfl

theorem pushAll_marked (keys : List String) : ∀ (ov : Overlay I) (words : List Word) (live : Nat),
    pushAll hash keys { ov with dead := words, live := live } =
      (pushAll hash keys ov).map fun pushed => { pushed with dead := words, live := live } := by
  induction keys with
  | nil => exact fun _ _ _ => rfl
  | cons key keys ih =>
      intro ov words live
      rw [pushAll, pushAll, List.foldlM_cons, List.foldlM_cons, pushAdded_marked]
      cases ov.pushAdded hash key with
      | none => rfl
      | some pushed => exact ih pushed.2 words live

/-- A push leaves the tombstones and the count. -/
theorem pushAdded_kept {ov pushed : Overlay I} {key : String} {i : Nat}
    (result : ov.pushAdded hash key = some (i, pushed)) :
    pushed.dead = ov.dead ∧ pushed.live = ov.live ∧ pushed.base = ov.base := by
  rw [pushAdded] at result
  simp only at result
  split at result
  · cases result
  · cases found : ov.addedLookup.lookup (hash (bytesOf key)) with
    | none =>
        rw [found, Option.some.injEq, Prod.mk.injEq] at result
        rw [← result.2]
        exact ⟨rfl, rfl, rfl⟩
    | some entry =>
        rw [found, Option.some.injEq, Prod.mk.injEq] at result
        rw [← result.2]
        exact ⟨rfl, rfl, rfl⟩

end Push

section Walk

variable {I : Type} [OverlayBlob I] {hash : List UInt8 → UInt64} {additions : List UInt8}

/-- The base does not hold the keys, as far as it can tell. -/
def Strangers (base : I) (keys : List String) : Prop :=
  OverlayBlob.exactMembership I = true → ∀ key ∈ keys, OverlayBase.baseId base key = none

/-- The walk comes to a readable addition, new to the base and to those before it, whose record
starts four gibibytes or more into the region. -/
def Crowded (base : I) (additions : List UInt8) (count : Nat) : Prop :=
  ∃ keys key, keys.length < count ∧ (keys ++ [key]).flatMap record <+: additions ∧
    (keys ++ [key]).Nodup ∧ (∀ k ∈ keys ++ [key], (bytesOf k).length < 2 ^ 32) ∧
    Strangers base (keys ++ [key]) ∧ 2 ^ 32 ≤ (keys.flatMap record).length

variable {ov : Overlay I} {keys : List String}

omit [OverlayBlob I] in
theorem Arena.data_length (arena : Arena hash ov keys) :
    ov.addedStarts.length = keys.length ∧ 4 * keys.length ≤ ov.addedData.length := by
  have count : ov.addedStarts.length = keys.length := by
    rw [arena.starts, List.length_map, List.length_range]
  refine ⟨count, ?_⟩
  rw [arena.data]
  clear arena count
  induction keys with
  | nil => exact Nat.zero_le _
  | cons key keys ih =>
      rw [List.flatMap_cons, List.length_append, record_length, List.length_cons]
      omega

omit [OverlayBlob I] in
/-- A key that the arena has no room for starts past its bound. -/
theorem Arena.full (arena : Arena hash ov keys) {key : String}
    (short : (bytesOf key).length < 2 ^ 32) (full : ¬ Roomy ov key) :
    2 ^ 32 ≤ (keys.flatMap record).length := by
  obtain ⟨count, size⟩ := arena.data_length
  have data := congrArg List.length arena.data
  by_contra small
  exact full ⟨by omega, by omega, short⟩

omit [OverlayBlob I] in
theorem addedIndex_none (arena : Arena hash ov keys) {key : String} (fresh : key ∉ keys) :
    ov.addedIndex hash key = some none := by
  rw [arena.addedIndex, if_neg fresh]

/-- The walk refuses the additions, pushes them, or is crowded. -/
theorem addAdditions_spec (count : Nat) : ∀ {ov : Overlay I} {keys : List String},
    Arena hash ov keys → keys.flatMap record <+: additions → Strangers ov.base keys →
      (∃ error, addAdditions hash additions count ov.addedData.length ov =
        some (.error error)) ∨
      (∃ after more, addAdditions hash additions count ov.addedData.length ov =
          some (.ok (after, after.addedData.length)) ∧ more.length = count ∧
        Arena hash after (keys ++ more) ∧ pushAll hash more ov = some after ∧
        (keys ++ more).flatMap record <+: additions ∧ Strangers ov.base (keys ++ more) ∧
        after.dead = ov.dead ∧ after.live = ov.live ∧ after.base = ov.base) ∨
      (addAdditions hash additions count ov.addedData.length ov = none ∧
        ∃ more key, more.length < count ∧ (keys ++ (more ++ [key])).flatMap record <+: additions ∧
          (keys ++ (more ++ [key])).Nodup ∧
          (∀ k ∈ keys ++ (more ++ [key]), (bytesOf k).length < 2 ^ 32) ∧
          Strangers ov.base (keys ++ (more ++ [key])) ∧
          2 ^ 32 ≤ ((keys ++ more).flatMap record).length) := by
  induction count with
  | zero =>
      intro ov keys arena front strangers
      refine .inr (.inl ⟨ov, [], rfl, rfl, ?_, rfl, ?_, ?_, rfl, rfl, rfl⟩)
      · rw [List.append_nil]
        exact arena
      · rw [List.append_nil]
        exact front
      · rw [List.append_nil]
        exact strangers
  | succ count ih =>
      intro ov keys arena front strangers
      rw [addAdditions]
      cases read : readAddition additions ov.addedData.length with
      | error error => exact .inl ⟨error, rfl⟩
      | ok pair =>
          obtain ⟨key, next⟩ := pair
          simp only
          obtain ⟨rest, here, short, nextIs⟩ := readAddition_ok read
          have start := congrArg List.length arena.data
          have longer : (keys ++ [key]).flatMap record <+: additions := by
            obtain ⟨tail, whole⟩ := front
            rw [← whole, start, List.drop_left] at here
            refine ⟨rest, ?_⟩
            rw [← whole, here, List.flatMap_append, List.flatMap_singleton, List.append_assoc]
          by_cases owned : OverlayBlob.exactMembership I = true ∧
              (OverlayBase.baseId ov.base key).isSome
          · rw [if_pos owned]
            exact .inl ⟨_, rfl⟩
          · rw [if_neg owned, arena.addedIndex]
            have stranger : Strangers ov.base (keys ++ [key]) := by
              intro exact other member
              rcases List.mem_append.mp member with earlier | last
              · exact strangers exact other earlier
              · rw [List.mem_singleton] at last
                rw [last, ← Option.not_isSome_iff_eq_none]
                exact fun some => owned ⟨exact, some⟩
            by_cases again : key ∈ keys
            · rw [if_pos again]
              exact .inl ⟨_, rfl⟩
            · rw [if_neg again]
              simp only
              rcases arena.pushAdded again with ⟨full, none⟩ |
                ⟨pushed, found, -, pushedArena, baseIs, -⟩
              · rw [none]
                refine .inr (.inr ⟨rfl, [], key, Nat.succ_pos _, longer, ?_, ?_, stranger, ?_⟩)
                · exact List.nodup_append.mpr ⟨arena.nodup, List.nodup_singleton _,
                    fun a member b last same => again (List.mem_singleton.mp last ▸ same ▸ member)⟩
                · exact List.forall_mem_append.mpr
                    ⟨arena.small, List.forall_mem_singleton.mpr short⟩
                · rw [List.append_nil]
                  exact arena.full short full
              · rw [found]
                simp only
                obtain ⟨deadIs, liveIs, -⟩ := pushAdded_kept found
                have nextStart : next = pushed.addedData.length := by
                  rw [nextIs, start, pushedArena.data, List.flatMap_append, List.flatMap_singleton,
                    List.length_append]
                rw [nextStart]
                have step : (ov.pushAdded hash key).map Prod.snd = some pushed := by
                  rw [found]
                  rfl
                have whole (more : List String) : keys ++ [key] ++ more = keys ++ key :: more := by
                  simp
                rcases ih pushedArena longer (baseIs ▸ stranger) with refused |
                  ⟨after, more, result, size, done, all, inside, apart, dead, live, base⟩ |
                  ⟨result, more, last, fewer, inside, once, shorts, apart, crowd⟩
                · exact .inl refused
                · rw [whole] at done inside apart
                  refine .inr (.inl ⟨after, key :: more, result, by rw [List.length_cons, size],
                    done, ?_, inside, baseIs ▸ apart, dead.trans deadIs, live.trans liveIs,
                    base.trans baseIs⟩)
                  rw [pushAll, List.foldlM_cons, step]
                  exact all
                · rw [whole] at inside once shorts apart crowd
                  exact .inr (.inr ⟨result, key :: more, last,
                    by rw [List.length_cons]; omega, inside, once, shorts, baseIs ▸ apart, crowd⟩)

/-- The walk over a record that stands next, of a key that is new, pushes the key and goes on after
it. -/
theorem addAdditions_next {key : String} {more : List String} (arena : Arena hash ov keys)
    (front : (keys ++ key :: more).flatMap record <+: additions)
    (once : (keys ++ key :: more).Nodup) (short : (bytesOf key).length < 2 ^ 32)
    (strangers : Strangers ov.base (key :: more)) (count : Nat) :
    (ov.pushAdded hash key = none ∧
        addAdditions hash additions (count + 1) ov.addedData.length ov = none) ∨
      ∃ pushed, ov.pushAdded hash key = some (keys.length, pushed) ∧ Roomy ov key ∧
        Arena hash pushed (keys ++ [key]) ∧ pushed.base = ov.base ∧
        addAdditions hash additions (count + 1) ov.addedData.length ov =
          addAdditions hash additions count pushed.addedData.length pushed := by
  have fresh : key ∉ keys := fun member =>
    (List.nodup_append.mp once).2.2 key member key List.mem_cons_self rfl
  have unowned : ¬ (OverlayBlob.exactMembership I = true ∧
      (OverlayBase.baseId ov.base key).isSome) := by
    rintro ⟨exact, owned⟩
    rw [strangers exact key List.mem_cons_self] at owned
    cases owned
  have read : readAddition additions ov.addedData.length =
      .ok (key, ov.addedData.length + (record key).length) := by
    obtain ⟨tail, rfl⟩ := front
    rw [arena.data, List.flatMap_append, List.flatMap_cons, List.append_assoc, List.append_assoc]
    exact readAddition_record short
  rw [addAdditions, read]
  simp only
  rw [if_neg unowned, addedIndex_none arena fresh]
  simp only
  rcases arena.pushAdded fresh with ⟨-, none⟩ | ⟨pushed, found, roomy, pushedArena, baseIs, -⟩
  · rw [none]
    exact .inl ⟨rfl, rfl⟩
  · rw [found]
    have nextStart : ov.addedData.length + (record key).length = pushed.addedData.length := by
      rw [pushedArena.data, List.flatMap_append, List.flatMap_singleton, List.length_append,
        arena.data]
    exact .inr ⟨pushed, rfl, roomy, pushedArena, baseIs, by rw [nextStart]⟩

/-- Additions that are records of keys that can be pushed are walked and pushed. -/
theorem addAdditions_pushes (more : List String) : ∀ {ov after : Overlay I} {keys : List String},
    Arena hash ov keys → pushAll hash more ov = some after →
      additions = (keys ++ more).flatMap record → (keys ++ more).Nodup →
      (∀ k ∈ more, (bytesOf k).length < 2 ^ 32) → Strangers ov.base more →
      addAdditions hash additions more.length ov.addedData.length ov =
        some (.ok (after, additions.length)) := by
  induction more with
  | nil =>
      intro ov after keys arena all whole _ _ _
      rw [pushAll, List.foldlM_nil, Option.pure_def, Option.some.injEq] at all
      rw [List.append_nil] at whole
      rw [List.length_nil, addAdditions, all, whole, ← arena.data, all]
  | cons key more ih =>
      intro ov after keys arena all whole once short strangers
      obtain ⟨keyShort, short⟩ := List.forall_mem_cons.mp short
      rw [pushAll, List.foldlM_cons] at all
      obtain ⟨mid, taken, all⟩ := Option.bind_eq_some_iff.mp all
      obtain ⟨⟨i, reached⟩, found, rfl⟩ := Option.map_eq_some_iff.mp taken
      have front : (keys ++ key :: more).flatMap record <+: additions :=
        ⟨[], by rw [List.append_nil, whole]⟩
      rcases addAdditions_next arena front once keyShort strangers more.length with
        ⟨none, -⟩ | ⟨pushed, same, -, pushedArena, baseIs, next⟩
      · rw [none] at found
        cases found
      · rw [found, Option.some.injEq, Prod.mk.injEq] at same
        obtain ⟨-, rfl⟩ := same
        have parted : keys ++ key :: more = keys ++ [key] ++ more := by simp
        rw [List.length_cons, next]
        exact ih pushedArena all (parted ▸ whole) (parted ▸ once) short
          fun exact other member => baseIs ▸ strangers exact other (List.mem_cons_of_mem _ member)

/-- A crowded walk does not return. -/
theorem addAdditions_crowded (more : List String) : ∀ {ov : Overlay I} {keys : List String}
    {count : Nat}, Arena hash ov keys → more ≠ [] → more.length ≤ count →
      (keys ++ more).flatMap record <+: additions → (keys ++ more).Nodup →
      (∀ k ∈ more, (bytesOf k).length < 2 ^ 32) → Strangers ov.base more →
      2 ^ 32 ≤ ((keys ++ more.dropLast).flatMap record).length →
      addAdditions hash additions count ov.addedData.length ov = none := by
  induction more with
  | nil => exact fun _ some_key => absurd rfl some_key
  | cons key more ih =>
      intro ov keys count arena _ enough front once short strangers crowd
      obtain ⟨keyShort, short⟩ := List.forall_mem_cons.mp short
      cases count with
      | zero => exact absurd enough (Nat.not_succ_le_zero _)
      | succ count =>
          rcases addAdditions_next arena front once keyShort strangers count with
            ⟨-, none⟩ | ⟨pushed, -, roomy, pushedArena, baseIs, next⟩
          · exact none
          · have parted : keys ++ key :: more = keys ++ [key] ++ more := by simp
            have some_more : more ≠ [] := by
              rintro rfl
              have small := roomy.2.1
              rw [arena.data] at small
              rw [List.dropLast_singleton, List.append_nil] at crowd
              omega
            have later : keys ++ (key :: more).dropLast = keys ++ [key] ++ more.dropLast := by
              rw [List.dropLast_cons_of_ne_nil some_more]
              simp
            rw [next]
            exact ih pushedArena some_more (Nat.le_of_succ_le_succ enough) (parted ▸ front)
              (parted ▸ once) short
              (fun exact other member => baseIs ▸ strangers exact other
                (List.mem_cons_of_mem _ member)) (later ▸ crowd)

end Walk

end Lexindex.Overlay
