import Mathlib
import Lexindex.Mphf.Read
import Lexindex.Mphf.RemapReads

/-!
# Tables every lookup of which stays inside

`V2.Sound` and `V1.Sound` are what a lookup's reads stand on.  A table read from
a blob is sound because the loader checks it, and a sound table answers every
hash with a value of its image.
-/

set_option autoImplicit false

namespace Lexindex.Mphf

/-- A level of one of the two geometries, whose slice fits its range. -/
structure Level.Shaped (l : Level) : Prop where
  fits : l.Fits
  bucketsPositive : 0 < l.buckets
  power : isPowerOfTwo l.slice
  /-- The sum a value is folded from does not leave the word. -/
  room : l.slice ≤ 2 ^ 64 - 1 - l.n
  modeBits : l.modeBits = 0 ∨ l.modeBits = shippedModeBits ∧ l.slice >>> (8 - shippedModeBits) ≠ 0
  shift : l.shift = trailingZeros (strideFor l.slice l.modeBits)
  shipped : l.shipped = true ↔
    l.modeBits = shippedModeBits ∧ l.slice = fullSlice ∧ l.shift = Level.shippedForm.shift

/-- A level with a seed for each of its buckets. -/
structure Level.Sound (l : Level) : Prop where
  shape : l.Shaped
  seeds : l.seeds.length = l.buckets

structure Tail.Sound (t : Tail) : Prop where
  emptyTogether : t.buckets = 0 ↔ t.range = 0
  seeds : t.seeds.length = t.buckets

/-- Values of the levels below the first and of the tail. -/
def V2.entries (t : V2) : Nat :=
  (t.rest.map Level.n).sum + t.tail.range

/-- A table of the current layout over some keys. -/
structure V2.Sound (t : V2) : Prop where
  positive : 0 < t.n
  current : t.v1 = none
  placing : t.placing = Level.bumpingAll ∨
    t.placing.Sound ∧ t.placing.n = t.n ∧ t.placing.shipped = true ∧ t.otherFirst = none
  otherFirst : ∀ l, t.otherFirst = some l → l.Sound ∧ l.n = t.n ∧ l.shipped = false
  rest : ∀ l ∈ t.rest, l.Sound
  tail : t.tail.Sound
  entries : t.remap.len = t.entries
  /-- So that no entry is the mark a batch writes for an absent one. -/
  entriesWord : t.remap.len < 2 ^ 64
  remap : ∀ j < t.remap.len, ∃ hole, t.remap.get j = some hole ∧ hole < t.n

theorem Level.Sound.seedOf_some {l : Level} (sound : l.Sound) {h : Nat} (word : h < 2 ^ 64) :
    ∃ seed, l.seedOf h = some seed := by
  have inside : bucketOf h l.buckets < l.seeds.length := by
    rw [sound.seeds]
    exact bucketOf_lt word sound.shape.bucketsPositive
  rw [Level.seedOf, Level.seedAt, List.getElem?_eq_getElem inside]
  exact ⟨_, rfl⟩

theorem Level.bumpingAll_seedOf {h : Nat} (word : h < 2 ^ 64) :
    Level.bumpingAll.seedOf h = some 0 := by
  have zero : bucketOf h 1 = 0 := by
    have below : bucketOf h 1 < 1 := bucketOf_lt word Nat.one_pos
    omega
  change Option.map UInt8.toNat ([0] : List UInt8)[bucketOf h 1]? = some 0
  rw [zero]
  rfl

/-- A bumped key lands on a remap entry, unless the tail is empty. -/
theorem V2.bumpedValueFrom_lt {tail : Tail} (tailSound : tail.Sound) {h : Nat} :
    ∀ (levels : List Level) (level shift : Nat), (∀ l ∈ levels, l.Sound) →
      ∃ landed, V2.bumpedValueFrom tail h levels level shift = some landed ∧
        ∀ value, landed = some value → value < shift + (levels.map Level.n).sum + tail.range := by
  intro levels
  induction levels with
  | nil =>
      intro level shift _
      rw [V2.bumpedValueFrom]
      by_cases noTail : tail.buckets = 0
      · rw [if_pos noTail]
        exact ⟨none, rfl, by intro value landed; cases landed⟩
      · rw [if_neg noTail]
        have rangePositive : 0 < tail.range := by
          have together := tailSound.emptyTogether
          omega
        have inside : scale (mix (h ^^^ tail.seed)) tail.buckets < tail.seeds.length := by
          rw [tailSound.seeds]
          exact scale_lt (mix_lt _) (by omega)
        simp only [List.getElem?_eq_getElem inside, Option.bind_eq_bind, Option.bind_some,
          Option.pure_def]
        refine ⟨_, rfl, ?_⟩
        intro value landed
        have placed := scale_lt (mix_lt ((mix (h ^^^ tail.seed) +
          tail.seeds[scale (mix (h ^^^ tail.seed)) tail.buckets] * 0x9E3779B97F4A7C15 % 2 ^ 64) %
            2 ^ 64)) rangePositive
        rw [← Option.some.inj landed, Tail.position]
        simpa using placed
  | cons l rest ih =>
      intro level shift sound
      have levelSound := sound l (List.mem_cons_self ..)
      have restSound : ∀ l ∈ rest, l.Sound := fun l member =>
        sound l (List.mem_cons_of_mem _ member)
      have word := levelHash_lt h level
      obtain ⟨seed, read⟩ := levelSound.seedOf_some word
      rw [V2.bumpedValueFrom]
      simp only [read, Option.bind_eq_bind, Option.bind_some, List.map_cons, List.sum_cons]
      split
      · refine ⟨_, rfl, ?_⟩
        intro value landed
        have below := Level.laterValue_lt levelSound.shape.fits word seed
        rw [← Option.some.inj landed]
        omega
      · obtain ⟨landed, found, bounded⟩ := ih (level + 1) (shift + l.n) restSound
        refine ⟨landed, found, ?_⟩
        intro value exact
        have below := bounded value exact
        omega

theorem V2.Sound.bumpedHole_lt {t : V2} (sound : t.Sound) (h : Nat) :
    ∃ value, t.bumpedHole h = some value ∧ value < t.n := by
  obtain ⟨landed, found, bounded⟩ :=
    V2.bumpedValueFrom_lt sound.tail (h := h) t.rest 1 0 sound.rest
  have read : t.bumpedValue h = some landed := found
  rw [V2.bumpedHole, read]
  cases landed with
  | none => exact ⟨0, rfl, sound.positive⟩
  | some value =>
      have inside : value < t.remap.len := by
        have below := bounded value rfl
        rw [sound.entries, V2.entries]
        omega
      exact sound.remap value inside

theorem V2.Sound.indexBumped_lt {t : V2} (sound : t.Sound) {h : Nat} (word : h < 2 ^ 64) :
    ∃ value, t.indexBumped h = some value ∧ value < t.n := by
  rw [V2.indexBumped]
  cases other : t.otherFirst with
  | none =>
      rw [sound.current]
      exact sound.bumpedHole_lt h
  | some l =>
      obtain ⟨levelSound, covers, _⟩ := sound.otherFirst l other
      obtain ⟨seed, read⟩ := levelSound.seedOf_some word
      simp only [read, Option.bind_eq_bind, Option.bind_some]
      split
      · exact ⟨_, rfl, covers ▸ Level.laterValue_lt levelSound.shape.fits word seed⟩
      · exact sound.bumpedHole_lt h

/-- A sound table answers every hash, each read inside its table, with a value of
its image. -/
theorem V2.Sound.index_lt {t : V2} (sound : t.Sound) {h : Nat} (word : h < 2 ^ 64) :
    ∃ value, t.index h = some value ∧ value < t.n := by
  rw [V2.index]
  rcases sound.placing with bumping | ⟨levelSound, covers, shipped, _⟩
  · rw [bumping, Level.bumpingAll_seedOf word]
    exact sound.indexBumped_lt word
  · obtain ⟨seed, read⟩ := levelSound.seedOf_some word
    simp only [read, Option.bind_eq_bind, Option.bind_some]
    have slice := (levelSound.shape.shipped.mp shipped).2.1
    split
    · exact ⟨_, rfl, covers ▸ Level.shippedValue_lt levelSound.shape.fits slice word seed⟩
    · exact sound.indexBumped_lt word

/-! ## A table read from a blob is sound -/

theorem isPowerOfTwo_pos {x : Nat} (power : isPowerOfTwo x) : 0 < x :=
  Nat.pos_of_ne_zero power.1

theorem V2.readLevel_ok {bytes : List UInt8} {header : V2.Header} {i entries : Nat}
    {read : Level × Nat} (accepted : V2.readLevel bytes header i entries = .ok read) :
    read.1.Shaped ∧ (i = 0 → read.1.n = header.n ∧ read.2 = entries) ∧
      (0 < i → read.2 = entries + read.1.n) := by
  simp only [V2.readLevel, bind_eq_ok, refuse_eq_ok, pure_eq_ok] at accepted
  obtain ⟨_, shape, _, wide, _, covers, counted, count, rfl⟩ := accepted
  simp only [V2.badShape, not_or, not_not, not_lt] at shape
  obtain ⟨nPositive, bucketsPositive, power, sliceLe, room⟩ := shape
  refine ⟨⟨⟨?_, sliceLe, isPowerOfTwo_pos power⟩, ?_, power, room, ?_, rfl, ?_⟩, ?_, ?_⟩
  · exact Nat.pos_of_ne_zero nPositive
  · exact Nat.pos_of_ne_zero bucketsPositive
  · cases geometry : header.geometry with
    | mph2 => exact Or.inl rfl
    | mph3 =>
        refine Or.inr ⟨rfl, ?_⟩
        intro narrow
        rw [geometry] at wide
        exact wide ⟨by decide, narrow⟩
  · simp [Level.ofShape]
  · intro first
    subst first
    simp only [V2.countEntries, Nat.lt_irrefl, if_false, Except.ok.injEq] at count
    refine ⟨?_, count.symm⟩
    by_contra differs
    exact covers ⟨rfl, differs⟩
  · intro later
    rw [V2.countEntries, if_pos later, okOr_eq_ok, checkedAdd_eq_some] at count
    exact count.2.symm

/-- The rows from row `i` on: their shapes, and the entries they add. -/
theorem V2.readLevels_ok {bytes : List UInt8} {header : V2.Header} :
    ∀ {count i entries : Nat} {read : List Level × Nat},
      V2.readLevels bytes header count i entries = .ok read →
        (∀ l ∈ read.1, l.Shaped) ∧
        (0 < i → read.2 = entries + (read.1.map Level.n).sum) ∧
        (i = 0 → (∀ l ∈ read.1.head?, l.n = header.n) ∧
          read.2 = entries + (read.1.tail.map Level.n).sum) := by
  intro count
  induction count with
  | zero =>
      intro i entries read accepted
      simp only [V2.readLevels, Except.ok.injEq] at accepted
      subst accepted
      simp
  | succ count ih =>
      intro i entries read accepted
      simp only [V2.readLevels, bind_eq_ok, pure_eq_ok] at accepted
      obtain ⟨⟨level, counted⟩, row, ⟨levels, total⟩, rows, rfl⟩ := accepted
      obtain ⟨shaped, atFirst, atLater⟩ := V2.readLevel_ok row
      obtain ⟨restShaped, restCount, _⟩ := ih rows
      have sum := restCount (by omega)
      simp only at sum atFirst atLater
      refine ⟨?_, ?_, ?_⟩
      · intro l member
        rcases List.mem_cons.mp member with rfl | member
        · exact shaped
        · exact restShaped l member
      · intro later
        have here := atLater later
        simp only [List.map_cons, List.sum_cons]
        omega
      · intro first
        obtain ⟨covers, kept⟩ := atFirst first
        refine ⟨?_, ?_⟩
        · intro l head
          rw [List.head?_cons, Option.mem_some_iff] at head
          rw [← head]
          exact covers
        · simp only [List.tail_cons]
          omega

theorem V2.takeSeeds_levels : ∀ (levels : List Level) (bytes : List UInt8),
    (levels.map Level.buckets).sum ≤ bytes.length →
      (∀ l ∈ levels, l.Shaped) →
        (∀ l ∈ V2.takeSeeds levels bytes, l.Sound) ∧
        (V2.takeSeeds levels bytes).map Level.n = levels.map Level.n := by
  intro levels
  induction levels with
  | nil => intro bytes _ _; simp [V2.takeSeeds]
  | cons l rest ih =>
      intro bytes enough shaped
      simp only [List.map_cons, List.sum_cons] at enough
      obtain ⟨restSound, restRanges⟩ := ih (bytes.drop l.buckets)
        (by rw [List.length_drop]; omega) (fun l member => shaped l (List.mem_cons_of_mem _ member))
      have here := shaped l (List.mem_cons_self ..)
      refine ⟨?_, ?_⟩
      · intro other member
        rw [V2.takeSeeds, List.mem_cons] at member
        rcases member with rfl | member
        · exact ⟨⟨⟨here.fits.positive, here.fits.sliceLe, here.fits.slicePositive⟩,
            here.bucketsPositive, here.power, here.room, here.modeBits, here.shift,
            here.shipped⟩, by simp only [List.length_take]; omega⟩
        · exact restSound other member
      · rw [V2.takeSeeds, List.map_cons, List.map_cons, restRanges]

theorem V2.seedsEnd_some {tail : Tail} : ∀ {levels : List Level} {hl want : Nat},
    V2.seedsEnd levels tail hl = some want →
      want = hl + (levels.map Level.buckets).sum + tail.buckets * 2 := by
  intro levels
  induction levels with
  | nil =>
      intro hl want found
      simp only [V2.seedsEnd, List.foldlM_nil, Option.pure_def, Option.bind_eq_bind,
        Option.bind_some, Option.bind_eq_some_iff, checkedMul_eq_some, checkedAdd_eq_some] at found
      obtain ⟨_, ⟨_, rfl⟩, _, whole⟩ := found
      simp only [List.map_nil, List.sum_nil]
      omega
  | cons l rest ih =>
      intro hl want found
      simp only [V2.seedsEnd, List.foldlM_cons, Option.bind_eq_bind, Option.bind_eq_some_iff,
        checkedAdd_eq_some] at found
      obtain ⟨summed, ⟨start, ⟨_, rfl⟩, folded⟩, tailBytes, product, whole⟩ := found
      have later : V2.seedsEnd rest tail (hl + l.buckets) = some want := by
        simp only [V2.seedsEnd, Option.bind_eq_bind, Option.bind_eq_some_iff]
        exact ⟨summed, folded, tailBytes, product, checkedAdd_eq_some.mpr whole⟩
      rw [ih later]
      simp only [List.map_cons, List.sum_cons]
      omega

theorem Remap.encodeFrom_len {values : List Nat} : ∀ {r result : Remap} {j : Nat},
    Remap.encodeFrom r j values = .ok result → result.len = r.len := by
  induction values with
  | nil =>
      intro r result j encoded
      rw [Remap.encodeFrom, Except.ok.injEq] at encoded
      rw [encoded]
  | cons v rest ih =>
      intro r result j encoded
      simp only [Remap.encodeFrom, Remap.encodeEntry, bind_eq_ok, pure_eq_ok] at encoded
      obtain ⟨next, ⟨_, _, _, _, rfl⟩, later⟩ := encoded
      rw [ih later]

theorem Remap.encode_len {values : List Nat} {u : Nat} {r : Remap}
    (encoded : Remap.encode values u = .ok r) : r.len = values.length := by
  simp only [Remap.encode, Remap.blank, bind_eq_ok, pure_eq_ok] at encoded
  obtain ⟨blank, ⟨_, _, _, _, rfl⟩, later⟩ := encoded
  rw [Remap.encodeFrom_len later]

theorem Remap.spreadHoles_length {set : List Word} :
    ∀ {entries i hole : Nat} {holes values : List Nat},
      Remap.spreadHoles set entries i hole holes = .ok values → values.length = entries := by
  intro entries
  induction entries with
  | zero =>
      intro i hole holes values spread
      simp only [Remap.spreadHoles, bind_eq_ok, pure_eq_ok] at spread
      obtain ⟨_, _, rfl⟩ := spread
      rfl
  | succ entries ih =>
      intro i hole holes values spread
      rw [Remap.spreadHoles.eq_def] at spread
      simp only at spread
      split at spread
      · cases holes with
        | nil => cases spread
        | cons next rest =>
            simp only [bind_eq_ok, pure_eq_ok] at spread
            obtain ⟨later, spreadLater, rfl⟩ := spread
            simp [ih spreadLater]
      · simp only [bind_eq_ok, pure_eq_ok] at spread
        obtain ⟨later, spreadLater, rfl⟩ := spread
        simp [ih spreadLater]

theorem V2.oldLength_le {want whole : Nat} {sizes : V2.OldSizes}
    (found : V2.oldLength want sizes = some whole) : want ≤ whole := by
  simp only [V2.oldLength, Option.bind_eq_bind, Option.bind_eq_some_iff, checkedMul_eq_some,
    checkedAdd_eq_some] at found
  obtain ⟨_, _, _, ⟨_, rfl⟩, _, _, _, ⟨_, rfl⟩, _, _, _, ⟨_, rfl⟩, _, _, _, ⟨_, rfl⟩, _, _, _, rfl⟩ :=
    found
  omega

theorem V2.newLength_le {want entries n lowBits whole : Nat}
    (found : V2.newLength want entries n lowBits = some whole) : want ≤ whole := by
  simp only [V2.newLength, Option.bind_eq_bind, Option.bind_eq_some_iff, checkedMul_eq_some,
    checkedAdd_eq_some] at found
  obtain ⟨_, _, _, _, _, _, _, ⟨_, rfl⟩, _, _, _, ⟨_, rfl⟩, _, _, _, rfl⟩ := found
  omega

/-- A remap that is read has as many entries as the levels and the tail ask for,
and the blob runs at least to where it starts. -/
theorem V2.readRemap_ok {bytes : List UInt8} {header : V2.Header} {entries want length : Nat}
    {r : Remap} (read : V2.readRemap bytes header entries want length = .ok r) :
    want ≤ length ∧ r.len = entries := by
  rw [V2.readRemap] at read
  split at read
  · simp only [V2.readOldRemap, Remap.fromV2, bind_eq_ok, refuse_eq_ok, okOr_eq_ok, not_not] at read
    obtain ⟨_, _, whole, found, _, exact, holes, _, values, spread, encoded⟩ := read
    have bound := V2.oldLength_le found
    exact ⟨by omega, (Remap.encode_len encoded).trans (Remap.spreadHoles_length spread)⟩
  · simp only [V2.readNewRemap, bind_eq_ok, refuse_eq_ok, okOr_eq_ok, pure_eq_ok, not_not] at read
    obtain ⟨_, _, whole, found, _, exact, _, _, _, _, _, _, rfl⟩ := read
    have bound := V2.newLength_le found
    exact ⟨by omega, rfl⟩

theorem V2.ofLevels_sound {n : Nat} {geometry : Geometry} {levels : List Level} {tail : Tail}
    {remap : Remap} (positive : 0 < n) (levelsSound : ∀ l ∈ levels, l.Sound)
    (covers : ∀ l ∈ levels.head?, l.n = n) (tailSound : tail.Sound)
    (entries : remap.len = (levels.tail.map Level.n).sum + tail.range)
    (word : remap.len < 2 ^ 64)
    (answers : ∀ j < remap.len, ∃ hole, remap.get j = some hole ∧ hole < n) :
    (V2.ofLevels n geometry levels tail remap).Sound := by
  cases levels with
  | nil =>
      refine ⟨positive, rfl, Or.inl rfl, ?_, ?_, tailSound, entries, word, answers⟩
      · intro l other
        cases other
      · intro l member
        cases member
  | cons first rest =>
      have firstSound := levelsSound first (List.mem_cons_self ..)
      have firstCovers : first.n = n := covers first rfl
      have restSound : ∀ l ∈ rest, l.Sound := fun l member =>
        levelsSound l (List.mem_cons_of_mem _ member)
      rw [V2.ofLevels]
      split
      · rename_i shipped
        refine ⟨positive, rfl, Or.inr ⟨firstSound, firstCovers, shipped, rfl⟩, ?_, restSound,
          tailSound, entries, word, answers⟩
        intro l other
        cases other
      · rename_i notShipped
        refine ⟨positive, rfl, Or.inl rfl, ?_, restSound, tailSound, entries, word, answers⟩
        intro l other
        cases other
        exact ⟨firstSound, firstCovers, by simpa using notShipped⟩

theorem takeSeeds_head {levels : List Level} {bytes : List UInt8} {n : Nat}
    (covers : ∀ l ∈ levels.head?, l.n = n) :
    ∀ l ∈ (V2.takeSeeds levels bytes).head?, l.n = n := by
  cases levels with
  | nil => simp [V2.takeSeeds]
  | cons first rest =>
      intro l head
      rw [V2.takeSeeds, List.head?_cons, Option.mem_some_iff] at head
      rw [← head]
      exact covers first rfl

theorem V2.readTables_sound {bytes : List UInt8} {header : V2.Header} {t : V2}
    (positive : header.n ≠ 0) (read : V2.readTables bytes header = .ok t) :
    t.Sound ∧ t.n = header.n := by
  simp only [V2.readTables, bind_eq_ok, refuse_eq_ok, okOr_eq_ok, pure_eq_ok, Prod.exists,
    checkedAdd_eq_some, not_or, not_not, Bool.not_eq_false] at read
  obtain ⟨levels, counted, rows, _, ⟨rangeShape, _⟩, _, ⟨word, rfl⟩, want, seeded, _, _, remap, remapped,
    _, valid, rfl⟩ := read
  obtain ⟨shaped, _, firstRow⟩ := V2.readLevels_ok rows
  obtain ⟨covers, total⟩ := firstRow rfl
  obtain ⟨longEnough, remapLen⟩ := V2.readRemap_ok remapped
  have wantExact := V2.seedsEnd_some seeded
  have seedBytes : (levels.map Level.buckets).sum ≤
      (bytes.drop (headerLen header.levelCount)).length := by
    rw [List.length_drop]
    omega
  obtain ⟨levelsSound, ranges⟩ := V2.takeSeeds_levels levels _ seedBytes shaped
  refine ⟨V2.ofLevels_sound (Nat.pos_of_ne_zero positive) levelsSound (takeSeeds_head covers)
    ⟨rangeShape, leWords_length ..⟩ ?_ (by rw [remapLen]; exact word) (fun j inside => Remap.validate_get valid inside), ?_⟩
  · rw [remapLen, List.map_tail, ranges, ← List.map_tail]
    simp only at total ⊢
    omega
  · cases listed : V2.takeSeeds levels (bytes.drop (headerLen header.levelCount)) with
    | nil => rfl
    | cons first rest =>
        rw [V2.ofLevels]
        split <;> rfl

/-! ## The 1.0 table -/

structure V1.Sound (t : V1) : Prop where
  positive : 0 < t.n
  partsPositive : 0 < t.parts
  slotsPositive : 0 < t.slotsPerPart
  dense : t.denseBuckets < t.bucketsPerPart
  window : t.slotsPerPart + 63 ≤ t.stride
  slots : t.stride * t.parts = t.slots
  partSeed : t.partSeed.length = t.parts
  pilots : t.pilots.length = t.parts * t.bucketsPerPart
  remapBase : t.remapBase.length = divCeil (t.slots - t.n) remapBlock
  remapOff : t.remapOff.length = t.slots - t.n
  remap : ∀ i < t.slots - t.n,
    t.remapBase.getD (i / remapBlock) 0 + t.remapOff.getD i 0 < t.n

theorem rotateLeft_lt (x by_ : Nat) : rotateLeft x by_ < 2 ^ 64 :=
  BitVec.isLt _

theorem spread_lt (h seed : Nat) : spread h seed < 2 ^ 64 := by
  unfold spread
  exact Nat.mod_lt _ (Nat.two_pow_pos 64)

theorem V1.base_lt {h partSeed j slots : Nat} (positive : 0 < slots) :
    V1.base h partSeed j slots < slots := by
  unfold V1.base
  exact scale_lt (Nat.mod_lt _ (Nat.two_pow_pos 64)) positive

theorem V1.bucketInPart_lt {hb buckets dense : Nat} (inside : dense < buckets) :
    V1.bucketInPart hb buckets dense < buckets := by
  rw [V1.bucketInPart]
  by_cases noSkew : dense = 0
  · rw [if_pos noSkew]
    exact scale_lt (rotateLeft_lt _ _) (by omega)
  · rw [if_neg noSkew]
    by_cases low : rotateLeft hb 17 < (2 ^ 64 - 1) / 5 * 3
    · rw [if_pos low]
      have below := scale_lt (rotateLeft_lt (rotateLeft hb 17) 23) (k := dense) (by omega)
      simp only
      omega
    · rw [if_neg low]
      have below := scale_lt (rotateLeft_lt (rotateLeft hb 17) 23) (k := buckets - dense) (by omega)
      simp only
      omega

theorem flat_lt {part parts within width : Nat} (partLt : part < parts)
    (withinLt : within < width) : part * width + within < parts * width := by
  calc
    part * width + within < part * width + width := by omega
    _ = (part + 1) * width := by rw [Nat.succ_mul]
    _ ≤ parts * width := Nat.mul_le_mul_right _ partLt

theorem V1.Sound.answerOf_lt {t : V1} (sound : t.Sound) {s : Nat} (inside : s < t.slots) :
    ∃ value, t.answerOf s = some value ∧ value < t.n := by
  rw [V1.answerOf]
  split
  · rename_i inImage
    exact ⟨_, rfl, inImage⟩
  · have entry : s - t.n < t.slots - t.n := by omega
    have baseInside : (s - t.n) / remapBlock < t.remapBase.length := by
      rw [sound.remapBase]
      exact Remap.div_lt_divCeil (by decide) entry
    have offInside : s - t.n < t.remapOff.length := by
      rw [sound.remapOff]
      exact entry
    have image := sound.remap _ entry
    rw [List.getD_eq_getElem _ _ baseInside, List.getD_eq_getElem _ _ offInside] at image
    simp only [List.getElem?_eq_getElem baseInside, List.getElem?_eq_getElem offInside,
      Option.bind_eq_bind, Option.bind_some]
    exact ⟨_, rfl, image⟩

theorem V1.Sound.index_lt {t : V1} (sound : t.Sound) {h : Nat} :
    ∃ value, t.index h = some value ∧ value < t.n := by
  have partLt := scale_lt (spread_lt h t.seed) sound.partsPositive
  have bucketLt := @V1.bucketInPart_lt (spread h t.seed) _ _ sound.dense
  have flat := flat_lt partLt bucketLt
  rw [← sound.pilots] at flat
  have partInside : scale (spread h t.seed) t.parts < t.partSeed.length := by
    rw [sound.partSeed]
    exact partLt
  obtain ⟨pilot, pilotRead⟩ : ∃ pilot, t.pilots[(t.locate h).2]? = some pilot :=
    ⟨_, List.getElem?_eq_getElem flat⟩
  obtain ⟨partSeed, seedRead⟩ : ∃ seed, t.partSeed[(t.locate h).1]? = some seed :=
    ⟨_, List.getElem?_eq_getElem partInside⟩
  have baseLt : V1.base h partSeed (pilot.toNat >>> 6) t.slotsPerPart < t.slotsPerPart :=
    V1.base_lt sound.slotsPositive
  have shiftLe : pilot.toNat &&& 63 ≤ 63 := Nat.and_le_right
  have window := sound.window
  have withinLt : V1.base h partSeed (pilot.toNat >>> 6) t.slotsPerPart + (pilot.toNat &&& 63) <
      t.stride := by omega
  have slotLt := flat_lt partLt withinLt
  rw [Nat.mul_comm t.parts, sound.slots, ← Nat.add_assoc] at slotLt
  have landed : t.index h = t.answerOf ((t.locate h).1 * t.stride +
      V1.base h partSeed (pilot.toNat >>> 6) t.slotsPerPart + (pilot.toNat &&& 63)) := by
    rw [V1.index, pilotRead, Option.bind_eq_bind, Option.bind_some, seedRead,
      Option.bind_eq_bind, Option.bind_some]
  rw [landed]
  exact sound.answerOf_lt slotLt

theorem V1.wholeLength_some {parts bucketCount blocks entries whole : Nat}
    (found : V1.wholeLength parts bucketCount blocks entries = some whole) :
    whole = V1.headerLen + parts * 8 + bucketCount + blocks * 4 + entries * 2 := by
  simp only [V1.wholeLength, Option.bind_eq_bind, Option.bind_eq_some_iff, checkedMul_eq_some,
    checkedAdd_eq_some] at found
  obtain ⟨_, ⟨_, rfl⟩, _, ⟨_, rfl⟩, _, ⟨_, rfl⟩, _, ⟨_, rfl⟩, _, ⟨_, rfl⟩, _, ⟨_, rfl⟩, _, rfl⟩ := found
  rfl

theorem V1.readTables_sound {bytes : List UInt8} {header t : V1} (positive : header.n ≠ 0)
    (read : V1.readTables bytes header = .ok t) : t.Sound := by
  simp only [V1.readTables, bind_eq_ok, refuse_eq_ok, okOr_eq_ok, pure_eq_ok, not_or, not_not,
    checkedAdd_eq_some, checkedMul_eq_some, not_exists, not_and, not_le, not_lt] at read
  obtain ⟨_, ⟨parts, buckets, slots⟩, _, dense, _, ⟨_, rfl⟩, _, ⟨_, window⟩, _, ⟨⟨_, product⟩, imageLe⟩,
    _, ⟨_, rfl⟩, want, found, _, exact, _, entries, rfl⟩ := read
  have wantExact := V1.wholeLength_some found
  refine ⟨Nat.pos_of_ne_zero positive, Nat.pos_of_ne_zero parts, Nat.pos_of_ne_zero slots, dense,
    window, product, leWords_length .., ?_, leWords_length .., leWords_length .., entries⟩
  simp only [List.length_take, List.length_drop]
  omega

/-! ## Every accepted blob -/

theorem V2.fromBytes_sound {bytes : List UInt8} {t : V2} (read : V2.fromBytes bytes = .ok t)
    (positive : 0 < t.n) : t.Sound := by
  simp only [V2.fromBytes, bind_eq_ok] at read
  obtain ⟨header, _, read⟩ := read
  by_cases noKeys : header.n = 0
  · rw [if_pos noKeys] at read
    simp only [V2.readEmpty, bind_eq_ok, pure_eq_ok] at read
    obtain ⟨_, _, rfl⟩ := read
    exact absurd positive (Nat.lt_irrefl 0)
  · rw [if_neg noKeys] at read
    exact (V2.readTables_sound noKeys read).1

theorem V1.fromBytes_sound {bytes : List UInt8} {t : V1} (read : V1.fromBytes bytes = .ok t)
    (positive : 0 < t.n) : t.Sound := by
  simp only [V1.fromBytes, bind_eq_ok] at read
  obtain ⟨header, _, read⟩ := read
  by_cases noKeys : header.n = 0
  · rw [if_pos noKeys] at read
    simp only [V1.readEmpty, bind_eq_ok, pure_eq_ok] at read
    obtain ⟨_, _, rfl⟩ := read
    exact absurd noKeys (Nat.ne_of_gt positive)
  · rw [if_neg noKeys] at read
    exact V1.readTables_sound noKeys read

theorem V2.ofV1_index {t : V1} {h : Nat} (word : h < 2 ^ 64) : (V2.ofV1 t).index h = t.index h := by
  have bumped : (V2.ofV1 t).placing.seedOf h = some 0 := Level.bumpingAll_seedOf word
  rw [V2.index, bumped]
  rfl

/-- A blob of any of the three versions, once accepted, answers every hash with a
value of its image, and no read of the lookup leaves its table. -/
theorem index_of_accepted_blob {bytes : List UInt8} {m : Mphf}
    (accepted : Mphf.fromBytes bytes = .ok m) (nonempty : 0 < m.n) {h : Nat}
    (word : h < 2 ^ 64) : ∃ value, m.index h = some value ∧ value < m.n := by
  rw [fromBytes] at accepted
  split at accepted
  · simp only [bind_eq_ok, pure_eq_ok] at accepted
    obtain ⟨table, read, rfl⟩ := accepted
    have current : table.v1 = none := by
      simp only [V2.fromBytes, bind_eq_ok] at read
      obtain ⟨header, _, read⟩ := read
      by_cases noKeys : header.n = 0
      · rw [if_pos noKeys] at read
        simp only [V2.readEmpty, bind_eq_ok, pure_eq_ok] at read
        obtain ⟨_, _, rfl⟩ := read
        rfl
      · rw [if_neg noKeys] at read
        exact (V2.readTables_sound noKeys read).1.current
    have keys : Mphf.n { table } = table.n := by
      rw [Mphf.n]
      simp only [current]
    rw [keys] at nonempty ⊢
    exact (V2.fromBytes_sound read nonempty).index_lt word
  · split at accepted
    · simp only [bind_eq_ok, pure_eq_ok] at accepted
      obtain ⟨table, read, rfl⟩ := accepted
      have sound := V1.fromBytes_sound read nonempty
      obtain ⟨value, answered, inside⟩ := sound.index_lt (h := h)
      exact ⟨value, (V2.ofV1_index word).trans answered, inside⟩
    · cases accepted

/-- The header of a table of one key, placed by the tail, without its check. -/
def oneKeyHeader : List UInt8 :=
  magic ++ leBytes 2 format ++ [2, 0] ++
    ([1, 0, 1, 1, 2, 0, 0].flatMap fun scalar => leBytes 8 scalar)

/-- A table of one key: the tail's seed, then the remap of its two values. -/
def oneKeyBlob : List UInt8 :=
  oneKeyHeader ++ leBytes 4 (Blob.hashBytes oneKeyHeader % 2 ^ 32) ++ leBytes 2 0 ++
    leBytes 8 3 ++ leBytes 4 0 ++ leBytes 2 0

def oneKeyTable : Mphf :=
  { table := V2.ofLevels 1 .mph3 [] { keys := 1, buckets := 1, range := 2, seed := 0, seeds := [0] }
      { len := 2, lowBits := 0, low := [], high := [3, 0, 0, 0, 0], supers := [0], subs := [0] } }

theorem index_of_one_key_blob :
    ∃ value, oneKeyTable.index 0xFEDCBA9876543210 = some value ∧ value < oneKeyTable.n :=
  @index_of_accepted_blob oneKeyBlob oneKeyTable (by decide +kernel) (by decide) _ (by decide)

end Lexindex.Mphf
