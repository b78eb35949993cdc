import WasmDeps.Gc.FreeList

/-!
# The free list keeps its blocks apart

`FreeList.Valid` is the invariant of the free list: the two maps describe the same
blocks, the blocks are aligned, lie inside the managed range and do not touch each
other, and none overlaps the bump region.  `FreeList.Free` is what a free list is for:
the set of free bytes.  Each operation is described by what it does to that set.

`FreeList.Tidy` is the part of the picture that merging is about: no block touches the
bump region.
-/

namespace WasmDeps.Gc

open WasmDeps.Lib Exec SortedMap

namespace FreeList

variable {f f' : FreeList} {i j l k n size limit : ℕ}

/-- There is a free block of length `l` at `i`. -/
def HasBlock (f : FreeList) (i l : ℕ) : Prop := f.freeBlockIndexToLen.get? i = some l

/-- The byte is free. -/
def Free (f : FreeList) (x : ℕ) : Prop :=
  (∃ i l, f.HasBlock i l ∧ i ≤ x ∧ x < i + l) ∨ (f.bumpPtr ≤ x ∧ x < f.bumpEnd)

/-- The capacity and the bump region are the same. -/
structure SameRegion (f' f : FreeList) : Prop where
  capacity_eq : f'.capacity = f.capacity
  bumpPtr_eq : f'.bumpPtr = f.bumpPtr
  bumpEnd_eq : f'.bumpEnd = f.bumpEnd

theorem SameRegion.trans {f'' : FreeList} (h : SameRegion f'' f') (h' : SameRegion f' f) :
    SameRegion f'' f :=
  ⟨h.1.trans h'.1, h.2.trans h'.2, h.3.trans h'.3⟩

theorem HasBlock.unique (h : f.HasBlock i l) (h' : f.HasBlock i k) : l = k :=
  Option.some.inj (h.symm.trans h')

/-! ## The two maps of blocks -/

section Buckets

variable {buckets : SortedMap ℕ (SortedSet ℕ)}

/-- The block at `i` is in the set for length `l`. -/
def InBucket (buckets : SortedMap ℕ (SortedSet ℕ)) (i l : ℕ) : Prop :=
  ∃ indices, buckets.get? l = some indices ∧ indices.get? i = some ()

/-- No bucket is empty. -/
def NonemptyBuckets (buckets : SortedMap ℕ (SortedSet ℕ)) : Prop :=
  ∀ l indices, buckets.get? l = some indices → indices.isEmpty = false

/-- Taking a block out of its bucket. -/
theorem removeFromBlockLenToIndex_spec (h : InBucket buckets i l) (hne : NonemptyBuckets buckets) :
    ∃ buckets', removeFromBlockLenToIndex buckets i l = .ok buckets' ∧
      NonemptyBuckets buckets' ∧
      ∀ j k, InBucket buckets' j k ↔ InBucket buckets j k ∧ ¬(j = i ∧ k = l) := by
  obtain ⟨indices, hget, hmem⟩ := h
  refine ⟨if (erase indices i).isEmpty then buckets.erase l
      else buckets.insert l (erase indices i),
    by simp [removeFromBlockLenToIndex, hget, hmem], fun k set hk => ?_, fun j k => ?_⟩
  · split at hk
    · rw [get?_erase] at hk
      split at hk
      · cases hk
      · exact hne k set hk
    rename_i hemp
    rw [get?_insert] at hk
    split at hk
    · obtain rfl := Option.some.inj hk
      simpa using hemp
    · exact hne k set hk
  -- Only the set for length `l` changes, and it loses only `i`.
  by_cases hkl : k = l
  · subst hkl
    have herase : InBucket (if (erase indices i).isEmpty then buckets.erase k
        else buckets.insert k (erase indices i)) j k ↔
        (erase indices i).get? j = some () := by
      split
      · rename_i hemp
        simp [InBucket, isEmpty_eq_true.mp hemp j]
      · simp [InBucket]
    rw [herase]
    by_cases hji : j = i
    · simp [hji]
    · simp [hji, InBucket, hget]
  · simp only [InBucket, hkl, and_false, not_false_eq_true, and_true]
    split
    · rw [get?_erase, if_neg hkl]
    · rw [get?_insert, if_neg hkl]

theorem inBucket_insertIntoBlockLenToIndex :
    InBucket (insertIntoBlockLenToIndex buckets i l) j k ↔
      InBucket buckets j k ∨ (j = i ∧ k = l) := by
  simp only [InBucket, insertIntoBlockLenToIndex, get?_insert]
  by_cases hkl : k = l
  · subst hkl
    cases hget : buckets.get? k with
    | none => simp
    | some indices =>
      by_cases hji : j = i
      · simp [hji]
      · simp [hji]
  · simp [hkl]

theorem nonempty_insertIntoBlockLenToIndex (hne : NonemptyBuckets buckets) :
    NonemptyBuckets (insertIntoBlockLenToIndex buckets i l) := by
  intro k set h
  rw [insertIntoBlockLenToIndex, get?_insert] at h
  split at h
  · obtain rfl := Option.some.inj h
    rw [isEmpty_eq_false]
    exact ⟨i, (), by simp⟩
  · exact hne k set h

end Buckets

/-- The two maps describe the same blocks, and no set of indices is empty. -/
structure Buckets (f : FreeList) : Prop where
  inBucket_iff : ∀ i l, InBucket f.freeBlockLenToIndices i l ↔ f.HasBlock i l
  nonempty : NonemptyBuckets f.freeBlockLenToIndices

/-- Taking a block off the list. -/
theorem removeBlock_spec (hB : f.Buckets) (h : f.HasBlock i l) :
    ∃ f', f.removeBlock i l = .ok f' ∧ SameRegion f' f ∧ f'.Buckets ∧
      ∀ j k, f'.HasBlock j k ↔ f.HasBlock j k ∧ j ≠ i := by
  have hget : f.freeBlockIndexToLen.get? i = some l := h
  obtain ⟨buckets, hok, hne, hmem⟩ :=
    removeFromBlockLenToIndex_spec ((hB.inBucket_iff i l).mpr h) hB.nonempty
  refine ⟨{ f with
    freeBlockIndexToLen := f.freeBlockIndexToLen.erase i, freeBlockLenToIndices := buckets },
    by simp [removeBlock, hget, hok], ⟨rfl, rfl, rfl⟩, ?_⟩
  have hbl : ∀ j k, (f.freeBlockIndexToLen.erase i).get? j = some k ↔
      f.HasBlock j k ∧ j ≠ i := by
    intro j k
    rw [get?_erase, HasBlock]
    split <;> simp_all
  refine ⟨⟨fun j k => ?_, hne⟩, hbl⟩
  rw [hmem, hB.inBucket_iff]
  refine .trans ?_ (hbl j k).symm
  have hlen : f.HasBlock j k → j = i → k = l := fun hjk hji => (hji ▸ hjk).unique h
  tauto

theorem get?_insert_iff (f : FreeList) (i l j k : ℕ) :
    (f.freeBlockIndexToLen.insert i l).get? j = some k ↔
      (j = i ∧ k = l) ∨ (j ≠ i ∧ f.HasBlock j k) := by
  rw [get?_insert, HasBlock]
  split <;> simp_all [eq_comm]

/-- Giving a block another length. -/
theorem resizeBlock_spec (hB : f.Buckets) (h : f.HasBlock i l) (new : ℕ) :
    ∃ f', f.resizeBlock i l new = .ok f' ∧ SameRegion f' f ∧ f'.Buckets ∧
      ∀ j k, f'.HasBlock j k ↔ (j = i ∧ k = new) ∨ (j ≠ i ∧ f.HasBlock j k) := by
  have hget : f.freeBlockIndexToLen.get? i = some l := h
  obtain ⟨buckets, hok, hne, hmem⟩ :=
    removeFromBlockLenToIndex_spec ((hB.inBucket_iff i l).mpr h) hB.nonempty
  refine ⟨{ f with
    freeBlockIndexToLen := f.freeBlockIndexToLen.insert i new
    freeBlockLenToIndices := insertIntoBlockLenToIndex buckets i new },
    by simp [resizeBlock, hget, hok], ⟨rfl, rfl, rfl⟩, ?_⟩
  have hbl := f.get?_insert_iff i new
  refine ⟨⟨fun j k => ?_, nonempty_insertIntoBlockLenToIndex hne⟩, hbl⟩
  rw [inBucket_insertIntoBlockLenToIndex, hmem, hB.inBucket_iff]
  refine .trans ?_ (hbl j k).symm
  have hlen : f.HasBlock j k → j = i → k = l := fun hjk hji => (hji ▸ hjk).unique h
  tauto

/-- Putting a block on the list. -/
theorem insertBlock_spec (hB : f.Buckets) (h : ∀ l, ¬f.HasBlock i l) (l : ℕ) :
    SameRegion (f.insertBlock i l) f ∧ (f.insertBlock i l).Buckets ∧
      ∀ j k, (f.insertBlock i l).HasBlock j k ↔ (j = i ∧ k = l) ∨ (j ≠ i ∧ f.HasBlock j k) := by
  have hbl := f.get?_insert_iff i l
  refine ⟨⟨rfl, rfl, rfl⟩, ⟨fun j k => ?_, nonempty_insertIntoBlockLenToIndex hB.nonempty⟩, hbl⟩
  refine .trans ?_ (hbl j k).symm
  rw [insertBlock, inBucket_insertIntoBlockLenToIndex, hB.inBucket_iff]
  have hnot : f.HasBlock j k → j ≠ i := fun hjk hji => h k (hji ▸ hjk)
  tauto

/-! ## The invariant -/

/-- A block `[i, i + n)` lies where blocks may lie: aligned, not empty, past the first
granule and below the limit of the managed range. -/
structure Placed (i n limit : ℕ) : Prop where
  le_index : 16 ≤ i
  dvd_index : 16 ∣ i
  dvd_size : 16 ∣ n
  size_pos : 0 < n
  end_le : i + n ≤ limit

/-- **The invariant of the free list** for a managed range that ends at `limit`. -/
structure Valid (f : FreeList) (limit : ℕ) : Prop where
  buckets : f.Buckets
  limit_le : limit ≤ u32Max
  le_bumpPtr : 16 ≤ f.bumpPtr
  bumpPtr_le : f.bumpPtr ≤ f.bumpEnd
  bumpEnd_le : f.bumpEnd ≤ limit
  dvd_bumpPtr : 16 ∣ f.bumpPtr
  dvd_bumpEnd : 16 ∣ f.bumpEnd
  /-- Free blocks lie where blocks may lie. -/
  placed : ∀ i l, f.HasBlock i l → Placed i l limit
  separated : ∀ i l j k, f.HasBlock i l → f.HasBlock j k → i < j → i + l < j
  /-- Free blocks are outside of the bump region. -/
  outside : ∀ i l, f.HasBlock i l → i + l ≤ f.bumpPtr ∨ f.bumpEnd ≤ i

/-- The block `[i, i + n)` overlaps neither a free block nor the bump region, and an
empty bump region is not inside it. -/
structure Clear (f : FreeList) (i n : ℕ) : Prop where
  blocks : ∀ j l, f.HasBlock j l → j + l ≤ i ∨ i + n ≤ j
  bump : i + n ≤ f.bumpPtr ∨ f.bumpEnd ≤ i

/-- No free block touches the bump region, the unset region `[16, 16)` apart. -/
structure Tidy (f : FreeList) : Prop where
  below : ∀ j l, f.HasBlock j l → j + l ≠ f.bumpPtr
  above : ∀ l, f.HasBlock f.bumpEnd l → f.bumpPtr = 16 ∧ f.bumpEnd = 16

/-- Deallocating `[i, i + n)` extends the bump region down to a free block that is not
the last one, which the source then does not look at. -/
def MissesMerge (f : FreeList) (i n : ℕ) : Prop :=
  i + n = f.bumpPtr ∧ ∃ j l, f.HasBlock j l ∧ j + l = i ∧ f.freeBlockIndexToLen.last? ≠ some (j, l)

/-- Allocating `size` bytes puts a bump region that starts at the first granule back
and then replaces it: the unset region `[16, 16)` touches the block that is put back,
which therefore becomes the bump region again instead of a free block. -/
def LosesBump (f : FreeList) (size : ℕ) : Prop :=
  f.bumpPtr = 16 ∧ 16 < f.bumpEnd ∧ f.bumpEnd < 16 + size ∧
    ∃ i l, f.HasBlock i l ∧ size ≤ l ∧ i ≠ f.bumpEnd

/-- The set of free bytes decides whether a block is clear, an empty bump region apart. -/
theorem Clear.of_free (H : f.Valid limit) (hn : 0 < n) (hfree : ∀ x, i ≤ x → x < i + n → ¬f.Free x)
    (hbump : f.bumpPtr = f.bumpEnd → i + n ≤ f.bumpPtr ∨ f.bumpEnd ≤ i) : f.Clear i n where
  blocks := by
    intro j l hj
    by_contra hover
    have hl := (H.placed j l hj).size_pos
    refine hfree (max i j) (by omega) (by omega) (.inl ⟨j, l, hj, by omega, by omega⟩)
  bump := by
    have hle := H.bumpPtr_le
    rcases eq_or_lt_of_le hle with heq | hlt
    · exact hbump heq
    · by_contra hover
      exact hfree (max i f.bumpPtr) (by omega) (by omega) (.inr (by omega))

theorem Clear.not_free (h : f.Clear i n) {x : ℕ} (hx : i ≤ x) (hx' : x < i + n) : ¬f.Free x := by
  rintro (⟨j, l, hj, hjx, hxj⟩ | hbump)
  · have := h.blocks j l hj
    omega
  · have := h.bump
    omega

theorem Valid.mono {limit' : ℕ} (H : f.Valid limit) (hle : limit ≤ limit')
    (hmax : limit' ≤ u32Max) : f.Valid limit' where
  buckets := H.buckets
  limit_le := hmax
  le_bumpPtr := H.le_bumpPtr
  bumpPtr_le := H.bumpPtr_le
  bumpEnd_le := H.bumpEnd_le.trans hle
  dvd_bumpPtr := H.dvd_bumpPtr
  dvd_bumpEnd := H.dvd_bumpEnd
  placed := fun i l h =>
    have := H.placed i l h
    ⟨this.1, this.2, this.3, this.4, this.5.trans hle⟩
  separated := H.separated
  outside := H.outside

theorem assertAligned_of (h : 16 ∣ n) : assertAligned n = .ok () := by
  have := Nat.mod_eq_zero_of_dvd h
  simp [assertAligned, this]

/-! ## Merging -/

/-- The test for neighbours, for blocks in order. -/
theorem blocksAreContiguous_spec (hle : i + l ≤ j) (hj : j ≤ u32Max) (hi : 16 ∣ i) (hl : 16 ∣ l)
    (hdvd : 16 ∣ j) : blocksAreContiguous i l j = .ok (decide (i + l = j)) := by
  have hiff : j - (i + l) < 16 ↔ i + l = j := by omega
  simp [blocksAreContiguous, addU32_of_le (hle.trans hj), hle, subU32_of_le hle, freeListAlign,
    hiff]

/-- `[a, b)` is the block `[i, i + n)` together with the free blocks that touch it. -/
structure Joins (f : FreeList) (i n a b : ℕ) : Prop where
  left : a = i ∨ (a < i ∧ f.HasBlock a (i - a))
  right : b = i + n ∨ (i + n < b ∧ f.HasBlock (i + n) (b - (i + n)))
  below : ∀ j l, f.HasBlock j l → j + l ≠ a
  above : ∀ l, ¬f.HasBlock b l

/-- A block takes the place of the free blocks that touch it. -/
structure Replaces (f f' : FreeList) (i n a b : ℕ) : Prop where
  joins : f.Joins i n a b
  same : SameRegion f' f
  buckets : f'.Buckets
  hasBlock_iff : ∀ j k, f'.HasBlock j k ↔
    (j = a ∧ k = b - a) ∨ (j ≠ a ∧ j ≠ i + n ∧ f.HasBlock j k)

section

variable (H : f.Valid limit)
include H

/-- The free block that ends where the new one starts. -/
theorem contiguousPrev_spec (hp : Placed i n limit) (hc : f.Clear i n) :
    (f.contiguousPrev i = .ok none ∧ ∀ j l, f.HasBlock j l → j + l ≠ i) ∨
    ∃ p, p < i ∧ f.contiguousPrev i = .ok (some (p, i - p)) ∧ f.HasBlock p (i - p) := by
  have hpend := hp.end_le
  have hlim := H.limit_le
  cases hb : f.freeBlockIndexToLen.below? i with
  | none =>
    refine .inl ⟨by simp [contiguousPrev, hb], fun j l hj => ?_⟩
    have := below?_eq_none hb hj
    have := (H.placed j l hj).size_pos
    omega
  | some e =>
    obtain ⟨p, l⟩ := e
    obtain ⟨hget, hlt, hmax⟩ := below?_spec hb
    have hpl := H.placed p l hget
    have hle : p + l ≤ i := by
      have := hc.blocks p l hget
      omega
    have hok := blocksAreContiguous_spec hle (by omega) hpl.dvd_index hpl.dvd_size
      hp.dvd_index
    by_cases htch : p + l = i
    · obtain rfl : l = i - p := by omega
      exact .inr ⟨p, hlt, by simp [contiguousPrev, hb, hok, htch], hget⟩
    refine .inl ⟨by simp [contiguousPrev, hb, hok, htch], fun j k hj hjk => ?_⟩
    -- A block that ends at `i` is the last one before `i`.
    have hk := (H.placed j k hj).size_pos
    have hjp := hmax j k hj (by omega)
    rcases eq_or_lt_of_le hjp with rfl | hlt'
    · have := hj.unique hget
      omega
    · have := H.separated j k p l hj hget hlt'
      omega

/-- The free block that starts where the new one ends. -/
theorem contiguousNext_spec (hp : Placed i n limit) (hc : f.Clear i n) :
    (f.contiguousNext i n = .ok none ∧ ∀ l, ¬f.HasBlock (i + n) l) ∨
    ∃ l, f.contiguousNext i n = .ok (some (i + n, l)) ∧ f.HasBlock (i + n) l := by
  have hn := hp.size_pos
  have hlim := H.limit_le
  cases hb : f.freeBlockIndexToLen.atLeast? (i + 1) with
  | none =>
    refine .inl ⟨by simp [contiguousNext, hb], fun l hl => ?_⟩
    have := atLeast?_eq_none hb hl
    omega
  | some e =>
    obtain ⟨q, l⟩ := e
    obtain ⟨hget, hle, hmin⟩ := atLeast?_spec hb
    have hpl := H.placed q l hget
    have hend := hpl.end_le
    have hge : i + n ≤ q := by
      have := hc.blocks q l hget
      omega
    have hok := blocksAreContiguous_spec hge (by omega) hp.dvd_index hp.dvd_size hpl.dvd_index
    by_cases htch : i + n = q
    · subst htch
      exact .inr ⟨l, by simp [contiguousNext, hb, hok], hget⟩
    · refine .inl ⟨by simp [contiguousNext, hb, hok, htch], fun k hk => ?_⟩
      have := hmin (i + n) k hk (by omega)
      omega

theorem Valid.end_ne_start (hi : f.HasBlock i l) (hj : f.HasBlock j k) : j + k ≠ i := by
  have := (H.placed j k hj).size_pos
  rcases lt_or_ge j i with hlt | hge
  · have := H.separated j k i l hj hi hlt
    omega
  · omega

/-- The merging of a block away from the bump region never faults, and replaces the
free blocks that touch it. -/
theorem mergeBlock_spec (hp : Placed i n limit) (hc : f.Clear i n) :
    ∃ f' a b, f.mergeBlock i n = .ok f' ∧ f.Replaces f' i n a b := by
  have hlim := H.limit_le
  have hpend := hp.end_le
  have hn := hp.size_pos
  have hd := hp.dvd_index
  have hdn := hp.dvd_size
  have hnot : ∀ l, ¬f.HasBlock i l := fun l hl => by
    have := hc.blocks i l hl
    have := (H.placed i l hl).size_pos
    omega
  rcases contiguousNext_spec H hp hc with ⟨hnext, hfree⟩ | ⟨q, hnext, hqb⟩
  · have hne : ∀ j k, f.HasBlock j k → j ≠ i + n := fun j k hj hji => hfree k (hji ▸ hj)
    rcases contiguousPrev_spec H hp hc with ⟨hprev, hbelow⟩ | ⟨p, hpi, hprev, hpb⟩
    · obtain ⟨hsame, hbuck, hiff⟩ := insertBlock_spec H.buckets hnot n
      refine ⟨f.insertBlock i n, i, i + n, by simp [mergeBlock, hprev, hnext, mergeWith],
        ⟨.inl rfl, .inl rfl, hbelow, hfree⟩, hsame, hbuck, fun j k => ?_⟩
      rw [hiff, Nat.add_sub_cancel_left]
      tauto
    have hpd := (H.placed _ _ hpb).dvd_index
    obtain ⟨f2, hok2, hsame2, hbuck2, hiff2⟩ := resizeBlock_spec H.buckets hpb (i + n - p)
    refine ⟨f2, p, i + n, ?_,
      ⟨.inr ⟨hpi, hpb⟩, .inl rfl, fun j l hj => H.end_ne_start hpb hj, hfree⟩,
      hsame2, hbuck2, fun j k => ?_⟩
    · simp [mergeBlock, hprev, hnext, mergeWith, hok2,
        addU32_of_le (show i + n ≤ u32Max by omega), subU32_of_le (show p ≤ i + n by omega),
        assertAligned_of (show 16 ∣ i + n - p by omega)]
    · rw [hiff2]
      tauto
  have hqp := H.placed _ _ hqb
  have hqd := hqp.dvd_size
  have hqend := hqp.end_le
  have hqpos := hqp.size_pos
  obtain ⟨f1, hok1, hsame1, hbuck1, hiff1⟩ := removeBlock_spec H.buckets hqb
  have hadd := addU32_of_le (show i + n + q ≤ u32Max by omega)
  have hab : ∀ l, ¬f.HasBlock (i + n + q) l := fun l hl => H.end_ne_start hl hqb rfl
  rcases contiguousPrev_spec H hp hc with ⟨hprev, hbelow⟩ | ⟨p, hpi, hprev, hpb⟩
  · obtain ⟨hsame2, hbuck2, hiff2⟩ := insertBlock_spec hbuck1
      (fun l hl => hnot l ((hiff1 i l).mp hl).1) (i + n + q - i)
    refine ⟨f1.insertBlock i (i + n + q - i), i, i + n + q, ?_,
      ⟨.inl rfl, .inr ⟨by omega, by simpa using hqb⟩, hbelow, hab⟩,
      hsame2.trans hsame1, hbuck2, fun j k => ?_⟩
    · simp [mergeBlock, hprev, hnext, mergeWith, hok1, hadd,
        subU32_of_le (show i ≤ i + n + q by omega),
        assertAligned_of (show 16 ∣ i + n + q - i by omega)]
    · rw [hiff2, hiff1]
      tauto
  have hpd := (H.placed _ _ hpb).dvd_index
  obtain ⟨f2, hok2, hsame2, hbuck2, hiff2⟩ := resizeBlock_spec hbuck1
    ((hiff1 p (i - p)).mpr ⟨hpb, by omega⟩) (i + n + q - p)
  refine ⟨f2, p, i + n + q, ?_, ⟨.inr ⟨hpi, hpb⟩, .inr ⟨by omega, by simpa using hqb⟩,
    fun j l hj => H.end_ne_start hpb hj, hab⟩,
    hsame2.trans hsame1, hbuck2, fun j k => ?_⟩
  · simp [mergeBlock, hprev, hnext, mergeWith, hok1, hok2, hadd,
      subU32_of_le (show p ≤ i + n + q by omega),
      assertAligned_of (show 16 ∣ i + n + q - p by omega)]
  · rw [hiff2, hiff1]
    tauto

/-- Replacing the touching blocks keeps the invariant, if the block does not touch the
bump region. -/
theorem Valid.of_replaces (hp : Placed i n limit) (hc : f.Clear i n)
    (hptr : i + n ≠ f.bumpPtr) (hend : f.bumpEnd ≠ i) {a b : ℕ} (hr : f.Replaces f' i n a b) :
    f'.Valid limit := by
  obtain ⟨⟨hleft, hright, hbelow, hab⟩, hsame, hbuck, hiff⟩ := hr
  have hbump := hc.bump
  have hle := H.bumpPtr_le
  have hleftb : a = i ∨ (a < i ∧ Placed a (i - a) limit ∧
      (a + (i - a) ≤ f.bumpPtr ∨ f.bumpEnd ≤ a)) :=
    hleft.imp_right fun h => ⟨h.1, H.placed _ _ h.2, H.outside _ _ h.2⟩
  have hrightb : b = i + n ∨ (i + n < b ∧ Placed (i + n) (b - (i + n)) limit ∧
      (i + n + (b - (i + n)) ≤ f.bumpPtr ∨ f.bumpEnd ≤ i + n)) :=
    hright.imp_right fun h => ⟨h.1, H.placed _ _ h.2, H.outside _ _ h.2⟩
  have hpl : Placed a (b - a) limit := by
    refine ⟨?_, ?_, ?_, ?_, ?_⟩ <;>
      rcases hleftb with rfl | ⟨hlt, hpa, -⟩ <;> rcases hrightb with rfl | ⟨hlt', hpb, -⟩ <;>
      grind [Placed]
  -- A block that stays is clear of the new one, and does not touch it.
  have hstay : ∀ j k, j ≠ a → j ≠ i + n → f.HasBlock j k → j + k < a ∨ b < j := by
    intro j k hja hjn hjk
    rcases hc.blocks j k hjk with hlow | hhigh
    · left
      rcases hleft with rfl | ⟨hlt, hba⟩
      · have := hbelow j k hjk
        omega
      rcases lt_or_ge j a with hj | hj
      · exact H.separated j k a _ hjk hba hj
      · have := H.separated a _ j k hba hjk (by omega)
        omega
    · right
      rcases hright with rfl | ⟨hlt, hbb⟩
      · omega
      · have := H.separated (i + n) _ j k hbb hjk (by omega)
        omega
  refine ⟨hbuck, H.limit_le, hsame.bumpPtr_eq ▸ H.le_bumpPtr, ?_,
    hsame.bumpEnd_eq ▸ H.bumpEnd_le, hsame.bumpPtr_eq ▸ H.dvd_bumpPtr,
    hsame.bumpEnd_eq ▸ H.dvd_bumpEnd, ?_, ?_, ?_⟩
  · rw [hsame.bumpPtr_eq, hsame.bumpEnd_eq]
    exact hle
  · intro j k hjk
    rcases (hiff j k).mp hjk with ⟨rfl, rfl⟩ | ⟨-, -, hjk⟩
    · exact hpl
    · exact H.placed j k hjk
  · intro j k j' k' hjk hjk' hlt
    rcases (hiff j k).mp hjk with ⟨rfl, rfl⟩ | ⟨hja, hjn, hjk⟩
    · rcases (hiff j' k').mp hjk' with ⟨rfl, rfl⟩ | ⟨hja', hjn', hjk'⟩
      · omega
      · have := hstay j' k' hja' hjn' hjk'
        omega
    · rcases (hiff j' k').mp hjk' with ⟨rfl, rfl⟩ | ⟨hja', hjn', hjk'⟩
      · have := hstay j k hja hjn hjk
        omega
      · exact H.separated j k j' k' hjk hjk' hlt
  · intro j k hjk
    rw [hsame.bumpPtr_eq, hsame.bumpEnd_eq]
    rcases (hiff j k).mp hjk with ⟨rfl, rfl⟩ | ⟨-, -, hjk⟩
    · rcases hleftb with rfl | ⟨hlt, -, ha⟩ <;> rcases hrightb with rfl | ⟨hlt', -, hb⟩ <;> omega
    · exact H.outside j k hjk

end

/-- Replacing neighbours by their union frees the bytes between. -/
theorem free_of_replaces (hn : 0 < n) (hc : f.Clear i n) {a b : ℕ} (hr : f.Replaces f' i n a b)
    (x : ℕ) : f'.Free x ↔ f.Free x ∨ (i ≤ x ∧ x < i + n) := by
  obtain ⟨⟨hleft, hright, -, hab⟩, hsame, -, hiff⟩ := hr
  rw [Free, Free, hsame.bumpPtr_eq, hsame.bumpEnd_eq]
  constructor
  · rintro (⟨j, k, hjk, hx⟩ | hbump)
    · rcases (hiff j k).mp hjk with ⟨rfl, rfl⟩ | ⟨-, -, hjk⟩
      · -- A byte of the new block is in the block or in a neighbour.
        by_cases hlow : x < i
        · rcases hleft with rfl | ⟨hlt, hba⟩
          · omega
          · exact .inl (.inl ⟨_, _, hba, by omega, by omega⟩)
        by_cases hhigh : x < i + n
        · exact .inr ⟨by omega, hhigh⟩
        · rcases hright with rfl | ⟨hlt, hbb⟩
          · omega
          · exact .inl (.inl ⟨_, _, hbb, by omega, by omega⟩)
      · exact .inl (.inl ⟨j, k, hjk, hx⟩)
    · exact .inl (.inr hbump)
  have hnew : f'.HasBlock a (b - a) := (hiff a _).mpr (.inl ⟨rfl, rfl⟩)
  rintro ((⟨j, k, hjk, hx⟩ | hbump) | hx)
  · by_cases hja : j = a
    · subst hja
      have := hc.blocks j k hjk
      refine .inl ⟨j, b - j, hnew, by omega, ?_⟩
      rcases hleft with rfl | ⟨hlt, hba⟩
      · omega
      · omega
    by_cases hjn : j = i + n
    · subst hjn
      rcases hright with rfl | ⟨hlt, hbb⟩
      · exact absurd hjk (hab k)
      · have := hbb.unique hjk
        exact .inl ⟨a, b - a, hnew, by omega, by omega⟩
    · exact .inl ⟨j, k, (hiff j k).mpr (.inr ⟨hja, hjn, hjk⟩), hx⟩
  · exact .inr hbump
  · exact .inl ⟨a, b - a, hnew, by omega, by omega⟩

/-! ## Joining a block to the bump region -/

section

variable (H : f.Valid limit)
include H

theorem Valid.apart {b : ℕ} (hb : f.HasBlock b l)
    (hbl : ∀ j k, f'.HasBlock j k ↔ f.HasBlock j k ∧ j ≠ b) (j k : ℕ) (h : f'.HasBlock j k) :
    f.HasBlock j k ∧ (j + k < b ∨ b + l < j) := by
  obtain ⟨hjk, hjb⟩ := (hbl j k).mp h
  rcases lt_or_gt_of_ne hjb with hlt | hgt
  · exact ⟨hjk, .inl (H.separated j k b l hjk hb hlt)⟩
  · exact ⟨hjk, .inr (H.separated b l j k hb hjk hgt)⟩

theorem Valid.grow {g : FreeList} {b : ℕ} (hp : Placed b l limit) (hbuck : g.Buckets)
    (hbl : ∀ j k, g.HasBlock j k → f.HasBlock j k ∧ (j + k ≤ b ∨ b + l ≤ j))
    (htch : b + l = f.bumpPtr ∧ g.bumpPtr = b ∧ g.bumpEnd = f.bumpEnd ∨
      b = f.bumpEnd ∧ g.bumpPtr = f.bumpPtr ∧ g.bumpEnd = b + l) :
    g.Valid limit ∧ ∀ x, (g.bumpPtr ≤ x ∧ x < g.bumpEnd ↔
      (f.bumpPtr ≤ x ∧ x < f.bumpEnd) ∨ (b ≤ x ∧ x < b + l)) := by
  obtain ⟨hb, hd, hdl, hpos, hend⟩ := hp
  obtain ⟨-, hlim, hptr, hle, hbend, hdp, hde, -⟩ := id H
  refine ⟨⟨hbuck, hlim, by omega, by omega, by omega, by omega, by omega,
    fun j k h => H.placed j k (hbl j k h).1, fun j k j' k' h h' =>
      H.separated j k j' k' (hbl j k h).1 (hbl j' k' h').1, fun j k h => ?_⟩,
    fun x => by omega⟩
  have := hbl j k h
  have := H.outside j k this.1
  have := (H.placed j k (hbl j k h).1).size_pos
  omega

theorem Valid.join {g : FreeList} {b : ℕ} (hb : f.HasBlock b l) (hbuck : g.Buckets)
    (hbl : ∀ j k, g.HasBlock j k ↔ f.HasBlock j k ∧ j ≠ b)
    (htch : b + l = f.bumpPtr ∧ g.bumpPtr = b ∧ g.bumpEnd = f.bumpEnd ∨
      b = f.bumpEnd ∧ g.bumpPtr = f.bumpPtr ∧ g.bumpEnd = b + l) :
    g.Valid limit ∧ ∀ x, g.Free x ↔ f.Free x := by
  have hstay := H.apart hb hbl
  obtain ⟨H', hreg⟩ := H.grow (H.placed b l hb) hbuck
    (fun j k h => (hstay j k h).imp_right (Or.imp le_of_lt le_of_lt)) htch
  refine ⟨H', fun x => ?_⟩
  rw [Free, Free, hreg]
  constructor
  · rintro (⟨j, k, hjk, hx⟩ | hx | hx)
    · exact .inl ⟨j, k, (hstay j k hjk).1, hx⟩
    · exact .inr hx
    · exact .inl ⟨b, l, hb, hx⟩
  rintro (⟨j, k, hjk, hx⟩ | hx)
  · by_cases hjb : j = b
    · subst hjb
      exact .inr (.inr (hjk.unique hb ▸ hx))
    · exact .inl ⟨j, k, (hbl j k).mpr ⟨hjk, hjb⟩, hx⟩
  · exact .inr (.inl hx)

/-- `absorb_last` moves a block into the bump region and changes no free byte. -/
theorem absorbLast_spec :
    ∃ f', f.absorbLast = .ok f' ∧ f'.Valid limit ∧ (∀ x, f'.Free x ↔ f.Free x) ∧
      f'.capacity = f.capacity ∧ f'.bumpEnd = f.bumpEnd ∧ f'.bumpPtr ≤ f.bumpPtr ∧
      (∀ j k, f'.HasBlock j k → f.HasBlock j k) ∧
      ((∀ j k, f.HasBlock j k → j + k = f.bumpPtr →
          f.freeBlockIndexToLen.last? = some (j, k)) →
        ∀ j k, f'.HasBlock j k → j + k ≠ f'.bumpPtr) := by
  have hlim := H.limit_le
  cases hlast : f.freeBlockIndexToLen.last? with
  | none =>
    have hnone : ∀ j k, ¬f.HasBlock j k := fun j k h => by
      rw [HasBlock, last?_eq_none hlast j] at h
      cases h
    exact ⟨f, by simp [absorbLast, hlast], H, fun _ => Iff.rfl, rfl, rfl, le_rfl,
      fun _ _ h => h, fun _ j k h => absurd h (hnone j k)⟩
  | some e =>
    obtain ⟨b, l⟩ := e
    have hb := (last?_spec hlast).1
    have hpl := H.placed b l hb
    have hpend := hpl.end_le
    have hadd : addU32 b l = .ok (b + l) := addU32_of_le (by omega)
    by_cases hjoin : b + l = f.bumpPtr
    · obtain ⟨f', hok, hsame, hbuck, hiff⟩ :=
        removeBlock_spec (f := { f with bumpPtr := b }) ⟨H.buckets.1, H.buckets.2⟩ hb
      have hp : f'.bumpPtr = b := hsame.bumpPtr_eq
      have he := hsame.bumpEnd_eq
      obtain ⟨H', hfree⟩ := H.join hb hbuck hiff (.inl ⟨hjoin, hp, he⟩)
      have hstay := H.apart hb hiff
      refine ⟨f', by simp [absorbLast, hlast, hadd, hjoin, hok], H', hfree, hsame.capacity_eq, he,
        by omega, fun j k h => (hstay j k h).1, fun _ j k h => ?_⟩
      -- A block that stays ends before the one that joined.
      have hk := (H.placed j k (hstay j k h).1).size_pos
      have := (hstay j k h).2
      omega
    · refine ⟨f, by simp [absorbLast, hlast, hadd, hjoin], H, fun _ => Iff.rfl, rfl, rfl, le_rfl,
        fun _ _ h => h, fun htch j k h heq => ?_⟩
      -- The only block that could touch the region is the last one, and it does not.
      obtain ⟨rfl, rfl⟩ : b = j ∧ l = k := by simpa using htch j k h heq
      exact hjoin heq

/-- `absorb_next` moves a block into the bump region and changes no free byte. -/
theorem absorbNext_spec :
    ∃ f', f.absorbNext = .ok f' ∧ f'.Valid limit ∧ (∀ x, f'.Free x ↔ f.Free x) ∧
      f'.capacity = f.capacity ∧ f'.bumpPtr = f.bumpPtr ∧ f.bumpEnd ≤ f'.bumpEnd ∧
      (∀ j k, f'.HasBlock j k → f.HasBlock j k ∧ j ≠ f.bumpEnd) ∧
      ∀ k, ¬f'.HasBlock f'.bumpEnd k := by
  have hlim := H.limit_le
  cases hget : f.freeBlockIndexToLen.get? f.bumpEnd with
  | none =>
    have hnone : ∀ k, ¬f.HasBlock f.bumpEnd k := fun k h => by
      rw [HasBlock, hget] at h
      cases h
    exact ⟨f, by simp [absorbNext, hget], H, fun _ => Iff.rfl, rfl, rfl, le_rfl,
      fun j k h => ⟨h, fun heq => hnone k (heq ▸ h)⟩, hnone⟩
  | some l =>
    have hpl := H.placed _ l hget
    have hpend := hpl.end_le
    obtain ⟨f1, hok, hsame, hbuck, hiff⟩ := removeBlock_spec H.buckets hget
    have hp := hsame.bumpPtr_eq
    have he := hsame.bumpEnd_eq
    have hadd : addU32 f1.bumpEnd l = .ok (f.bumpEnd + l) := by
      rw [he]
      exact addU32_of_le (by omega)
    obtain ⟨H', hfree⟩ := H.join (g := { f1 with bumpEnd := f.bumpEnd + l }) hget
      ⟨hbuck.1, hbuck.2⟩ hiff (.inr ⟨rfl, hp, rfl⟩)
    refine ⟨_, by simp [absorbNext, hget, hok, hadd], H', hfree, hsame.capacity_eq, hp, by simp,
      fun j k h => (hiff j k).mp h, fun k h => ?_⟩
    -- A block that stays starts after the one that joined.
    have hstay := H.apart hget hiff _ k h
    simp only at hstay
    omega

/-! ## Deallocation -/

/-- What returning the block `[i, i + n)` does. -/
structure Returns (f f' : FreeList) (i n limit : ℕ) : Prop where
  valid : f'.Valid limit
  capacity_eq : f'.capacity = f.capacity
  /-- The bytes of the block become free, and no others. -/
  free_iff : ∀ x, f'.Free x ↔ f.Free x ∨ (i ≤ x ∧ x < i + n)
  /-- The bump region is as before, or it is not empty. -/
  bump : (f'.bumpPtr = f.bumpPtr ∧ f'.bumpEnd = f.bumpEnd) ∨ f'.bumpPtr < f'.bumpEnd
  /-- Blocks that touch the bump region keep joining it, unless the source misses one. -/
  tidy : f.Tidy → ¬f.MissesMerge i n → f'.Tidy

section

variable (hp : Placed i n limit) (hc : f.Clear i n)
include hp hc

/-- The freed block ends where the bump region starts. -/
theorem deallocImpl_below (hptr : i + n = f.bumpPtr) :
    ∃ f', absorbLast { f with bumpPtr := i } = .ok f' ∧ f.Returns f' i n limit := by
  have hle := H.bumpPtr_le
  have hn := hp.size_pos
  obtain ⟨H1, hreg⟩ := H.grow (g := { f with bumpPtr := i }) hp ⟨H.buckets.1, H.buckets.2⟩
    (fun j k h => ⟨h, hc.blocks j k h⟩) (.inl ⟨hptr, rfl, rfl⟩)
  obtain ⟨f', hok, H', hfree, hcap, hend, hptr', hsub, htidy⟩ := absorbLast_spec H1
  simp only at hcap hend hptr' hsub htidy
  refine ⟨f', hok, H', hcap, fun x => ?_, .inr (by omega), fun T hmiss => ⟨?_, ?_⟩⟩
  · rw [hfree, Free, hreg, Free, or_assoc]
    rfl
  · refine htidy fun j k h hjk => ?_
    by_contra hlast
    exact hmiss ⟨hptr, j, k, h, hjk, hlast⟩
  · intro k h
    rw [hend] at h
    have := T.above k (hsub _ k h)
    have := hp.le_index
    omega

/-- The freed block starts where the bump region ends. -/
theorem deallocImpl_above (hend : f.bumpEnd = i) :
    ∃ f', absorbNext { f with bumpEnd := i + n } = .ok f' ∧ f.Returns f' i n limit ∧
      ∀ j k, f'.HasBlock j k → f.HasBlock j k ∧ j ≠ i + n := by
  have hle := H.bumpPtr_le
  have hn := hp.size_pos
  obtain ⟨H1, hreg⟩ := H.grow (g := { f with bumpEnd := i + n }) hp ⟨H.buckets.1, H.buckets.2⟩
    (fun j k h => ⟨h, hc.blocks j k h⟩) (.inr ⟨hend.symm, rfl, rfl⟩)
  obtain ⟨f', hok, H', hfree, hcap, hptr', hend', hsub, hab⟩ := absorbNext_spec H1
  simp only at hcap hend' hptr' hsub
  refine ⟨f', hok, ⟨H', hcap, fun x => ?_, .inr (by omega), fun T _ => ⟨?_, ?_⟩⟩, hsub⟩
  · rw [hfree, Free, hreg, Free, or_assoc]
    rfl
  · intro j k h
    rw [hptr']
    exact T.below j k (hsub j k h).1
  · intro k h
    exact absurd h (hab k)

/-- The freed block is apart from the bump region. -/
theorem deallocImpl_apart (hptr : i + n ≠ f.bumpPtr) (hend : f.bumpEnd ≠ i) :
    ∃ f1 f', f.mergeBlock i n = .ok f1 ∧ f1.absorbLast = .ok f' ∧ f.Returns f' i n limit ∧
      f'.bumpEnd = f.bumpEnd ∧ f'.bumpPtr ≤ f.bumpPtr := by
  have hn := hp.size_pos
  obtain ⟨f1, a, b, hok1, hr⟩ := mergeBlock_spec H hp hc
  have H1 := H.of_replaces hp hc hptr hend hr
  obtain ⟨f', hok, H', hfree, hcap, hend', hptr', hsub, htidy⟩ := absorbLast_spec H1
  have hptr1 := hr.same.bumpPtr_eq
  have hend1 := hr.same.bumpEnd_eq
  refine ⟨f1, f', hok1, hok, ⟨H', hcap.trans hr.same.capacity_eq, fun x => ?_, ?_, fun T _ => ?_⟩,
    hend'.trans hend1, by omega⟩
  · rw [hfree, free_of_replaces hn hc hr]
  · have := H.bumpPtr_le
    omega
  -- Neither the block nor a neighbour touches the bump region.
  have htch : ∀ j k, f1.HasBlock j k → j + k ≠ f1.bumpPtr := by
    intro j k h
    rw [hptr1]
    rcases (hr.hasBlock_iff j k).mp h with ⟨rfl, rfl⟩ | ⟨-, -, h⟩
    · rcases hr.joins.right with hb | ⟨hlt, hb⟩
      · have : j ≤ i := by rcases hr.joins.left with h | h <;> omega
        omega
      · have := T.below _ _ hb
        have : j ≤ i := by rcases hr.joins.left with h | h <;> omega
        omega
    · exact T.below j k h
  refine ⟨htidy fun j k h hjk => absurd hjk (htch j k h), fun k h => ?_⟩
  rw [hend', hend1] at h ⊢
  rcases (hr.hasBlock_iff _ k).mp (hsub _ k h) with ⟨ha, rfl⟩ | ⟨-, -, h⟩
  · rcases hr.joins.left with hai | ⟨hlt, hba⟩
    · omega
    · have := T.above _ (ha ▸ hba)
      have := H'.le_bumpPtr
      omega
  · have := T.above k h
    have := H'.le_bumpPtr
    omega

/-- **Deallocation.**  Returning a clear block never faults, keeps the invariant, and
makes exactly its bytes free. -/
theorem deallocImpl_spec : ∃ f', f.deallocImpl i n = .ok f' ∧ f.Returns f' i n limit := by
  have hpend := hp.end_le
  have hlim := H.limit_le
  have hadd : addU32 i n = .ok (i + n) := addU32_of_le (by omega)
  simp only [deallocImpl, assertAligned_of hp.dvd_index, assertAligned_of hp.dvd_size,
    ok_bind, hadd]
  by_cases hptr : i + n = f.bumpPtr
  · rw [if_pos hptr]
    exact deallocImpl_below H hp hc hptr
  rw [if_neg hptr]
  by_cases hend : f.bumpEnd = i
  · rw [if_pos hend]
    obtain ⟨f', hok, hret, -⟩ := deallocImpl_above H hp hc hend
    exact ⟨f', hok, hret⟩
  · rw [if_neg hend]
    obtain ⟨f1, f', hok1, hok, hret, -⟩ := deallocImpl_apart H hp hc hptr hend
    exact ⟨f', by rw [hok1, ok_bind, hok], hret⟩

end

end

/-- Other blocks stay allocated. -/
theorem Returns.clear (hr : f.Returns f' i n limit) (hk : 0 < k) (hc : f.Clear j k)
    (hdisj : j + k ≤ i ∨ i + n ≤ j) : f'.Clear j k := by
  refine .of_free hr.valid hk (fun x hx hx' => ?_) fun heq => ?_
  · rw [hr.free_iff]
    rintro (h | h)
    · exact hc.not_free hx hx' h
    · omega
  · have := hc.bump
    rcases hr.bump with ⟨h1, h2⟩ | h
    · omega
    · omega

/-! ## Allocation -/

section

variable (H : f.Valid limit)
include H

omit H in
/-- The list without its bump region. -/
def unset (f : FreeList) : FreeList := { f with bumpPtr := 16, bumpEnd := 16 }

omit H in
theorem free_iff_unset (f : FreeList) (x : ℕ) :
    f.Free x ↔ f.unset.Free x ∨ (f.bumpPtr ≤ x ∧ x < f.bumpEnd) := by
  have : ¬(16 ≤ x ∧ x < 16) := by omega
  simp [Free, HasBlock, unset, this, or_false]

theorem Valid.unset : f.unset.Valid limit :=
  ⟨⟨H.buckets.1, H.buckets.2⟩, H.limit_le, le_rfl, le_rfl,
    H.le_bumpPtr.trans (H.bumpPtr_le.trans H.bumpEnd_le), dvd_refl 16, dvd_refl 16, H.placed,
    H.separated, fun j k h => .inr (H.placed j k h).le_index⟩

theorem Valid.tidy_unset : f.unset.Tidy := by
  refine ⟨fun j k h => ?_, fun _ _ => ⟨rfl, rfl⟩⟩
  have := (H.placed j k h).le_index
  have := (H.placed j k h).size_pos
  simp only [FreeList.unset]
  omega

/-- Putting the bump region back keeps the free bytes.  Afterwards the region is unset,
unless it started at the first granule. -/
theorem putBackBump_spec :
    ∃ f', f.putBackBump = .ok f' ∧ f'.Valid limit ∧ f'.capacity = f.capacity ∧
      (∀ x, f'.Free x ↔ f.Free x) ∧ f'.Tidy ∧
      (∀ j k, 0 < k → 16 ≤ j → f.Clear j k → f'.Clear j k) ∧
      ((f'.bumpPtr = 16 ∧ f'.bumpEnd = 16) ∨
        (f.bumpPtr = 16 ∧ 16 < f.bumpEnd ∧
          ∀ j k, f'.HasBlock j k → f.HasBlock j k ∧ j ≠ f.bumpEnd)) := by
  have hle := H.bumpPtr_le
  have hptr := H.le_bumpPtr
  have hend := H.bumpEnd_le
  have hlim := H.limit_le
  have hclear : ∀ j k, 16 ≤ j → f.Clear j k → f.unset.Clear j k :=
    fun j k hj hc => ⟨hc.blocks, .inr hj⟩
  rw [putBackBump, subU32_of_le hle, ok_bind, freeListAlign]
  by_cases hrem : f.bumpEnd - f.bumpPtr ≥ 16
  · rw [if_pos hrem]
    obtain ⟨n, hn⟩ : ∃ n, n = f.bumpEnd - f.bumpPtr := ⟨_, rfl⟩
    have hsum : f.bumpPtr + n = f.bumpEnd := by omega
    rw [← hn]
    have hp : Placed f.bumpPtr n limit := by
      have hd := H.dvd_bumpPtr
      have hd' := H.dvd_bumpEnd
      exact ⟨hptr, hd, by omega, by omega, by omega⟩
    have hc : f.unset.Clear f.bumpPtr n := by
      refine ⟨fun j k h => ?_, .inr hptr⟩
      have := H.outside j k h
      omega
    have hmiss : ¬f.unset.MissesMerge f.bumpPtr n := by
      rintro ⟨h, -⟩
      simp only [unset] at h
      omega
    have finish : ∀ f', f.unset.Returns f' f.bumpPtr n limit → f'.Valid limit ∧
        f'.capacity = f.capacity ∧ (∀ x, f'.Free x ↔ f.Free x) ∧ f'.Tidy ∧
        (∀ j k, 0 < k → 16 ≤ j → f.Clear j k → f'.Clear j k) := by
      intro f' hr
      refine ⟨hr.valid, hr.capacity_eq, fun x => ?_, hr.tidy H.tidy_unset hmiss,
        fun j k hk hj hc' => hr.clear hk (hclear j k hj hc') ?_⟩
      · rw [hr.free_iff, hsum]
        exact (f.free_iff_unset x).symm
      · have := hc'.bump
        omega
    simp only [insertFreeBlock, deallocImpl, assertAligned_of hp.dvd_index,
      assertAligned_of hp.dvd_size, ok_bind,
      addU32_of_le (show f.bumpPtr + n ≤ u32Max by omega)]
    rw [if_neg (by omega)]
    by_cases hfst : 16 = f.bumpPtr
    · -- The unset region touches the block: it becomes the bump region again.
      rw [if_pos hfst]
      obtain ⟨f', hok, hr, hsub⟩ := deallocImpl_above H.unset hp hc hfst
      obtain ⟨h1, h2, h3, h4, h5⟩ := finish f' hr
      refine ⟨f', hok, h1, h2, h3, h4, h5, .inr ⟨hfst.symm, by omega, fun j k h => ?_⟩⟩
      have := hsub j k h
      exact ⟨this.1, by have := this.2; omega⟩
    rw [if_neg hfst]
    obtain ⟨f1, f', hok1, hok, hr, hend', hptr'⟩ :=
      deallocImpl_apart H.unset hp hc (by simp only [unset]; omega) hfst
    obtain ⟨h1, h2, h3, h4, h5⟩ := finish f' hr
    refine ⟨f', (congrArg (· >>= absorbLast) hok1).trans hok, h1, h2, h3, h4, h5, .inl ⟨?_, hend'⟩⟩
    have := hr.valid.le_bumpPtr
    simp only [unset] at hptr'
    omega
  rw [if_neg hrem]
  have hemp : f.bumpPtr = f.bumpEnd := by
    have := H.dvd_bumpPtr
    have := H.dvd_bumpEnd
    omega
  refine ⟨f.unset, rfl, H.unset, rfl, fun x => ?_, H.tidy_unset,
    fun j k _ hj hc => hclear j k hj hc, .inl ⟨rfl, rfl⟩⟩
  have := f.free_iff_unset x
  exact ⟨fun h => this.mpr (.inl h), fun h => (this.mp h).resolve_right (by omega)⟩

/-- The search finds a block that is large enough, if there is one. -/
theorem findBlock_spec {buckets : List (ℕ × SortedSet ℕ)}
    (hsub : ∀ l set, (l, set) ∈ buckets → size ≤ l ∧ f.freeBlockLenToIndices.get? l = some set) :
    (findBlock size buckets = .ok none ∧ buckets = []) ∨
    ∃ i l, findBlock size buckets = .ok (some (i, l)) ∧ size ≤ l ∧ f.HasBlock i l := by
  cases buckets with
  | nil => exact .inl ⟨rfl, rfl⟩
  | cons e rest =>
    obtain ⟨l, set⟩ := e
    obtain ⟨hle, hget⟩ := hsub l set (by simp)
    obtain ⟨i, u, hi⟩ := isEmpty_eq_false.mp (H.buckets.nonempty l set hget)
    cases hfst : first? set with
    | none =>
      rw [first?_eq_none hfst i] at hi
      cases hi
    | some e =>
      obtain ⟨b, u'⟩ := e
      have hb := (H.buckets.inBucket_iff b l).mp ⟨set, hget, (first?_spec hfst).1⟩
      refine .inr ⟨b, l, ?_, hle, hb⟩
      simp [findBlock, hle, assertAligned_of (H.placed b l hb).dvd_size, hfst]

/-- A block becomes the bump region. -/
theorem refillBump_spec (size : ℕ) (hsize : 16 ∣ size) : (f.refillBump size = .ok (f, none)) ∨
    ∃ f' i l, f.refillBump size = .ok (f', some i) ∧ f.HasBlock i l ∧ size ≤ l ∧
      f'.Buckets ∧ f'.capacity = f.capacity ∧ f'.bumpPtr = i + size ∧ f'.bumpEnd = i + l ∧
      ∀ j k, f'.HasBlock j k ↔ f.HasBlock j k ∧ j ≠ i := by
  have hsub : ∀ l set, (l, set) ∈ f.freeBlockLenToIndices.rangeFrom size →
      size ≤ l ∧ f.freeBlockLenToIndices.get? l = some set := fun l set h =>
    And.symm (mem_rangeFrom.mp h)
  rcases findBlock_spec H hsub with ⟨hok, -⟩ | ⟨i, l, hok, hle, hb⟩
  · exact .inl (by simp [refillBump, hok])
  have hp := H.placed i l hb
  have hpend := hp.end_le
  have hpos := hp.size_pos
  have hidx := hp.le_index
  have hlim := H.limit_le
  have hget : f.freeBlockIndexToLen.get? i = some l := hb
  obtain ⟨buckets, hok', -⟩ :=
    removeFromBlockLenToIndex_spec ((H.buckets.inBucket_iff i l).mpr hb) H.buckets.nonempty
  -- The same two removals as in `removeBlock`, in the other order.
  obtain ⟨f1, hok1, -, hbuck1, hiff1⟩ := removeBlock_spec H.buckets hb
  have heq : f1 = { f with
      freeBlockIndexToLen := f.freeBlockIndexToLen.erase i
      freeBlockLenToIndices := buckets } := by
    simpa [removeBlock, hget, hok', eq_comm] using hok1
  subst heq
  refine .inr ⟨{ f with
      freeBlockIndexToLen := f.freeBlockIndexToLen.erase i
      freeBlockLenToIndices := buckets
      bumpPtr := i + size
      bumpEnd := i + l }, i, l, ?_, hb, hle, ⟨hbuck1.1, hbuck1.2⟩, rfl, rfl, rfl, hiff1⟩
  simp [refillBump, hok, hok', hget, assertAligned_of hp.dvd_index,
    assertAligned_of hp.dvd_size, hpos.ne', hle,
    addU32_of_le (show i + size ≤ u32Max by omega), addU32_of_le (show i + l ≤ u32Max by omega),
    show i ≠ 0 by omega]

/-- What a successful allocation of `[i, i + size)` does. -/
structure Takes (f f' : FreeList) (i size limit : ℕ) : Prop where
  valid : f'.Valid limit
  capacity_eq : f'.capacity = f.capacity
  placed : Placed i size limit
  free : ∀ x, i ≤ x → x < i + size → f.Free x
  free_of_free : ∀ x, f'.Free x → f.Free x
  clear : f'.Clear i size
  /-- Other blocks that were clear stay clear. -/
  clear_of_clear : ∀ j k, 0 < k → 16 ≤ j → f.Clear j k → f'.Clear j k
  /-- The rest stays free, unless a bump region is lost. -/
  stays_free : ¬f.LosesBump size → ∀ x, f.Free x → f'.Free x ∨ (i ≤ x ∧ x < i + size)
  tidy : f.Tidy → f'.Tidy

/-- **Allocation.**  It never faults and keeps the invariant.  A failed allocation keeps
the free bytes; a successful one returns a block of free bytes. -/
theorem allocImpl_spec (hsize : 16 ∣ size) (hpos : 0 < size) :
    (∃ f', f.allocImpl size = .ok (f', none) ∧ f'.Valid limit ∧ f'.capacity = f.capacity ∧
      (∀ x, f'.Free x ↔ f.Free x) ∧ f'.Tidy ∧
      ∀ j k, 0 < k → 16 ≤ j → f.Clear j k → f'.Clear j k) ∨
    ∃ f' i, f.allocImpl size = .ok (f', some i) ∧ f.Takes f' i size limit := by
  have hptr := H.le_bumpPtr
  have hend := H.bumpEnd_le
  have hlim := H.limit_le
  have hd := H.dvd_bumpPtr
  rw [allocImpl, assertAligned_of hsize, ok_bind]
  by_cases hfast : f.bumpPtr + size ≤ f.bumpEnd
  · -- The bump region is large enough.
    rw [if_pos ⟨by omega, hfast⟩]
    refine .inr ⟨{ f with bumpPtr := f.bumpPtr + size }, f.bumpPtr,
      by simp [show f.bumpPtr ≠ 0 by omega, assertAligned_of hd], ?_, rfl,
      ⟨hptr, hd, hsize, hpos, by omega⟩, fun x h1 h2 => .inr (by omega), ?_, ?_, ?_, ?_, ?_⟩
    · refine ⟨⟨H.buckets.1, H.buckets.2⟩, hlim, by simp only; omega, hfast, hend,
        by simp only; omega, H.dvd_bumpEnd, H.placed, H.separated, fun j k h => ?_⟩
      have := H.outside j k h
      simp only
      omega
    · rintro x (h | h)
      · exact .inl h
      · exact .inr (by simp only at h; omega)
    · refine ⟨fun j k h => ?_, .inl le_rfl⟩
      have := H.outside j k h
      omega
    · intro j k _ _ hc
      refine ⟨hc.blocks, ?_⟩
      have := hc.bump
      simp only
      omega
    · rintro - x (h | h)
      · exact .inl (.inl h)
      · by_cases hx : x < f.bumpPtr + size
        · exact .inr ⟨h.1, hx⟩
        · exact .inl (.inr (by simp only; omega))
    intro T
    refine ⟨fun j k h => ?_, fun k h => ?_⟩
    · have := H.outside j k h
      have := (H.placed j k h).size_pos
      simp only
      omega
    · have := T.above k h
      omega
  rw [if_neg (by omega)]
  obtain ⟨f1, hok1, H1, hcap1, hfree1, T1, hclear1, hreg⟩ := putBackBump_spec H
  rw [allocSlow, hok1, ok_bind]
  rcases refillBump_spec H1 size hsize with hok2 |
    ⟨f2, i, l, hok2, hb, hl, hB, hcap, hp, he, hiff⟩
  · exact .inl ⟨f1, hok2, H1, hcap1, hfree1, T1, hclear1⟩
  have hpl := H1.placed i l hb
  have hpd := hpl.dvd_index
  have hpdl := hpl.dvd_size
  have hpe := hpl.end_le
  have hpi := hpl.le_index
  -- A block that stays is apart from the one that is used.
  have hstay := H1.apart hb hiff
  have hsub : ∀ x, f2.Free x → f1.Free x := by
    rintro x (⟨j, k, h, hx⟩ | hx)
    · exact .inl ⟨j, k, (hstay j k h).1, hx⟩
    · exact .inl ⟨i, l, hb, by omega, by omega⟩
  refine .inr ⟨f2, i, hok2, ?_, hcap.trans hcap1, ⟨hpi, hpd, hsize, hpos, by omega⟩,
    fun x h1 h2 => (hfree1 x).mp (.inl ⟨i, l, hb, h1, by omega⟩),
    fun x hx => (hfree1 x).mp (hsub x hx), ?_, ?_, ?_, ?_⟩
  · refine ⟨hB, hlim, by omega, by omega, by omega, by omega, by omega,
      fun j k h => H1.placed j k (hstay j k h).1,
      fun j k j' k' h h' => H1.separated j k j' k' (hstay j k h).1 (hstay j' k' h').1,
      fun j k h => ?_⟩
    have := (hstay j k h).2
    omega
  · refine ⟨fun j k h => ?_, .inl (by omega)⟩
    have := (hstay j k h).2
    omega
  · intro j k hk hj hc
    have hc1 := hclear1 j k hk hj hc
    refine ⟨fun j' k' h => hc1.blocks j' k' (hstay j' k' h).1, ?_⟩
    have := hc1.blocks i l hb
    omega
  · intro hlose x hx
    -- The unset region is the only one that may be replaced.
    have hunset : f1.bumpPtr = 16 ∧ f1.bumpEnd = 16 := by
      rcases hreg with h | ⟨h1, h2, h3⟩
      · exact h
      · exact absurd ⟨h1, h2, by omega, i, l, (h3 i l hb).1, hl, (h3 i l hb).2⟩ hlose
    rcases (hfree1 x).mpr hx with ⟨j, k, hjk, hjx⟩ | hbump
    · by_cases hji : j = i
      · subst hji
        have := hjk.unique hb
        by_cases hxs : x < j + size
        · exact .inr ⟨hjx.1, hxs⟩
        · exact .inl (.inr (by omega))
      · exact .inl (.inl ⟨j, k, (hiff j k).mpr ⟨hjk, hji⟩, hjx⟩)
    · omega
  · intro _
    refine ⟨fun j k h => ?_, fun k h => ?_⟩
    · have := (hstay j k h).2
      omega
    · have := (hstay _ k h).2
      omega

end

end FreeList

end WasmDeps.Gc
