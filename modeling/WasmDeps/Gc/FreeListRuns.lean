import WasmDeps.Gc.FreeListInvariant

/-!
# Runs of the free list

A run starts from `FreeList::new` and allocates, deallocates live blocks and adds
capacity, in any order.  The state keeps the live blocks beside the free list.

Allocated blocks are exclusive in runs whose allocations ask for at least one byte.  That no space
is lost and that it is one block again needs, in addition, that the run avoids the steps
`FreeList.LosesBump` and `FreeList.MissesMerge` describe.
-/

namespace WasmDeps.Gc

open WasmDeps.Lib FreeList Machine

/-- A free list and the blocks allocated from it, as index and size. -/
structure FreeListState where
  list : FreeList
  live : List (ℕ × ℕ)
  deriving DecidableEq

/-- The operations of a free list. -/
inductive FreeListOp
  | allocFast (size : ℕ)
  | alloc (layout : Layout)
  | deallocFast (index size : ℕ)
  | dealloc (index : ℕ) (layout : Layout)
  | addCapacity (additional : ℕ)

/-- The size of the block that a layout takes. -/
def Layout.blockSize (layout : Layout) : ℕ := roundUp layout.size freeListAlign

namespace FreeListState

variable {s : FreeListState}

/-- The byte belongs to an allocated block. -/
def Live (s : FreeListState) (x : ℕ) : Prop := ∃ b ∈ s.live, b.1 ≤ x ∧ x < b.1 + b.2

/-- The state after an allocation with result `r`. -/
def record (s : FreeListState) (list : FreeList) (r : Option ℕ) (size : ℕ) : FreeListState where
  list := list
  live := match r with
    | some index => (index, size) :: s.live
    | none => s.live

end FreeListState

namespace FreeListOp

/-- Run an operation; the result is the index of the allocated block.  An `Err` of
`alloc` leaves the free list as it is. -/
def run (s : FreeListState) : FreeListOp → Exec (FreeListState × Option ℕ)
  | .allocFast size => do
    let (list, r) ← s.list.allocFast size
    pure (s.record list r size, r)
  | .alloc layout =>
    match s.list.alloc layout with
    | .ok (list, r) => pure (s.record list r layout.blockSize, r)
    | .error (.error _) => pure (s, none)
    | .error fault => throw fault
  | .deallocFast index size => do
    let list ← s.list.deallocFast index size
    pure ({ list, live := s.live.erase (index, size) }, none)
  | .dealloc index layout => do
    let list ← s.list.dealloc index layout
    pure ({ list, live := s.live.erase (index, layout.blockSize) }, none)
  | .addCapacity additional => do
    let list ← s.list.addCapacity additional
    pure ({ s with list }, none)

/-- What callers promise: `alloc_fast` gets an aligned size that is not zero, and only
live blocks are deallocated, with the size or layout they were allocated with. -/
def Allowed (s : FreeListState) : FreeListOp → Prop
  | .allocFast size => 16 ∣ size ∧ 0 < size ∧ size ≤ u32Max
  | .alloc _ => True
  | .deallocFast index size => (index, size) ∈ s.live
  | .dealloc index layout => (index, layout.blockSize) ∈ s.live ∧ layout.align ≤ 16 ∧
      layout.size ≤ u32Max
  | .addCapacity additional => additional ≤ usizeMax

instance (s : FreeListState) : (op : FreeListOp) → Decidable (op.Allowed s)
  | .allocFast size => inferInstanceAs (Decidable (16 ∣ size ∧ 0 < size ∧ size ≤ u32Max))
  | .alloc _ => .isTrue trivial
  | .deallocFast index size => inferInstanceAs (Decidable ((index, size) ∈ s.live))
  | .dealloc index layout => inferInstanceAs (Decidable ((index, layout.blockSize) ∈ s.live ∧
      layout.align ≤ 16 ∧ layout.size ≤ u32Max))
  | .addCapacity additional => inferInstanceAs (Decidable (additional ≤ usizeMax))

/-- The size of the block that an allocation asks for. -/
def allocSize? : FreeListOp → Option ℕ
  | .allocFast size => some size
  | .alloc layout => some layout.blockSize
  | _ => none

/-- The block that an operation frees. -/
def deallocBlock? : FreeListOp → Option (ℕ × ℕ)
  | .deallocFast index size => some (index, size)
  | .dealloc index layout => some (index, layout.blockSize)
  | _ => none

/-- Allocations ask for at least one byte. -/
def PositiveSize (op : FreeListOp) : Prop := ∀ size ∈ op.allocSize?, 0 < size

/-- The operation does not lose the bump region. -/
def KeepsBump (s : FreeListState) (op : FreeListOp) : Prop :=
  ∀ size ∈ op.allocSize?, ¬s.list.LosesBump size

/-- The operation does not leave two free blocks next to each other. -/
def Merges (s : FreeListState) (op : FreeListOp) : Prop :=
  ∀ b ∈ op.deallocBlock?, ¬s.list.MissesMerge b.1 b.2

/-- Decide a question about the free blocks by looking at all of them. -/
instance (f : FreeList) (p : ℕ → ℕ → Prop) [∀ i l, Decidable (p i l)] :
    Decidable (∃ i l, f.HasBlock i l ∧ p i l) :=
  decidable_of_iff (∃ e ∈ f.freeBlockIndexToLen.entries, p e.1 e.2) (by
    simp only [HasBlock, SortedMap.get?_eq_some, Prod.exists])

instance (f : FreeList) (size : ℕ) : Decidable (f.LosesBump size) :=
  inferInstanceAs (Decidable (_ ∧ _ ∧ _ ∧ _))

instance (f : FreeList) (i n : ℕ) : Decidable (f.MissesMerge i n) :=
  inferInstanceAs (Decidable (_ ∧ _))

instance (op : FreeListOp) : Decidable op.PositiveSize :=
  inferInstanceAs (Decidable (∀ size ∈ op.allocSize?, 0 < size))

instance (s : FreeListState) (op : FreeListOp) : Decidable (op.KeepsBump s) :=
  inferInstanceAs (Decidable (∀ size ∈ op.allocSize?, ¬s.list.LosesBump size))

instance (s : FreeListState) (op : FreeListOp) : Decidable (op.Merges s) :=
  inferInstanceAs (Decidable (∀ b ∈ op.deallocBlock?, ¬s.list.MissesMerge b.1 b.2))

end FreeListOp

/-- All runs of a free list from a new one. -/
def freeListMachine : Machine FreeListState FreeListOp where
  start := fun s => ∃ capacity ≤ usizeMax, s = ⟨FreeList.new capacity, []⟩
  allowed := FreeListOp.Allowed
  step := fun s op => Prod.fst <$> op.run s

instance (s : FreeListState) (op : FreeListOp) : Decidable (freeListMachine.allowed s op) :=
  inferInstanceAs (Decidable (op.Allowed s))

/-- The end of the managed range for a capacity; never below the first granule. -/
def managedEnd (capacity : ℕ) : ℕ := max 16 (roundDown (min capacity u32Max) 16)

theorem managedEnd_le (capacity : ℕ) : managedEnd capacity ≤ u32Max := by
  have := roundDown_le (min capacity u32Max) 16
  have : 16 ≤ u32Max := by decide
  rw [managedEnd]
  omega

theorem dvd_managedEnd (capacity : ℕ) : 16 ∣ managedEnd capacity := by
  have := dvd_roundDown (min capacity u32Max) 16
  rw [managedEnd]
  omega

theorem le_managedEnd (capacity : ℕ) : 16 ≤ managedEnd capacity := le_max_left _ _

theorem managedEnd_mono {c c' : ℕ} (h : c ≤ c') : managedEnd c ≤ managedEnd c' := by
  have : roundDown (min c u32Max) 16 ≤ roundDown (min c' u32Max) 16 :=
    Nat.mul_le_mul_right 16 (Nat.div_le_div_right (by omega))
  rw [managedEnd, managedEnd]
  omega

/-! ## Making and growing a free list -/

/-- A new list is valid, and everything is free. -/
theorem new_spec (capacity : ℕ) :
    (new capacity).Valid (managedEnd capacity) ∧ (new capacity).Tidy ∧
      ∀ x, (new capacity).Free x ↔ 16 ≤ x ∧ x < managedEnd capacity := by
  have hbl : ∀ i l, ¬(new capacity).HasBlock i l := fun i l h => by
    simp [HasBlock, new] at h
  have hptr : (new capacity).bumpPtr = 16 := rfl
  have hend : (new capacity).bumpEnd = managedEnd capacity := by
    have h1 := roundDown_spec (a := 16) (min capacity u32Max) (by decide)
    have h2 := roundDown_spec (a := 16) (min capacity u32Max - 16) (by decide)
    simp only [new, managedEnd]
    split <;> rw [freeListAlign] at * <;> omega
  refine ⟨⟨⟨fun i l => ?_, fun l set h => ?_⟩, managedEnd_le _, le_rfl, ?_, hend.le,
    dvd_refl 16, hend ▸ dvd_managedEnd _, fun i l h => absurd h (hbl i l),
    fun i l _ _ h => absurd h (hbl i l), fun i l h => absurd h (hbl i l)⟩,
    ⟨fun i l h => absurd h (hbl i l), fun l h => absurd h (hbl _ l)⟩, fun x => ?_⟩
  · refine iff_of_false ?_ (hbl i l)
    rintro ⟨set, hset, -⟩
    simp [new] at hset
  · simp [new] at h
  · rw [hend]
    exact le_managedEnd _
  rw [Free, hend]
  constructor
  · rintro (⟨i, l, h, -⟩ | h)
    · exact absurd h (hbl i l)
    · exact h
  · exact .inr

variable {f : FreeList}

/-- Growing returns the new part of the managed range, if there is one, as a block. -/
theorem addCapacity_eq (hcap : f.capacity ≤ usizeMax) (additional : ℕ) {c : ℕ}
    (hc : c = min (f.capacity + additional) usizeMax) :
    f.addCapacity additional =
      if managedEnd f.capacity = managedEnd c then .ok { f with capacity := c }
      else deallocImpl { f with capacity := c } (managedEnd f.capacity)
        (managedEnd c - managedEnd f.capacity) := by
  have hold := roundDown_spec (a := 16) f.capacity (by decide)
  have hold' := roundDown_spec (a := 16) (min f.capacity u32Max) (by decide)
  have hnew := roundDown_spec (a := 16) (min c u32Max) (by decide)
  rw [addCapacity, ← hc]
  by_cases hlg : u32Max < roundDown f.capacity 16
  · -- Everything addressable is managed already.
    rw [if_pos hlg, if_pos (by simp only [managedEnd]; omega)]
    rfl
  rw [if_neg hlg]
  have hidx : (if roundDown f.capacity 16 = 0 then 16 else roundDown f.capacity 16) =
      managedEnd f.capacity := by
    rw [managedEnd]
    split <;> omega
  rw [hidx]
  by_cases hsm : managedEnd f.capacity > roundDown (min c u32Max) 16
  · rw [if_pos hsm, if_pos (by simp only [managedEnd] at hsm ⊢; omega)]
    rfl
  have hend : roundDown (min c u32Max) 16 = managedEnd c := by
    have := le_managedEnd f.capacity
    rw [managedEnd]
    omega
  have hdvd : 16 ∣ managedEnd c - managedEnd f.capacity := by
    have := dvd_managedEnd f.capacity
    omega
  rw [hend] at hsm ⊢
  rw [if_neg hsm, subU32_of_le (by omega), Exec.ok_bind, assertAligned_of hdvd, Exec.ok_bind]
  by_cases heq : managedEnd f.capacity = managedEnd c
  · rw [if_pos (by omega), if_pos heq]
    rfl
  · rw [if_neg (by omega), if_neg heq]

/-- Growth adds free bytes and nothing else. -/
theorem addCapacity_spec (H : f.Valid (managedEnd f.capacity))
    (hcap : f.capacity ≤ usizeMax) (additional : ℕ) :
    ∃ f', f.addCapacity additional = .ok f' ∧
      f'.capacity = min (f.capacity + additional) usizeMax ∧
      f'.Valid (managedEnd f'.capacity) ∧
      (∀ x, f'.Free x ↔ f.Free x ∨ (managedEnd f.capacity ≤ x ∧ x < managedEnd f'.capacity)) ∧
      (∀ j k, 0 < k → j + k ≤ managedEnd f.capacity → f.Clear j k → f'.Clear j k) ∧
      (f.Tidy → f'.Tidy) := by
  obtain ⟨c, hc⟩ : ∃ c, c = min (f.capacity + additional) usizeMax := ⟨_, rfl⟩
  have hmono : managedEnd f.capacity ≤ managedEnd c := managedEnd_mono (by omega)
  have H1 : Valid { f with capacity := c } (managedEnd c) := by
    have := H.mono hmono (managedEnd_le c)
    exact ⟨⟨this.1.1, this.1.2⟩, this.2, this.3, this.4, this.5, this.6, this.7, this.8, this.9,
      this.10⟩
  rw [addCapacity_eq hcap additional hc, ← hc]
  by_cases heq : managedEnd f.capacity = managedEnd c
  · rw [if_pos heq]
    refine ⟨_, rfl, rfl, H1, fun x => ?_, fun j k _ _ hc => ⟨hc.1, hc.2⟩, fun T => ⟨T.1, T.2⟩⟩
    simp only [heq]
    constructor
    · exact .inl
    · rintro (h | h)
      · exact h
      · omega
  rw [if_neg heq]
  have hle := le_managedEnd f.capacity
  have hd := dvd_managedEnd f.capacity
  have hd' := dvd_managedEnd c
  have hend := H.bumpEnd_le
  -- The new part lies above everything that is managed already.
  have hp :
      Placed (managedEnd f.capacity) (managedEnd c - managedEnd f.capacity) (managedEnd c) :=
    ⟨hle, hd, by omega, by omega, by omega⟩
  have hclear : Clear { f with capacity := c } (managedEnd f.capacity)
      (managedEnd c - managedEnd f.capacity) :=
    ⟨fun j k h => .inl (H.placed j k h).end_le, .inr hend⟩
  obtain ⟨f', hok, hr⟩ := deallocImpl_spec H1 hp hclear
  have hcap' := hr.capacity_eq
  refine ⟨f', hok, hcap', hcap' ▸ hr.valid, fun x => ?_, fun j k hk hjk hc => ?_, fun T => ?_⟩
  · rw [hcap', hr.free_iff, show managedEnd f.capacity + (managedEnd c - managedEnd f.capacity) =
      managedEnd c by omega]
    exact Iff.rfl
  · exact hr.clear hk ⟨hc.1, hc.2⟩ (.inl hjk)
  · apply hr.tidy ⟨T.1, T.2⟩
    rintro ⟨h, -⟩
    have := H.bumpPtr_le
    simp only at h
    omega

/-! ## The invariant of a run -/

def Disjoint (a b : ℕ × ℕ) : Prop := a.1 + a.2 ≤ b.1 ∨ b.1 + b.2 ≤ a.1

/-- **The invariant of a run**: the free list is valid, and the live blocks are disjoint
from each other and from the free space. -/
structure FreeListState.Holds (s : FreeListState) : Prop where
  capacity_le : s.list.capacity ≤ usizeMax
  valid : s.list.Valid (managedEnd s.list.capacity)
  placed : ∀ b ∈ s.live, Placed b.1 b.2 (managedEnd s.list.capacity)
  clear : ∀ b ∈ s.live, s.list.Clear b.1 b.2
  disjoint : s.live.Pairwise Disjoint

theorem FreeListState.Holds.perm {live live' : List (ℕ × ℕ)}
    (H : FreeListState.Holds ⟨f, live⟩) (hp : live.Perm live') :
    FreeListState.Holds ⟨f, live'⟩ where
  capacity_le := H.capacity_le
  valid := H.valid
  placed b hb := H.placed b (hp.mem_iff.mpr hb)
  clear b hb := H.clear b (hp.mem_iff.mpr hb)
  disjoint := (hp.pairwise_iff fun h => h.symm).mp H.disjoint

/-- Every byte of the managed range is live or free, and no other byte is. -/
def FreeListState.Covers (s : FreeListState) : Prop :=
  ∀ x, (s.Live x ∨ s.list.Free x) ↔ 16 ≤ x ∧ x < managedEnd s.list.capacity

/-- What a step does to the invariants. -/
structure Steps (s : FreeListState) (op : FreeListOp) (s' : FreeListState) (r : Option ℕ) :
    Prop where
  holds : s'.Holds
  /-- An allocated block is aligned and disjoint from the live blocks. -/
  exclusive : ∀ i ∈ r, ∀ size ∈ op.allocSize?,
    Placed i size (managedEnd s.list.capacity) ∧ ∀ b ∈ s.live, Disjoint (i, size) b
  covers : s.Covers → op.KeepsBump s → s'.Covers
  tidy : s.list.Tidy → op.Merges s → s'.list.Tidy

variable {s : FreeListState}

/-- An allocation, as a step. -/
theorem steps_allocImpl (H : s.Holds) (op : FreeListOp) {size : ℕ}
    (hop : op.allocSize? = some size) (hsize : 16 ∣ size) (hpos : 0 < size) :
    ∃ list r, s.list.allocImpl size = .ok (list, r) ∧ Steps s op (s.record list r size) r := by
  rcases allocImpl_spec H.valid hsize hpos with
    ⟨f', hok, hvld, hcap, hfree, htidy, hclear⟩ | ⟨f', i, hok, ht⟩
  · refine ⟨f', none, hok, ⟨?_, ?_, ?_, ?_, H.disjoint⟩, by simp, fun hc _ x => ?_,
      fun _ _ => htidy⟩
    · exact hcap ▸ H.capacity_le
    · exact hcap ▸ hvld
    · exact hcap ▸ H.placed
    · exact fun b hb =>
      hclear b.1 b.2 (H.placed b hb).size_pos (H.placed b hb).le_index (H.clear b hb)
    · have := hc x
      simp only [FreeListState.record, FreeListState.Live, hfree, hcap] at this ⊢
      exact this
  have hdisj : ∀ b ∈ s.live, Disjoint (i, size) b := by
    intro b hb
    by_contra hover
    -- A common byte would be free and live.
    have hbpos := (H.placed b hb).size_pos
    rw [Disjoint] at hover
    exact (H.clear b hb).not_free (x := max i b.1) (by omega) (by omega)
      (ht.free _ (by omega) (by omega))
  refine ⟨f', some i, hok, ⟨?_, ?_, ?_, ?_, ?_⟩, ?_, fun hc hkeep x => ?_, fun T _ => ht.tidy T⟩
  · exact ht.capacity_eq ▸ H.capacity_le
  · exact ht.capacity_eq ▸ ht.valid
  · simp only [FreeListState.record, List.mem_cons, ht.capacity_eq]
    rintro b (rfl | hb)
    · exact ht.placed
    · exact H.placed b hb
  · simp only [FreeListState.record, List.mem_cons]
    rintro b (rfl | hb)
    · exact ht.clear
    · exact ht.clear_of_clear b.1 b.2 (H.placed b hb).size_pos (H.placed b hb).le_index
        (H.clear b hb)
  · exact List.pairwise_cons.mpr ⟨hdisj, H.disjoint⟩
  · intro j hj n hn
    obtain rfl : i = j := by simpa using hj
    obtain rfl : size = n := by simpa [hop] using hn
    exact ⟨ht.placed, hdisj⟩
  have hx := hc x
  have hlive : (s.record f' (some i) size).Live x ↔ (i ≤ x ∧ x < i + size) ∨ s.Live x := by
    simp [FreeListState.record, FreeListState.Live]
  rw [hlive]
  rw [FreeListState.record, ht.capacity_eq]
  rw [← hx]
  constructor
  · rintro ((h | h) | h)
    · exact .inr (ht.free x h.1 h.2)
    · exact .inl h
    · exact .inr (ht.free_of_free x h)
  · rintro (h | h)
    · exact .inl (.inr h)
    · rcases ht.stays_free (hkeep size hop) x h with h | h
      · exact .inr h
      · exact .inl (.inl h)

/-- A deallocation, as a step. -/
theorem steps_deallocImpl (H : s.Holds) (op : FreeListOp) {b : ℕ × ℕ}
    (hop : op.deallocBlock? = some b) (hb : b ∈ s.live) :
    ∃ list, s.list.deallocImpl b.1 b.2 = .ok list ∧
      Steps s op { list, live := s.live.erase b } none := by
  obtain ⟨f', hok, hr⟩ := deallocImpl_spec H.valid (H.placed b hb) (H.clear b hb)
  -- The live blocks are distinct, so what is left is disjoint from the block.
  have hperm := List.perm_cons_erase hb
  have hsymm : ∀ a b, Disjoint a b → Disjoint b a := fun a b h => h.symm
  have hpair := (hperm.pairwise_iff (hsymm _ _)).mp H.disjoint
  obtain ⟨hdisj, hrest⟩ := List.pairwise_cons.mp hpair
  refine ⟨f', hok, ⟨?_, ?_, ?_, ?_, hrest⟩, by simp, fun hc _ x => ?_, fun T hm => ?_⟩
  · exact hr.capacity_eq ▸ H.capacity_le
  · exact hr.capacity_eq ▸ hr.valid
  · exact fun c hc => hr.capacity_eq ▸ H.placed c (List.mem_of_mem_erase hc)
  · intro c hc
    have hmem := List.mem_of_mem_erase hc
    exact hr.clear (H.placed c hmem).size_pos (H.clear c hmem) (hsymm _ _ (hdisj c hc))
  · have hx := hc x
    have hlive : s.Live x ↔ (b.1 ≤ x ∧ x < b.1 + b.2) ∨
        ∃ c ∈ s.live.erase b, c.1 ≤ x ∧ x < c.1 + c.2 := by
      simp only [FreeListState.Live, hperm.mem_iff]
      simp
    have hspl : (FreeListState.Live ⟨f', s.live.erase b⟩ x ∨ f'.Free x) ↔
        (s.Live x ∨ s.list.Free x) := by
      rw [hlive, hr.free_iff, FreeListState.Live]
      constructor
      · rintro (h | h | h)
        · exact .inl (.inr h)
        · exact .inr h
        · exact .inl (.inl h)
      · rintro ((h | h) | h)
        · exact .inr (.inr h)
        · exact .inl h
        · exact .inr (.inl h)
    exact hspl.trans (hr.capacity_eq ▸ hx)
  · exact hr.tidy T (hm b hop)

/-- Growth, as a step. -/
theorem steps_addCapacity (H : s.Holds) (additional : ℕ) :
    ∃ list, s.list.addCapacity additional = .ok list ∧
      Steps s (.addCapacity additional) { s with list } none := by
  obtain ⟨f', hok, hcap, hvld, hfree, hclear, htidy⟩ :=
    addCapacity_spec H.valid H.capacity_le additional
  have hmono : managedEnd s.list.capacity ≤ managedEnd f'.capacity :=
    managedEnd_mono (by have := H.capacity_le; omega)
  refine ⟨f', hok, ⟨?_, hvld, fun b hb => ?_, fun b hb => ?_, H.disjoint⟩, by simp,
    fun hc _ x => ?_, fun T _ => htidy T⟩
  · rw [hcap]
    omega
  · obtain ⟨h1, h2, h3, h4, h5⟩ := H.placed b hb
    exact ⟨h1, h2, h3, h4, h5.trans hmono⟩
  · exact hclear b.1 b.2 (H.placed b hb).size_pos (H.placed b hb).end_le (H.clear b hb)
  have hx := hc x
  have hle := le_managedEnd s.list.capacity
  have hlive : FreeListState.Live { s with list := f' } x ↔ s.Live x := Iff.rfl
  rw [hlive, hfree, ← or_assoc, hx]
  simp only
  omega

theorem checkLayout_spec (layout : Layout) :
    checkLayout layout = .ok layout.blockSize ∨ ∃ msg, checkLayout layout = .error (.error msg) :=
      by
  unfold checkLayout
  split
  · exact .inr ⟨_, rfl⟩
  split
  · exact .inr ⟨_, rfl⟩
  split
  · exact .inr ⟨_, rfl⟩
  · exact .inl rfl

theorem checkLayout_of_le {layout : Layout} (hal : layout.align ≤ 16)
    (hsize : layout.size ≤ u32Max) (hblk : layout.blockSize ≤ u32Max) :
    checkLayout layout = .ok layout.blockSize := by
  rw [Layout.blockSize] at hblk ⊢
  rw [checkLayout, if_neg (by rw [freeListAlign]; omega), if_neg (by omega), if_neg (by omega)]
  rfl

variable {op : FreeListOp} {capacity : ℕ}

/-- **Every operation keeps the invariant and never faults**, allocations of no bytes
apart. -/
theorem steps_run (H : s.Holds) (hall : op.Allowed s)
    (hpos : op.PositiveSize) : ∃ s' r, op.run s = .ok (s', r) ∧ Steps s op s' r := by
  cases op with
  | allocFast size =>
    obtain ⟨hdvd, hsize, -⟩ := hall
    obtain ⟨list, r, hok, hstp⟩ := steps_allocImpl H (.allocFast size) rfl hdvd hsize
    exact ⟨_, r, by simp [FreeListOp.run, allocFast, assertAligned_of hdvd, hsize, hok], hstp⟩
  | alloc layout =>
    rcases checkLayout_spec layout with hok | ⟨msg, herr⟩
    · obtain ⟨list, r, hok', hstp⟩ := steps_allocImpl H (.alloc layout) rfl
        (dvd_roundUp _ _) (hpos _ rfl)
      exact ⟨_, r, by simp [FreeListOp.run, alloc, hok, hok'], hstp⟩
    · exact ⟨s, none, by simp [FreeListOp.run, alloc, herr], H, by simp,
        fun hc _ => hc, fun T _ => T⟩
  | deallocFast index size =>
    have hp := H.placed _ hall
    obtain ⟨list, hok, hstp⟩ := steps_deallocImpl H (.deallocFast index size) rfl hall
    exact ⟨_, none, by simp [FreeListOp.run, deallocFast, assertAligned_of hp.dvd_index,
      assertAligned_of hp.dvd_size, hok], hstp⟩
  | dealloc index layout =>
    obtain ⟨hmem, hal, hsize⟩ := hall
    have hp := H.placed _ hmem
    have hle : layout.blockSize ≤ u32Max := by
      have := hp.end_le
      have := managedEnd_le s.list.capacity
      omega
    obtain ⟨list, hok, hstp⟩ := steps_deallocImpl H (.dealloc index layout) rfl hmem
    exact ⟨_, none, by simp [FreeListOp.run, dealloc,
      checkLayout_of_le hal hsize hle, hok], hstp⟩
  | addCapacity additional =>
    obtain ⟨list, hok, hstp⟩ := steps_addCapacity H additional
    exact ⟨_, none, by simp [FreeListOp.run, hok], hstp⟩

theorem holds_new (h : capacity ≤ usizeMax) :
    FreeListState.Holds ⟨FreeList.new capacity, []⟩ ∧
      FreeListState.Covers ⟨FreeList.new capacity, []⟩ ∧ (new capacity).Tidy := by
  obtain ⟨hvld, htidy, hfree⟩ := new_spec capacity
  refine ⟨⟨h, hvld, by simp, by simp, List.Pairwise.nil⟩, fun x => ?_, htidy⟩
  have hlive : ¬FreeListState.Live ⟨FreeList.new capacity, []⟩ x := by simp [FreeListState.Live]
  rw [hfree]
  exact or_iff_right hlive

/-- A step of the machine is one of the specification. -/
theorem steps_of_step {s s' : FreeListState} (H : s.Holds)
    (hall : op.Allowed s) (hpos : op.PositiveSize)
    (hstep : freeListMachine.step s op = .ok s') : ∃ r, Steps s op s' r := by
  obtain ⟨s1, r, hok, hstp⟩ := steps_run H hall hpos
  have hstep' : Prod.fst <$> op.run s = .ok s' := hstep
  rw [hok] at hstep'
  obtain rfl : s1 = s' := Except.ok.inj hstep'
  exact ⟨r, hstp⟩

/-! ## Exclusive blocks -/

/-- The invariant holds in every state that is reached. -/
theorem holds_of_reaches (hs : (freeListMachine.onlyWhen fun _ op => op.PositiveSize).Reaches s) :
    s.Holds := by
  refine Reaches.invariant ?_ ?_ hs
  · rintro _ ⟨capacity, hcap, rfl⟩
    exact (holds_new hcap).1
  · rintro s op s' H ⟨hall, hpos⟩ hstep
    obtain ⟨r, hstp⟩ := steps_of_step H hall hpos hstep
    exact hstp.holds

theorem managedEnd_le_capacity {i n : ℕ} (h : Placed i n (managedEnd capacity)) :
    i + n ≤ capacity := by
  have := h.end_le
  have := h.le_index
  have := h.size_pos
  have := roundDown_le (min capacity u32Max) 16
  rw [managedEnd] at *
  omega

/-- **Allocated blocks are exclusive.**  In every run whose allocations ask for at least
one byte, the live blocks are aligned, lie in `[16, capacity)` and overlap neither each
other nor a free block nor the bump region.  The next operation does not fault: no
assertion, `unreachable!()`, `unwrap` or overflow stops it; and a block it allocates is
aligned, lies in `[16, capacity)` and overlaps no live block. -/
theorem freeList_exclusive {s : FreeListState}
    (hs : (freeListMachine.onlyWhen fun _ op => op.PositiveSize).Reaches s) :
    (∀ b ∈ s.live, b.1 ≠ 0 ∧ 16 ∣ b.1 ∧ 16 ≤ b.1 ∧ b.1 + b.2 ≤ s.list.capacity ∧
      (∀ i l, s.list.HasBlock i l → Disjoint b (i, l)) ∧
      (s.list.bumpPtr < s.list.bumpEnd →
        Disjoint b (s.list.bumpPtr, s.list.bumpEnd - s.list.bumpPtr))) ∧
    s.live.Pairwise Disjoint ∧
    ∀ op : FreeListOp, op.Allowed s → op.PositiveSize → ∃ s' r, op.run s = .ok (s', r) ∧
      ∀ i ∈ r, ∀ size ∈ op.allocSize?, i ≠ 0 ∧ 16 ∣ i ∧ 16 ≤ i ∧ i + size ≤ s.list.capacity ∧
        ∀ b ∈ s.live, Disjoint (i, size) b := by
  have H := holds_of_reaches hs
  refine ⟨fun b hb => ?_, H.disjoint, fun op hall hpos => ?_⟩
  · have hp := H.placed b hb
    have hidx := hp.le_index
    have hc := H.clear b hb
    refine ⟨by omega, hp.dvd_index, hidx, managedEnd_le_capacity hp, fun i l hil => ?_,
      fun hlt => ?_⟩
    · exact (hc.blocks i l hil).symm
    · have := hc.bump
      rw [Disjoint]
      omega
  · obtain ⟨s', r, hok, hstp⟩ := steps_run H hall hpos
    refine ⟨s', r, hok, fun i hi size hsize => ?_⟩
    obtain ⟨hp, hdisj⟩ := hstp.exclusive i hi size hsize
    have hidx := hp.le_index
    exact ⟨by omega, hp.dvd_index, hidx, managedEnd_le_capacity hp, hdisj⟩

/-- Three blocks are allocated, one is freed and the heap grows. -/
theorem freeList_exclusive_grown : ∃ s,
    (freeListMachine.onlyWhen fun _ op => op.PositiveSize).Reaches s ∧
    s.live = [(48, 32), (16, 16)] ∧ s.live.Pairwise Disjoint := by
  obtain ⟨s, hs, hlive⟩ := reaches_of_run?
    (M := freeListMachine.onlyWhen fun _ op => op.PositiveSize)
    [.allocFast 16, .alloc ⟨9, 8, 3, rfl⟩, .addCapacity 100, .allocFast 32, .deallocFast 32 16]
    (p := fun s => decide (s.live = [(48, 32), (16, 16)])) ⟨64, by decide, rfl⟩ (by decide +kernel)
  exact ⟨s, hs, of_decide_eq_true hlive, (freeList_exclusive hs).2.1⟩

/-- A block of no bytes shares its index with the next block.  Freeing both puts the
index into two buckets, and the second allocation from there does not find its block. -/
theorem zeroSizedBlock_faults : ∃ s, freeListMachine.Reaches s ∧
    (FreeListOp.allocFast 16).Allowed s ∧ ((FreeListOp.allocFast 16).run s).fault? =
      some (.panic "called `Option::unwrap()` on a `None` value") := by
  obtain ⟨s, hs, h⟩ := reaches_of_run? (M := freeListMachine)
    [.allocFast 16, .alloc ⟨0, 16, 4, rfl⟩, .allocFast 16, .allocFast 32,
      .deallocFast 32 16, .deallocFast 32 0, .deallocFast 16 16, .allocFast 16]
    (p := fun s => decide ((FreeListOp.allocFast 16).Allowed s ∧
      ((FreeListOp.allocFast 16).run s).fault? =
        some (.panic "called `Option::unwrap()` on a `None` value")))
    ⟨80, by decide, rfl⟩ (by decide +kernel)
  exact ⟨s, hs, of_decide_eq_true h⟩

/-! ## No lost space -/

/-- No byte is lost as long as the bump region is kept. -/
theorem covers_of_reaches
    (hs : (freeListMachine.onlyWhen fun s op => op.PositiveSize ∧ op.KeepsBump s).Reaches s) :
    s.Holds ∧ s.Covers := by
  refine Reaches.invariant (P := fun s => s.Holds ∧ s.Covers) ?_ ?_ hs
  · rintro _ ⟨capacity, hcap, rfl⟩
    exact ⟨(holds_new hcap).1, (holds_new hcap).2.1⟩
  · rintro s op s' ⟨H, hc⟩ ⟨hall, hpos, hkeep⟩ hstep
    obtain ⟨r, hstp⟩ := steps_of_step H hall hpos hstep
    exact ⟨hstp.holds, hstp.covers hc hkeep⟩

theorem lt_managedEnd {x : ℕ} (hx : 16 ≤ x) :
    x < managedEnd capacity ↔ x < roundDown (min capacity u32Max) 16 := by
  rw [managedEnd]
  omega

/-- **No space is lost** in a run that never puts a bump region back which starts at the
first granule only to replace it: every byte of the managed range is live or free. -/
theorem freeList_noLostSpace {s : FreeListState}
    (hs : (freeListMachine.onlyWhen fun s op => op.PositiveSize ∧ op.KeepsBump s).Reaches s)
    (x : ℕ) : (s.Live x ∨ s.list.Free x) ↔
      16 ≤ x ∧ x < roundDown (min s.list.capacity u32Max) 16 := by
  rw [(covers_of_reaches hs).2 x]
  exact and_congr_right lt_managedEnd

/-- A bump region is put back and becomes a free block. -/
theorem freeList_noLostSpace_putBack : ∃ s,
    (freeListMachine.onlyWhen fun s op => op.PositiveSize ∧ op.KeepsBump s).Reaches s ∧
    s.live = [(16, 32), (48, 32)] ∧ s.list.HasBlock 80 16 ∧
    ((s.Live 80 ∨ s.list.Free 80) ↔
      16 ≤ 80 ∧ 80 < roundDown (min s.list.capacity u32Max) 16) := by
  obtain ⟨s, hs, h⟩ := reaches_of_run?
    (M := freeListMachine.onlyWhen fun s op => op.PositiveSize ∧ op.KeepsBump s)
    [.allocFast 32, .allocFast 32, .deallocFast 16 32, .allocFast 32]
    (p := fun s => decide (s.live = [(16, 32), (48, 32)] ∧
      s.list.freeBlockIndexToLen.get? 80 = some 16)) ⟨96, by decide, rfl⟩ (by decide +kernel)
  have h := of_decide_eq_true h
  exact ⟨s, hs, h.1, h.2, freeList_noLostSpace hs 80⟩

/-- A bump region that starts at the first granule is put back, becomes the bump region
again, and is then replaced: its bytes are neither live nor free. -/
theorem bumpRegion_lost : ∃ s,
    (freeListMachine.onlyWhen fun _ op => op.PositiveSize).Reaches s ∧
    16 < roundDown (min s.list.capacity u32Max) 16 ∧ ¬(s.Live 16 ∨ s.list.Free 16) := by
  obtain ⟨s, hs, h⟩ := reaches_of_run?
    (M := freeListMachine.onlyWhen fun _ op => op.PositiveSize)
    [.allocFast 16, .allocFast 16, .allocFast 32, .allocFast 16, .deallocFast 16 16,
      .deallocFast 48 32, .allocFast 16, .deallocFast 16 16, .allocFast 32]
    (p := fun s => decide (16 < roundDown (min s.list.capacity u32Max) 16 ∧
      (¬∃ b ∈ s.live, b.1 ≤ 16 ∧ 16 < b.1 + b.2) ∧
      (¬∃ i l, s.list.HasBlock i l ∧ i ≤ 16 ∧ 16 < i + l) ∧
      ¬(s.list.bumpPtr ≤ 16 ∧ 16 < s.list.bumpEnd))) ⟨96, by decide, rfl⟩ (by decide +kernel)
  obtain ⟨hrange, hlive, hbl, hbump⟩ := of_decide_eq_true h
  refine ⟨s, hs, hrange, ?_⟩
  rintro (h | h | h)
  · exact hlive h
  · exact hbl h
  · exact hbump h

/-! ## No permanent fragmentation -/

/-- The list is tidy as long as neighbours are merged. -/
theorem tidy_of_reaches (hs : (freeListMachine.onlyWhen fun s op =>
      op.PositiveSize ∧ op.KeepsBump s ∧ op.Merges s).Reaches s) :
    s.Holds ∧ s.Covers ∧ s.list.Tidy := by
  refine Reaches.invariant (P := fun s => s.Holds ∧ s.Covers ∧ s.list.Tidy) ?_ ?_ hs
  · rintro _ ⟨capacity, hcap, rfl⟩
    exact holds_new hcap
  · rintro s op s' ⟨H, hc, T⟩ ⟨hall, hpos, hkeep, hmerge⟩ hstep
    obtain ⟨r, hstp⟩ := steps_of_step H hall hpos hstep
    exact ⟨hstp.holds, hstp.covers hc hkeep, hstp.tidy T hmerge⟩

/-- If the free bytes are the whole range `[16, limit)` and nothing touches, then there
is one free block. -/
theorem iterFreeBlocks_of_free {limit : ℕ} (H : f.Valid limit) (T : f.Tidy)
    (hfree : ∀ x, f.Free x ↔ 16 ≤ x ∧ x < limit) :
    f.iterFreeBlocks = if 16 < limit then [(16, limit - 16)] else [] := by
  have hptr := H.le_bumpPtr
  have hend := H.bumpEnd_le
  by_cases hlim : 16 < limit
  · rw [if_pos hlim]
    rcases (hfree 16).mpr ⟨le_rfl, hlim⟩ with ⟨i, l, hil, hi⟩ | hbump
    · -- The first byte is in a block, which nothing can follow.
      have hpl := H.placed i l hil
      obtain rfl : i = 16 := by have := hpl.le_index; omega
      have hcover : 16 + l = limit := by
        have := hpl.end_le
        by_contra hne
        rcases (hfree (16 + l)).mpr ⟨by omega, by omega⟩ with ⟨j, k, hjk, hj⟩ | hbump
        · rcases lt_or_ge 16 j with hlt | hge
          · have := H.separated 16 l j k hil hjk hlt
            omega
          · obtain rfl : j = 16 := by have := (H.placed j k hjk).le_index; omega
            have := hil.unique hjk
            omega
        · have := T.below 16 l hil
          have := H.outside 16 l hil
          omega
      have huniq : ∀ j k, f.freeBlockIndexToLen.get? j = some k → j = 16 := by
        intro j k hjk
        obtain ⟨hidx, -, -, hpos, hlast⟩ := H.placed j k hjk
        by_contra hne
        have := H.separated 16 l j k hil hjk (by omega)
        omega
      have hemp : ¬f.bumpEnd > f.bumpPtr := by
        have := H.outside 16 l hil
        omega
      rw [iterFreeBlocks, SortedMap.entries_eq_singleton hil huniq, if_neg hemp]
      simp [← hcover]
    -- The first byte is in the bump region, which nothing can follow.
    have hcover : f.bumpEnd = limit := by
      by_contra hne
      rcases (hfree f.bumpEnd).mpr ⟨by omega, by omega⟩ with ⟨j, k, hjk, hj⟩ | hbump'
      · rcases H.outside j k hjk with hlow | hhigh
        · omega
        · obtain rfl : j = f.bumpEnd := by omega
          have := T.above k hjk
          omega
      · omega
    have hnone : ∀ j k, f.freeBlockIndexToLen.get? j ≠ some k := by
      intro j k hjk
      obtain ⟨hidx, -, -, hpos, hlast⟩ := H.placed j k hjk
      have := H.outside j k hjk
      omega
    rw [iterFreeBlocks, SortedMap.entries_eq_nil hnone, if_pos (by omega)]
    simp only [List.nil_append, List.cons.injEq, Prod.mk.injEq, and_true]
    omega
  rw [if_neg hlim]
  have hnone : ∀ j k, f.freeBlockIndexToLen.get? j ≠ some k := by
    intro j k hjk
    obtain ⟨hidx, -, -, hpos, hlast⟩ := H.placed j k hjk
    omega
  rw [iterFreeBlocks, SortedMap.entries_eq_nil hnone, if_neg (by omega)]
  rfl

/-- **No permanent fragmentation** in a run that loses no bump region and misses no
merge: once every block has been freed, there is at most one free block, and it is the
whole managed range. -/
theorem freeList_noFragmentation {s : FreeListState}
    (hs : (freeListMachine.onlyWhen fun s op =>
      op.PositiveSize ∧ op.KeepsBump s ∧ op.Merges s).Reaches s)
    (hlive : s.live = []) :
    s.list.numFreeBlocks ≤ 1 ∧
    (16 < roundDown (min s.list.capacity u32Max) 16 →
      s.list.iterFreeBlocks = [(16, roundDown (min s.list.capacity u32Max) 16 - 16)]) := by
  obtain ⟨H, hc, T⟩ := tidy_of_reaches hs
  have hfree : ∀ x, s.list.Free x ↔ 16 ≤ x ∧ x < managedEnd s.list.capacity := by
    intro x
    have hx := hc x
    have hnone : ¬s.Live x := by simp [FreeListState.Live, hlive]
    rwa [or_iff_right hnone] at hx
  have hiter := iterFreeBlocks_of_free H.valid T hfree
  have hnum : s.list.numFreeBlocks = s.list.iterFreeBlocks.length := by
    rw [numFreeBlocks, iterFreeBlocks, List.length_append, SortedMap.size]
    split <;> rfl
  refine ⟨?_, fun hlt => ?_⟩
  · rw [hnum, hiter]
    split <;> simp
  · have hend : managedEnd s.list.capacity = roundDown (min s.list.capacity u32Max) 16 := by
      rw [managedEnd]
      omega
    rw [hiter, hend, if_pos hlt]

/-- Two blocks are allocated and freed in the order of their allocation. -/
theorem freeList_noFragmentation_twoBlocks : ∃ s,
    (freeListMachine.onlyWhen fun s op =>
      op.PositiveSize ∧ op.KeepsBump s ∧ op.Merges s).Reaches s ∧
    s.live = [] ∧ s.list.capacity = 100 ∧ s.list.numFreeBlocks ≤ 1 := by
  obtain ⟨s, hs, h⟩ := reaches_of_run?
    (M := freeListMachine.onlyWhen fun s op => op.PositiveSize ∧ op.KeepsBump s ∧ op.Merges s)
    [.allocFast 16, .allocFast 32, .deallocFast 16 16, .deallocFast 32 32]
    (p := fun s => decide (s.live = [] ∧ s.list.capacity = 100)) ⟨100, by decide, rfl⟩
    (by decide +kernel)
  have h := of_decide_eq_true h
  exact ⟨s, hs, h.1, h.2, (freeList_noFragmentation hs h.1).1⟩

/-- Only the last free block is considered for joining the bump region from below: here
the free blocks around the bump region are freed in an order that leaves two blocks. -/
theorem mergeMissed : ∃ s, (freeListMachine.onlyWhen fun s op =>
      op.PositiveSize ∧ op.KeepsBump s).Reaches s ∧
    s.live = [] ∧ s.list.numFreeBlocks = 2 ∧ s.list.iterFreeBlocks = [(16, 16), (32, 48)] := by
  obtain ⟨s, hs, h⟩ := reaches_of_run?
    (M := freeListMachine.onlyWhen fun s op => op.PositiveSize ∧ op.KeepsBump s)
    [.allocFast 16, .allocFast 16, .allocFast 16, .allocFast 16, .deallocFast 32 16,
      .allocFast 16, .deallocFast 64 16, .deallocFast 16 16, .deallocFast 32 16,
      .deallocFast 48 16]
    (p := fun s => decide (s.live = [] ∧ s.list.numFreeBlocks = 2 ∧
      s.list.iterFreeBlocks = [(16, 16), (32, 48)])) ⟨80, by decide, rfl⟩ (by decide +kernel)
  exact ⟨s, hs, of_decide_eq_true h⟩

end WasmDeps.Gc
