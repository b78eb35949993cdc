import WasmDeps.Pooling.IndexAllocatorInvariant

/-!
# The stripes of the memory pool

The slots of the pool are dealt out to its stripes in turn: slot `s` belongs to stripe
`s % num_stripes` and has the index `s / num_stripes` in it.  Each stripe has an allocator for
its own indices.  The mapping of the pool is left out but for the key that each slot is
protected with, and the image slots are left out.  The guard that gives back the slot of a memory
that cannot be instantiated is a deallocation right after the allocation.
-/

namespace WasmDeps.Pooling

open Lib Exec List Pooling.Inner

/-- The stripe of a slot, and its index there. -/
def fromUnstripedSlotIndex (index numStripes : ℕ) : Exec (ℕ × ℕ) := do
  ensure (numStripes ≠ 0) "attempt to calculate the remainder with a divisor of zero"
  pure (index % numStripes, index / numStripes)

/-- The slot of an index of a stripe. -/
def asUnstripedSlotIndex (index stripe numStripes : ℕ) : Exec ℕ := do
  let first ← mulU32 index numStripes
  addU32 first stripe

/-- A stripe: its slots and its protection key. -/
structure Stripe where
  allocator : Inner
  pkey : Option ℕ

/-- The pool of memories, split into stripes. -/
structure MemoryPool where
  stripes : List Stripe
  /-- The key that each slot is protected with, if it is. -/
  protection : List (Option ℕ)

/-- The number of slots that `create_stripe` gives to stripe `i`. -/
def stripeSlots (numSlots numStripes i : ℕ) : ℕ :=
  numSlots / numStripes + if numSlots % numStripes > i then 1 else 0

/-- A pool that is not protected if it has one stripe only. -/
def MemoryPool.new (numSlots numStripes maxUnusedWarmSlots : ℕ) (pkeys : List ℕ) :
    Exec MemoryPool := do
  let protection ←
    if 2 ≤ numStripes then do
      ensure (numStripes ≤ pkeys.length) "range end index out of range for slice"
      let pkeys := pkeys.take numStripes
      pure ((range numSlots).map fun i => pkeys[i % pkeys.length]?)
    else pure (replicate numSlots none)
  ensure (∀ i < numStripes, stripeSlots numSlots numStripes i ≤ u32Max)
    "called `Result::unwrap()` on an `Err` value: TryFromIntError(())"
  let createStripe := fun i =>
    ⟨Inner.new (stripeSlots numSlots numStripes i) maxUnusedWarmSlots, pkeys[i]?⟩
  pure ⟨(range numStripes).map createStripe, protection⟩

namespace MemoryPool

def setAllocator (p : MemoryPool) (i : ℕ) (a : Inner) : MemoryPool :=
  { p with stripes := p.stripes.modify i fun s => { s with allocator := a } }

/-- There is no slot if the stripe is full. -/
def allocate (p : MemoryPool) (stripeIndex : ℕ) (memory : Option MemoryInModule) :
    Exec (MemoryPool × Option ℕ) := do
  let stripe ← unwrap p.stripes[stripeIndex]? "index out of bounds"
  let (a, r) ← stripe.allocator.alloc memory
  match r with
  | none => pure (p.setAllocator stripeIndex a, none)
  | some slot => do
    let index ← asUnstripedSlotIndex slot stripeIndex p.stripes.length
    pure (p.setAllocator stripeIndex a, some index)

/-- Gives a slot back to its stripe. -/
def deallocate (p : MemoryPool) (index bytesResident : ℕ) : Exec MemoryPool := do
  let (stripeIndex, slot) ← fromUnstripedSlotIndex index p.stripes.length
  let stripe ← unwrap p.stripes[stripeIndex]? "index out of bounds"
  let a ← stripe.allocator.free slot bytesResident
  pure (p.setAllocator stripeIndex a)

end MemoryPool

/-! ## Slots and indices in stripes -/

section Indices

variable {numSlots numStripes i k slot : ℕ} (hi : i < numStripes)
include hi

theorem striped_mod : (k * numStripes + i) % numStripes = i := by
  rw [Nat.mul_comm, Nat.mul_add_mod, Nat.mod_eq_of_lt hi]

theorem striped_div : (k * numStripes + i) / numStripes = k := by
  rw [Nat.mul_comm, Nat.mul_add_div (Nat.zero_lt_of_lt hi), Nat.div_eq_of_lt hi, Nat.add_zero]

theorem lt_stripeSlots_iff :
    k < stripeSlots numSlots numStripes i ↔ k * numStripes + i < numSlots := by
  have hdiv := Nat.div_add_mod' numSlots numStripes
  have hmod := Nat.mod_lt numSlots (Nat.zero_lt_of_lt hi)
  have hmul : ∀ {a b : ℕ}, a < b → a * numStripes + numStripes ≤ b * numStripes := fun h => by
    rw [← Nat.succ_mul]
    exact Nat.mul_le_mul_right numStripes h
  rw [stripeSlots]
  rcases Nat.lt_trichotomy k (numSlots / numStripes) with h | h | h
  · have := hmul h
    split <;> omega
  · rw [h]
    split <;> omega
  · have := hmul h
    split <;> omega

theorem stripeSlots_le (hmax : numSlots ≤ u32Max) : stripeSlots numSlots numStripes i ≤ u32Max := by
  by_contra hlt
  have := (lt_stripeSlots_iff hi).mp (not_le.mp hlt)
  have := Nat.le_mul_of_pos_right u32Max (Nat.zero_lt_of_lt hi)
  omega

theorem fromUnstripedSlotIndex_eq : fromUnstripedSlotIndex (k * numStripes + i) numStripes =
    .ok (i, k) := by
  simp [fromUnstripedSlotIndex, Nat.ne_zero_of_lt hi, striped_mod hi, striped_div hi]

theorem asUnstripedSlotIndex_eq (hmax : numSlots ≤ u32Max)
    (hk : k < stripeSlots numSlots numStripes i) :
    asUnstripedSlotIndex k i numStripes = .ok (k * numStripes + i) := by
  have hlt := (lt_stripeSlots_iff hi).mp hk
  rw [asUnstripedSlotIndex, mulU32_of_le (by omega), ok_bind, addU32_of_le (by omega)]

end Indices

/-! ## Runs -/

/-- A pool and the slots of its live memories. -/
structure PoolState where
  pool : MemoryPool
  live : List ℕ

/-- The operations of the pool. -/
inductive PoolOp
  | allocate (stripeIndex : ℕ) (memory : Option MemoryInModule)
  | deallocate (index bytesResident : ℕ)

/-- A store has the key of a stripe, and live memories are deallocated. -/
def PoolOp.Allowed (s : PoolState) : PoolOp → Prop
  | .allocate stripeIndex _ => stripeIndex < s.pool.stripes.length
  | .deallocate index _ => index ∈ s.live

/-- One operation, with the slots in use. -/
def PoolOp.run (s : PoolState) : PoolOp → Exec PoolState
  | .allocate stripeIndex memory => do
    let (pool, r) ← s.pool.allocate stripeIndex memory
    pure ⟨pool, r.toList ++ s.live⟩
  | .deallocate index bytesResident => do
    let pool ← s.pool.deallocate index bytesResident
    pure ⟨pool, s.live.erase index⟩

/-- All runs of a pool. -/
def poolMachine (pool : MemoryPool) : Machine PoolState PoolOp where
  start := fun s => s = ⟨pool, []⟩
  allowed := PoolOp.Allowed
  step := PoolOp.run

/-- What the allocator of stripe `i` is, when the slots of `live` are in use. -/
structure StripeHolds (numSlots numStripes : ℕ) (live : List ℕ) (i : ℕ) (a : Inner) : Prop where
  holds : ∃ warm affine, Holds a none warm affine
  length : a.slotState.length = stripeSlots numSlots numStripes i
  resident_le : a.unusedBytesResident ≤ usizeMax
  used : ∀ k, a.IsUsed k ↔ k * numStripes + i ∈ live

/-- The invariant of the runs. -/
structure PoolHolds (numSlots numStripes : ℕ) (s : PoolState) : Prop where
  length : s.pool.stripes.length = numStripes
  stripe : ∀ i st, s.pool.stripes[i]? = some st →
    StripeHolds numSlots numStripes s.live i st.allocator
  nodup : s.live.Nodup
  lt : ∀ slot ∈ s.live, slot < numSlots

variable {numSlots numStripes i : ℕ} (hmax : numSlots ≤ u32Max) (hi : i < numStripes)

namespace StripeHolds

variable {live : List ℕ} {a : Inner} (A : StripeHolds numSlots numStripes live i a)
include hmax hi A

theorem length_le : a.slotState.length ≤ u32Max := A.length.trans_le (stripeSlots_le hi hmax)

theorem alloc (memory : Option MemoryInModule) :
    ∃ a' r, a.alloc memory = .ok (a', r) ∧
      StripeHolds numSlots numStripes ((r.map (· * numStripes + i)).toList ++ live) i a' ∧
      (∀ k, r = some k → k < stripeSlots numSlots numStripes i ∧ k * numStripes + i ∉ live) ∧
      (r = none → ∀ k < stripeSlots numSlots numStripes i, k * numStripes + i ∈ live) := by
  obtain ⟨warm, affine, Ha⟩ := A.holds
  obtain ⟨a', hok, ha⟩ := holds_allocWith Ha (A.length_le hmax hi) memory .anySlot
  obtain ⟨warm', affine', H', -⟩ := ha.holds
  refine ⟨a', _, hok, ⟨⟨warm', affine', H'⟩, ha.length_eq.trans A.length,
    ha.resident_le.trans A.resident_le, fun k => ?_⟩, fun k hk => ?_, fun hnone k hk => ?_⟩
  · rw [ha.used, A.used]
    cases a.choice warm affine memory .anySlot with
    | none => simp
    | some slot =>
      have hinj : k * numStripes + i = slot * numStripes + i ↔ slot = k :=
        ⟨fun h => by rw [← striped_div hi (k := slot), ← h, striped_div hi], fun h => by rw [h]⟩
      rw [Option.some.injEq, or_comm, ← hinj]
      exact mem_cons.symm
  · obtain ⟨hlt, hfree, -⟩ := ha.free k hk
    refine ⟨A.length ▸ hlt, fun hmem => ?_⟩
    obtain ⟨b, hb⟩ := (A.used k).mpr hmem
    exact hfree b hb
  · exact (A.used k).mp (used_of_choice_eq_none Ha hnone (A.length.symm ▸ hk))

theorem free (hnd : live.Nodup) {k : ℕ} (hk : k * numStripes + i ∈ live) (bytesResident : ℕ) :
    ∃ a', a.free k bytesResident = (do
        let _ ← addUsize a.unusedBytesResident bytesResident
        pure a') ∧
      (a.unusedBytesResident + bytesResident ≤ usizeMax →
        StripeHolds numSlots numStripes (live.erase (k * numStripes + i)) i a') := by
  obtain ⟨warm, affine, Ha⟩ := A.holds
  obtain ⟨b, hb⟩ := (A.used k).mpr hk
  obtain ⟨a', hok, H', hlen, hres, -, -, hused⟩ :=
    holds_free Ha (A.length_le hmax hi) hb bytesResident
  refine ⟨a', hok, fun hle => ⟨⟨_, _, H'⟩, hlen.trans A.length, hres.trans_le hle,
    fun j => ?_⟩⟩
  have hne : j * numStripes + i ≠ k * numStripes + i ↔ j ≠ k :=
    not_congr ⟨fun h => by rw [← striped_div hi (k := j), h, striped_div hi], fun h => by rw [h]⟩
  simp only [IsUsed, hused, exists_and_right]
  rw [hnd.mem_erase_iff, hne, and_comm]
  exact and_congr_right fun _ => A.used j

end StripeHolds

section Runs

variable {s : PoolState} {st : Stripe} (H : PoolHolds numSlots numStripes s)
include H

theorem PoolHolds.setAllocator {a : Inner} {live : List ℕ}
    (ha : StripeHolds numSlots numStripes live i a) (hnd : live.Nodup)
    (hlt : ∀ slot ∈ live, slot < numSlots)
    (hother : ∀ slot, slot % numStripes ≠ i → (slot ∈ live ↔ slot ∈ s.live)) :
    PoolHolds numSlots numStripes ⟨s.pool.setAllocator i a, live⟩ := by
  refine ⟨by simp [MemoryPool.setAllocator, H.length], fun j st hj => ?_, hnd, hlt⟩
  have hjn : j < numStripes := by
    have := lt_of_getElem? hj
    simpa [MemoryPool.setAllocator, H.length] using this
  rw [MemoryPool.setAllocator, getElem?_modify] at hj
  obtain ⟨st', hst', hst⟩ := Option.map_eq_some_iff.mp hj
  by_cases hij : i = j
  · subst hij
    rw [if_pos rfl] at hst
    exact hst ▸ ha
  rw [if_neg hij] at hst
  obtain ⟨hholds, hlen, hle, hused⟩ := hst ▸ H.stripe j st' hst'
  refine ⟨hholds, hlen, hle, fun k => (hused k).trans (hother _ ?_).symm⟩
  rw [striped_mod hjn]
  exact .symm hij

theorem PoolHolds.exists_stripe (hi : i < numStripes) :
    ∃ st, s.pool.stripes[i]? = some st ∧ StripeHolds numSlots numStripes s.live i st.allocator := by
  have hst := getElem?_eq_getElem (H.length.symm ▸ hi)
  exact ⟨_, hst, H.stripe i _ hst⟩

include hmax

/-- An allocation returns, and it finds no slot only if all slots of the stripe are live. -/
theorem PoolHolds.allocate (hi : i < numStripes) (memory : Option MemoryInModule) :
    ∃ pool r, s.pool.allocate i memory = .ok (pool, r) ∧
      PoolHolds numSlots numStripes ⟨pool, r.toList ++ s.live⟩ ∧
      (r = none → ∀ slot < numSlots, slot % numStripes = i → slot ∈ s.live) := by
  obtain ⟨st, hst, A⟩ := H.exists_stripe hi
  obtain ⟨a, r, hok, A', hsome, hnone⟩ := A.alloc hmax hi memory
  cases r with
  | none =>
    refine ⟨s.pool.setAllocator i a, none, by simp [MemoryPool.allocate, hst, hok],
      H.setAllocator A' H.nodup H.lt fun _ _ => .rfl, fun _ slot hslot hmod => ?_⟩
    have hdiv := Nat.div_add_mod' slot numStripes
    rw [hmod] at hdiv
    rw [← hdiv] at hslot ⊢
    exact hnone rfl _ ((lt_stripeSlots_iff hi).mpr hslot)
  | some k =>
    obtain ⟨hk, hnot⟩ := hsome k rfl
    have hidx := asUnstripedSlotIndex_eq hi hmax hk
    refine ⟨s.pool.setAllocator i a, some (k * numStripes + i),
      by simp [MemoryPool.allocate, hst, hok, H.length, hidx],
      H.setAllocator A' (nodup_cons.mpr ⟨hnot, H.nodup⟩) ?_ fun slot hmod => ?_, by simp⟩
    · intro slot hslot
      rcases mem_cons.mp hslot with rfl | hslot
      · exact (lt_stripeSlots_iff hi).mp hk
      · exact H.lt slot hslot
    · refine ⟨fun hslot => (mem_cons.mp hslot).resolve_left ?_, .tail _⟩
      rintro rfl
      exact hmod (striped_mod hi)

theorem PoolHolds.deallocate {index bytesResident : ℕ} {pool : MemoryPool}
    (hidx : index ∈ s.live) (hpos : 0 < numStripes)
    (hok : s.pool.deallocate index bytesResident = .ok pool) :
    PoolHolds numSlots numStripes ⟨pool, s.live.erase index⟩ := by
  have hi := Nat.mod_lt index hpos
  obtain ⟨st, hst, A⟩ := H.exists_stripe hi
  have hdiv := Nat.div_add_mod' index numStripes
  obtain ⟨a', hfree, A'⟩ := A.free hmax hi H.nodup (hdiv.symm ▸ hidx) bytesResident
  simp only [MemoryPool.deallocate, H.length, fromUnstripedSlotIndex, ensure_of hpos.ne', ok_bind,
    pure_eq, hst, unwrap_some, hfree, bind_eq_ok, addUsize_eq_ok] at hok
  obtain ⟨_, ⟨_, ⟨hle, -⟩, ha⟩, hpool⟩ := hok
  cases ha
  cases hpool
  rw [hdiv] at A'
  refine H.setAllocator (A' hle) (H.nodup.erase index) (fun slot hslot =>
    H.lt slot (mem_of_mem_erase hslot)) fun slot hmod => ?_
  rw [H.nodup.mem_erase_iff]
  apply and_iff_right
  rintro rfl
  exact hmod rfl

end Runs

include hmax

theorem poolHolds_of_reaches {pool : MemoryPool} (hpos : 0 < numStripes)
    (hnew : PoolHolds numSlots numStripes ⟨pool, []⟩) {s : PoolState}
    (hs : (poolMachine pool).Reaches s) : PoolHolds numSlots numStripes s := by
  refine Machine.Reaches.invariant ?_ ?_ hs
  · rintro s rfl
    exact hnew
  intro s op t H hall hstep
  have hstep : op.run s = .ok t := hstep
  cases op with
  | allocate i memory =>
    have hall : i < s.pool.stripes.length := hall
    obtain ⟨pool, r, hok, H', -⟩ := H.allocate hmax (H.length ▸ hall) memory
    rw [PoolOp.run, hok] at hstep
    cases hstep
    exact H'
  | deallocate index bytesResident =>
    obtain ⟨pool, hok, heq⟩ := bind_eq_ok.mp hstep
    cases heq
    exact H.deallocate hmax hall hpos hok

/-- From every state that holds, allocations alone lead to one with more live memories, as long
as there are slots. -/
theorem exists_reaches_length (pool : MemoryPool) (hpos : 0 < numStripes) {s : PoolState}
    (H : PoolHolds numSlots numStripes s) {m : ℕ} (hle : s.live.length ≤ m) (hm : m ≤ numSlots) :
    ∃ t, ((poolMachine pool).startingAt s).Reaches t ∧ PoolHolds numSlots numStripes t ∧
      t.live.length = m := by
  induction m, hle using Nat.le_induction with
  | base => exact ⟨s, .start rfl, H, rfl⟩
  | succ m _ ih =>
    obtain ⟨t, ht, H, hlen⟩ := ih (by omega)
    obtain ⟨slot, hslot, hfree⟩ : ∃ slot < numSlots, slot ∉ t.live := by
      by_contra hall
      have hsub : range numSlots ⊆ t.live := fun slot h =>
        not_not.mp fun hfree => hall ⟨slot, mem_range.mp h, hfree⟩
      have := (nodup_range.subperm hsub).length_le
      rw [length_range] at this
      omega
    have hi := Nat.mod_lt slot hpos
    obtain ⟨pool', r, hok, H', hnone⟩ := H.allocate hmax hi none
    cases r with
    | none => exact absurd (hnone rfl slot hslot rfl) hfree
    | some index =>
      refine ⟨⟨pool', index :: t.live⟩, .step ht (i := .allocate (slot % numStripes) none) ?_ ?_,
        H', by simp [hlen]⟩
      · exact H.length.symm ▸ hi
      · change (t.pool.allocate _ none >>= _) = _
        rw [hok]
        rfl

omit hmax

/-- A new pool has no live memories, and its stripes have the first keys, with which their slots
are protected. -/
theorem poolHolds_new {warm : ℕ} {pkeys : List ℕ} {pool : MemoryPool}
    (h : MemoryPool.new numSlots numStripes warm pkeys = .ok pool) :
    PoolHolds numSlots numStripes ⟨pool, []⟩ ∧
    (∀ i < numStripes, pool.stripes[i]?.bind Stripe.pkey = pkeys[i]?) ∧
    (2 ≤ numStripes → numStripes ≤ pkeys.length ∧
      ∀ slot < numSlots, pool.protection[slot]? = some pkeys[slot % numStripes]?) := by
  rw [MemoryPool.new] at h
  have hpool : ∃ protection, pool = ⟨(range numStripes).map fun i =>
      ⟨Inner.new (stripeSlots numSlots numStripes i) warm, pkeys[i]?⟩, protection⟩ ∧
      (2 ≤ numStripes → numStripes ≤ pkeys.length ∧
        ∀ slot < numSlots, protection[slot]? = some pkeys[slot % numStripes]?) := by
    split at h
    · rename_i htwo
      obtain ⟨_, hle, h⟩ := bind_eq_ok.mp h
      obtain ⟨_, hp, h⟩ := bind_eq_ok.mp h
      cases hp
      obtain ⟨_, -, h⟩ := bind_eq_ok.mp h
      cases h
      have hle : numStripes ≤ pkeys.length := by
        by_contra hlt
        simp [hlt] at hle
      refine ⟨_, rfl, fun _ => ⟨hle, fun slot hslot => ?_⟩⟩
      have hmod := Nat.mod_lt slot (Nat.zero_lt_of_lt htwo)
      rw [getElem?_map, getElem?_range hslot, Option.map_some, length_take, min_eq_left hle,
        getElem?_take_of_lt hmod]
    · obtain ⟨_, hp, h⟩ := bind_eq_ok.mp h
      cases hp
      obtain ⟨_, -, h⟩ := bind_eq_ok.mp h
      cases h
      exact ⟨_, rfl, fun htwo => absurd htwo ‹_›⟩
  obtain ⟨protection, rfl, hkeys⟩ := hpool
  refine ⟨⟨by simp, fun i st hst => ?_, nodup_nil, by simp⟩, fun i hi => by simp [hi], hkeys⟩
  obtain ⟨j, hj, rfl⟩ := Option.map_eq_some_iff.mp (getElem?_map .. ▸ hst)
  obtain ⟨hlt, rfl⟩ := List.getElem?_eq_some_iff.mp hj
  refine ⟨⟨_, _, holds_new _ _⟩, by simp [Inner.new], Nat.zero_le _, fun k => ?_⟩
  simp [Inner.IsUsed, Inner.new, getElem?_replicate]

/-- **Stripe indexing.**  The indices of all stripes are the slots of the pool, one to one, and
a slot is protected with the key of its stripe if there are two or more.  In every state of a run
live memories have different slots, an allocation finds none only if all slots of the stripe are
live, and allocations lead on to a state in which all slots, whose number is a `u32`, are in use
at once. -/
theorem stripes_index_slots (hmax : numSlots ≤ u32Max) (maxUnusedWarmSlots : ℕ)
    (pkeys : List ℕ) (hpos : 1 ≤ numStripes)
    (hkeys : 2 ≤ numStripes → numStripes ≤ pkeys.length) :
    ∃ pool, MemoryPool.new numSlots numStripes maxUnusedWarmSlots pkeys = .ok pool ∧
      (∀ i < numStripes, ∀ k < stripeSlots numSlots numStripes i,
        ∃ slot < numSlots, asUnstripedSlotIndex k i numStripes = .ok slot ∧
          fromUnstripedSlotIndex slot numStripes = .ok (i, k) ∧ slot % numStripes = i ∧
          (2 ≤ numStripes → ∃ key, pool.protection[slot]? = some (some key) ∧
            pool.stripes[i]?.bind Stripe.pkey = some key)) ∧
      (∀ slot < numSlots, ∃ i < numStripes, ∃ k,
        fromUnstripedSlotIndex slot numStripes = .ok (i, k) ∧
        k < stripeSlots numSlots numStripes i ∧
        asUnstripedSlotIndex k i numStripes = .ok slot) ∧
      ∀ s, (poolMachine pool).Reaches s →
        s.live.Nodup ∧ (∀ slot ∈ s.live, slot < numSlots) ∧
        (∀ i < numStripes, ∀ memory, ∃ pool' r, s.pool.allocate i memory = .ok (pool', r) ∧
          (r = none → ∀ slot < numSlots, slot % numStripes = i → slot ∈ s.live)) ∧
        ∃ t, ((poolMachine pool).startingAt s).Reaches t ∧ t.live.Perm (range numSlots) := by
  have hfits := fun i (hi : i < numStripes) => stripeSlots_le hi hmax
  obtain ⟨pool, hok⟩ : ∃ pool,
      MemoryPool.new numSlots numStripes maxUnusedWarmSlots pkeys = .ok pool := by
    by_cases htwo : 2 ≤ numStripes
    · exact ⟨_, by rw [MemoryPool.new, if_pos htwo, ensure_of (hkeys htwo), ensure_of hfits]; rfl⟩
    · exact ⟨_, by rw [MemoryPool.new, if_neg htwo, ensure_of hfits]; rfl⟩
  obtain ⟨hnew, hpkey, hprotection⟩ := poolHolds_new hok
  refine ⟨pool, hok, fun i hi k hk => ?_, fun slot hslot => ?_, fun s hs => ?_⟩
  · have hlt := (lt_stripeSlots_iff hi).mp hk
    refine ⟨_, hlt, asUnstripedSlotIndex_eq hi hmax hk, fromUnstripedSlotIndex_eq hi,
      striped_mod hi, fun htwo => ⟨pkeys.get ⟨i, hi.trans_le (hkeys htwo)⟩, ?_, ?_⟩⟩
    · rw [(hprotection htwo).2 _ hlt, striped_mod hi]
      simp [hi.trans_le (hkeys htwo)]
    · rw [hpkey i hi]
      simp [hi.trans_le (hkeys htwo)]
  · have hi := Nat.mod_lt slot hpos
    have hdiv := Nat.div_add_mod' slot numStripes
    have hk := (lt_stripeSlots_iff hi).mpr (hdiv.symm ▸ hslot)
    have has := asUnstripedSlotIndex_eq hi hmax hk
    have hfrom := fromUnstripedSlotIndex_eq hi (k := slot / numStripes)
    rw [hdiv] at has hfrom
    exact ⟨_, hi, _, hfrom, hk, has⟩
  · have H := poolHolds_of_reaches hmax hpos hnew hs
    have hsub : ∀ {t : PoolState}, PoolHolds numSlots numStripes t → t.live ⊆ range numSlots :=
      fun H slot hslot => mem_range.mpr (H.lt slot hslot)
    have hle := (H.nodup.subperm (hsub H)).length_le
    rw [length_range] at hle
    obtain ⟨t, ht, Ht, hlen⟩ := exists_reaches_length hmax pool hpos H hle le_rfl
    refine ⟨H.nodup, H.lt, fun i hi memory => ?_, t, ht, ?_⟩
    · obtain ⟨pool', r, hok, -, hnone⟩ := H.allocate hmax hi memory
      exact ⟨pool', r, hok, hnone⟩
    · exact (Ht.nodup.subperm (hsub Ht)).perm_of_length_le (by simp [hlen])

/-- Three stripes with seven slots. -/
def sevenSlots : MemoryPool :=
  ⟨(range 3).map fun i => ⟨Inner.new (stripeSlots 7 3 i) 0, [5, 6, 7][i]?⟩,
    (range 7).map fun i => [5, 6, 7][i % 3]?⟩

/-- A memory is allocated and deallocated again; from there all seven slots can be filled. -/
theorem stripes_index_slots_seven : ∃ s, (poolMachine sevenSlots).Reaches s ∧ s.live = [] ∧
    ∃ t, ((poolMachine sevenSlots).startingAt s).Reaches t ∧ t.live.Perm (range 7) := by
  obtain ⟨pool, hnew, -, -, hall⟩ :=
    stripes_index_slots (show 7 ≤ u32Max by decide) 0 [5, 6, 7] (show 1 ≤ 3 by decide) (by decide)
  obtain rfl : sevenSlots = pool := Except.ok.inj hnew
  have hs : (poolMachine sevenSlots).Reaches _ :=
    .step (i := .deallocate 1 4096) (.step (i := .allocate 1 none) (.start rfl)
      (show 1 < 3 by decide) rfl) (show 1 ∈ [1] by decide) rfl
  exact ⟨_, hs, rfl, (hall _ hs).2.2.2⟩

end WasmDeps.Pooling
