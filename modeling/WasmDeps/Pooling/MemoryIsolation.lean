import WasmDeps.Pooling.MemoryStripes
import WasmDeps.Pooling.SlabLayout

/-!
# Isolation of pooled memories

`MemoryPool::new` computes the layout of the slab from the configuration and deals its slots out
to stripes.  Layout and allocators together keep the live memories of every run apart.  The keys
are those that the host and the configuration allow.
-/

namespace WasmDeps.Pooling

open Lib Exec List

/-- `MemoryPool::new`: the layout and the pool. -/
def MemoryPool.newWithLayout {P : HostPageSize} (config : PoolConfig) (warm : ℕ) (pkeys : List ℕ) :
    Exec (SlabLayout P × MemoryPool) := do
  let hex := fun n => "0x" ++ String.ofList (Nat.toDigits 16 n)
  if config.maxMemorySize > config.memoryReservation then
    throw (.error ("maximum memory size of " ++ hex config.maxMemorySize ++
      " bytes exceeds the configured memory reservation of " ++ hex config.memoryReservation ++
      " bytes"))
  let constraints ← SlabConstraints.new config pkeys.length
  let layout ← calculate constraints
  let pool ← MemoryPool.new layout.numSlots layout.numStripes warm pkeys
  pure (layout, pool)

variable {P : HostPageSize} {c : SlabConstraints P} {l : SlabLayout P} {config : PoolConfig}
  {pkeys : List ℕ} {pool : MemoryPool} {s : PoolState} {numSlots numStripes warm i j : ℕ}

theorem le_newRoundedUpU64 {n : ℕ} {b : HostAlignedByteCount P}
    (h : HostAlignedByteCount.newRoundedUpU64 n = .ok b) : n ≤ b.byteCount := by
  have hpage := P.sixteen_le
  rw [HostAlignedByteCount.newRoundedUpU64] at h
  split at h
  · rw [HostAlignedByteCount.newRoundedUp_spec h]
    exact le_roundUp n (by omega)
  · cases h

/-- The constraints of a configuration have at least its sizes. -/
theorem new_spec {n : ℕ} (h : SlabConstraints.new config n = .ok c) :
    c.numPkeysAvailable = n ∧ c.numSlots = config.totalMemories ∧
      config.memoryReservation + config.memoryGuardSize ≤ c.faultingRegion := by
  obtain ⟨e, he, h⟩ := bind_eq_ok.mp h
  obtain ⟨m, -, h⟩ := bind_eq_ok.mp h
  obtain ⟨g, hg, h⟩ := bind_eq_ok.mp h
  cases h
  have he := le_newRoundedUpU64 (context_eq_ok.mp he)
  have hg := le_newRoundedUpU64 (context_eq_ok.mp hg)
  refine ⟨rfl, rfl, ?_⟩
  simp only [SlabConstraints.faultingRegion]
  omega

/-- **Live memories are isolated.**  In every run of a new pool two live memories share no byte, and
what an access to one can reach before it faults, its reservation and guard, has no byte of another
one with the same key. -/
theorem live_memories_isolated (hkeys : pkeys.length ≤ 15) (hnd : pkeys.Nodup)
    (hmax : config.totalMemories ≤ u32Max)
    (hpool : MemoryPool.newWithLayout config warm pkeys = .ok (l, pool))
    (hs : (poolMachine pool).Reaches s) (hi : i ∈ s.live) (hj : j ∈ s.live) (hne : i ≠ j) :
    ∃ b b', l.getBase i = .ok b ∧ l.getBase j = .ok b' ∧
      Apart b.byteCount (b.byteCount + l.maxMemoryBytes.byteCount)
        b'.byteCount (b'.byteCount + l.maxMemoryBytes.byteCount) ∧
      (pool.protection[i]? = pool.protection[j]? → Apart b.byteCount
        (b.byteCount + (config.memoryReservation + config.memoryGuardSize))
        b'.byteCount (b'.byteCount + l.maxMemoryBytes.byteCount)) := by
  rw [MemoryPool.newWithLayout] at hpool
  split at hpool
  · cases hpool
  obtain ⟨c, hc, hpool⟩ := bind_eq_ok.mp hpool
  obtain ⟨l, hl, hpool⟩ := bind_eq_ok.mp hpool
  obtain ⟨pool, hpool, heq⟩ := bind_eq_ok.mp hpool
  cases heq
  obtain ⟨hn, hslots, hregion⟩ := new_spec hc
  have C := calculate_spec hl
  have hle := C.maxMemoryBytes_eq ▸ C.maxMemoryBytes_le
  have hpage := P.sixteen_le
  have hstripe := C.faultingRegion_le (by omega)
  have hlen := C.numSlots_eq.trans hslots
  obtain ⟨hnew, -, hprotection⟩ := poolHolds_new hpool
  have H := poolHolds_of_reaches (hlen ▸ hmax) C.numStripes_pos hnew hs
  obtain ⟨t, ht, -⟩ := C.total
  obtain ⟨b, hb, hbeq⟩ := getBase_spec ht (H.lt i hi)
  obtain ⟨b', hb', hbeq'⟩ := getBase_spec ht (H.lt j hj)
  refine ⟨b, b', hb, hb', ?_⟩
  rcases Nat.lt_or_gt_of_ne hne with hij | hji
  · have hstep := Nat.mul_le_mul_left l.slotBytes.byteCount hij
    rw [Nat.mul_succ] at hstep
    refine ⟨.inl (by omega), fun hkey => .inl ?_⟩
    have hmod : i % l.numStripes = j % l.numStripes := by
      rcases Nat.lt_or_ge 1 l.numStripes with htwo | hone
      · obtain ⟨hle, hprot⟩ := hprotection htwo
        rw [hprot i (H.lt i hi), hprot j (H.lt j hj), Option.some_inj] at hkey
        exact (getElem?_inj ((Nat.mod_lt i C.numStripes_pos).trans_le hle) hnd).mp hkey
      · rw [le_antisymm hone C.numStripes_pos, Nat.mod_one, Nat.mod_one]
    have hfar := Nat.mul_le_mul_left l.slotBytes.byteCount (add_numStripes_le hij hmod)
    rw [mul_add] at hfar
    omega
  · have hstep := Nat.mul_le_mul_left l.slotBytes.byteCount hji
    rw [Nat.mul_succ] at hstep
    exact ⟨.inr (by omega), fun _ => .inr (by omega)⟩

/-- Two memories of one store are in slots 0 and 3 of the stripe of its key. -/
theorem live_memories_isolated_sameStripe : ∃ pool,
    MemoryPool.newWithLayout ⟨65536, 4, 131072, 65536, true⟩ 0 [5, 6, 7] =
      .ok (fourSlotsLayout, pool) ∧
    ∃ s, (poolMachine pool).Reaches s ∧ s.live = [3, 0] ∧
      ∃ b b', fourSlotsLayout.getBase 0 = .ok b ∧ fourSlotsLayout.getBase 3 = .ok b' ∧
        Apart b.byteCount (b.byteCount + 196608) b'.byteCount (b'.byteCount + 65536) := by
  obtain ⟨s, hs, hlive⟩ : ∃ s, (poolMachine ⟨(range 3).map fun i => ⟨Inner.new
      (stripeSlots 4 3 i) 0, [5, 6, 7][i]?⟩, [some 5, some 6, some 7, some 5]⟩).Reaches s ∧
      s.live = [3, 0] :=
    ⟨_, .step (i := .allocate 0 none) (.step (i := .allocate 0 none) (.start rfl)
      (show 0 < 3 by decide) rfl) (show 0 < 3 by decide) rfl, rfl⟩
  have hl : calculate fourSlots = .ok fourSlotsLayout := by decide +kernel
  have hpool : MemoryPool.newWithLayout ⟨65536, 4, 131072, 65536, true⟩ 0 [5, 6, 7] =
      .ok (fourSlotsLayout, _) :=
    bind_eq_ok.mpr ⟨fourSlots, rfl, bind_eq_ok.mpr ⟨_, hl, rfl⟩⟩
  obtain ⟨b, b', hb, hb', -, hkey⟩ := live_memories_isolated (i := 0) (j := 3) (by decide)
    (by decide) (by decide) hpool hs (hlive ▸ .tail _ (.head _)) (hlive ▸ .head _) (by decide)
  exact ⟨_, hpool, s, hs, hlive, b, b', hb, hb', hkey rfl⟩

end WasmDeps.Pooling
