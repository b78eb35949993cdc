import Mathlib.Data.List.Dedup
import WasmDeps.Pooling.IndexAllocatorInvariant

/-!
# Which slot the allocator hands out

The allocator keeps the order in which slots were freed only in its two lists.  A `History`
runs it beside a clock and a record of its calls, so that the policy is stated without the lists
and the slot table: a slot is warm if it was handed out and freed, and it has the affinity of the
memory it was handed out for last.
`Inner.purge` is the loop of `MemoryPool::purge_module` for one memory of the module.
-/

namespace WasmDeps.Pooling

open WasmDeps.Lib List Function Except

/-- The allocator, with what its calls so far say about the slots. -/
structure History where
  inner : Inner
  clock : ℕ
  /-- The time when each slot was last freed. -/
  freedAt : ℕ → ℕ
  /-- The slots that were ever handed out. -/
  handedOut : List ℕ
  /-- Those that were not freed since. -/
  inUse : List ℕ
  /-- The memory that each slot was last handed out for. -/
  lastFor : ℕ → Option MemoryInModule

/-- Take slots of the affinity until none is left, and free each without it. -/
def Inner.purge (m : MemoryInModule) (bytesResident : ℕ → ℕ) : ℕ → Inner → Exec Inner
  | 0, _ => throw .outOfFuel
  | fuel + 1, s => do
    let (s, slot) ← s.allocAffineAndClearAffinity m
    match slot with
    | none => pure s
    | some slot =>
      let s ← s.free slot (bytesResident slot)
      s.purge m bytesResident fuel

namespace History

/-- The slot was handed out for the memory. -/
def allocated (t : History) (inner : Inner) (m : Option MemoryInModule) : Option ℕ → History
  | none => { t with inner }
  | some slot =>
    { t with inner, handedOut := slot :: t.handedOut, inUse := slot :: t.inUse,
             lastFor := update t.lastFor slot m }

/-- The history after a slot was freed. -/
def freed (t : History) (inner : Inner) (index : ℕ) : History :=
  { t with inner, clock := t.clock + 1, freedAt := update t.freedAt index t.clock,
           inUse := t.inUse.filter (· ≠ index) }

/-- One operation, with what it adds to the history. -/
def step (t : History) (op : Op) : Exec History := do
  let (inner, slot) ← op.run t.inner
  pure (match op with
    | .alloc m => t.allocated inner m slot
    | .allocAffineAndClearAffinity _ => t.allocated inner none slot
    | .free index _ => t.freed inner index)

/-- The slot is not in use, but was. -/
def IsWarm (t : History) (i : ℕ) : Prop := i ∈ t.handedOut ∧ i ∉ t.inUse

instance (t : History) (i : ℕ) : Decidable (t.IsWarm i) :=
  inferInstanceAs (Decidable (_ ∧ _))

/-- The slot is not in use, and was last used for the given memory. -/
def IsAffine (t : History) (m : MemoryInModule) (i : ℕ) : Prop :=
  t.IsWarm i ∧ t.lastFor i = some m

/-- The slot has not been handed out. -/
def NeverUsed (t : History) (i : ℕ) : Prop := i < t.inner.slotState.length ∧ i ∉ t.handedOut

/-- The number of warm slots. -/
def warmCount (t : History) : ℕ := (t.handedOut.dedup.filter (t.IsWarm ·)).length

/-- Of the slots with the property, the least recently freed. -/
def IsFirstFreed (t : History) (p : ℕ → Prop) (i : ℕ) : Prop :=
  p i ∧ ∀ j, p j → j ≠ i → t.freedAt i < t.freedAt j

/-- Of the slots with the property, the most recently freed. -/
def IsLastFreed (t : History) (p : ℕ → Prop) (i : ℕ) : Prop :=
  p i ∧ ∀ j, p j → j ≠ i → t.freedAt j < t.freedAt i

/-- The lowest slot never used. -/
def IsFirstCold (t : History) (i : ℕ) : Prop := t.NeverUsed i ∧ ∀ j, t.NeverUsed j → i ≤ j

/-- The result of an allocation for the given memory: the last freed slot of its affinity, if
any; otherwise a slot never used or the slot freed first, the other if there is none. -/
def FollowsPolicy (t : History) (m : MemoryInModule) (r : Option ℕ) : Prop :=
  ((∃ i, t.IsAffine m i) → ∃ i, r = some i ∧ t.IsLastFreed (t.IsAffine m) i) ∧
  ((¬∃ i, t.IsAffine m i) →
    (t.warmCount < t.inner.maxUnusedWarmSlots →
      ((∃ i, t.NeverUsed i) → ∃ i, r = some i ∧ t.IsFirstCold i) ∧
      ((¬∃ i, t.NeverUsed i) → (∃ i, t.IsWarm i) →
        ∃ i, r = some i ∧ t.IsFirstFreed t.IsWarm i)) ∧
    (t.inner.maxUnusedWarmSlots ≤ t.warmCount →
      ((∃ i, t.IsWarm i) → ∃ i, r = some i ∧ t.IsFirstFreed t.IsWarm i) ∧
      ((¬∃ i, t.IsWarm i) → (∃ i, t.NeverUsed i) → ∃ i, r = some i ∧ t.IsFirstCold i)))

/-- Only slots in use are freed, with a resident size that is a `usize`. -/
def Allowed (t : History) : Op → Prop
  | .free index bytesResident => index ∈ t.inUse ∧ bytesResident ≤ usizeMax
  | _ => True

/-- The allocator with its history, under the contract of its callers. -/
def machine (capacity maxUnusedWarmSlots : ℕ) : Machine History Op where
  start := fun t =>
    t.inner = Inner.new capacity maxUnusedWarmSlots ∧ t.handedOut = [] ∧ t.inUse = []
  allowed := Allowed
  step := step

instance (t : History) (m : MemoryInModule) (i : ℕ) : Decidable (t.IsAffine m i) :=
  inferInstanceAs (Decidable (_ ∧ _))

@[simp] theorem inner_allocated (t : History) (s : Inner) (m : Option MemoryInModule)
    (r : Option ℕ) : (t.allocated s m r).inner = s := by
  cases r <;> rfl

instance (capacity maxUnusedWarmSlots : ℕ) (t : History) :
    (op : Op) → Decidable ((machine capacity maxUnusedWarmSlots).allowed t op)
  | .alloc _ => .isTrue trivial
  | .allocAffineAndClearAffinity _ => .isTrue trivial
  | .free index bytesResident =>
    inferInstanceAs (Decidable (index ∈ t.inUse ∧ bytesResident ≤ usizeMax))

/-- The slot table agrees with the history, and the lists are in the order of the clock. -/
structure Ordered (t : History) (warm : List ℕ) (affine : MemoryInModule → List ℕ) : Prop where
  holds : Holds t.inner none warm affine
  used : ∀ i a, t.inner.slotState[i]? = some (.used a) ↔ i ∈ t.inUse ∧ t.lastFor i = a
  affinity : ∀ i, affinityAt t.inner.slotState i = if t.IsWarm i then some (t.lastFor i) else none
  inUse_subset : t.inUse ⊆ t.handedOut
  sorted : warm.Pairwise fun i j => t.freedAt i < t.freedAt j
  affine_sorted : ∀ m, (affine m).Pairwise fun i j => t.freedAt i < t.freedAt j
  past : ∀ i ∈ warm, t.freedAt i < t.clock
  /-- The cold slots are those that were never handed out. -/
  cold : ∀ i < t.inner.slotState.length,
    t.inner.slotState[i]? = some .unusedCold ↔ i ∉ t.handedOut
  fits : t.inner.unusedBytesResident ≤ usizeMax

variable {t : History} {warm xs : List ℕ} {affine : MemoryInModule → List ℕ} {p : ℕ → Prop}

section

variable (hs : xs.Pairwise fun i j => t.freedAt i < t.freedAt j) (hp : ∀ j, j ∈ xs ↔ p j)
include hs hp

/-- The head of a list in order was freed first. -/
theorem isFirstFreed_of_head? {i : ℕ} (hi : xs.head? = some i) : t.IsFirstFreed p i := by
  obtain ⟨rest, rfl⟩ := head?_eq_some_iff.mp hi
  refine ⟨(hp i).mp (.head _), fun j hj hne => ?_⟩
  rcases mem_cons.mp ((hp j).mpr hj) with rfl | hmem
  · exact absurd rfl hne
  · exact (pairwise_cons.mp hs).1 j hmem

/-- The last of a list in order was freed last. -/
theorem isLastFreed_of_getLast? {i : ℕ} (hi : xs.getLast? = some i) : t.IsLastFreed p i := by
  obtain ⟨before, rfl⟩ := getLast?_eq_some_iff.mp hi
  refine ⟨(hp i).mp (by simp), fun j hj hne => ?_⟩
  have hmem : j ∈ before := by
    have := (hp j).mpr hj
    simpa [hne] using this
  exact (pairwise_append.mp hs).2.2 j hmem i (by simp)

end

theorem pairwise_update {f : ℕ → ℕ} {c index : ℕ} (hi : index ∉ xs)
    (hs : xs.Pairwise fun i j => f i < f j) :
    xs.Pairwise fun i j => update f index c i < update f index c j := by
  refine hs.imp_of_mem fun {i j} hi' hj' hlt => ?_
  rwa [update_of_ne (ne_of_mem_of_not_mem hi' hi), update_of_ne (ne_of_mem_of_not_mem hj' hi)]

theorem pairwise_update_append {f : ℕ → ℕ} {c index : ℕ} (hi : index ∉ xs)
    (hs : xs.Pairwise fun i j => f i < f j) (hpast : ∀ i ∈ xs, f i < c) :
    (xs ++ [index]).Pairwise fun i j => update f index c i < update f index c j := by
  refine pairwise_append.mpr ⟨pairwise_update hi hs, pairwise_singleton _ _, fun i hmem j hj => ?_⟩
  obtain rfl : j = index := by simpa using hj
  rw [update_self, update_of_ne (ne_of_mem_of_not_mem hmem hi)]
  exact hpast i hmem

theorem step_allocAffineAndClearAffinity {s : Inner} {m : MemoryInModule} {r : Option ℕ}
    (h : t.inner.allocAffineAndClearAffinity m = .ok (s, r)) :
    t.step (.allocAffineAndClearAffinity m) = .ok (t.allocated s none r) := by
  rw [step, Op.run, h]
  rfl

theorem step_free {s : Inner} {index bytesResident : ℕ}
    (h : t.inner.free index bytesResident = .ok s) :
    t.step (.free index bytesResident) = .ok (t.freed s index) := by
  rw [step, Op.run, h]
  rfl

/-- Which slots are warm after an allocation. -/
theorem isWarm_allocated (s : Inner) (a : Option MemoryInModule) (slot i : ℕ) :
    (t.allocated s a (some slot)).IsWarm i ↔ t.IsWarm i ∧ slot ≠ i := by
  simp only [IsWarm, allocated, mem_cons]
  grind

/-- Which slots are warm after a slot was freed. -/
theorem isWarm_freed {index : ℕ} (hindex : index ∈ t.handedOut) (s : Inner) (i : ℕ) :
    (t.freed s index).IsWarm i ↔ t.IsWarm i ∨ i = index := by
  simp only [IsWarm, freed, mem_filter, decide_eq_true_eq]
  grind

namespace Ordered

variable (O : t.Ordered warm affine)
include O

variable (m : MemoryInModule)

theorem isAffine_iff (i : ℕ) : i ∈ affine m ↔ t.IsAffine m i := by
  rw [O.holds.mem_affine, O.affinity, IsAffine]
  split <;> simp [*]

theorem isWarm_iff (i : ℕ) : i ∈ warm ↔ t.IsWarm i := by
  rw [O.holds.mem_warm, O.affinity]
  split <;> simp [*]

theorem warmCount_eq : t.warmCount = warm.length := by
  refine ((perm_ext_iff_of_nodup ((nodup_dedup t.handedOut).filter _)
    O.holds.warm_linked.nodup).mpr fun i => ?_).length_eq
  rw [O.isWarm_iff, mem_filter, mem_dedup, decide_eq_true_iff]
  exact and_iff_right_of_imp And.left

theorem affine_past : ∀ i ∈ affine m, t.freedAt i < t.clock := by
  intro i hi
  have h := (O.holds.mem_affine m i).mp hi
  exact O.past i ((O.holds.mem_warm i).mpr ⟨by simp [h.1], h.2⟩)

theorem neverUsed_iff (i : ℕ) :
    t.NeverUsed i ↔ i < t.inner.slotState.length ∧ t.inner.lastCold ≤ i := by
  refine and_congr_right fun hi => ?_
  rw [← O.cold i hi, O.holds.cold i hi (by simp)]

/-- An allocation keeps the lists in order. -/
theorem alloc {s' : Inner} {r : Option ℕ} {a : Option MemoryInModule}
    (h : Allocated t.inner s' warm affine r a) :
    ∃ warm' affine', (t.allocated s' a r).Ordered warm' affine' ∧ ∀ m, affine' m <+ affine m := by
  obtain ⟨warm', affine', H', hwarm, haff⟩ := h.holds
  have hsorted := O.sorted.sublist hwarm
  have hasorted := fun m => (O.affine_sorted m).sublist (haff m)
  have hpast := fun i hi => O.past i (hwarm.subset hi)
  have hfits := h.resident_le.trans O.fits
  have hcold : ∀ i < s'.slotState.length, s'.slotState[i]? = some .unusedCold ↔
      i ∉ t.handedOut ∧ r ≠ some i := by
    intro i hi
    rw [h.cold, O.cold i (h.length_eq ▸ hi)]
  refine ⟨warm', affine', ?_, haff⟩
  cases r with
  | none =>
    exact ⟨H', fun i b => (h.used_iff i b).trans (O.used i b),
      fun i => (h.affinity i).trans (O.affinity i), O.inUse_subset, hsorted, hasorted, hpast,
      fun i hi => (hcold i hi).trans (by simp [allocated]), hfits⟩
  | some slot =>
    refine ⟨H', fun i b => ?_, fun i => ?_, cons_subset_cons slot O.inUse_subset, hsorted,
      hasorted, hpast, fun i hi => (hcold i hi).trans ?_, hfits⟩
    · refine (h.used_iff i b).trans ?_
      by_cases hi : slot = i
      · subst hi
        simp [allocated, eq_comm]
      · simp [allocated, hi, Ne.symm hi, O.used i b]
    · refine (h.affinity i).trans ?_
      simp only [isWarm_allocated]
      by_cases hi : slot = i
      · simp [hi]
      · simp [allocated, hi, Ne.symm hi, O.affinity i]
    · simp [allocated, and_comm, eq_comm]

/-- Freeing a slot keeps the lists in order. -/
theorem free {index bytesResident : ℕ} {s' : Inner} (hcap : t.inner.slotState.length ≤ u32Max)
    (hused : index ∈ t.inUse) (hok : t.inner.free index bytesResident = .ok s') :
    s'.slotState.length = t.inner.slotState.length ∧
    (t.freed s' index).Ordered (warm ++ [index])
      fun m => if t.lastFor index = some m then affine m ++ [index] else affine m := by
  have ha := (O.used index _).mpr ⟨hused, rfl⟩
  obtain ⟨s1, heq, H', hlen, hres, hcold, haffinity, husediff⟩ :=
    holds_free O.holds hcap ha bytesResident
  obtain ⟨sum, hsum, hs1⟩ := Exec.bind_eq_ok.mp (heq ▸ hok)
  obtain rfl : s1 = s' := ok.inj hs1
  obtain ⟨hfits, -⟩ := addUsize_eq_ok.mp hsum
  obtain ⟨hnwarm, hnaff⟩ := O.holds.not_mem_of_used ha
  refine ⟨hlen, H', fun i b => ?_, fun i => ?_,
    fun i hi => O.inUse_subset (mem_of_mem_filter hi),
    pairwise_update_append hnwarm O.sorted O.past, fun m => ?_, fun i hi => ?_, fun i hi => ?_, ?_⟩
  · refine (husediff i b).trans ?_
    rw [O.used]
    simp only [freed, mem_filter, decide_eq_true_eq]
    tauto
  · refine (haffinity i).trans ?_
    simp only [isWarm_freed (O.inUse_subset hused)]
    by_cases hi : i = index
    · simp [hi, freed]
    · simp [hi, freed, O.affinity i]
  · split
    · exact pairwise_update_append (hnaff m) (O.affine_sorted m) (O.affine_past m)
    · exact pairwise_update (hnaff m) (O.affine_sorted m)
  · change update t.freedAt index t.clock i < t.clock + 1
    rcases mem_append.mp hi with hi | hi
    · rw [update_of_ne (ne_of_mem_of_not_mem hi hnwarm)]
      exact (O.past i hi).trans (Nat.lt_succ_self _)
    · obtain rfl : i = index := by simpa using hi
      rw [update_self]
      exact Nat.lt_succ_self _
  · exact (hcold i).trans (O.cold i (hlen ▸ hi))
  · exact hres ▸ hfits

/-- The slot that was freed last for a memory, if there is one. -/
theorem getLast?_affine :
    (∃ i, (affine m).getLast? = some i ∧ t.IsLastFreed (t.IsAffine m) i) ∨
      (affine m).getLast? = none ∧ ¬∃ i, t.IsAffine m i := by
  cases hlast : (affine m).getLast? with
  | some i =>
    exact .inl ⟨i, rfl, isLastFreed_of_getLast? (O.affine_sorted m) (O.isAffine_iff m) hlast⟩
  | none =>
    refine .inr ⟨rfl, fun ⟨i, hi⟩ => ?_⟩
    have := (O.isAffine_iff m i).mpr hi
    rw [getLast?_eq_none_iff.mp hlast] at this
    exact not_mem_nil this

/-- The warm slot that was freed first, if there is one. -/
theorem head?_warm :
    (∃ i, warm.head? = some i ∧ t.IsFirstFreed t.IsWarm i) ∨
      warm.head? = none ∧ ¬∃ i, t.IsWarm i := by
  cases hhead : warm.head? with
  | some i => exact .inl ⟨i, rfl, isFirstFreed_of_head? O.sorted O.isWarm_iff hhead⟩
  | none =>
    refine .inr ⟨rfl, fun ⟨i, hi⟩ => ?_⟩
    have := (O.isWarm_iff i).mpr hi
    rw [head?_eq_none_iff.mp hhead] at this
    exact not_mem_nil this

/-- The first cold slot, if there is one. -/
theorem firstCold :
    (∃ i, t.inner.firstCold = some i ∧ t.IsFirstCold i) ∨
      t.inner.firstCold = none ∧ ¬∃ i, t.NeverUsed i := by
  have hle := O.holds.lastCold_le
  unfold Inner.firstCold IsFirstCold
  simp only [O.neverUsed_iff]
  by_cases hlast : t.inner.lastCold = t.inner.slotState.length
  · exact .inr ⟨if_pos hlast, fun ⟨i, hi⟩ => by omega⟩
  · exact .inl ⟨t.inner.lastCold, if_neg hlast, ⟨by omega, le_rfl⟩, fun j hj => hj.2⟩

/-- **The choice of the allocator follows the policy.** -/
theorem choice_follows :
    t.FollowsPolicy m (t.inner.choice warm affine (some m) .anySlot) := by
  have hcnt := O.warmCount_eq
  unfold Inner.choice Inner.anyChoice
  rw [Option.bind_some, ← hcnt]
  rcases O.getLast?_affine m with ⟨i, hi, hlast⟩ | ⟨hnone, hnot⟩
  · rw [hi]
    exact ⟨fun _ => ⟨i, rfl, hlast⟩, fun hnot => absurd ⟨i, hlast.1⟩ hnot⟩
  rw [hnone]
  refine ⟨fun h => absurd h hnot, fun _ => ⟨fun hlt => ?_, fun hle => ?_⟩⟩
  · rw [if_pos hlt]
    rcases O.firstCold with ⟨i, hi, hcold⟩ | ⟨hi, hcold⟩
    · exact ⟨fun _ => ⟨i, by rw [hi]; rfl, hcold⟩, fun h => absurd ⟨i, hcold.1⟩ h⟩
    refine ⟨fun h => absurd h hcold, fun _ hwarm => ?_⟩
    rcases O.head?_warm with ⟨j, hj, hfst⟩ | ⟨-, hnowarm⟩
    · exact ⟨j, by rw [hi, hj]; rfl, hfst⟩
    · exact absurd hwarm hnowarm
  rw [if_neg (Nat.not_lt.mpr hle)]
  rcases O.head?_warm with ⟨i, hi, hfst⟩ | ⟨hi, hnowarm⟩
  · exact ⟨fun _ => ⟨i, by rw [hi]; rfl, hfst⟩, fun h => absurd ⟨i, hfst.1⟩ h⟩
  refine ⟨fun h => absurd h hnowarm, fun _ hcold => ?_⟩
  rcases O.firstCold with ⟨j, hj, hfst⟩ | ⟨-, hnocold⟩
  · exact ⟨j, by rw [hi, hj]; rfl, hfst⟩
  · exact absurd hcold hnocold

end Ordered

section

variable {capacity maxUnusedWarmSlots : ℕ}

/-- The lists are in order in every state that is reached. -/
theorem ordered_of_reaches (hcap : capacity ≤ u32Max)
    (ht : (machine capacity maxUnusedWarmSlots).Reaches t) :
    t.inner.slotState.length = capacity ∧ ∃ warm affine, t.Ordered warm affine := by
  refine Machine.Reaches.invariant
    (P := fun t => t.inner.slotState.length = capacity ∧ ∃ warm affine, t.Ordered warm affine)
    ?_ ?_ ht
  · rintro ⟨_, clock, freedAt, _, _, lastFor⟩ ⟨rfl, rfl, rfl⟩
    refine ⟨by simp [Inner.new], [], fun _ => [], holds_new _ _, ?_, ?_, Subset.refl _, by simp,
      by simp, by simp, ?_, by simp [Inner.new]⟩
    · intro i a
      simp [Inner.new, getElem?_replicate]
    · intro i
      simp only [affinityAt, Inner.new, getElem?_replicate]
      split <;> simp [IsWarm, SlotState.affinity?]
    · intro i hi
      simpa [Inner.new, getElem?_replicate] using hi
  rintro t op t' ⟨rfl, warm, affine, O⟩ hall hstep
  obtain ⟨⟨inner, slot⟩, hrun, hpure⟩ := Exec.bind_eq_ok.mp hstep
  obtain rfl := ok.inj hpure
  cases op with
  | alloc forMemory =>
    obtain ⟨s', hok, hs'⟩ := holds_allocWith O.holds hcap forMemory .anySlot
    obtain ⟨rfl, rfl⟩ := Prod.mk.inj (ok.inj (hrun.symm.trans hok))
    obtain ⟨warm', affine', O', -⟩ := O.alloc hs'
    exact ⟨by rw [inner_allocated, hs'.length_eq], warm', affine', O'⟩
  | allocAffineAndClearAffinity m =>
    obtain ⟨s', hok, hs'⟩ := holds_allocWith O.holds hcap (some m) .forceAffineAndClear
    obtain ⟨rfl, rfl⟩ := Prod.mk.inj (ok.inj (hrun.symm.trans hok))
    obtain ⟨warm', affine', O', -⟩ := O.alloc hs'
    exact ⟨by rw [inner_allocated, hs'.length_eq], warm', affine', O'⟩
  | free index bytesResident =>
    obtain ⟨s', hok, hs'⟩ := Exec.bind_eq_ok.mp hrun
    obtain ⟨rfl, rfl⟩ := Prod.mk.inj (ok.inj hs')
    obtain ⟨hlen, O'⟩ := O.free hcap hall.1 hok
    exact ⟨hlen, _, _, O'⟩

/-- **The purge ends.**  Each round takes one slot out of the list of the affinity for good, so
that the length of the list bounds the rounds; only the sum of the resident bytes can fail. -/
theorem purge_spec {start : History} {m : MemoryInModule} {bytesResident : ℕ → ℕ} {fuel : ℕ}
    (ht : ((machine capacity maxUnusedWarmSlots).startingAt start).Reaches t)
    (O : t.Ordered warm affine) (hcap : t.inner.slotState.length ≤ u32Max)
    (hfuel : (affine m).length < fuel) :
    (∃ t', ((machine capacity maxUnusedWarmSlots).startingAt start).Reaches t' ∧
        t.inner.purge m bytesResident fuel = .ok t'.inner ∧ (∀ i, ¬t'.IsAffine m i) ∧
        ∀ i, affinityAt t'.inner.slotState i ≠ some (some m)) ∨
      (∃ i, bytesResident i ≠ 0) ∧
        t.inner.purge m bytesResident fuel = .error (.panic "attempt to add with overflow") := by
  induction fuel generalizing t warm affine with
  | zero => exact absurd hfuel (Nat.not_lt_zero _)
  | succ fuel ih =>
    obtain ⟨s1, hok, hs1⟩ := holds_allocWith O.holds hcap (some m) .forceAffineAndClear
    have hchoice : t.inner.choice warm affine (some m) .forceAffineAndClear =
        (affine m).getLast? := Option.or_none
    rw [hchoice] at hs1 hok
    have hok : t.inner.allocAffineAndClearAffinity m = .ok (s1, (affine m).getLast?) := hok
    obtain ⟨warm1, affine1, O1, haff⟩ := O.alloc hs1
    have O1 : (t.allocated s1 none (affine m).getLast?).Ordered warm1 affine1 := O1
    have ht1 : ((machine capacity maxUnusedWarmSlots).startingAt start).Reaches
        (t.allocated s1 none (affine m).getLast?) :=
      ht.step (i := .allocAffineAndClearAffinity m) trivial
        (step_allocAffineAndClearAffinity hok)
    have hlen1 : s1.slotState.length ≤ u32Max := hs1.length_eq ▸ hcap
    rw [Inner.purge, hok, Exec.ok_bind]
    cases hlast : (affine m).getLast? with
    | none =>
      rw [hlast] at ht1 O1
      have hnone : affine1 m = [] := by
        rw [← sublist_nil, ← getLast?_eq_none_iff.mp hlast]
        exact haff m
      refine .inl ⟨_, ht1, rfl, fun i hi => ?_, fun i hi => ?_⟩
      · exact not_mem_nil (hnone ▸ (O1.isAffine_iff m i).mpr hi)
      · exact not_mem_nil (hnone ▸ (O1.holds.mem_affine m i).mpr ⟨hi, by simp⟩)
    | some slot =>
      rw [hlast] at ht1 O1
      have hin : slot ∈ (t.allocated s1 none (some slot)).inUse := mem_cons_self
      have hfor : (t.allocated s1 none (some slot)).lastFor slot = none := update_self _ _ _
      have hlt : (affine1 m).length < (affine m).length := by
        refine lt_of_le_of_ne (haff m).length_le fun heq => ?_
        have hmem := mem_of_getLast? hlast
        rw [← (haff m).eq_of_length heq, O1.isAffine_iff] at hmem
        exact hmem.1.2 hin
      have hused := (O1.used slot none).mpr ⟨hin, hfor⟩
      obtain ⟨s2, hfree, -⟩ := holds_free O1.holds hlen1 hused (bytesResident slot)
      have hfits := O1.fits
      simp only [inner_allocated] at hfree hfits
      simp only [hfree]
      by_cases hsum : s1.unusedBytesResident + bytesResident slot ≤ usizeMax
      · have hok2 : s1.free slot (bytesResident slot) = .ok s2 := by
          rw [hfree, addUsize_of_le hsum, Exec.ok_bind, Exec.pure_eq]
        obtain ⟨hlen2, O2⟩ := O1.free hlen1 hin hok2
        rw [addUsize_of_le hsum]
        refine ih (ht1.step (i := .free slot (bytesResident slot)) ⟨hin, by omega⟩
          (step_free hok2)) O2 (hlen2 ▸ hlen1) ?_
        simp only [hfor, reduceCtorEq, if_false]
        omega
      · refine .inr ⟨⟨slot, by omega⟩, ?_⟩
        simp [addUsize, hsum]

end

end History

/-- **The policy of the slot allocator.**  After every run an allocation succeeds and chooses
its slot by the policy, and the purge of a memory is a run that ends without a slot of its
affinity; with resident bytes, as `purge_module` never frees, their sum may overflow instead. -/
theorem indexAllocator_policy (capacity maxUnusedWarmSlots : ℕ) (hcap : capacity ≤ u32Max)
    {t : History} (ht : (History.machine capacity maxUnusedWarmSlots).Reaches t)
    (m : MemoryInModule) :
    (∃ s' r, t.inner.alloc (some m) = .ok (s', r) ∧ t.FollowsPolicy m r) ∧
    ∀ bytesResident : ℕ → ℕ,
      (∃ t', ((History.machine capacity maxUnusedWarmSlots).startingAt t).Reaches t' ∧
        t.inner.purge m bytesResident (capacity + 1) = .ok t'.inner ∧ (∀ i, ¬t'.IsAffine m i) ∧
        ∀ i, affinityAt t'.inner.slotState i ≠ some (some m)) ∨
      (∃ i, bytesResident i ≠ 0) ∧ t.inner.purge m bytesResident (capacity + 1) =
        .error (.panic "attempt to add with overflow") := by
  obtain ⟨hlen, warm, affine, O⟩ := History.ordered_of_reaches hcap ht
  refine ⟨?_, fun bytesResident => History.purge_spec (.start rfl) O (hlen ▸ hcap) ?_⟩
  · obtain ⟨s', hok, -⟩ := holds_allocWith O.holds (hlen ▸ hcap) (some m) .anySlot
    exact ⟨s', _, hok, O.choice_follows m⟩
  · refine Nat.lt_succ_of_le (length_le_of_nodup (O.holds.affine_linked m).nodup fun i hi => ?_)
    exact hlen ▸ lt_length_of_affinityAt (by simp [((O.holds.mem_affine m i).mp hi).1])

/-- Slots 0 and 1 are freed in this order, and slot 2 of three was never used: an allocation
for their memory takes slot 1. -/
theorem indexAllocator_policy_lastFreed : ∃ t : History,
    (History.machine 3 4).Reaches t ∧ t.IsAffine ⟨7, 0⟩ 0 ∧ t.IsAffine ⟨7, 0⟩ 1 ∧
    t.freedAt 0 < t.freedAt 1 ∧
    ∃ s', t.inner.alloc (some ⟨7, 0⟩) = .ok (s', some 1) ∧ t.FollowsPolicy ⟨7, 0⟩ (some 1) := by
  obtain ⟨t, ht, hp⟩ := Machine.reaches_of_run? (M := History.machine 3 4)
    (s := ⟨.new 3 4, 0, fun _ => 0, [], [], fun _ => none⟩)
    [.alloc (some ⟨7, 0⟩), .alloc (some ⟨7, 0⟩), .free 0 5, .free 1 6]
    (p := fun t => decide (t.IsAffine ⟨7, 0⟩ 0 ∧ t.IsAffine ⟨7, 0⟩ 1 ∧ t.freedAt 0 < t.freedAt 1 ∧
      (t.inner.alloc (some ⟨7, 0⟩)).map Prod.snd = .ok (some 1)))
    ⟨rfl, rfl, rfl⟩ (by decide +kernel)
  obtain ⟨h0, h1, hlt, hone⟩ := of_decide_eq_true hp
  obtain ⟨s', r, hok, hr⟩ := (indexAllocator_policy 3 4 (by decide) ht ⟨7, 0⟩).1
  rw [hok] at hone
  obtain rfl : r = some 1 := ok.inj hone
  exact ⟨t, ht, h0, h1, hlt, s', hok, hr⟩

end WasmDeps.Pooling
