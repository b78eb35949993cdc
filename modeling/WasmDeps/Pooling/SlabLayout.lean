import WasmDeps.Lib.Exec
import Mathlib.Data.Nat.ModEq
import Mathlib.Tactic.Ring

/-!
# The slab of the memory pool

`MemoryPool` reserves one slab for all linear memories: a guard region, `num_slots`
slots of equal size, and another guard region.  With memory protection keys the
slots are striped: consecutive slots carry different keys, so that the slots of the
other stripes serve as a slot's guard region.  `calculate` picks the slot size and
the number of stripes.

Sizes are `HostAlignedByteCount`s, which carry their page alignment and their range
as fields.  The host page size is a parameter.
-/

namespace WasmDeps.Pooling

open WasmDeps.Lib Exec

/-- The page size of the host.  Every supported host has pages of at least 4 KiB;
the layout needs only that a page is larger than the number of protection keys. -/
structure HostPageSize where
  bytes : ℕ
  /-- `debug_assert!(page_size.is_power_of_two())`. -/
  isPowerOfTwo : ∃ k, bytes = 2 ^ k
  /-- Pages are larger than the 15 protection keys. -/
  sixteen_le : 16 ≤ bytes

/-- A number of bytes that is a multiple of the host page size, in a `usize`. -/
structure HostAlignedByteCount (P : HostPageSize) where
  byteCount : ℕ
  aligned : P.bytes ∣ byteCount
  inRange : byteCount ≤ usizeMax
  deriving DecidableEq

/-- Why an operation on byte counts failed. -/
inductive ByteCountOutOfBoundsKind
  | roundUp
  | convertU64
  | add
  | mul
  | div
  | rem
  deriving DecidableEq, Repr

abbrev ByteCountResult := Except ByteCountOutOfBoundsKind

/-- `.context(msg)?`: a failed operation becomes an error with that message. -/
def context {α : Type} (r : ByteCountResult α) (msg : String) : Exec α :=
  match r with
  | .ok a => pure a
  | .error _ => throw (.error msg)

/-- `.expect(msg)`: a failed operation becomes a panic with that message. -/
def expect {α : Type} (r : ByteCountResult α) (msg : String) : Exec α :=
  match r with
  | .ok a => pure a
  | .error _ => throw (.panic msg)

variable {α : Type} {r : ByteCountResult α} {msg : String}

@[simp] theorem context_eq_ok {a : α} : context r msg = .ok a ↔ r = .ok a := by
  cases r <;> simp [context]

@[simp] theorem expect_eq_ok {a : α} : expect r msg = .ok a ↔ r = .ok a := by
  cases r <;> simp [expect]

variable {P : HostPageSize}

namespace HostAlignedByteCount

def zero : HostAlignedByteCount P := ⟨0, Nat.dvd_zero _, Nat.zero_le _⟩

/-- The least multiple of the page size that is not smaller. -/
def newRoundedUp (bytes : ℕ) : ByteCountResult (HostAlignedByteCount P) :=
  if h : bytes + (P.bytes - 1) ≤ usizeMax then
    .ok ⟨Lib.roundUp bytes P.bytes, dvd_roundUp _ _, (roundDown_le _ _).trans h⟩
  else .error .roundUp

def newRoundedUpU64 (bytes : ℕ) : ByteCountResult (HostAlignedByteCount P) :=
  if bytes ≤ usizeMax then newRoundedUp bytes else .error .convertU64

def max (a b : HostAlignedByteCount P) : HostAlignedByteCount P :=
  if a.byteCount ≤ b.byteCount then b else a

/-- The sum, if it is in range. -/
def checkedAdd (a b : HostAlignedByteCount P) : ByteCountResult (HostAlignedByteCount P) :=
  if h : a.byteCount + b.byteCount ≤ usizeMax then
    .ok ⟨a.byteCount + b.byteCount, Nat.dvd_add a.aligned b.aligned, h⟩
  else .error .add

/-- The difference, or zero. -/
def saturatingSub (a b : HostAlignedByteCount P) : HostAlignedByteCount P :=
  ⟨a.byteCount - b.byteCount, Nat.dvd_sub a.aligned b.aligned,
    (Nat.sub_le _ _).trans a.inRange⟩

/-- The product, if it is in range. -/
def checkedMul (a : HostAlignedByteCount P) (scalar : ℕ) :
    ByteCountResult (HostAlignedByteCount P) :=
  if h : a.byteCount * scalar ≤ usizeMax then
    .ok ⟨a.byteCount * scalar, Dvd.dvd.mul_right a.aligned _, h⟩
  else .error .mul

def checkedDiv (a divisor : HostAlignedByteCount P) : ByteCountResult ℕ :=
  if divisor.byteCount = 0 then .error .div else .ok (a.byteCount / divisor.byteCount)

/-- `checked_rem`: the remainder of aligned byte counts is aligned. -/
def checkedRem (a divisor : HostAlignedByteCount P) : ByteCountResult (HostAlignedByteCount P) :=
  if divisor.byteCount = 0 then .error .rem
  else .ok ⟨a.byteCount % divisor.byteCount,
    (Nat.dvd_mod_iff divisor.aligned).mpr a.aligned, (Nat.mod_le _ _).trans a.inRange⟩

@[simp] theorem byteCount_max (a b : HostAlignedByteCount P) :
    (a.max b).byteCount = Max.max a.byteCount b.byteCount := by
  rw [max]
  split <;> omega

@[simp] theorem byteCount_saturatingSub (a b : HostAlignedByteCount P) :
    (a.saturatingSub b).byteCount = a.byteCount - b.byteCount := rfl

variable {c a : HostAlignedByteCount P}

theorem newRoundedUp_spec {bytes : ℕ}
    (h : newRoundedUp bytes = .ok c) : c.byteCount = Lib.roundUp bytes P.bytes := by
  rw [newRoundedUp] at h
  split at h
  · cases h
    rfl
  · cases h

theorem checkedAdd_spec {b : HostAlignedByteCount P} (h : a.checkedAdd b = .ok c) :
    c.byteCount = a.byteCount + b.byteCount := by
  rw [checkedAdd] at h
  split at h
  · cases h
    rfl
  · cases h

theorem checkedAdd_of_le {b : HostAlignedByteCount P} (h : a.byteCount + b.byteCount ≤ usizeMax) :
    ∃ c, a.checkedAdd b = .ok c ∧ c.byteCount = a.byteCount + b.byteCount := by
  simp [checkedAdd, h]

theorem checkedMul_spec {n : ℕ} (h : a.checkedMul n = .ok c) : c.byteCount = a.byteCount * n := by
  rw [checkedMul] at h
  split at h
  · cases h
    rfl
  · cases h

theorem checkedMul_of_le {n : ℕ} (h : a.byteCount * n ≤ usizeMax) :
    ∃ c, a.checkedMul n = .ok c ∧ c.byteCount = a.byteCount * n := by
  simp [checkedMul, h]

end HostAlignedByteCount

/-! ## The layout computation -/

/-- What the embedder asks of the slab. -/
structure SlabConstraints (P : HostPageSize) where
  /-- How much space the compiler assumes is guarded between slots. -/
  expectedSlotBytes : HostAlignedByteCount P
  maxMemoryBytes : HostAlignedByteCount P
  numSlots : ℕ
  numPkeysAvailable : ℕ
  guardBytes : HostAlignedByteCount P
  guardBeforeSlots : Bool

/-- The configuration values that `SlabConstraints::new` reads. -/
structure PoolConfig where
  maxMemorySize : ℕ
  totalMemories : ℕ
  memoryReservation : ℕ
  memoryGuardSize : ℕ
  guardBeforeLinearMemory : Bool

/-- The constraints of a configuration. -/
def SlabConstraints.new {P : HostPageSize} (config : PoolConfig) (numPkeysAvailable : ℕ) :
    Exec (SlabConstraints P) := do
  let expectedSlotBytes ← context (HostAlignedByteCount.newRoundedUpU64 config.memoryReservation)
    "memory reservation is too large"
  let maxMemoryBytes ← context (HostAlignedByteCount.newRoundedUp config.maxMemorySize)
    "maximum size of memory is too large"
  let guardBytes ← context (HostAlignedByteCount.newRoundedUpU64 config.memoryGuardSize)
    "guard region is too large"
  -- `total_memories` is a `u32`, so its conversion to `usize` cannot fail.
  pure
    { expectedSlotBytes, maxMemoryBytes, numSlots := config.totalMemories, numPkeysAvailable,
      guardBytes, guardBeforeSlots := config.guardBeforeLinearMemory }

/-- The layout of a slab of memory slots. -/
structure SlabLayout (P : HostPageSize) where
  numSlots : ℕ
  slotBytes : HostAlignedByteCount P
  /-- How much of a slot can become accessible. -/
  maxMemoryBytes : HostAlignedByteCount P
  preSlabGuardBytes : HostAlignedByteCount P
  postSlabGuardBytes : HostAlignedByteCount P
  numStripes : ℕ
  deriving DecidableEq

namespace SlabLayout

/-- The bytes of the whole slab. -/
def totalSlabBytes (l : SlabLayout P) : Exec (HostAlignedByteCount P) :=
  context
    (do
      let c ← l.slotBytes.checkedMul l.numSlots
      let c ← c.checkedAdd l.preSlabGuardBytes
      c.checkedAdd l.postSlabGuardBytes)
    "total size of memory reservation exceeds addressable memory"

/-- The distance from a slot to the next slot of its stripe. -/
def bytesToNextStripeSlot (l : SlabLayout P) : Exec (HostAlignedByteCount P) :=
  expect (l.slotBytes.checkedMul l.numStripes)
    "constructor checks that self.slot_bytes * self.num_stripes is in bounds"

/-- `MemoryPool::get_base`: the offset of a slot in the mapping. -/
def getBase (l : SlabLayout P) (index : ℕ) : Exec (HostAlignedByteCount P) := do
  ensure (index < l.numSlots) "assertion failed: allocation_index.index() < self.layout.num_slots"
  expect
    (do
      let c ← l.slotBytes.checkedMul index
      c.checkedAdd l.preSlabGuardBytes)
    "slot_bytes * index + pre_slab_guard_bytes overflows"

end SlabLayout

namespace SlabConstraints

/-- The number of stripes and the size of a slot before page rounding. -/
def stripesAndSlotBytes (c : SlabConstraints P) (faultingRegionBytes : HostAlignedByteCount P) :
    Exec (ℕ × ℕ) :=
  if c.guardBytes.byteCount = 0 ∨ c.maxMemoryBytes.byteCount = 0 ∨ c.numSlots = 0 then
    -- Nothing to overlap: the slots are laid out back to back in one stripe.
    pure (1, faultingRegionBytes.byteCount)
  else if c.numPkeysAvailable < 2 then
    pure (1, faultingRegionBytes.byteCount)
  else do
    let quotient ← expect (faultingRegionBytes.checkedDiv c.maxMemoryBytes)
      "if condition above implies max_memory_bytes is non-zero"
    let remainder ← expect (faultingRegionBytes.checkedRem c.maxMemoryBytes)
      "if condition above implies max_memory_bytes is non-zero"
    let neededNumStripes := quotient + (if remainder.byteCount ≠ 0 then 1 else 0)
    ensure (neededNumStripes > 0) "assertion failed: needed_num_stripes > 0"
    let numStripes := min (min c.numPkeysAvailable neededNumStripes) c.numSlots
    -- `checked_div(0)` is `None`, for which the source takes the whole region.
    let share :=
      if numStripes = 0 then faultingRegionBytes.byteCount
      else faultingRegionBytes.byteCount / numStripes
    let neededSlotBytes := max share c.maxMemoryBytes.byteCount
    ensure (neededSlotBytes ≥ c.maxMemoryBytes.byteCount)
      "assertion failed: needed_slot_bytes >= max_memory_bytes.byte_count()"
    pure (numStripes, neededSlotBytes)

end SlabConstraints

/-- The layout for the constraints. -/
def calculate (c : SlabConstraints P) : Exec (SlabLayout P) := do
  let preSlabGuardBytes := if c.guardBeforeSlots then c.guardBytes else HostAlignedByteCount.zero
  let faultingRegionBytes ← context
    ((c.expectedSlotBytes.max c.maxMemoryBytes).checkedAdd c.guardBytes)
    "faulting region is too large"
  let (numStripes, slotBytes) ← c.stripesAndSlotBytes faultingRegionBytes
  let slotBytes ← context (HostAlignedByteCount.newRoundedUp slotBytes) "slot size is too large"
  let postSlabGuardBytes := faultingRegionBytes.saturatingSub slotBytes
  let layout : SlabLayout P :=
    { numSlots := c.numSlots, slotBytes, maxMemoryBytes := c.maxMemoryBytes, preSlabGuardBytes,
      postSlabGuardBytes, numStripes }
  let _ ← layout.totalSlabBytes
  pure layout

/-! ## What a computed layout satisfies -/

/-- The reservation of a slot together with its guard, which must fault on any
access beyond the memory. -/
def SlabConstraints.faultingRegion (c : SlabConstraints P) : ℕ :=
  max c.expectedSlotBytes.byteCount c.maxMemoryBytes.byteCount + c.guardBytes.byteCount

/-- Rounding a share of `F` up to a page leaves no gap: with fewer shares than a
page has bytes, the rounded shares cover all of `F`. -/
theorem le_roundUp_div_mul {F n page : ℕ} (hF : page ∣ F) (hn : 0 < n) (hlt : n < page) :
    F ≤ roundUp (F / n) page * n := by
  have hle := le_roundUp (F / n) (by omega : 0 < page)
  have hdiv := Nat.div_add_mod F n
  have hmod := Nat.mod_lt F hn
  rcases eq_or_lt_of_le hle with heq | hlt'
  · -- The share is a whole number of pages, so the remainder is too: it is zero.
    have hq := Dvd.dvd.mul_left (heq ▸ dvd_roundUp _ _) n
    have hr := (Nat.dvd_add_right hq).mp (by rwa [hdiv])
    have hz := Nat.eq_zero_of_dvd_of_lt hr (by omega)
    rw [← heq, mul_comm]
    omega
  · -- Rounding added at least one byte to each share, which covers the remainder.
    calc F = n * (F / n) + F % n := hdiv.symm
      _ ≤ n * (F / n) + n := by omega
      _ = (F / n + 1) * n := by ring
      _ ≤ roundUp (F / n) page * n := Nat.mul_le_mul_right n hlt'

/-- The two cases of the stripe computation: one stripe that holds the whole
faulting region, or several that share it. -/
theorem stripesAndSlotBytes_spec {c : SlabConstraints P} {F : HostAlignedByteCount P} {n b : ℕ}
    (hmax : c.maxMemoryBytes.byteCount ≤ F.byteCount) (h : c.stripesAndSlotBytes F = .ok (n, b)) :
    (n = 1 ∧ b = F.byteCount) ∨
    (0 < n ∧ n ≤ c.numPkeysAvailable ∧ n ≤ c.numSlots ∧
      b = max (F.byteCount / n) c.maxMemoryBytes.byteCount) := by
  rw [SlabConstraints.stripesAndSlotBytes] at h
  split at h
  · cases h
    exact .inl ⟨rfl, rfl⟩
  split at h
  · cases h
    exact .inl ⟨rfl, rfl⟩
  rename_i hnz hkeys
  simp only [not_or] at hnz
  obtain ⟨-, hmem, hslots⟩ := hnz
  have hq := Nat.div_pos hmax (pos_of_ne_zero hmem)
  have hpos : 0 < min (min c.numPkeysAvailable (F.byteCount / c.maxMemoryBytes.byteCount +
      if F.byteCount % c.maxMemoryBytes.byteCount ≠ 0 then 1 else 0)) c.numSlots := by
    omega
  simp only [HostAlignedByteCount.checkedDiv, HostAlignedByteCount.checkedRem, hmem, if_false,
    expect, pure_eq, ok_bind, gt_iff_lt, Nat.add_pos_left hq, ensure_of, hpos.ne',
    ge_iff_le, le_max_right, Except.ok.injEq, Prod.mk.injEq] at h
  obtain ⟨rfl, rfl⟩ := h
  refine .inr ⟨hpos, ?_, min_le_right _ _, rfl⟩
  exact (min_le_left _ _).trans (min_le_left _ _)

/-- The equations behind a computed layout. -/
structure Calculated (c : SlabConstraints P) (l : SlabLayout P) : Prop where
  numSlots_eq : l.numSlots = c.numSlots
  maxMemoryBytes_eq : l.maxMemoryBytes = c.maxMemoryBytes
  maxMemoryBytes_le : c.maxMemoryBytes.byteCount ≤ l.slotBytes.byteCount
  numStripes_pos : 0 < l.numStripes
  /-- More than one stripe needs as many keys and slots. -/
  numStripes_le : l.numStripes = 1 ∨
    (l.numStripes ≤ c.numPkeysAvailable ∧ l.numStripes ≤ c.numSlots)
  /-- The slots up to the next of the stripe hold the faulting region. -/
  faultingRegion_le : c.numPkeysAvailable < P.bytes →
    c.faultingRegion ≤ l.slotBytes.byteCount * l.numStripes
  /-- The guard after the last slot completes its faulting region. -/
  postSlabGuardBytes_eq : l.postSlabGuardBytes.byteCount =
    c.faultingRegion - l.slotBytes.byteCount
  total : ∃ t, l.totalSlabBytes = .ok t ∧ t.byteCount =
    l.preSlabGuardBytes.byteCount + l.slotBytes.byteCount * l.numSlots +
      l.postSlabGuardBytes.byteCount

variable {l : SlabLayout P}

theorem totalSlabBytes_spec {t : HostAlignedByteCount P} (h : l.totalSlabBytes = .ok t) :
    t.byteCount = l.preSlabGuardBytes.byteCount + l.slotBytes.byteCount * l.numSlots +
      l.postSlabGuardBytes.byteCount := by
  rw [SlabLayout.totalSlabBytes] at h
  cases hm : l.slotBytes.checkedMul l.numSlots with
  | error e => simp [hm, bind, Except.bind] at h
  | ok m =>
    cases ha : m.checkedAdd l.preSlabGuardBytes with
    | error e => simp [hm, ha, bind, Except.bind] at h
    | ok a =>
      have hadd : a.checkedAdd l.postSlabGuardBytes = .ok t := by
        simpa [hm, ha, bind, Except.bind] using h
      rw [HostAlignedByteCount.checkedAdd_spec hadd, HostAlignedByteCount.checkedAdd_spec ha,
        HostAlignedByteCount.checkedMul_spec hm]
      omega

theorem calculate_spec {c : SlabConstraints P} (h : calculate c = .ok l) : Calculated c l := by
  obtain ⟨F, hF, h⟩ := bind_eq_ok.mp h
  rw [context_eq_ok] at hF
  have hFeq : F.byteCount = c.faultingRegion := by
    rw [HostAlignedByteCount.checkedAdd_spec hF, HostAlignedByteCount.byteCount_max]
    rfl
  obtain ⟨⟨n, b⟩, hnb, h⟩ := bind_eq_ok.mp h
  obtain ⟨s, hs, h⟩ := bind_eq_ok.mp h
  rw [context_eq_ok] at hs
  obtain ⟨t, ht, h⟩ := bind_eq_ok.mp h
  obtain rfl := Except.ok.inj h
  have hslot := HostAlignedByteCount.newRoundedUp_spec hs
  have hpage : 0 < P.bytes := by have := P.sixteen_le; omega
  have hround := le_roundUp b hpage
  have hmaxF : c.maxMemoryBytes.byteCount ≤ F.byteCount := by
    rw [hFeq, SlabConstraints.faultingRegion]
    omega
  refine ⟨rfl, rfl, ?_, ?_, ?_, ?_, ?_, t, ht, totalSlabBytes_spec ht⟩
  · rcases stripesAndSlotBytes_spec hmaxF hnb with ⟨-, rfl⟩ | ⟨-, -, -, rfl⟩
    · exact hslot ▸ hmaxF.trans hround
    · exact hslot ▸ (le_max_right _ _).trans hround
  · rcases stripesAndSlotBytes_spec hmaxF hnb with ⟨rfl, -⟩ | ⟨hn, -⟩
    · exact one_pos
    · exact hn
  · rcases stripesAndSlotBytes_spec hmaxF hnb with ⟨rfl, -⟩ | ⟨-, hk, hn, -⟩
    · exact .inl rfl
    · exact .inr ⟨hk, hn⟩
  · intro hkeys
    rw [← hFeq]
    rcases stripesAndSlotBytes_spec hmaxF hnb with ⟨rfl, rfl⟩ | ⟨hn, hk, -, rfl⟩
    · rw [mul_one]
      exact hslot ▸ hround
    calc F.byteCount ≤ roundUp (F.byteCount / n) P.bytes * n :=
          le_roundUp_div_mul F.aligned hn (by omega)
      _ ≤ s.byteCount * n := by
          rw [hslot]
          refine Nat.mul_le_mul_right n (Nat.mul_le_mul_right _ (Nat.div_le_div_right ?_))
          omega
  · rw [HostAlignedByteCount.byteCount_saturatingSub, hFeq]

theorem getBase_spec {t : HostAlignedByteCount P}
    (ht : l.totalSlabBytes = .ok t) {i : ℕ} (hi : i < l.numSlots) :
    ∃ b, l.getBase i = .ok b ∧
      b.byteCount = l.preSlabGuardBytes.byteCount + l.slotBytes.byteCount * i := by
  have htot := totalSlabBytes_spec ht
  have hle : l.slotBytes.byteCount * i ≤ l.slotBytes.byteCount * l.numSlots :=
    Nat.mul_le_mul_left _ hi.le
  have hrange := t.inRange
  obtain ⟨m, hm, hmeq⟩ := HostAlignedByteCount.checkedMul_of_le
    (a := l.slotBytes) (n := i) (by omega)
  obtain ⟨b, hb, hbeq⟩ := HostAlignedByteCount.checkedAdd_of_le
    (a := m) (b := l.preSlabGuardBytes) (by omega)
  refine ⟨b, ?_, by omega⟩
  simp [SlabLayout.getBase, hi, hm, hb, bind, Except.bind]

theorem add_numStripes_le {i j n : ℕ} (hij : i < j) (hmod : i % n = j % n) : i + n ≤ j := by
  have hdvd := (Nat.modEq_iff_dvd' hij.le).mp hmod
  have := Nat.le_of_dvd (by omega) hdvd
  omega

/-- Two ranges of bytes without a common byte, the first before or after the second. -/
def Apart (start₁ end₁ start₂ end₂ : ℕ) : Prop := end₁ ≤ start₂ ∨ end₂ ≤ start₁

/-- **A computed layout isolates the slots of a stripe.**  Slots hold a memory, the
stripes are at most the keys and the slots, the distance to the next slot of the
stripe and the room after the last slot hold a reservation with its guard, the total
is the sum of its parts, and the reservation and guard of every slot stay inside the
mapping and clear of the accessible bytes of every other slot of its stripe. -/
theorem calculate_isolates (c : SlabConstraints P) (l : SlabLayout P)
    (hkeys : c.numPkeysAvailable ≤ 15) (h : calculate c = .ok l) :
    c.maxMemoryBytes.byteCount ≤ l.slotBytes.byteCount ∧
    1 ≤ l.numStripes ∧ l.numStripes ≤ max 1 (min c.numPkeysAvailable c.numSlots) ∧
    (∃ d, l.bytesToNextStripeSlot = .ok d ∧
      d.byteCount = l.slotBytes.byteCount * l.numStripes ∧ c.faultingRegion ≤ d.byteCount) ∧
    c.faultingRegion ≤ l.slotBytes.byteCount + l.postSlabGuardBytes.byteCount ∧
    ∃ t, l.totalSlabBytes = .ok t ∧
      t.byteCount = l.preSlabGuardBytes.byteCount + l.slotBytes.byteCount * c.numSlots +
        l.postSlabGuardBytes.byteCount ∧
      ∀ i < c.numSlots, ∃ b, l.getBase i = .ok b ∧ b.byteCount + c.faultingRegion ≤ t.byteCount ∧
        ∀ j < c.numSlots, j ≠ i → j % l.numStripes = i % l.numStripes →
          ∃ b', l.getBase j = .ok b' ∧
            Apart b.byteCount (b.byteCount + c.faultingRegion)
              b'.byteCount (b'.byteCount + l.maxMemoryBytes.byteCount) := by
  have H := calculate_spec h
  have hpage := P.sixteen_le
  have hreg := H.faultingRegion_le (by omega)
  have hpost := H.postSlabGuardBytes_eq
  have hpos := H.numStripes_pos
  obtain ⟨t, ht, htot⟩ := H.total
  have hn := H.numSlots_eq
  rw [hn] at htot
  have hstripes : l.numStripes ≤ max 1 (min c.numPkeysAvailable c.numSlots) := by
    rcases H.numStripes_le with h1 | h2 <;> omega
  -- One stripe is a single slot, several are at most all of them: the total bounds both.
  have hnext : l.slotBytes.byteCount * l.numStripes ≤ usizeMax := by
    rcases H.numStripes_le with h1 | h2
    · rw [h1, mul_one]
      exact l.slotBytes.inRange
    · have := Nat.mul_le_mul_left l.slotBytes.byteCount h2.2
      have := t.inRange
      omega
  obtain ⟨d, hd, hdeq⟩ := HostAlignedByteCount.checkedMul_of_le hnext
  refine ⟨H.maxMemoryBytes_le, hpos, hstripes,
    ⟨d, by simp [SlabLayout.bytesToNextStripeSlot, hd], hdeq, hdeq ▸ hreg⟩, by omega,
    t, ht, htot, ?_⟩
  intro i hi
  obtain ⟨b, hb, hbeq⟩ := getBase_spec ht (hn ▸ hi)
  have hslots : l.slotBytes.byteCount * i + l.slotBytes.byteCount ≤
      l.slotBytes.byteCount * c.numSlots := by
    exact Nat.mul_le_mul_left _ hi
  refine ⟨b, hb, by omega, ?_⟩
  intro j hj hne hmod
  obtain ⟨b', hb', hbeq'⟩ := getBase_spec ht (hn ▸ hj)
  refine ⟨b', hb', ?_⟩
  rcases Nat.lt_or_gt_of_ne hne with hji | hij
  · -- A lower slot ends before this one starts.
    have hle := Nat.mul_le_mul_left l.slotBytes.byteCount hji
    have hmem := H.maxMemoryBytes_le
    rw [Nat.mul_succ] at hle
    right
    rw [H.maxMemoryBytes_eq]
    omega
  · -- The next slot of the stripe is `numStripes` slots away.
    have hle := Nat.mul_le_mul_left l.slotBytes.byteCount (add_numStripes_le hij hmod.symm)
    rw [mul_add] at hle
    left
    omega

/-- Four slots of 64 KiB with three keys, on a host with 4 KiB pages. -/
def fourSlots : SlabConstraints ⟨4096, ⟨12, rfl⟩, by decide⟩ where
  expectedSlotBytes := ⟨131072, by decide, by decide⟩
  maxMemoryBytes := ⟨65536, by decide, by decide⟩
  numSlots := 4
  numPkeysAvailable := 3
  guardBytes := ⟨65536, by decide, by decide⟩
  guardBeforeSlots := true

/-- Its layout: three stripes, whose slots hold exactly one memory each. -/
def fourSlotsLayout : SlabLayout ⟨4096, ⟨12, rfl⟩, by decide⟩ where
  numSlots := 4
  slotBytes := ⟨65536, by decide, by decide⟩
  maxMemoryBytes := ⟨65536, by decide, by decide⟩
  preSlabGuardBytes := ⟨65536, by decide, by decide⟩
  postSlabGuardBytes := ⟨131072, by decide, by decide⟩
  numStripes := 3

theorem calculate_isolates_fourSlots : calculate fourSlots = .ok fourSlotsLayout ∧
    ∃ d, fourSlotsLayout.bytesToNextStripeSlot = .ok d ∧ d.byteCount = 65536 * 3 ∧
      196608 ≤ d.byteCount :=
  have h : calculate fourSlots = .ok fourSlotsLayout := by decide +kernel
  ⟨h, (calculate_isolates fourSlots fourSlotsLayout (by decide) h).2.2.2.1⟩

end WasmDeps.Pooling
