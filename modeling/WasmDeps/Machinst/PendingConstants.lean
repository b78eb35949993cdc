import WasmDeps.Machinst.TextSection

/-!
# Pending constants

A constant that is used is queued, and the next island emits it.  `pending_constants_size` is meant
to be the size of the queue, for the estimate of where an island can end.  Islands empty the queue
but leave the counter, so it also counts what was emitted.

The parts of a buffer for text are those of text sections.  Operations that use neither constants
nor traps may change these parts in any way.
-/

namespace WasmDeps.Machinst

open Lib List Exec

/-- A constant that the code may use; its label is there from the first use on. -/
structure MachBufferConstant where
  upcomingLabel : Option ℕ
  align : ℕ
  size : ℕ

/-- A `MachBuffer` with constants and traps. -/
structure CodeBuffer where
  buf : MachBuffer
  /-- The labels of the traps. -/
  pendingTraps : List ℕ
  constants : List MachBufferConstant
  pendingConstants : List ℕ
  pendingConstantsSize : ℕ
  usedConstants : List (ℕ × ℕ)

namespace CodeBuffer

def trapOpcode : List UInt8 := [0x1f, 0xc1, 0, 0]

/-- A new label. -/
def getLabel (buf : MachBuffer) : ℕ × MachBuffer :=
  (buf.labelOffsets.length, { buf with labelOffsets := buf.labelOffsets ++ [none] })

variable (b : CodeBuffer)

/-- Registers a constant. -/
def registerConstant (align size : ℕ) : CodeBuffer :=
  { b with constants := b.constants ++ [⟨none, align, size⟩] }

/-- The label of a constant, which is pending from now on. -/
def getLabelForConstant (c : ℕ) : Exec (ℕ × CodeBuffer) := do
  let constant ← unwrap b.constants[c]? "index out of bounds"
  match constant.upcomingLabel with
  | some label => pure (label, b)
  | none =>
    let (label, buf) := getLabel b.buf
    let pendingConstantsSize ← addU32 b.pendingConstantsSize constant.size
    let constants := b.constants.set c { constant with upcomingLabel := some label }
    pure (label, { b with
      buf, pendingConstantsSize, constants, pendingConstants := b.pendingConstants ++ [c] })

/-- A label for a trap that the next island emits. -/
def deferTrap : ℕ × CodeBuffer :=
  let (label, buf) := getLabel b.buf
  (label, { b with buf, pendingTraps := b.pendingTraps ++ [label] })

/-- Where an island ends at most, with the constants and the traps. -/
def worstCaseEndOfIsland (distance : ℕ) : Exec ℕ := do
  let maxVeneerCount := b.buf.fixupRecords.length + b.buf.pendingFixupRecords.length
  ensure (maxVeneerCount ≤ u32Max)
    "called `Result::unwrap()` on an `Err` value: TryFromIntError(())"
  let veneers := min (maxVeneerCount * LabelUse.worstCaseVeneerSize) u32Max
  let size ← addU32 veneers b.pendingConstantsSize
  let size ← addU32 size (b.pendingTraps.length * trapOpcode.length)
  pure (min (min (b.buf.text.len + distance) u32Max + size) u32Max)

/-- Emits a trap. -/
def emitTrap (buf : MachBuffer) (label : ℕ) : Exec MachBuffer := do
  let text ← buf.text.alignTo LabelUse.align
  let buf ← ({ buf with text } : MachBuffer).bindLabel label
  pure { buf with text := buf.text.putData trapOpcode }

/-- Emits a constant. -/
def emitConstant (c : ℕ) : Exec CodeBuffer := do
  let constant ← unwrap b.constants[c]? "index out of bounds"
  let label ← unwrap constant.upcomingLabel "called `Option::unwrap()` on a `None` value"
  let text ← b.buf.text.alignTo constant.align
  let buf ← ({ b.buf with text } : MachBuffer).bindLabel label
  pure { b with
    constants := b.constants.set c { constant with upcomingLabel := none }
    usedConstants := b.usedConstants ++ [(c, text.len)]
    buf := { buf with text := buf.text.appendSpace constant.size } }

/-- Emits an island: traps, constants and the fixups that are due. -/
def emitIslandMaybeForced (forceVeneers : Bool) (distance : ℕ) :
    Exec CodeBuffer := do
  let forcedThreshold ← b.worstCaseEndOfIsland distance
  let buf ← MachBuffer.handlePending forceVeneers forcedThreshold b.buf.pendingFixupRecords
    { b.buf with pendingFixupRecords := [] }
  let buf := { buf with pendingFixupDeadline := u32Max }
  let buf ← MachBuffer.handleHeap forceVeneers forcedThreshold buf.fixupRecords.length buf
  let buf ← b.pendingTraps.foldlM emitTrap buf
  b.pendingConstants.foldlM emitConstant { b with buf, pendingTraps := [], pendingConstants := [] }

/-- The size of a constant. -/
def sizeOf (c : ℕ) : ℕ := b.constants[c]?.elim 0 (·.size)

end CodeBuffer

/-- The operations on a buffer; `other` is one that uses neither constants nor traps. -/
inductive CodeOp
  | registerConstant (align size : ℕ)
  | getLabelForConstant (c : ℕ)
  | deferTrap
  | emitIslandMaybeForced (forceVeneers : Bool) (distance : ℕ)
  | other (f : MachBuffer → Exec MachBuffer)

/-- All runs of a code buffer that has no constants yet. -/
def codeMachine : Machine CodeBuffer CodeOp where
  start b := ∃ buf, b = ⟨buf, [], [], [], 0, []⟩
  allowed _ _ := True
  step b
    | .registerConstant align size => pure (b.registerConstant align size)
    | .getLabelForConstant c => do pure (← b.getLabelForConstant c).2
    | .deferTrap => pure b.deferTrap.2
    | .emitIslandMaybeForced forceVeneers distance => b.emitIslandMaybeForced forceVeneers distance
    | .other f => do pure { b with buf := ← f b.buf }

namespace CodeBuffer

variable {b b' : CodeBuffer} {c : ℕ} {queued : List ℕ}

/-- The counter has the sizes of the constants that are queued and of those that were emitted. -/
structure Counts (b : CodeBuffer) (queued : List ℕ) : Prop where
  known : ∀ c ∈ queued ++ b.usedConstants.map Prod.fst, c < b.constants.length
  size : b.pendingConstantsSize = ((queued ++ b.usedConstants.map Prod.fst).map b.sizeOf).sum

theorem sizeOf_set {constant : MachBufferConstant} (h : b.constants[c]? = some constant)
    (label : Option ℕ) (hb : b'.constants =
      b.constants.set c { constant with upcomingLabel := label }) : b'.sizeOf = b.sizeOf := by
  funext c'
  rw [sizeOf, sizeOf, hb, getElem?_set_of_lt (lt_of_getElem? h)]
  split
  · simp_all
  · rfl

theorem Counts.emitConstant (h : b.Counts (c :: queued)) (hok : b.emitConstant c = .ok b') :
    b'.Counts queued ∧ b'.pendingConstants = b.pendingConstants := by
  have hget := getElem?_eq_getElem (h.known c mem_cons_self)
  rw [CodeBuffer.emitConstant, hget, unwrap_some, ok_bind] at hok
  obtain ⟨label, -, hok⟩ := bind_eq_ok.mp hok
  obtain ⟨text, -, hok⟩ := bind_eq_ok.mp hok
  obtain ⟨buf, -, hok⟩ := bind_eq_ok.mp hok
  cases hok
  refine ⟨⟨fun x hx => ?_, ?_⟩, rfl⟩
  · rw [length_set]
    apply h.known x
    simp only [map_append, mem_append, mem_cons, map_cons, map_nil] at hx ⊢
    tauto
  · rw [sizeOf_set hget none rfl]
    have := h.size
    simp only [cons_append, map_cons, sum_cons, map_append, sum_append, map_nil, sum_nil] at this ⊢
    omega

theorem Counts.emitConstants (h : b.Counts queued)
    (hok : queued.foldlM CodeBuffer.emitConstant b = .ok b') :
    b'.Counts [] ∧ b'.pendingConstants = b.pendingConstants := by
  induction queued generalizing b with
  | nil =>
    cases hok
    exact ⟨h, rfl⟩
  | cons c queued ih =>
    obtain ⟨b₁, hc, hok⟩ := bind_eq_ok.mp hok
    obtain ⟨h₁, hp⟩ := h.emitConstant hc
    rw [← hp]
    exact ih h₁ hok

theorem Counts.getLabelForConstant {label : ℕ} (h : b.Counts b.pendingConstants)
    (hok : b.getLabelForConstant c = .ok (label, b')) : b'.Counts b'.pendingConstants := by
  rw [CodeBuffer.getLabelForConstant] at hok
  cases hget : b.constants[c]? with
  | none => simp [hget, unwrap] at hok
  | some constant =>
    rw [hget, unwrap_some, ok_bind] at hok
    split at hok
    · cases hok
      exact h
    obtain ⟨size, hsize, hok⟩ := bind_eq_ok.mp hok
    obtain ⟨-, rfl⟩ := addU32_eq_ok.mp hsize
    cases hok
    constructor
    · intro x hx
      rw [length_set]
      by_cases hx' : x = c
      · exact hx' ▸ lt_of_getElem? hget
      · apply h.known x
        simpa [hx'] using hx
    · have hc : b.sizeOf c = constant.size := by rw [sizeOf, hget, Option.elim_some]
      have := h.size
      rw [sizeOf_set hget _ rfl]
      simp only [map_append, sum_append, map_cons, sum_cons, map_nil, sum_nil] at this ⊢
      omega

theorem Counts.registerConstant (h : b.Counts b.pendingConstants) (align size : ℕ) :
    (b.registerConstant align size).Counts b.pendingConstants := by
  constructor
  · intro x hx
    have := h.known x hx
    rw [CodeBuffer.registerConstant, length_append]
    omega
  · refine h.size.trans (congrArg sum (map_congr_left fun x hx => ?_))
    rw [sizeOf, sizeOf, CodeBuffer.registerConstant, getElem?_append_left (h.known x hx)]

theorem counts_of_reaches (hs : codeMachine.Reaches b) : b.Counts b.pendingConstants := by
  apply hs.invariant (P := fun b => b.Counts b.pendingConstants)
  · rintro _ ⟨buf, rfl⟩
    exact ⟨by simp, rfl⟩
  intro b op b' h _ hok
  cases op with
  | registerConstant align size =>
    cases hok
    exact h.registerConstant align size
  | getLabelForConstant c =>
    obtain ⟨⟨label, b₁⟩, hc, hok⟩ := bind_eq_ok.mp hok
    cases hok
    exact h.getLabelForConstant hc
  | deferTrap =>
    cases hok
    exact ⟨h.known, h.size⟩
  | emitIslandMaybeForced forceVeneers distance =>
    obtain ⟨threshold, -, hok⟩ := bind_eq_ok.mp hok
    obtain ⟨buf₁, -, hok⟩ := bind_eq_ok.mp hok
    obtain ⟨buf₂, -, hok⟩ := bind_eq_ok.mp hok
    obtain ⟨buf₃, -, hok⟩ := bind_eq_ok.mp hok
    have h₀ : Counts { b with buf := buf₃, pendingTraps := [], pendingConstants := [] }
      b.pendingConstants := ⟨h.known, h.size⟩
    obtain ⟨h', hp⟩ := h₀.emitConstants hok
    rw [hp]
    exact h'
  | other f =>
    obtain ⟨buf, -, hok⟩ := bind_eq_ok.mp hok
    cases hok
    exact ⟨h.known, h.size⟩

/-- **The counter is the size of the queue** exactly if no constant with bytes was emitted, and then
an island over nothing ends where the code does. -/
theorem pendingConstantsSize_eq_iff (hs : codeMachine.Reaches b) :
    (b.pendingConstantsSize = (b.pendingConstants.map b.sizeOf).sum ↔
      ∀ p ∈ b.usedConstants, b.sizeOf p.1 = 0) ∧
    ((∀ p ∈ b.usedConstants, b.sizeOf p.1 = 0) → b.pendingConstants = [] → b.pendingTraps = [] →
      b.buf.fixupRecords = [] → b.buf.pendingFixupRecords = [] → b.buf.text.len ≤ u32Max →
      b.worstCaseEndOfIsland 0 = .ok b.buf.text.len) := by
  have hsize := (counts_of_reaches hs).size
  have hzero : ((b.usedConstants.map Prod.fst).map b.sizeOf).sum = 0 ↔
      ∀ p ∈ b.usedConstants, b.sizeOf p.1 = 0 := by
    rw [List.sum_eq_zero_iff_forall_eq_nat, forall_mem_map, forall_mem_map]
  rw [map_append, sum_append] at hsize
  constructor
  · rw [← hzero]
    omega
  · intro hused hpending htraps hfixups hpend hlen
    rw [hpending, hzero.mpr hused] at hsize
    simp [worstCaseEndOfIsland, hsize, htraps, hfixups, hpend, addU32, hlen]

/-- A constant is registered, used and emitted. -/
def emitOne (size : ℕ) : List CodeOp :=
  [.registerConstant 16 size, .getLabelForConstant 0, .emitIslandMaybeForced false 0]

instance (b : CodeBuffer) (op : CodeOp) : Decidable (codeMachine.allowed b op) := .isTrue trivial

def fresh : CodeBuffer := ⟨⟨⟨0, fun _ => 0⟩, [], [], u32Max, []⟩, [], [], [], 0, []⟩

theorem pendingConstantsSize_eq_iff_empty : ∃ b, codeMachine.Reaches b ∧ b.usedConstants ≠ [] ∧
    b.pendingConstantsSize = (b.pendingConstants.map b.sizeOf).sum ∧
    b.worstCaseEndOfIsland 0 = .ok b.buf.text.len := by
  have hs := Machine.Reaches.of_run? (M := codeMachine) (.start ⟨_, rfl⟩)
    (rfl : codeMachine.run? fresh (emitOne 0) = some _)
  exact ⟨_, hs, by decide, (pendingConstantsSize_eq_iff hs).1.mpr (by decide),
    (pendingConstantsSize_eq_iff hs).2 (by decide) rfl rfl rfl rfl (by decide)⟩

/-- A constant of 16 bytes that was emitted still counts. -/
theorem pendingConstantsSize_stale : ∃ b, codeMachine.Reaches b ∧ b.pendingConstants = [] ∧
    b.pendingConstantsSize = 16 ∧ b.pendingTraps = [] ∧ b.buf.fixupRecords = [] ∧
    b.buf.pendingFixupRecords = [] ∧ b.buf.text.len = 16 ∧ b.worstCaseEndOfIsland 0 = .ok 32 :=
  ⟨_, .of_run? (.start ⟨_, rfl⟩) (rfl : codeMachine.run? fresh (emitOne 16) = some _), rfl, rfl,
    rfl, rfl, rfl, rfl, rfl⟩

end CodeBuffer

end WasmDeps.Machinst
