import WasmDeps.Machinst.TextSection
import WasmDeps.Lib.Memory

/-!
# What patched code does

The instructions that take part in a call: the branch itself and the four instructions of a
veneer.  `Cpu.step` executes them as the architecture defines them, and `Transfers` says that a
call ends up at its destination without executing anything of another function on the way.
-/

namespace WasmDeps.Machinst

open Lib LabelUse

/-! ## Words of a text -/

variable {text : Text}

namespace Text

@[simp] theorem len_putBytes (n : ℕ) (f : ℕ → UInt8) : (text.putBytes n f).len = text.len + n :=
  rfl

@[simp] theorem len_putData (data : List UInt8) :
    (text.putData data).len = text.len + data.length := rfl

@[simp] theorem len_appendSpace (n : ℕ) : (text.appendSpace n).len = text.len + n := rfl

@[simp] theorem len_writeWord (o w : ℕ) : (text.writeWord o w).len = text.len := rfl

/-- The same bytes as a memory; its words are those of the text. -/
def toMemory (text : Text) : Memory := ⟨text.len, text.byte⟩

theorem word_putBytes {o n : ℕ} {f : ℕ → UInt8} (h : o + 4 ≤ text.len) :
    (text.putBytes n f).word o = text.word o :=
  @Memory.readU32_congr text.toMemory (text.putBytes n f).toMemory o o fun _ _ => if_neg (by omega)

theorem word_appendSpace_of_le {o : ℕ} (n : ℕ) (h : o + 4 ≤ text.len) :
    (text.appendSpace n).word o = text.word o := word_putBytes h

theorem word_appendSpace {o n : ℕ} (h : text.len ≤ o) (hn : o + 4 ≤ text.len + n) :
    (text.appendSpace n).word o = 0 :=
  @Memory.readU32_congr ⟨0, fun _ => 0⟩ (text.appendSpace n).toMemory o o
    fun _ _ => if_pos (by omega)

theorem word_writeWord {o w : ℕ} (hw : w < 2 ^ 32) : (text.writeWord o w).word o = w :=
  Memory.readU32_writeU32_self (m := text.toMemory) hw

theorem word_writeWord_of {o w o' : ℕ} (h : o' + 4 ≤ o ∨ o + 4 ≤ o') :
    (text.writeWord o w).word o' = text.word o' :=
  Memory.readU32_writeU32_of (m := text.toMemory) h

theorem word_lt (o : ℕ) : text.word o < 2 ^ 32 := by
  have h0 := (text.byte o).toNat_lt
  have h1 := (text.byte (o + 1)).toNat_lt
  have h2 := (text.byte (o + 2)).toNat_lt
  have h3 := (text.byte (o + 3)).toNat_lt
  rw [word]
  omega

end Text

/-! ## Executing instructions -/

/-- A processor: its program counter, as an offset in the text, and its registers. -/
structure Cpu where
  pc : ℕ
  x : ℕ → ℕ

/-- The signed value of a field of `bits` bits. -/
def signExtend (bits v : ℕ) : ℤ := if v < 2 ^ (bits - 1) then v else v - 2 ^ bits

/-- An address `off` bytes away. -/
def addOffset (a : ℕ) (off : ℤ) : ℕ := ((a + off) % 2 ^ 64).toNat

/-- The instruction word is `b` or `bl`. -/
def IsBranch (w : ℕ) : Prop := w / 2 ^ 26 = 0b000101 ∨ w / 2 ^ 26 = 0b100101

instance (w : ℕ) : Decidable (IsBranch w) := inferInstanceAs (Decidable (_ ∨ _))

namespace Cpu

/-- A register is written and the next instruction follows. -/
def setReg (s : Cpu) (r v : ℕ) : Cpu :=
  { pc := addOffset s.pc 4, x := fun i => if i = r then v else s.x i }

/-- One instruction: `b`, `bl`, `ldrsw` of a literal, `adr`, `add` of registers, `br`. -/
def step (text : Text) (s : Cpu) : Option Cpu :=
  let w := text.word s.pc
  if w / 2 ^ 26 = 0b000101 then
    some { s with pc := addOffset s.pc (4 * signExtend 26 (w % 2 ^ 26)) }
  else if w / 2 ^ 26 = 0b100101 then
    some { s.setReg 30 (addOffset s.pc 4) with
      pc := addOffset s.pc (4 * signExtend 26 (w % 2 ^ 26)) }
  else if w / 2 ^ 24 = 0b10011000 then
    let literal := text.word (addOffset s.pc (4 * signExtend 19 (w / 2 ^ 5 % 2 ^ 19)))
    some (s.setReg (w % 2 ^ 5) (addOffset 0 (signExtend 32 literal)))
  else if w / 2 ^ 31 = 0 ∧ w / 2 ^ 24 % 2 ^ 5 = 0b10000 then
    some (s.setReg (w % 2 ^ 5)
      (addOffset s.pc (signExtend 21 (w / 2 ^ 5 % 2 ^ 19 * 4 + w / 2 ^ 29 % 4))))
  else if w / 2 ^ 21 = 0b10001011000 ∧ w / 2 ^ 10 % 2 ^ 6 = 0 then
    some (s.setReg (w % 2 ^ 5)
      ((s.x (w / 2 ^ 5 % 2 ^ 5) + s.x (w / 2 ^ 16 % 2 ^ 5)) % 2 ^ 64))
  else if w / 2 ^ 10 = 0b1101011000011111000000 ∧ w % 2 ^ 5 = 0 then
    some { s with pc := s.x (w / 2 ^ 5 % 2 ^ 5) }
  else none

end Cpu

/-- The processor gets to `dest`, through code that is `outside` only. -/
inductive Passes (text : Text) (outside : ℕ → Prop) (dest : ℕ) : Cpu → Prop
  | arrive {s : Cpu} (h : s.pc = dest) : Passes text outside dest s
  | step {s s' : Cpu} (hpc : outside s.pc) (hstep : s.step text = some s')
      (h : Passes text outside dest s') : Passes text outside dest s

/-- The instruction at `o` transfers control to `dest`, directly or through code that is
`outside`, whatever the registers hold. -/
def Transfers (text : Text) (outside : ℕ → Prop) (o dest : ℕ) : Prop :=
  ∀ x, ∃ s, (Cpu.mk o x).step text = some s ∧ Passes text outside dest s

theorem addOffset_eq {a d : ℕ} {off : ℤ} (h : (a : ℤ) + off = d) (hd : d < 2 ^ 64) :
    addOffset a off = d := by
  rw [addOffset]
  omega

/-! ## Branches -/

structure BranchesTo (text : Text) (o d : ℕ) : Prop where
  isBranch : IsBranch (text.word o)
  target : (o : ℤ) + 4 * signExtend 26 (text.word o % 2 ^ 26) = d

variable {o d : ℕ}

theorem BranchesTo.congr {text text' : Text} (h : BranchesTo text o d)
    (hw : text'.word o = text.word o) : BranchesTo text' o d :=
  ⟨hw ▸ h.isBranch, hw ▸ h.target⟩

theorem BranchesTo.step (h : BranchesTo text o d) (hd : d < 2 ^ 64) (x : ℕ → ℕ) :
    ∃ x', (Cpu.mk o x).step text = some ⟨d, x'⟩ := by
  have htgt := addOffset_eq h.target hd
  rcases h.isBranch with hb | hb
  · refine ⟨x, ?_⟩
    rw [Cpu.step]
    rw [if_pos hb, htgt]
  · refine ⟨((Cpu.mk o x).setReg 30 (addOffset o 4)).x, ?_⟩
    simp only [Cpu.step]
    rw [if_neg (by omega), if_pos hb, htgt]

/-- A branch transfers control. -/
theorem BranchesTo.transfers (h : BranchesTo text o d) (hd : d < 2 ^ 64) (outside : ℕ → Prop) :
    Transfers text outside o d := by
  intro x
  obtain ⟨x', hstep⟩ := h.step hd x
  exact ⟨_, hstep, .arrive rfl⟩

/-! ## Veneers -/

/-- The four instructions of a veneer. -/
structure IsVeneer (text : Text) (v : ℕ) : Prop where
  ldr : text.word v = LabelUse.veneerLdr
  adr : text.word (v + 4) = LabelUse.veneerAdr
  add : text.word (v + 8) = LabelUse.veneerAdd
  br : text.word (v + 12) = LabelUse.veneerBr

theorem IsVeneer.congr {text text' : Text} {v : ℕ} (h : IsVeneer text v)
    (hw : ∀ o, v ≤ o → o ≤ v + 12 → text'.word o = text.word o) : IsVeneer text' v where
  ldr := (hw _ (by omega) (by omega)).trans h.ldr
  adr := (hw _ (by omega) (by omega)).trans h.adr
  add := (hw _ (by omega) (by omega)).trans h.add
  br := (hw _ (by omega) (by omega)).trans h.br

section Veneer

variable {v : ℕ}

variable {x : ℕ → ℕ}

theorem step_veneerLdr (h : text.word v = LabelUse.veneerLdr) (hv : v < 2 ^ 32) :
    (Cpu.mk v x).step text =
      some ((Cpu.mk v x).setReg 16 (addOffset 0 (signExtend 32 (text.word (v + 16))))) := by
  have haddr : addOffset v (4 * signExtend 19 4) = v + 16 := addOffset_eq (by rfl) (by omega)
  rw [Cpu.step, h]
  exact congrArg (fun a => some ((Cpu.mk v x).setReg 16
    (addOffset 0 (signExtend 32 (text.word a))))) haddr

theorem step_veneerAdr (h : text.word v = LabelUse.veneerAdr) (hv : v < 2 ^ 32) :
    (Cpu.mk v x).step text = some ((Cpu.mk v x).setReg 17 (v + 12)) := by
  have haddr : addOffset v (signExtend 21 12) = v + 12 := addOffset_eq (by rfl) (by omega)
  rw [Cpu.step, h]
  exact congrArg (fun a => some ((Cpu.mk v x).setReg 17 a)) haddr

theorem step_veneerAdd (h : text.word v = LabelUse.veneerAdd) :
    (Cpu.mk v x).step text = some ((Cpu.mk v x).setReg 16 ((x 16 + x 17) % 2 ^ 64)) := by
  rw [Cpu.step, h]
  rw [if_neg (by decide), if_neg (by decide), if_neg (by decide), if_neg (by decide),
    if_pos (by decide)]
  rfl

theorem step_veneerBr (h : text.word v = LabelUse.veneerBr) :
    (Cpu.mk v x).step text = some ⟨x 16, x⟩ := by
  rw [Cpu.step, h, if_neg (by decide)]
  rfl

theorem setReg_eq (r a : ℕ) (hv : v < 2 ^ 32) :
    (Cpu.mk v x).setReg r a = ⟨v + 4, fun i => if i = r then a else x i⟩ := by
  have hpc : addOffset v 4 = v + 4 := addOffset_eq (by rfl) (by omega)
  rw [Cpu.setReg, hpc]

theorem veneer_sum {c d : ℕ} (hc : c < 2 ^ 31) (hd : d < 2 ^ 31) :
    (addOffset 0 (signExtend 32 (((d : ℤ) - c) % 2 ^ 32).toNat) + c) % 2 ^ 64 = d := by
  rw [addOffset, signExtend]
  split <;> omega

/-- A veneer passes control on. -/
theorem IsVeneer.passes {outside : ℕ → Prop} (h : IsVeneer text v)
    (hword : text.word (v + 16) = (((d : ℤ) - (v + 16 : ℕ)) % 2 ^ 32).toNat) (hv : v + 16 < 2 ^ 31)
    (hd : d < 2 ^ 31) (hout : ∀ o, v ≤ o → o < v + 16 → outside o) (x : ℕ → ℕ) :
    Passes text outside d ⟨v, x⟩ := by
  refine .step (hout v (by omega) (by omega)) (step_veneerLdr h.ldr (by omega)) ?_
  rw [setReg_eq _ _ (by omega)]
  refine .step (hout (v + 4) (by omega) (by omega)) (step_veneerAdr h.adr (by omega)) ?_
  rw [setReg_eq _ _ (by omega)]
  refine .step (hout (v + 8) (by omega) (by omega)) (step_veneerAdd h.add) ?_
  rw [setReg_eq _ _ (by omega)]
  refine .step (hout (v + 12) (by omega) (by omega)) (step_veneerBr h.br) ?_
  refine .arrive ?_
  have hsum := veneer_sum hv hd
  rw [← hword] at hsum
  simpa using hsum

/-- A branch to a veneer transfers control to its target. -/
theorem IsVeneer.transfers {outside : ℕ → Prop} (h : IsVeneer text v)
    (hbr : BranchesTo text o v)
    (hword : text.word (v + 16) = (((d : ℤ) - (v + 16 : ℕ)) % 2 ^ 32).toNat)
    (hv : v + 16 < 2 ^ 31) (hd : d < 2 ^ 31) (hout : ∀ o, v ≤ o → o < v + 16 → outside o) :
    Transfers text outside o d := by
  intro x
  obtain ⟨x', hstep⟩ := hbr.step (by omega) x
  exact ⟨_, hstep, h.passes hword hv hd hout x'⟩

end Veneer

/-! ## Patches -/

/-- A use within range can be patched. -/
theorem patch_of_range {kind : LabelUse} {o d bits : ℕ} (hlen : o + 4 ≤ text.len)
    (hpos : d ≤ o + kind.maxPosRange) (hneg : o ≤ d + kind.maxPosRange + 1)
    (hshift : kind.shiftOffset (((d : ℤ) - o) % 2 ^ 32).toNat = .ok bits) :
    kind.patch text o d =
      Except.ok (text.writeWord o (kind.patchWord (text.word o) (kind.insertBits bits))) := by
  have hle : o + patchSize ≤ text.len := hlen
  have hmax : ((d : ℤ) - o) ≤ kind.maxPosRange := by omega
  have hmin : -(kind.maxNegRange : ℤ) ≤ d - o := by
    rw [maxNegRange]
    omega
  simp only [patch, ensure_of hle, ensure_of hmax, ensure_of hmin, hshift, Exec.ok_bind,
    Exec.pure_eq]

/-- Patching a call keeps its opcode. -/
theorem patchWord_branch26 {w bits : ℕ} (hw : w < 2 ^ 32) :
    LabelUse.branch26.patchWord w (LabelUse.branch26.insertBits bits) =
      w / 2 ^ 26 * 2 ^ 26 + bits % 2 ^ 26 := by
  have hkeep : w &&& (0xffffffff ^^^ 0x03ffffff) = w / 2 ^ 26 * 2 ^ 26 := by
    have hmask : 0xffffffff ^^^ 0x03ffffff = (2 ^ 6 - 1) <<< 26 := by decide
    apply Nat.eq_of_testBit_eq
    intro i
    rw [hmask, ← Nat.shiftLeft_eq, Nat.testBit_and, Nat.testBit_shiftLeft, Nat.testBit_shiftLeft,
      Nat.testBit_two_pow_sub_one, Nat.testBit_div_two_pow]
    by_cases hi : i < 26
    · simp [Nat.not_le.mpr hi]
    by_cases hi' : i < 32
    · have : i - 26 < 6 := by omega
      have hadd : i - 26 + 26 = i := by omega
      simp [Nat.le_of_not_lt hi, this, hadd]
    have hzero : w.testBit i = false :=
      Nat.testBit_lt_two_pow (lt_of_lt_of_le hw (Nat.pow_le_pow_right (by decide) (by omega)))
    have hadd : i - 26 + 26 = i := by omega
    simp [hzero, hadd]
  have hbits := Nat.and_two_pow_sub_one_eq_mod bits 26
  rw [patchWord, insertBits, mask]
  rw [if_neg (by decide), hkeep, hbits, ← Nat.shiftLeft_eq,
    Nat.shiftLeft_add_eq_or_of_lt (Nat.mod_lt _ (by decide))]

/-- **Patching a branch.**  A branch patched to a label in range goes to the label. -/
theorem patch_branch26 (hlen : o + 4 ≤ text.len) (hw : IsBranch (text.word o)) (ho : o % 4 = 0)
    (hd : d % 4 = 0) (hpos : d ≤ o + (2 ^ 27 - 1)) (hneg : o ≤ d + 2 ^ 27) :
    ∃ w, LabelUse.branch26.patch text o d = .ok (text.writeWord o w) ∧
      BranchesTo (text.writeWord o w) o d := by
  have hshift : branch26.shiftOffset (((d : ℤ) - o) % 2 ^ 32).toNat =
      Except.ok ((((d : ℤ) - o) % 2 ^ 32).toNat / 2 ^ 2) := by
    have hand : (((d : ℤ) - o) % 2 ^ 32).toNat &&& 3 = 0 := by
      rw [show 3 = 2 ^ 2 - 1 from rfl, Nat.and_two_pow_sub_one_eq_mod]
      omega
    simp only [shiftOffset, ensure_of hand, Exec.ok_bind, Exec.pure_eq, Nat.shiftRight_eq_div_pow]
  have hlt := text.word_lt o
  refine ⟨text.word o / 2 ^ 26 * 2 ^ 26 + (((d : ℤ) - o) % 2 ^ 32).toNat / 2 ^ 2 % 2 ^ 26, ?_, ?_⟩
  · rw [patch_of_range hlen hpos (by rw [maxPosRange]; omega) hshift, patchWord_branch26 hlt]
  have hread := text.word_writeWord (o := o) (w := text.word o / 2 ^ 26 * 2 ^ 26 +
    (((d : ℤ) - o) % 2 ^ 32).toNat / 2 ^ 2 % 2 ^ 26) (by omega)
  constructor
  · rw [IsBranch] at hw ⊢
    omega
  · rw [signExtend]
    split <;> omega

/-- **Patching a constant.**  The zero constant of a veneer becomes the distance to the label. -/
theorem patch_pcRel32 (hlen : o + 4 ≤ text.len) (hw : text.word o = 0)
    (ho : o < 2 ^ 31) (hd : d < 2 ^ 31) :
    LabelUse.pcRel32.patch text o d =
      Except.ok (text.writeWord o (((d : ℤ) - o) % 2 ^ 32).toNat) := by
  rw [patch_of_range hlen (by rw [maxPosRange]; omega) (by rw [maxPosRange]; omega) rfl, hw]
  simp only [insertBits, patchWord, if_true, Nat.zero_add]
  rw [Nat.mod_eq_of_lt (by omega)]

end WasmDeps.Machinst
