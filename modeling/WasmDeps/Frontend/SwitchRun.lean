import WasmDeps.Frontend.Switch

/-!
# How emitted pieces of code run

A builder function appends instructions to the current block and fills blocks it creates.
`Piece` states both at once: which code was appended, what that code does in any function that
has the new blocks as the builder left them, and that nothing else changed.  Pieces compose
through a created block, which is how branches are emitted.
-/

namespace WasmDeps.Frontend

open Function

variable {code : Block → List Inst} {firstNew : ℕ}

/-! ## Arriving at a block -/

/-- Running the instructions from `e` leads, through new blocks only, to the start of a block
with the values `e'`. -/
inductive Arrives (code : Block → List Inst) (firstNew : ℕ) :
    List Inst → Env → Env → Block → Prop
  | last {insts e e' b} (h : runBlock insts e = some (e', b)) :
      Arrives code firstNew insts e e' b
  | step {insts e e₁ b₁ e' b} (h : runBlock insts e = some (e₁, b₁)) (hnew : firstNew ≤ b₁)
      (rest : Arrives code firstNew (code b₁) e₁ e' b) : Arrives code firstNew insts e e' b

variable {e e₁ e' : Env}

variable {insts added ops : List Inst} {b : Block}

/-- Runs through a new block can be joined. -/
theorem Arrives.trans {b1 : Block} (h : Arrives code firstNew insts e e₁ b1) (hnew : firstNew ≤ b1)
    (h' : Arrives code firstNew (code b1) e₁ e' b) : Arrives code firstNew insts e e' b := by
  induction h with
  | last h => exact .step h hnew h'
  | step h hn _ ih => exact .step h hn (ih hnew h')

/-- **Control that arrives at an old block is what a run with enough fuel gives.** -/
theorem Arrives.run_eq (h : Arrives code firstNew insts e e' b) (hb : b < firstNew) :
    ∃ n, ∀ fuel, n ≤ fuel → run code firstNew fuel insts e = some b := by
  induction h with
  | @last insts e e' b h =>
    refine ⟨1, fun fuel hfuel => ?_⟩
    obtain ⟨fuel, rfl⟩ := Nat.exists_eq_add_of_le' hfuel
    simp [run, h, hb]
  | @step insts e e₁ b1 e' b h hnew _ ih =>
    obtain ⟨n, hn⟩ := ih hb
    refine ⟨n + 1, fun fuel hfuel => ?_⟩
    obtain ⟨fuel, rfl⟩ : ∃ k, fuel = k + 1 := ⟨fuel - 1, by omega⟩
    simp [run, h, not_lt.2 hnew, hn fuel (by omega)]

/-! ## Straight-line code -/

/-- The instructions lead from `e` to `e'` without leaving the block. -/
def Computes (added : List Inst) (e e' : Env) : Prop :=
  ∀ rest, runBlock (added ++ rest) e = runBlock rest e'

theorem Computes.nil (e : Env) : Computes [] e e := fun _ => rfl

theorem Computes.op (result : Value) (op : Op) (e : Env) :
    Computes [.op result op] e (update e result (op.eval e)) := fun _ => rfl

theorem Computes.append {added' : List Inst} (h : Computes added e e₁)
    (h' : Computes added' e₁ e') : Computes (added ++ added') e e' := by
  intro rest
  rw [List.append_assoc, h, h']

theorem Computes.arrives {rest : List Inst} (h : Computes ops e e₁)
    (h' : Arrives code firstNew rest e₁ e' b) : Arrives code firstNew (ops ++ rest) e e' b := by
  cases h' with
  | last h' => exact .last ((h rest).trans h')
  | step h' hnew harr => exact .step ((h rest).trans h') hnew harr

/-- `bx'` is `bx` with instructions appended to the current block. -/
structure AddsOps (bx bx' : FunctionBuilder) (added : List Inst) : Prop where
  position : bx'.position = bx.position
  nextBlock : bx'.nextBlock = bx.nextBlock
  nextValue : bx.nextValue ≤ bx'.nextValue
  valueType : ∀ x < bx.nextValue, bx'.valueType x = bx.valueType x
  other : ∀ b : ℕ, b ≠ bx.position → bx'.insts b = bx.insts b
  insts : bx'.insts bx.position = bx.insts bx.position ++ added

theorem AddsOps.refl (bx : FunctionBuilder) : AddsOps bx bx [] :=
  ⟨rfl, rfl, le_rfl, fun _ _ => rfl, fun _ _ => rfl, by simp⟩

theorem AddsOps.trans {bx bx₁ bx' : FunctionBuilder} {added' : List Inst}
    (h : AddsOps bx bx₁ added) (h' : AddsOps bx₁ bx' added') :
    AddsOps bx bx' (added ++ added') where
  position := h'.position.trans h.position
  nextBlock := h'.nextBlock.trans h.nextBlock
  nextValue := h.nextValue.trans h'.nextValue
  valueType x hx := (h'.valueType x (hx.trans_le h.nextValue)).trans (h.valueType x hx)
  other b hb := (h'.other b (h.position ▸ hb)).trans (h.other b hb)
  insts := by
    have h1 := h'.insts
    rw [h.position, h.insts] at h1
    rw [h1, List.append_assoc]

theorem AddsOps.ins (bx : FunctionBuilder) (op : Op) :
    AddsOps bx (bx.ins op) [.op bx.nextValue op] where
  position := rfl
  nextBlock := rfl
  nextValue := Nat.le_succ _
  valueType _ hx := update_of_ne (ne_of_lt hx) _ _
  other _ hb := update_of_ne hb _ _
  insts := update_self _ _ _

theorem AddsOps.append (bx : FunctionBuilder) (inst : Inst) :
    AddsOps bx (bx.append inst) [inst] where
  position := rfl
  nextBlock := rfl
  nextValue := le_rfl
  valueType _ _ := rfl
  other _ hb := update_of_ne hb _ _
  insts := update_self _ _ _

/-! ## Pieces of control flow -/

/-- The builder went from `bx` to `bx'`: it appended code to the current block, filled the
blocks it created and left all others alone.  Wherever the created blocks are as `bx'` has
them, the appended code has the property `P`. -/
structure Piece (bx bx' : FunctionBuilder) (P : (Block → List Inst) → List Inst → Prop) :
    Prop where
  nextBlock : bx.nextBlock ≤ bx'.nextBlock
  nextValue : bx.nextValue ≤ bx'.nextValue
  valueType : ∀ x < bx.nextValue, bx'.valueType x = bx.valueType x
  other : ∀ b : ℕ, b < bx.nextBlock → b ≠ bx.position → bx'.insts b = bx.insts b
  added : ∃ added, bx'.insts bx.position = bx.insts bx.position ++ added ∧
    ∀ code, (∀ b : ℕ, bx.nextBlock ≤ b → b < bx'.nextBlock → code b = bx'.insts b) → P code added

variable {bx bx₁ bx₂ bx' : FunctionBuilder} {P Q : (Block → List Inst) → List Inst → Prop}

theorem Piece.mono (h : Piece bx bx' P) (hPQ : ∀ code added, P code added → Q code added) :
    Piece bx bx' Q := by
  obtain ⟨added, hadd, hP⟩ := h.added
  exact { h with added := ⟨added, hadd, fun code hcode => hPQ _ _ (hP code hcode)⟩ }

theorem AddsOps.piece (h : AddsOps bx bx' added) :
    Piece bx bx' fun _ l => l = added where
  nextBlock := h.nextBlock.ge
  nextValue := h.nextValue
  valueType := h.valueType
  other b _ hb := h.other b hb
  added := ⟨added, h.insts, fun _ _ => rfl⟩

/-- A piece of code after straight-line code. -/
theorem Piece.afterOps (ho : AddsOps bx bx₁ ops) (h : Piece bx₁ bx' P) :
    Piece bx bx' fun code l => ∃ rest, l = ops ++ rest ∧ P code rest where
  nextBlock := ho.nextBlock.ge.trans h.nextBlock
  nextValue := ho.nextValue.trans h.nextValue
  valueType x hx := (h.valueType x (hx.trans_le ho.nextValue)).trans (ho.valueType x hx)
  other b hlt hb :=
    (h.other b (ho.nextBlock ▸ hlt) (ho.position ▸ hb)).trans (ho.other b hb)
  added := by
    obtain ⟨rest, hrest, hP⟩ := h.added
    rw [ho.position, ho.insts, List.append_assoc] at hrest
    exact ⟨ops ++ rest, hrest, fun code hcode =>
      ⟨rest, rfl, hP code fun b hb => hcode b (ho.nextBlock ▸ hb)⟩⟩

/-- **A block is created, a piece is emitted that may branch to it, and a second piece fills
it.** -/
theorem Piece.alternate (hpos : bx.position < bx.nextBlock) (h : Piece bx.createBlock bx₁ P)
    (h' : Piece (bx₁.switchToBlock bx.nextBlock) bx' Q) :
    Piece bx bx' fun code l => P code l ∧ Q code (code bx.nextBlock) := by
  have hnext : bx.nextBlock + 1 ≤ bx₁.nextBlock := h.nextBlock
  have hnext' : bx₁.nextBlock ≤ bx'.nextBlock := h'.nextBlock
  have hcreate : ∀ b, b < bx.nextBlock → bx.createBlock.insts b = bx.insts b := fun b hb =>
    update_of_ne (ne_of_lt hb) _ _
  have hold : ∀ b, b < bx₁.nextBlock → b ≠ bx.nextBlock → bx'.insts b = bx₁.insts b := h'.other
  obtain ⟨added, hadd, hP⟩ := h.added
  obtain ⟨filled, hfill, hQ⟩ := h'.added
  -- the created block is still empty when the second piece starts
  have hemp := (h.other bx.nextBlock (Nat.lt_succ_self _) hpos.ne').trans (update_self _ _ _)
  have hfill : bx'.insts bx.nextBlock = filled := by
    have hf : bx'.insts bx.nextBlock = bx₁.insts bx.nextBlock ++ filled := hfill
    rw [hf, hemp, List.nil_append]
  refine ⟨by omega, h.nextValue.trans h'.nextValue,
    fun x hx => (h'.valueType x (hx.trans_le h.nextValue)).trans (h.valueType x hx),
    fun b hb hne => ?_, added, ?_, fun code hcode => ⟨hP code ?_, ?_⟩⟩
  · rw [hold b (by omega) hb.ne, h.other b (hb.trans (Nat.lt_succ_self _)) hne, hcreate b hb]
  · have hadd : bx₁.insts bx.position = bx.createBlock.insts bx.position ++ added := hadd
    rw [hold _ (by omega) hpos.ne, hadd, hcreate _ hpos]
  · intro b hb hlt
    have hb : bx.nextBlock + 1 ≤ b := hb
    rw [hcode b (by omega) (by omega), hold b hlt (by omega)]
  · rw [hcode bx.nextBlock le_rfl (by omega), hfill]
    refine hQ code fun b hb hlt => hcode b ?_ hlt
    have hb : bx₁.nextBlock ≤ b := hb
    omega

/-- A piece of code in a new block. -/
theorem Piece.enter {inst : Inst} (hpos : bx.position < bx.nextBlock)
    (h : Piece ((bx.createBlock.append inst).switchToBlock bx.nextBlock) bx' P) :
    Piece bx bx' fun code l => l = [inst] ∧ P code (code bx.nextBlock) :=
  Piece.alternate hpos (AddsOps.append bx.createBlock inst).piece h

/-! ## The value switched on -/

/-- The builder may emit code that uses `val`, a value of type `ty`. -/
structure Ready (firstNew : ℕ) (val : ℕ) (ty : Ty) (bx : FunctionBuilder) : Prop where
  position : bx.position < bx.nextBlock
  firstNew_le : firstNew ≤ bx.nextBlock
  val_lt : val < bx.nextValue
  valueType : bx.valueType val = ty

variable {val : ℕ} {ty : Ty}

section

variable (h : Ready firstNew val ty bx)
include h

theorem Ready.addsOps (ho : AddsOps bx bx' ops) : Ready firstNew val ty bx' where
  position := by rw [ho.position, ho.nextBlock]; exact h.position
  firstNew_le := ho.nextBlock ▸ h.firstNew_le
  val_lt := h.val_lt.trans_le ho.nextValue
  valueType := (ho.valueType val h.val_lt).trans h.valueType

theorem Ready.createBlock : Ready firstNew val ty bx.createBlock :=
  ⟨h.position.trans (Nat.lt_succ_self _), h.firstNew_le.trans (Nat.le_succ _), h.val_lt,
    h.valueType⟩

theorem Ready.switchToBlock (hp : Piece bx bx' P) {b : ℕ}
    (hb : b < bx.nextBlock) : Ready firstNew val ty (bx'.switchToBlock b) where
  position := hb.trans_le hp.nextBlock
  firstNew_le := h.firstNew_le.trans hp.nextBlock
  val_lt := h.val_lt.trans_le hp.nextValue
  valueType := (hp.valueType val h.val_lt).trans h.valueType

end

end WasmDeps.Frontend
