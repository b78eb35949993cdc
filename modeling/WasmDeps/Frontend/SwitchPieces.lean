import WasmDeps.Frontend.SwitchRun
import Mathlib.Data.List.GetD

/-!
# The pieces of a lowered switch

What the comparison, the jump table and the branches for one range do to a value of the type
switched on.  Immediates are sign extended from 64 bits, so an index that is rebased by adding
an immediate is right for all types of up to 64 bits; for 128-bit values it is right if the
first index is at most `2 ^ 63`, or needs more than 64 bits and is subtracted.  Between the two,
`2 ^ 64` is added to the index, and no case of the range is found in the jump table.
-/

namespace WasmDeps.Frontend

open Lib Function AddsOps ContiguousCaseRange

/-! ## Immediates -/

variable {y : ℕ}

theorem immediate_asI64 {ty : Ty} (hty : ty ≠ .i128) (hy : y < 2 ^ ty.bits) :
    immediate ty (asI64 y) = y := by
  unfold immediate asI64
  cases ty <;> simp only [Ty.bits, ne_eq, not_true_eq_false] at hty hy ⊢ <;> split <;> omega

theorem immediate_natCast {ty : Ty} (hy : y < 2 ^ ty.bits) : immediate ty (y : ℤ) = y := by
  rw [immediate]
  cases ty <;> rw [Ty.bits] at hy ⊢ <;> omega

theorem immediate_half (hy : y < 2 ^ 64) : immediate .i64 (asI64 y) = y :=
  immediate_asI64 (by decide) hy

variable {n first : ℕ} {f : ℕ → IntVal → Prop} {blocks : List Block} {range : ContiguousCaseRange}

/-- The first indices of 128 bits whose negation is sign extended to a positive number. -/
def Wide (ty : Ty) (first : ℕ) : Prop := ty = .i128 ∧ 2 ^ 63 < first ∧ first < 2 ^ 64

instance (ty : Ty) (first : ℕ) : Decidable (Wide ty first) :=
  inferInstanceAs (Decidable (_ ∧ _))

/-- The index into a jump table that the emitted code computes. -/
def rebased (ty : Ty) (first n : ℕ) : ℕ :=
  if Wide ty first then (n + (2 ^ 64 - first)) % 2 ^ 128 else n - first

theorem rebased_lt {ty : Ty} (hn : n < 2 ^ ty.bits) : rebased ty first n < 2 ^ ty.bits := by
  unfold rebased
  split_ifs with hwide
  · rw [hwide.1]
    exact Nat.mod_lt _ (Nat.two_pow_pos _)
  · omega

/-- The index is moved by adding the negated first index. -/
theorem add_immediate_wrappingNeg {ty : Ty} (hn : n < 2 ^ ty.bits)
    (hle : first ≤ n) (hfst : first < 2 ^ 64) :
    (n + immediate ty (wrappingNeg (asI64 first))) % 2 ^ ty.bits = rebased ty first n := by
  unfold immediate wrappingNeg asI64 rebased Wide
  cases ty <;> simp only [Ty.bits, reduceCtorEq, false_and, true_and, if_false] at hn ⊢ <;>
    split <;> split <;> try split
  all_goals omega

theorem sub_mod_eq {m k : ℕ} (hn : n < m) (hk : k ≤ n) : (n + (m - k)) % m = n - k := by
  have h : n + (m - k) = (n - k) + m := by omega
  rw [h, Nat.add_mod_right, Nat.mod_eq_of_lt (by omega)]

/-! ## Comparisons -/

variable {firstNew val : ℕ} {ty : Ty} {bx : FunctionBuilder}

/-- Straight-line code that keeps `val` and gives `result` the value that `f` says. -/
def Gives (val : ℕ) (ty : Ty) (ops : List Inst) (result : Value) (f : ℕ → IntVal → Prop) : Prop :=
  ∀ e : Env, (e val).ty = ty → (e val).n < 2 ^ ty.bits →
    ∃ e', Computes ops e e' ∧ e' val = e val ∧ f (e val).n (e' result)

theorem gives_ins (h : Ready firstNew val ty bx) {op : Op}
    (hf : ∀ e, (e val).ty = ty → (e val).n < 2 ^ ty.bits → f (e val).n (op.eval e)) :
    Gives val ty [.op bx.nextValue op] bx.nextValue f := by
  intro e hty hn
  refine ⟨_, .op _ _ e, update_of_ne h.val_lt.ne _ _, ?_⟩
  rw [update_self]
  exact hf e hty hn

variable {ops : List Inst}

variable (h : Ready firstNew val ty bx)
include h

theorem Gives.ins {result : Value} {g : ℕ → IntVal → Prop} {op : Op}
    (hops : Gives val ty ops result f)
    (hg : ∀ e, (e val).ty = ty → (e val).n < 2 ^ ty.bits → f (e val).n (e result) →
      g (e val).n (op.eval e)) : Gives val ty (ops ++ [.op bx.nextValue op]) bx.nextValue g := by
  intro e hty hn
  obtain ⟨e1, hcomp, hval, hf⟩ := hops e hty hn
  refine ⟨_, hcomp.append (.op _ _ e1), ?_, ?_⟩
  · rw [update_of_ne h.val_lt.ne, hval]
  · rw [update_self, ← hval]
    exact hg e1 (hval ▸ hty) (hval ▸ hn) (hval ▸ hf)

/-- A constant of 128 bits. -/
theorem iconstU128_spec (hy : y < 2 ^ 128) :
    ∃ ops, AddsOps bx (iconstU128 bx y).1 ops ∧
      Gives val ty ops (iconstU128 bx y).2 fun _ x => x.n = y := by
  have hval := h.val_lt
  have hlo := immediate_half (Nat.mod_lt y (Nat.two_pow_pos 64))
  have hhi := immediate_half (show y / 2 ^ 64 < 2 ^ 64 by omega)
  refine ⟨_, ((ins _ _).trans (ins _ _)).trans (ins _ _),
    fun e _ _ => ⟨_, ((Computes.op _ _ _).append (.op _ _ _)).append (.op _ _ _),
      ?_, ?_⟩⟩
  · simp only [FunctionBuilder.ins, FunctionBuilder.append]
    rw [update_of_ne (by omega), update_of_ne (by omega), update_of_ne (by omega)]
  · simp only [iconstU128, FunctionBuilder.ins, FunctionBuilder.append, Op.eval, update_self]
    rw [update_of_ne (by omega), update_self]
    rw [hlo, hhi]
    exact Nat.mod_add_div y _

/-- **`icmp_imm_u128` compares with the index, in every type that the index fits.** -/
theorem icmpImmU128_spec (cond : IntCC) (hy : y < 2 ^ ty.bits) :
    ∃ bx' result ops, icmpImmU128 bx cond val y = .ok (bx', result) ∧ AddsOps bx bx' ops ∧
      Gives val ty ops result fun n x => x.n = (cond.holds n y).toNat := by
  by_cases hty : ty = .i128
  · by_cases hsm : y < 2 ^ 63
    · refine ⟨_, _, _, ?_, ins bx (.icmpImm cond val y), gives_ins h fun e he _ => ?_⟩
      · rw [icmpImmU128, if_neg (not_not.2 (h.valueType.trans hty)), if_pos hsm]
        rfl
      · rw [Op.eval, he, immediate_natCast hy]
    subst hty
    obtain ⟨ops, hadd, hgv⟩ := iconstU128_spec h hy
    refine ⟨_, _, _, ?_, hadd.trans (ins _ (.icmp cond val (iconstU128 bx y).2)),
      hgv.ins (h.addsOps hadd) fun e _ _ hx => ?_⟩
    · rw [icmpImmU128, if_neg (not_not.2 h.valueType), if_neg hsm]
      rfl
    · rw [Op.eval, hx]
  have hy64 : y < 2 ^ 64 := by
    cases ty <;> simp only [Ty.bits, not_true_eq_false] at hy hty <;> omega
  refine ⟨_, _, _, ?_, ins bx (.icmpImm cond val (asI64 y)), gives_ins h fun e he _ => ?_⟩
  · rw [icmpImmU128, if_pos (h.valueType.trans_ne hty), ensure_of hy64]
    rfl
  · rw [Op.eval, he, immediate_asI64 hty hy]

/-! ## Jump tables -/

/-- The moved index is the rebased one. -/
theorem rebaseIndex_spec (hfst : first < 2 ^ ty.bits) :
    ∃ ops, AddsOps bx (rebaseIndex bx val first).1 ops ∧
      Ready firstNew (rebaseIndex bx val first).2 ty (rebaseIndex bx val first).1 ∧
      Gives val ty ops (rebaseIndex bx val first).2
        fun n x => first ≤ n → x = ⟨ty, rebased ty first n⟩ := by
  rw [rebaseIndex]
  by_cases hzero : first = 0
  · rw [if_pos hzero]
    refine ⟨[], refl bx, h, fun e hty _ => ⟨e, .nil e, rfl, fun _ => ?_⟩⟩
    rw [rebased, if_neg (by simp [Wide, hzero]), hzero, Nat.sub_zero, ← hty]
  by_cases hsm : first < 2 ^ 64
  · rw [if_neg hzero, if_pos hsm]
    refine ⟨_, ins bx _, ?_, gives_ins h fun e hty hn hle => ?_⟩
    · exact { h.addsOps (ins bx _) with
        val_lt := Nat.lt_succ_self _
        valueType := (update_self _ _ _).trans h.valueType }
    · rw [Op.eval, hty, add_immediate_wrappingNeg hn hle hsm]
  rw [if_neg hzero, if_neg hsm]
  have hbig : first < 2 ^ 128 := by cases ty <;> rw [Ty.bits] at hfst <;> omega
  obtain ⟨ops, hadd, hgv⟩ := iconstU128_spec h hbig
  have hrdy := h.addsOps hadd
  refine ⟨_, hadd.trans (ins _ _), ?_, hgv.ins hrdy fun e hty hn hx hle => ?_⟩
  · exact { hrdy.addsOps (ins _ _) with
      val_lt := Nat.lt_succ_self _
      valueType := (update_self _ _ _).trans hrdy.valueType }
  · rw [Op.eval, hty, hx, sub_mod_eq hn hle, rebased, if_neg fun hwide => hsm hwide.2.2]

omit h

theorem createBlock_ins (hpos : bx.position < bx.nextBlock) (op : Op) :
    bx.createBlock.ins op = (bx.ins op).createBlock := by
  have hne := hpos.ne
  simp only [FunctionBuilder.createBlock, FunctionBuilder.ins, FunctionBuilder.append,
    update_of_ne hne, update_comm hne]
  cases op <;> rfl

theorem Computes.brTable {code : Block → List Inst} {e e' : Env} {x : Value}
    (h : Computes ops e e') (hx : (e' x).n = n) (otherwise : Block) (blocks : List Block) :
    Arrives code firstNew (ops ++ [.brTable x ⟨otherwise, blocks⟩]) e e'
      (blocks.getD n otherwise) :=
  .last ((h _).trans (by rw [← hx]; rfl))

theorem Computes.brif {e e' : Env} {c : Value} {p : Bool}
    (h : Computes ops e e') (hc : (e' c).n = p.toNat) (blockThen blockElse : Block) :
    runBlock (ops ++ [.brif c blockThen blockElse]) e =
      some (e', if p then blockThen else blockElse) := by
  rw [h]
  cases p <;> simp [runBlock, hc]

/-- The narrowed index selects from a table of at most `2 ^ 32 - 1` blocks as the index does. -/
theorem narrowIndex_spec {discr : ℕ} (h : Ready firstNew discr ty bx) (otherwise : Block)
    (hlen : blocks.length ≤ u32Max) :
    Piece bx ((narrowIndex bx discr otherwise).1.append
      (.brTable (narrowIndex bx discr otherwise).2 ⟨otherwise, blocks⟩)) fun code l =>
        ∀ e, (e discr).ty = ty → (e discr).n < 2 ^ ty.bits →
          ∃ e', Arrives code firstNew l e e' (blocks.getD (e discr).n otherwise) := by
  rw [narrowIndex]
  rw [h.valueType]
  by_cases hbig : ty.bits > 32
  · simp only [if_pos hbig]
    rw [createBlock_ins h.position]
    have hrdy := h.addsOps (ins bx (.icmpImm .unsignedGreaterThan discr u32Max))
    have hmax : u32Max < 2 ^ ty.bits := by
      cases ty <;> simp only [Ty.bits, u32Max] at hbig ⊢ <;> omega
    have hcmp : Gives discr ty [.op bx.nextValue (.icmpImm .unsignedGreaterThan discr u32Max)]
        bx.nextValue fun n x => x.n = (decide (u32Max < n)).toNat :=
      gives_ins h fun e hty _ => by rw [Op.eval, hty, immediate_natCast hmax, IntCC.holds]
    refine (Piece.afterOps (ins bx _) (.enter hrdy.position
      ((ins _ (.ireduce .i32 discr)).trans (append _ _)).piece)).mono ?_
    rintro code _ ⟨_, rfl, rfl, hnew⟩ e hty hn
    obtain ⟨e1, hcomp, hval, hc⟩ := hcmp e hty hn
    have hbr := hcomp.brif hc otherwise bx.nextBlock
    by_cases hover : u32Max < (e discr).n
    · -- an index that does not fit 32 bits is past the end of the table
      rw [List.getD_eq_default _ _ (by omega)]
      exact ⟨e1, .last (hbr.trans (by simp [hover]))⟩
    -- the index is not changed by its reduction to 32 bits
    have hred : ((Op.ireduce .i32 discr).eval e1).n = (e discr).n := by
      rw [Op.eval, hval, Ty.bits]
      exact Nat.mod_eq_of_lt (by rw [u32Max] at hover; omega)
    have hcode : ∃ e', Arrives code firstNew (code bx.nextBlock) e1 e'
        (blocks.getD (e discr).n otherwise) := by
      refine ⟨_, hnew ▸ (Computes.op _ _ e1).brTable ?_ otherwise blocks⟩
      exact (congrArg IntVal.n (update_self _ _ _)).trans hred
    obtain ⟨e', hcode⟩ := hcode
    exact ⟨e', .step (hbr.trans (by rw [decide_eq_false hover]; rfl)) h.firstNew_le hcode⟩
  by_cases hsm : ty.bits < 32
  · rw [if_neg hbig, if_pos hsm]
    apply ((ins bx (.uextend .i32 discr)).trans (append _ _)).piece.mono
    rintro code _ rfl e _ _
    exact ⟨_, (Computes.op _ _ e).brTable (congrArg IntVal.n (update_self _ _ _)) otherwise blocks⟩
  · rw [if_neg hbig, if_neg hsm]
    apply (append bx _).piece.mono
    rintro code _ rfl e _ _
    exact ⟨e, (Computes.nil e).brTable rfl otherwise blocks⟩

/-! ## One range -/

/-- The block of an index within a range. -/
def ContiguousCaseRange.target (range : ContiguousCaseRange) (n : ℕ) : Option Block :=
  if range.firstIndex ≤ n then range.blocks[n - range.firstIndex]? else none

/-- A range with a jump table that gets wrong indices, and a block to lose by that. -/
def ContiguousCaseRange.Defective (ty : Ty) (otherwise : Block) (range : ContiguousCaseRange) :
    Prop :=
  1 < range.blocks.length ∧ Wide ty range.firstIndex ∧ ∃ b ∈ range.blocks, b ≠ otherwise

/-- A range whose jump table, if it gets one, has at most `2 ^ 32 - 1` entries and a first index
that is rebased correctly, or only the default block in it. -/
def ContiguousCaseRange.Supported (ty : Ty) (otherwise : Block) (range : ContiguousCaseRange) :
    Prop :=
  (1 < range.blocks.length → range.blocks.length ≤ u32Max) ∧ ¬range.Defective ty otherwise

instance (ty : Ty) (otherwise : Block) (range : ContiguousCaseRange) :
    Decidable (range.Supported ty otherwise) :=
  inferInstanceAs (Decidable ((_ → _) ∧ ¬(_ ∧ _)))

/-- **`build_jump_table` sends a value that is not less than the first index to the entry that it
computes, or to the default block.** -/
theorem buildJumpTable_spec (h : Ready firstNew val ty bx) (otherwise : Block)
    (hlen : blocks.length ≤ u32Max) (hfst : first < 2 ^ ty.bits) :
    ∃ bx', buildJumpTable bx val otherwise first blocks = .ok bx' ∧
      Piece bx bx' fun code l => ∀ e, (e val).ty = ty → (e val).n < 2 ^ ty.bits →
        first ≤ (e val).n →
          ∃ e', Arrives code firstNew l e e'
            (blocks.getD (rebased ty first (e val).n) otherwise) := by
  obtain ⟨ops, hadd, hrdy, hgv⟩ := rebaseIndex_spec h hfst
  refine ⟨_, by simp [buildJumpTable, hlen],
    (Piece.afterOps hadd (narrowIndex_spec hrdy otherwise hlen)).mono ?_⟩
  rintro code _ ⟨rest, rfl, harr⟩ e hty hn hle
  obtain ⟨e1, hcomp, _, hx⟩ := hgv e hty hn
  have hx := hx hle
  obtain ⟨e', harr⟩ := harr e1 (by rw [hx]) (by rw [hx]; exact rebased_lt hn)
  rw [hx] at harr
  exact ⟨e', hcomp.arrives harr⟩

/-- Where the code for a range sends the values it keeps: to the target, but the cases of a
defective range to the default block. -/
def ContiguousCaseRange.Keeps (ty : Ty) (otherwise : Block) (range : ContiguousCaseRange) (n : ℕ)
    (b : Block) : Prop :=
  (¬range.Defective ty otherwise → b = (range.target n).getD otherwise) ∧
    (range.Defective ty otherwise → (range.target n).isSome → b = otherwise)

/-- The table's entry is where the range keeps the value. -/
theorem keeps_rebased (otherwise : Block) (hmax : range.blocks.length ≤ u32Max)
    (hlen : 1 < range.blocks.length) (hle : range.firstIndex ≤ n) :
    range.Keeps ty otherwise n
      (range.blocks.getD (rebased ty range.firstIndex n) otherwise) := by
  by_cases hwide : Wide ty range.firstIndex
  · refine ⟨fun hdef => ?_, fun _ hcase => ?_⟩
    · -- there is only the default block to go to
      have hall : ∀ b ∈ range.blocks, b = otherwise := by
        by_contra! hb
        exact hdef ⟨hlen, hwide, hb⟩
      have hget : ∀ i : ℕ, range.blocks[i]?.getD otherwise = otherwise := by
        intro i
        cases hi : range.blocks[i]? with
        | none => rfl
        | some b => exact hall b (List.mem_of_getElem? hi)
      rw [List.getD_eq_getElem?_getD, hget, target, if_pos hle, hget]
    · have hlt : n - range.firstIndex < range.blocks.length := by
        obtain ⟨b, hb⟩ := Option.isSome_iff_exists.1 hcase
        rw [target, if_pos hle] at hb
        exact lt_of_getElem? hb
      obtain ⟨rfl, hlow, hhigh⟩ := hwide
      refine List.getD_eq_default _ _ ?_
      rw [rebased, if_pos ⟨rfl, hlow, hhigh⟩, Nat.mod_eq_of_lt (by rw [u32Max] at hmax; omega)]
      rw [u32Max] at hmax
      omega
  · refine ⟨fun _ => ?_, fun hdef => absurd hdef.2.1 hwide⟩
    rw [rebased, if_neg hwide, target, if_pos hle, List.getD_eq_getElem?_getD]

theorem target_singleton {block : Block} :
    (ContiguousCaseRange.mk first [block]).target n = if n = first then some block else none := by
  simp only [target]
  by_cases hle : first ≤ n
  · rw [if_pos hle, List.getElem?_singleton]
    exact if_congr (by omega) rfl rfl
  · rw [if_neg hle, if_neg (by omega)]

/-- Where the code for one range may send a value: on to the next range, or to where it keeps
it if no lower range has it either. -/
def ContiguousCaseRange.Leads (ty : Ty) (range : ContiguousCaseRange) (otherwise alternate : Block)
    (val : ℕ) (e e' : Env) (b : Block) : Prop :=
  range.target (e val).n = none ∧ b = alternate ∧ e' val = e val ∨
    range.firstIndex ≤ (e val).n ∧ range.Keeps ty otherwise (e val).n b

/-- The code for one range leads a value on or keeps it. -/
theorem buildRange_spec (h : Ready firstNew val ty bx) (otherwise alternate : Block)
    (hne : range.blocks ≠ []) (hfst : range.firstIndex < 2 ^ ty.bits)
    (hlen : 1 < range.blocks.length → range.blocks.length ≤ u32Max)
    (halt : range.firstIndex = 0 → alternate = otherwise) :
    ∃ bx', buildRange bx val otherwise alternate range = .ok bx' ∧
      Piece bx bx' fun code l => ∀ e, (e val).ty = ty → (e val).n < 2 ^ ty.bits →
        ∃ e' b, Arrives code firstNew l e e' b ∧ range.Leads ty otherwise alternate val e e' b := by
  obtain ⟨first, blocks⟩ := range
  match blocks, hne with
  | [block], _ =>
    have hleads : ∀ e e' b, e' val = e val →
        b = (if (e val).n = first then block else alternate) →
        (mk first [block]).Leads ty otherwise alternate val e e' b := by
      rintro e e' b hval rfl
      rw [ContiguousCaseRange.Leads, Keeps, target_singleton]
      by_cases hn : (e val).n = first <;> simp [hn, hval, Defective]
    by_cases hzero : first = 0
    · -- a branch on the value itself
      refine ⟨_, by simp [buildRange, hzero, halt hzero, singleBlock],
        (append bx (.brif val otherwise block)).piece.mono ?_⟩
      rintro code _ rfl e _ _
      refine ⟨e, _, .last rfl, hleads e e _ rfl ?_⟩
      rw [hzero, halt hzero]
      exact ite_not _ _ _
    obtain ⟨bx1, c, ops, hcmp, hadd, hgv⟩ := icmpImmU128_spec h .equal hfst
    refine ⟨_, by simp [buildRange, hzero, singleBlock, hcmp],
      (hadd.trans (append bx1 (.brif c block alternate))).piece.mono ?_⟩
    rintro code _ rfl e hty hn
    obtain ⟨e1, hcomp, hval, hc⟩ := hgv e hty hn
    refine ⟨e1, _, .last (hcomp.brif hc block alternate), hleads e e1 _ hval ?_⟩
    simp [IntCC.holds]
  | b1 :: b2 :: blocks, _ =>
    have htwo : 1 < (b1 :: b2 :: blocks).length := by simp
    have hmax := hlen htwo
    have hsingle : (mk first (b1 :: b2 :: blocks)).singleBlock = none := by
      simp [singleBlock]
    by_cases hzero : first = 0
    · obtain ⟨bx', hjt, hpiece⟩ := buildJumpTable_spec h otherwise hmax hfst
      subst hzero
      refine ⟨bx', by simp [buildRange, halt rfl, hsingle, hjt], hpiece.mono ?_⟩
      intro code l harr e hty hn
      obtain ⟨e', harr⟩ := harr e hty hn (Nat.zero_le _)
      exact ⟨e', _, harr,
        .inr ⟨Nat.zero_le _, keeps_rebased otherwise hmax htwo (Nat.zero_le _)⟩⟩
    obtain ⟨bx1, c, ops, hcmp, hadd, hgv⟩ :=
      icmpImmU128_spec h .unsignedGreaterThanOrEqual hfst
    have hrdy := h.addsOps hadd
    have hrdy' := hrdy.createBlock.switchToBlock
      (append _ (.brif c bx1.nextBlock alternate)).piece (Nat.lt_succ_self _)
    obtain ⟨bx', hjt, hpiece⟩ := buildJumpTable_spec hrdy' otherwise hmax hfst
    refine ⟨bx', by simp [buildRange, hzero, hsingle, hcmp, hjt],
      (Piece.afterOps hadd (.enter hrdy.position hpiece)).mono ?_⟩
    rintro code _ ⟨_, rfl, rfl, harr⟩ e hty hn
    obtain ⟨e1, hcomp, hval, hc⟩ := hgv e hty hn
    have hbr := hcomp.brif hc bx1.nextBlock alternate
    by_cases hle : first ≤ (e val).n
    · obtain ⟨e', harr⟩ := harr e1 (hval ▸ hty) (hval ▸ hn) (hval ▸ hle)
      rw [hval] at harr
      exact ⟨e', _, .step (hbr.trans (by simp [IntCC.holds, hle])) hrdy.firstNew_le harr,
        .inr ⟨hle, keeps_rebased otherwise hmax htwo hle⟩⟩
    · exact ⟨e1, alternate, .last (hbr.trans (by simp [IntCC.holds, hle])),
        .inl ⟨if_neg hle, rfl, hval⟩⟩

end WasmDeps.Frontend
