import WasmDeps.Lib.Exec
import Mathlib.Data.List.Sort

/-!
# Lowering of switches

`Switch::emit` turns a map from case indices to blocks into branches: a binary search over
contiguous ranges of indices, a linear search over up to three ranges, and a jump table for
each range with more than one index.

A function builder appends instructions to the block it is positioned at.  What sealing does to
variables is left out, since the emitted code uses none.  The data of a jump table is kept in
the instruction that uses it.
-/

namespace WasmDeps.Frontend

open Lib

/-- The integer types. -/
inductive Ty
  | i8 | i16 | i32 | i64 | i128
  deriving DecidableEq, Repr

/-- The width of a type. -/
def Ty.bits : Ty → ℕ
  | i8 => 8
  | i16 => 16
  | i32 => 32
  | i64 => 64
  | i128 => 128

def Ty.name (ty : Ty) : String := "i" ++ toString ty.bits

abbrev Block := ℕ

abbrev Value := ℕ

/-- The comparisons that are used. -/
inductive IntCC
  | equal | unsignedGreaterThanOrEqual | unsignedGreaterThan
  deriving DecidableEq, Repr

/-- Instructions with a result.  Immediates are `i64`. -/
inductive Op
  | iconst (ty : Ty) (imm : ℤ)
  | icmpImm (cond : IntCC) (x : Value) (imm : ℤ)
  | icmp (cond : IntCC) (x y : Value)
  | iaddImm (x : Value) (imm : ℤ)
  | isub (x y : Value)
  | iconcat (lo hi : Value)
  | ireduce (ty : Ty) (x : Value)
  | uextend (ty : Ty) (x : Value)
  deriving DecidableEq, Repr

/-- A jump table and its default block. -/
structure JumpTableData where
  default : Block
  table : List Block
  deriving DecidableEq, Repr

/-- Instructions; the last three end a block. -/
inductive Inst
  | op (result : Value) (op : Op)
  | jump (block : Block)
  | brif (c : Value) (blockThen blockElse : Block)
  | brTable (x : Value) (data : JumpTableData)
  deriving DecidableEq, Repr

/-- The function being built. -/
structure FunctionBuilder where
  insts : Block → List Inst
  valueType : Value → Ty
  nextBlock : ℕ
  nextValue : ℕ
  position : ℕ

/-! ## The builder -/

namespace FunctionBuilder

variable (bx : FunctionBuilder)

/-- The type of an instruction's result. -/
def resultType : Op → Ty
  | .iconst ty _ => ty
  | .icmpImm _ _ _ | .icmp _ _ _ => .i8
  | .iaddImm x _ | .isub x _ => bx.valueType x
  | .iconcat _ _ => .i128
  | .ireduce ty _ | .uextend ty _ => ty

/-- Appends an instruction to the block at the position. -/
def append (inst : Inst) : FunctionBuilder :=
  { bx with insts := Function.update bx.insts bx.position (bx.insts bx.position ++ [inst]) }

/-- `ins()` with an instruction that has a result; the result is `nextValue`. -/
def ins (op : Op) : FunctionBuilder :=
  { bx.append (.op bx.nextValue op) with
    valueType := Function.update bx.valueType bx.nextValue (bx.resultType op)
    nextValue := bx.nextValue + 1 }

/-- `create_block`; the block is `nextBlock`. -/
def createBlock : FunctionBuilder :=
  { bx with
    insts := Function.update bx.insts bx.nextBlock []
    nextBlock := bx.nextBlock + 1 }

/-- Goes on in another block. -/
def switchToBlock (block : Block) : FunctionBuilder :=
  { bx with position := block }

end FunctionBuilder

/-! ## Ranges of cases -/

/-- Cases with consecutive indices. -/
structure ContiguousCaseRange where
  firstIndex : ℕ
  blocks : List Block
  deriving DecidableEq, Repr

/-- The one block of a range of one case. -/
def ContiguousCaseRange.singleBlock (range : ContiguousCaseRange) : Option Block :=
  if range.blocks.length = 1 then range.blocks.head? else none

/-- A switch; the entries of the map are in any order. -/
structure Switch where
  cases : List (ℕ × Block)
  deriving DecidableEq, Repr

variable (switch : Switch)

/-- One iteration of `collect_contiguous_case_ranges`. -/
def collectStep (state : List ContiguousCaseRange × Option ℕ) (case : ℕ × Block) :
    Exec (List ContiguousCaseRange × Option ℕ) := do
  let (index, block) := case
  let ranges : List ContiguousCaseRange := match state.2 with
    | none => state.1 ++ [⟨index, []⟩]
    | some lastIndex => if index > lastIndex + 1 then state.1 ++ [⟨index, []⟩] else state.1
  let last ← unwrap ranges.getLast? "called `Option::unwrap()` on a `None` value"
  pure (ranges.dropLast ++ [{ last with blocks := last.blocks ++ [block] }], some index)

/-- The cases in ascending order, as ranges without gaps. -/
def Switch.collectContiguousCaseRanges : Exec (List ContiguousCaseRange) := do
  let cases := switch.cases.insertionSort fun a b => a.1 ≤ b.1
  let (ranges, _) ← cases.foldlM collectStep ([], none)
  pure ranges

/-! ## Immediates -/

/-- `as i64` of an unsigned integer. -/
def asI64 (n : ℕ) : ℤ :=
  if n % 2 ^ 64 < 2 ^ 63 then (n % 2 ^ 64 : ℕ) else (n % 2 ^ 64 : ℕ) - 2 ^ 64

/-- The negation of an `i64`, which wraps. -/
def wrappingNeg (i : ℤ) : ℤ := if i = -2 ^ 63 then i else -i

variable (bx : FunctionBuilder)

/-- A 128-bit constant, concatenated from its two halves, as `build_jump_table` and
`icmp_imm_u128` make it. -/
def iconstU128 (y : ℕ) : FunctionBuilder × Value :=
  let lsb := bx.nextValue
  let bx := bx.ins (.iconst .i64 (asI64 (y % 2 ^ 64)))
  let msb := bx.nextValue
  let bx := bx.ins (.iconst .i64 (asI64 (y / 2 ^ 64)))
  let index := bx.nextValue
  (bx.ins (.iconcat lsb msb), index)

/-- A comparison with a constant of up to 128 bits. -/
def icmpImmU128 (cond : IntCC) (x : Value) (y : ℕ) :
    Exec (FunctionBuilder × Value) := do
  if bx.valueType x ≠ .i128 then
    ensure (y < 2 ^ 64) "assertion failed: u64::try_from(y).is_ok()"
    pure (bx.ins (.icmpImm cond x (asI64 y)), bx.nextValue)
  else if y < 2 ^ 63 then
    pure (bx.ins (.icmpImm cond x y), bx.nextValue)
  else
    let (bx, index) := iconstU128 bx y
    pure (bx.ins (.icmp cond x index), bx.nextValue)

/-! ## Search -/

variable (val : Value)

/-- The index into a jump table that starts at `firstIndex`. -/
def rebaseIndex (firstIndex : ℕ) : FunctionBuilder × Value :=
  if firstIndex = 0 then (bx, val)
  else if firstIndex < 2 ^ 64 then
    (bx.ins (.iaddImm val (wrappingNeg (asI64 firstIndex))), bx.nextValue)
  else
    let (bx, index) := iconstU128 bx firstIndex
    (bx.ins (.isub val index), bx.nextValue)

/-- The index as a 32-bit value; a greater one goes to the default block. -/
def narrowIndex (discr : Value) (otherwise : Block) :
    FunctionBuilder × Value :=
  let bits := (bx.valueType discr).bits
  if bits > 32 then
    let newBlock := bx.nextBlock
    let bx := bx.createBlock
    let biggerThanU32 := bx.nextValue
    let bx := bx.ins (.icmpImm .unsignedGreaterThan discr u32Max)
    let bx := bx.append (.brif biggerThanU32 otherwise newBlock)
    let bx := bx.switchToBlock newBlock
    (bx.ins (.ireduce .i32 discr), bx.nextValue)
  else if bits < 32 then (bx.ins (.uextend .i32 discr), bx.nextValue)
  else (bx, discr)

/-- A jump through a table, after the index was moved to start at zero. -/
def buildJumpTable (otherwise : Block) (firstIndex : ℕ)
    (blocks : List Block) : Exec FunctionBuilder := do
  ensure (blocks.length ≤ u32Max) "Jump tables bigger than 2^32-1 are not yet supported"
  let (bx, discr) := rebaseIndex bx val firstIndex
  let (bx, discr) := narrowIndex bx discr otherwise
  pure (bx.append (.brTable discr ⟨otherwise, blocks⟩))

/-- The branches for one range; values that are less go on at `alternate`. -/
def buildRange (otherwise alternate : Block)
    (range : ContiguousCaseRange) : Exec FunctionBuilder := do
  if range.firstIndex = 0 then
    ensure (alternate = otherwise) "assertion `left == right` failed"
    match range.singleBlock with
    | some block => pure (bx.append (.brif val otherwise block))
    | none => buildJumpTable bx val otherwise 0 range.blocks
  else
    match range.singleBlock with
    | some block =>
      let (bx, isGoodVal) ← icmpImmU128 bx .equal val range.firstIndex
      pure (bx.append (.brif isGoodVal block alternate))
    | none =>
      let (bx, isGoodVal) ← icmpImmU128 bx .unsignedGreaterThanOrEqual val range.firstIndex
      let jtBlock := bx.nextBlock
      let bx := bx.createBlock
      let bx := bx.append (.brif isGoodVal jtBlock alternate)
      let bx := bx.switchToBlock jtBlock
      buildJumpTable bx val otherwise range.firstIndex range.blocks

/-- The loop of `build_search_branches`, over the ranges in reverse. -/
def searchBranches (val : Value) (otherwise : Block) :
    List ContiguousCaseRange → FunctionBuilder → Exec FunctionBuilder
  | [], bx => pure bx
  | range :: ranges, bx => do
    let alternate := if ranges.isEmpty then otherwise else bx.nextBlock
    let bx := if ranges.isEmpty then bx else bx.createBlock
    let bx ← buildRange bx val otherwise alternate range
    let bx := if alternate ≠ otherwise then bx.switchToBlock alternate else bx
    searchBranches val otherwise ranges bx

/-- Tests the ranges one after the other, the last one first. -/
def buildSearchBranches (otherwise : Block)
    (ranges : List ContiguousCaseRange) : Exec FunctionBuilder :=
  searchBranches val otherwise ranges.reverse bx

/-- The loop of the search tree over a stack of blocks with the ranges left to tell apart. -/
def searchTree (val : Value) (otherwise : Block) :
    ℕ → List (Option Block × List ContiguousCaseRange) → FunctionBuilder → Exec FunctionBuilder
  | _, [], bx => pure bx
  | 0, _ :: _, _ => throw .outOfFuel
  | fuel + 1, (block, ranges) :: stack, bx => do
    let bx := match block with
      | some block => bx.switchToBlock block
      | none => bx
    if ranges.length ≤ 3 then
      let bx ← buildSearchBranches bx val otherwise ranges
      searchTree val otherwise fuel stack bx
    else
      let splitPoint := ranges.length / 2
      let left := ranges.take splitPoint
      let right := ranges.drop splitPoint
      let leftBlock := bx.nextBlock
      let bx := bx.createBlock
      let rightBlock := bx.nextBlock
      let bx := bx.createBlock
      let first ← unwrap right.head? "index out of bounds"
      let (bx, shouldTakeRightSide) ←
        icmpImmU128 bx .unsignedGreaterThanOrEqual val first.firstIndex
      let bx := bx.append (.brif shouldTakeRightSide rightBlock leftBlock)
      searchTree val otherwise fuel
        ((some rightBlock, right) :: (some leftBlock, left) :: stack) bx

/-- Tells the ranges apart, with a tree if there are more than three. -/
def buildSearchTree (otherwise : Block)
    (ranges : List ContiguousCaseRange) : Exec FunctionBuilder :=
  if ranges.isEmpty then pure (bx.append (.jump otherwise))
  else if ranges.length ≤ 3 then buildSearchBranches bx val otherwise ranges
  else searchTree val otherwise (2 * ranges.length) [(none, ranges)] bx

/-- The code that sends a value to the block of its case. -/
def Switch.emit (bx : FunctionBuilder) (val : Value) (otherwise : Block) :
    Exec FunctionBuilder := do
  let max := (switch.cases.map Prod.fst).foldl max 0
  let valTy := bx.valueType val
  ensure (max < 2 ^ valTy.bits)
    ("The index type " ++ valTy.name ++ " does not fit the maximum switch entry of " ++
      toString max)
  let ranges ← switch.collectContiguousCaseRanges
  buildSearchTree bx val otherwise ranges

/-! ## What the code does -/

/-- A value at run time. -/
structure IntVal where
  ty : Ty
  n : ℕ
  deriving DecidableEq, Repr

/-- The values at run time. -/
abbrev Env := ℕ → IntVal

/-- An immediate in a type, sign extended from 64 bits and truncated. -/
def immediate (ty : Ty) (imm : ℤ) : ℕ := (imm % 2 ^ ty.bits).toNat

/-- The meaning of a comparison. -/
def IntCC.holds : IntCC → ℕ → ℕ → Bool
  | equal, x, y => decide (x = y)
  | unsignedGreaterThanOrEqual, x, y => decide (y ≤ x)
  | unsignedGreaterThan, x, y => decide (y < x)

/-- The result of an operation. -/
def Op.eval (e : Env) : Op → IntVal
  | iconst ty imm => ⟨ty, immediate ty imm⟩
  | icmpImm cond x imm => ⟨.i8, (cond.holds (e x).n (immediate (e x).ty imm)).toNat⟩
  | icmp cond x y => ⟨.i8, (cond.holds (e x).n (e y).n).toNat⟩
  | iaddImm x imm => ⟨(e x).ty, ((e x).n + immediate (e x).ty imm) % 2 ^ (e x).ty.bits⟩
  | isub x y =>
    ⟨(e x).ty, ((e x).n + (2 ^ (e x).ty.bits - (e y).n)) % 2 ^ (e x).ty.bits⟩
  | iconcat lo hi => ⟨.i128, (e lo).n + 2 ^ 64 * (e hi).n⟩
  | ireduce ty x => ⟨ty, (e x).n % 2 ^ ty.bits⟩
  | uextend ty x => ⟨ty, (e x).n⟩

/-- Run instructions up to the end of the block, and give the next block. -/
def runBlock : List Inst → Env → Option (Env × Block)
  | [], _ => none
  | .op result op :: insts, e => runBlock insts (Function.update e result (op.eval e))
  | .jump block :: _, e => some (e, block)
  | .brif c blockThen blockElse :: _, e =>
    some (e, if (e c).n ≠ 0 then blockThen else blockElse)
  | .brTable x data :: _, e => some (e, data.table.getD (e x).n data.default)

/-- Run instructions until control reaches a block before `firstNew`. -/
def run (code : Block → List Inst) (firstNew : Block) : ℕ → List Inst → Env → Option Block
  | 0, _, _ => none
  | fuel + 1, insts, e => do
    let (e, block) ← runBlock insts e
    if block < firstNew then some block else run code firstNew fuel (code block) e

end WasmDeps.Frontend
