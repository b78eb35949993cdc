import WasmDeps.Lib.Exec
import Mathlib.Data.Nat.Bitwise
import Mathlib.Data.List.Sort

/-!
# Text sections with aarch64 label uses

`MachTextSectionBuilder` appends functions to a `MachBuffer` and resolves calls between them.  A
call whose target is not known, or not in range, is kept as a fixup with a deadline.  Islands
between functions patch the fixups that are ready and emit veneers for those that would miss
their deadline.

The builder adds no branches, constants or traps to its buffer, so the parts of `MachBuffer` for
these are left out: no label has an alias, and there is nothing for `optimize_branches` to edit.
The heap of fixups is a list with the earliest deadline first.  Offsets are `u32` in the source and
natural numbers here; the `as u32` casts of lengths do nothing for texts below `2 ^ 32` bytes.
-/

namespace WasmDeps.Machinst

open Lib

/-! ## Bytes -/

/-- The bytes of a text section. -/
structure Text where
  len : ℕ
  byte : ℕ → UInt8

namespace Text

variable (text : Text)

/-- The text with `n` bytes more. -/
def putBytes (n : ℕ) (f : ℕ → UInt8) : Text where
  len := text.len + n
  byte i := if text.len ≤ i ∧ i < text.len + n then f (i - text.len) else text.byte i

def putData (data : List UInt8) : Text :=
  text.putBytes data.length fun i => data.getD i 0

def appendSpace (n : ℕ) : Text := text.putBytes n fun _ => 0

/-- The text, padded with zeros to a multiple of `align`. -/
def alignTo (align : ℕ) : Exec Text := do
  ensure align.isPowerOfTwo (toString align ++ " is not a power of two")
  pure (text.appendSpace (roundUp text.len align - text.len))

/-- `u32::from_le_bytes` of the four bytes at an offset. -/
def word (o : ℕ) : ℕ :=
  (text.byte o).toNat + 2 ^ 8 * (text.byte (o + 1)).toNat + 2 ^ 16 * (text.byte (o + 2)).toNat +
    2 ^ 24 * (text.byte (o + 3)).toNat

/-- Four bytes are overwritten with `u32::to_le_bytes`. -/
def writeWord (o w : ℕ) : Text :=
  { text with
    byte := fun i =>
      if o ≤ i ∧ i < o + 4 then UInt8.ofNat (w / 2 ^ (8 * (i - o))) else text.byte i }

end Text

/-! ## Label uses -/

/-- Different forms of label references for different instruction formats. -/
inductive LabelUse
  | branch14 | branch19 | branch26 | ldr19 | adr21 | pcRel32
  deriving DecidableEq, Repr

namespace LabelUse

/-- Instructions start at a multiple of this. -/
def align : ℕ := 4

/-- How far forward a use of a label can reach. -/
def maxPosRange : LabelUse → ℕ
  | branch14 => 2 ^ 15 - 1
  | branch19 => 2 ^ 20 - 1
  | branch26 => 2 ^ 27 - 1
  | ldr19 => 2 ^ 20 - 1
  | adr21 => 2 ^ 20 - 1
  | pcRel32 => 0x7fffffff

variable (kind : LabelUse)

/-- How far back a use of a label can reach. -/
def maxNegRange : ℕ := kind.maxPosRange + 1

def patchSize : ℕ := 4

/-- The bits that a patch writes. -/
def mask : LabelUse → ℕ
  | branch14 => 0x0007ffe0
  | branch19 => 0x00ffffe0
  | branch26 => 0x03ffffff
  | ldr19 => 0x00ffffe0
  | adr21 => 0x60ffffe0
  | pcRel32 => 0xffffffff

/-- Where a patch puts the bits of the offset. -/
def insertBits : LabelUse → ℕ → ℕ
  | branch14, x => (x &&& 0x3fff) <<< 5
  | branch19, x => (x &&& 0x7ffff) <<< 5
  | ldr19, x => (x &&& 0x7ffff) <<< 5
  | branch26, x => x &&& 0x3ffffff
  | adr21, x => (x &&& 0x1ffffc) <<< 3 ||| (x &&& 3) <<< 29
  | pcRel32, x => x

/-- The offset in units of the instruction. -/
def shiftOffset : LabelUse → ℕ → Exec ℕ
  | adr21, x | pcRel32, x => pure x
  | _, x => do
    ensure (x &&& 3 = 0) "assertion failed: pc_rel & 3 == 0"
    pure (x >>> 2)

/-- The instruction with the bits of an offset put in. -/
def patchWord (insn bits : ℕ) : ℕ :=
  if kind = pcRel32 then (insn + bits) % 2 ^ 32
  else insn &&& (0xffffffff ^^^ kind.mask) ||| bits

/-- `patch`, on the slice at `useOffset`. -/
def patch (text : Text) (useOffset labelOffset : ℕ) : Exec Text := do
  ensure (useOffset + patchSize ≤ text.len) "range end index out of range for slice"
  let pcRel : ℤ := labelOffset - useOffset
  ensure (pcRel ≤ kind.maxPosRange) "assertion failed: pc_rel <= self.max_pos_range() as i64"
  ensure (-(kind.maxNegRange : ℤ) ≤ pcRel)
    "assertion failed: pc_rel >= -(self.max_neg_range() as i64)"
  let shifted ← kind.shiftOffset (pcRel % 2 ^ 32).toNat
  pure (text.writeWord useOffset (kind.patchWord (text.word useOffset) (kind.insertBits shifted)))

/-- The uses that can go by way of a veneer. -/
def supportsVeneer : LabelUse → Bool
  | branch14 | branch19 | branch26 => true
  | _ => false

/-- The size of the veneer of a use. -/
def veneerSize : LabelUse → Exec ℕ
  | branch14 | branch19 => pure 4
  | branch26 => pure 20
  | _ => throw (.panic "internal error: entered unreachable code")

/-- The size of the largest veneer. -/
def worstCaseVeneerSize : ℕ := 20

def spilltmpReg : ℕ := 16

def tmp2Reg : ℕ := 17

/-- The encoding of a load at an offset from the program counter. -/
def encLdstImm19 (op imm19 rd : ℕ) : ℕ := op <<< 24 ||| imm19 <<< 5 ||| rd

/-- The encoding of `adr`. -/
def encAdr (off rd : ℕ) : ℕ :=
  0b00010000 <<< 24 ||| (off &&& 3) <<< 29 ||| (off >>> 2 &&& (1 <<< 19 - 1)) <<< 5 ||| rd

/-- The encoding of an addition of two registers. -/
def encArithRrr (top mid rd rn rm : ℕ) : ℕ :=
  top <<< 21 ||| mid <<< 10 ||| rd ||| rn <<< 5 ||| rm <<< 16

/-- The encoding of a branch to a register. -/
def encBr (rn : ℕ) : ℕ := 0b11010110000111110000000000000000 ||| rn <<< 5

/-- `ldrsw x16, 16`. -/
def veneerLdr : ℕ := encLdstImm19 0b10011000 (16 / 4) spilltmpReg

/-- `adr x17, 12`. -/
def veneerAdr : ℕ := encAdr 12 tmp2Reg

/-- `add x16, x16, x17`. -/
def veneerAdd : ℕ := encArithRrr 0b10001011000 0 spilltmpReg spilltmpReg tmp2Reg

/-- `br x16`. -/
def veneerBr : ℕ := encBr spilltmpReg

/-- Writes a veneer and returns the use that it has of the label. -/
def generateVeneer (text : Text) (veneerOffset : ℕ) :
    Exec (Text × ℕ × LabelUse) :=
  match kind with
  | branch14 | branch19 =>
    pure (text.writeWord veneerOffset (0b000101 <<< 26), veneerOffset, branch26)
  | branch26 =>
    let text := text.writeWord veneerOffset veneerLdr
    let text := text.writeWord (veneerOffset + 4) veneerAdr
    let text := text.writeWord (veneerOffset + 8) veneerAdd
    let text := text.writeWord (veneerOffset + 12) veneerBr
    pure (text, veneerOffset + 16, pcRel32)
  | _ => throw (.panic "Unsupported label-reference type for veneer generation!")

def debug : LabelUse → String
  | branch14 => "Branch14"
  | branch19 => "Branch19"
  | branch26 => "Branch26"
  | ldr19 => "Ldr19"
  | adr21 => "Adr21"
  | pcRel32 => "PCRel32"

end LabelUse

/-- Relocation kinds for every ISA. -/
inductive Reloc
  | abs4 | abs8 | x86PCRel4 | x86CallPCRel4 | x86CallPLTRel4 | x86GOTPCRel4 | x86SecRel
  | arm32Call | arm64Call | s390xPCRel32Dbl | s390xPLTRel32Dbl | elfX86_64TlsGd | machOX86_64Tlv
  | machOAarch64TlsAdrPage21 | machOAarch64TlsAdrPageOff12 | aarch64TlsDescAdrPage21
  | aarch64TlsDescLd64Lo12 | aarch64TlsDescAddLo12 | aarch64TlsDescCall | aarch64AdrGotPage21
  | aarch64AdrPrelPgHi21 | aarch64AddAbsLo12Nc | aarch64Ld64GotLo12Nc | riscvCallPlt
  | riscvTlsGdHi20 | riscvPCRelLo12I | riscvGotHi20 | riscvPCRelHi20 | s390xTlsGd64
  | s390xTlsGdCall | pulleyPcRel | pulleyCallIndirectHost
  deriving DecidableEq, Repr

/-- The use of a label for a relocation; only plain calls have one. -/
def LabelUse.fromReloc : Reloc → ℤ → Option LabelUse
  | .arm64Call, 0 => some .branch26
  | _, _ => none

/-! ## The buffer -/

/-- A use of a label that is not patched yet. -/
structure Fixup where
  label : ℕ
  offset : ℕ
  kind : LabelUse
  deriving DecidableEq, Repr

/-- The end of the code from which the use cannot be patched any more. -/
def Fixup.deadline (fixup : Fixup) : ℕ := min (fixup.offset + fixup.kind.maxPosRange) u32Max

/-- The part of `MachBuffer` that text sections use. -/
structure MachBuffer where
  text : Text
  /-- `label_offsets`, with `none` for `UNKNOWN_LABEL_OFFSET`. -/
  labelOffsets : List (Option ℕ)
  pendingFixupRecords : List Fixup
  pendingFixupDeadline : ℕ
  /-- The heap of fixups, with the earliest deadline first. -/
  fixupRecords : List Fixup

/-- Puts a fixup on the heap, which is kept in the order of deadlines. -/
def heapPush (fixup : Fixup) (heap : List Fixup) : List Fixup :=
  heap.orderedInsert (fun a b => a.deadline ≤ b.deadline) fixup

namespace MachBuffer

variable (buf : MachBuffer)

/-- Where a label is bound, if it is. -/
def resolveLabelOffset (label : ℕ) : Exec (Option ℕ) :=
  unwrap buf.labelOffsets[label]? "index out of bounds"

/-- Binds a label to the end of the code. -/
def bindLabel (label : ℕ) : Exec MachBuffer := do
  let offset ← buf.resolveLabelOffset label
  ensure (offset = none) "assertion `left == right` failed"
  pure { buf with labelOffsets := buf.labelOffsets.set label (some buf.text.len) }

/-- Notes a use of a label. -/
def useLabelAtOffset (offset label : ℕ) (kind : LabelUse) : MachBuffer :=
  let fixup : Fixup := ⟨label, offset, kind⟩
  { buf with
    pendingFixupDeadline := min buf.pendingFixupDeadline (fixup.deadline - LabelUse.align)
    pendingFixupRecords := buf.pendingFixupRecords ++ [fixup] }

/-- Where an island that is emitted after `distance` more bytes ends at most. -/
def worstCaseEndOfIsland (distance : ℕ) : ℕ :=
  let maxVeneerCount := buf.fixupRecords.length + buf.pendingFixupRecords.length
  let islandWorstCaseSize := min (maxVeneerCount * LabelUse.worstCaseVeneerSize) u32Max
  min (min (buf.text.len + distance) u32Max + islandWorstCaseSize) u32Max

/-- The first deadline of all fixups. -/
def deadline (buf : MachBuffer) : ℕ :=
  match buf.fixupRecords with
  | fixup :: _ => min fixup.deadline buf.pendingFixupDeadline
  | [] => buf.pendingFixupDeadline

/-- An island has to come before `distance` more bytes. -/
def islandNeeded (distance : ℕ) : Bool :=
  buf.deadline < u32Max && buf.deadline < buf.worstCaseEndOfIsland distance

/-- An island deals with the fixup: its label is bound, or it cannot wait. -/
def shouldApplyFixup (fixup : Fixup) (forcedThreshold : ℕ) : Exec Bool := do
  let labelOffset ← buf.resolveLabelOffset fixup.label
  pure (labelOffset.isSome || (fixup.deadline < forcedThreshold && fixup.kind.supportsVeneer))

/-- Emits a veneer for a use and patches the use to it. -/
def emitVeneer (label offset : ℕ) (kind : LabelUse) : Exec MachBuffer := do
  ensure (kind.supportsVeneer = true)
    ("jump beyond the range of " ++ kind.debug ++ " but a veneer isn't supported")
  let text ← buf.text.alignTo LabelUse.align
  let veneerOffset := text.len
  let text ← kind.patch text offset veneerOffset
  let size ← kind.veneerSize
  let (text, fixupOffset, labelUse) ← kind.generateVeneer (text.appendSpace size) veneerOffset
  pure (({ buf with text := text } : MachBuffer).useLabelAtOffset fixupOffset label labelUse)

/-- Patches a use, or emits a veneer for it. -/
def handleFixup (fixup : Fixup) (forceVeneers : Bool) (forcedThreshold : ℕ) :
    Exec MachBuffer := do
  match ← buf.resolveLabelOffset fixup.label with
  | some labelOffset =>
    ensure (fixup.offset ≤ labelOffset → labelOffset - fixup.offset ≤ fixup.kind.maxPosRange)
      "assertion failed: (label_offset - offset) <= kind.max_pos_range()"
    let veneerRequired := labelOffset < fixup.offset &&
      fixup.kind.maxNegRange < fixup.offset - labelOffset
    if forceVeneers && fixup.kind.supportsVeneer || veneerRequired then
      buf.emitVeneer fixup.label fixup.offset fixup.kind
    else
      let text ← fixup.kind.patch buf.text fixup.offset labelOffset
      pure { buf with text := text }
  | none =>
    let past ← subU32 forcedThreshold fixup.offset
    ensure (fixup.kind.maxPosRange < past)
      "assertion failed: forced_threshold - offset > kind.max_pos_range()"
    buf.emitVeneer fixup.label fixup.offset fixup.kind

/-- A pending fixup is handled, or moved onto the heap if it is not ready. -/
def handleOrDefer (fixup : Fixup) (forceVeneers : Bool)
    (forcedThreshold : ℕ) : Exec MachBuffer := do
  if ← buf.shouldApplyFixup fixup forcedThreshold then
    buf.handleFixup fixup forceVeneers forcedThreshold
  else
    pure { buf with fixupRecords := heapPush fixup buf.fixupRecords }

/-- The loop of an island over the fixups that were pending. -/
def handlePending (forceVeneers : Bool) (forcedThreshold : ℕ) :
    List Fixup → MachBuffer → Exec MachBuffer
  | [], buf => pure buf
  | fixup :: rest, buf => do
    let buf ← buf.handleOrDefer fixup forceVeneers forcedThreshold
    handlePending forceVeneers forcedThreshold rest buf

/-- The loop of an island over the heap. -/
def handleHeap (forceVeneers : Bool) (forcedThreshold : ℕ) : ℕ → MachBuffer → Exec MachBuffer
  | 0, buf => if buf.fixupRecords = [] then pure buf else throw .outOfFuel
  | fuel + 1, buf =>
    match buf.fixupRecords with
    | [] => pure buf
    | fixup :: rest => do
      if ← buf.shouldApplyFixup fixup forcedThreshold then
        let buf ← ({ buf with fixupRecords := rest } : MachBuffer).handleFixup fixup
          forceVeneers forcedThreshold
        handleHeap forceVeneers forcedThreshold fuel buf
      else pure buf

/-- Emits an island for the fixups that are due. -/
def emitIslandMaybeForced (forceVeneers : Bool) (distance : ℕ) :
    Exec MachBuffer := do
  let forcedThreshold := buf.worstCaseEndOfIsland distance
  let buf ← handlePending forceVeneers forcedThreshold buf.pendingFixupRecords
    { buf with pendingFixupRecords := [] }
  let buf := { buf with pendingFixupDeadline := u32Max }
  handleHeap forceVeneers forcedThreshold buf.fixupRecords.length buf

/-- The loop of `finish_emission_maybe_forcing_veneers`. -/
def finishLoop (forceVeneers : Bool) : ℕ → MachBuffer → Exec MachBuffer
  | 0, buf =>
    if buf.fixupRecords = [] ∧ buf.pendingFixupRecords = [] then pure buf
    else throw .outOfFuel
  | fuel + 1, buf =>
    if buf.fixupRecords = [] ∧ buf.pendingFixupRecords = [] then pure buf
    else do
      let buf ← buf.emitIslandMaybeForced forceVeneers 0
      finishLoop forceVeneers fuel buf

end MachBuffer

/-! ## The builder -/

/-- The builder of a text section. -/
structure MachTextSectionBuilder where
  buf : MachBuffer
  nextFunc : ℕ
  forceVeneers : Bool

namespace MachTextSectionBuilder

/-- The builder for `numFuncs` functions. -/
def new (numFuncs : ℕ) : MachTextSectionBuilder where
  buf := ⟨⟨0, fun _ => 0⟩, List.replicate numFuncs none, [], u32Max, []⟩
  nextFunc := 0
  forceVeneers := false

variable (b : MachTextSectionBuilder)

/-- The island before a function, if one is needed. -/
def islandBefore (size : ℕ) : Exec MachBuffer :=
  if b.forceVeneers || b.buf.islandNeeded size then
    b.buf.emitIslandMaybeForced b.forceVeneers size
  else pure b.buf

/-- Binds the label of the next function. -/
def bindNextFunc (labeled : Bool) (buf : MachBuffer) :
    Exec MachBuffer :=
  if labeled then buf.bindLabel b.nextFunc else pure buf

/-- `append`; the result has the offset of the function. -/
def append (labeled : Bool) (func : List UInt8) (align : ℕ) :
    Exec (ℕ × MachTextSectionBuilder) := do
  let buf ← b.islandBefore func.length
  let text ← buf.text.alignTo align
  let buf := { buf with text := text }
  let pos := text.len
  let buf ← b.bindNextFunc labeled buf
  pure (pos, { b with
    buf := { buf with text := buf.text.putData func }
    nextFunc := if labeled then b.nextFunc + 1 else b.nextFunc })

/-- `resolve_reloc`; the result tells whether the builder handles the relocation. -/
def resolveReloc (offset : ℕ) (reloc : Reloc) (addend : ℤ)
    (target : ℕ) : Exec (Bool × MachTextSectionBuilder) := do
  ensure (offset ≤ u32Max) "called `Result::unwrap()` on an `Err` value: TryFromIntError(())"
  match LabelUse.fromReloc reloc addend with
  | some labelUse => pure (true, { b with buf := b.buf.useLabelAtOffset offset target labelUse })
  | none => pure (false, b)

/-- The switch of the tests that makes every call go by a veneer. -/
def setForceVeneers : MachTextSectionBuilder :=
  { b with forceVeneers := true }

/-- The finished section: all uses are patched. -/
def finish : Exec Text := do
  ensure (b.nextFunc = b.buf.labelOffsets.length) "assertion `left == right` failed"
  let buf ← MachBuffer.finishLoop b.forceVeneers
    (b.buf.fixupRecords.length + b.buf.pendingFixupRecords.length + 2) b.buf
  pure buf.text

end MachTextSectionBuilder

end WasmDeps.Machinst
