import WasmDeps.Lib.Exec
import WasmDeps.Lib.SortedMap

/-!
# The Wasm memory checker

The checker keeps a state for every byte of the guest's memory and the length of every
allocation, and is told of the guest's allocations and memory accesses.  A call gives an
`AccessError` or accepts, and leaves a checker; indexing outside the metadata panics, and so
does a sum that overflows.
-/

namespace WasmDeps.Memcheck

open WasmDeps.Lib

/-- What is known about a byte. -/
inductive MemState
  | unallocated
  | validToWrite
  | validToReadWrite
  deriving DecidableEq, Repr

/-- The errors of the checker, with the access they are about. -/
inductive AccessError
  | doubleMalloc (addr len : ℕ)
  | invalidRead (addr len : ℕ)
  | invalidWrite (addr len : ℕ)
  | invalidFree (addr : ℕ)
  | outOfBounds (addr len : ℕ)
  deriving DecidableEq, Repr

/-- The checker: a state for every byte, the allocations, and the stack. -/
structure Wmemcheck where
  metadata : List MemState
  mallocs : SortedMap ℕ ℕ
  stackPointer : ℕ
  maxStackSize : ℕ
  flag : Bool
  deriving DecidableEq

/-- What a call gives, and the checker that it leaves. -/
abbrev Checked := Exec (Except AccessError Unit × Wmemcheck)

/-- Whether all of the next bytes are in good states. -/
def allGood (good : MemState → Prop) [DecidablePred good] (metadata : List MemState) (addr : ℕ) :
    ℕ → Exec Bool
  | 0 => pure true
  | n + 1 => do
    let state ← unwrap metadata[addr]? "index out of bounds"
    if good state then allGood good metadata (addr + 1) n else pure false

/-- Sets the state of bytes, one after the other. -/
def fill (state : MemState) (metadata : List MemState) (addr : ℕ) : ℕ → Exec (List MemState)
  | 0 => pure metadata
  | n + 1 => do
    ensure (addr < metadata.length) "index out of bounds"
    fill state (metadata.set addr state) (addr + 1) n

namespace Wmemcheck

/-- The checker for a memory of `memSize` bytes, none of them allocated. -/
def new (memSize : ℕ) : Wmemcheck where
  metadata := List.replicate memSize .unallocated
  mallocs := .empty
  stackPointer := 0
  maxStackSize := 0
  flag := true

variable (w : Wmemcheck)

/-- The access is within the heap. -/
def isInBoundsHeap (addr len : ℕ) : Exec Bool :=
  if w.maxStackSize ≤ addr then do
    let stop ← addUsize addr len
    pure (stop ≤ w.metadata.length)
  else pure false

/-- The access is within the stack. -/
def isInBoundsStack (addr len : ℕ) : Exec Bool :=
  if w.stackPointer ≤ addr then do
    let stop ← addUsize addr len
    pure (stop < w.maxStackSize)
  else pure false

/-- The condition of `read` and `write`. -/
def isInBounds (addr len : ℕ) : Exec Bool := do
  let stack ← w.isInBoundsStack addr len
  if stack then pure true else w.isInBoundsHeap addr len

/-- The loop of each call that gives an error unless the bytes are in good states. -/
def scan (good : MemState → Prop) [DecidablePred good] (error : AccessError) (addr len : ℕ)
    (next : ℕ → Checked) : Checked := do
  let stop ← addUsize addr len
  let isGood ← allGood good w.metadata addr (stop - addr)
  if isGood then next (stop - addr) else pure (.error error, w)

/-- Records an allocation of bytes that are not allocated. -/
def malloc (addr len : ℕ) : Checked := do
  let inBounds ← w.isInBoundsHeap addr len
  if inBounds then
    w.scan (· = .unallocated) (.doubleMalloc addr len) addr len fun n => do
      let metadata ← fill .validToWrite w.metadata addr n
      pure (.ok (), { w with metadata, mallocs := w.mallocs.insert addr len })
  else pure (.error (.outOfBounds addr len), w)

/-- Checks that the bytes read were allocated and written. -/
def read (addr len : ℕ) : Checked :=
  if w.flag then do
    let inBounds ← w.isInBounds addr len
    if inBounds then
      w.scan (· = .validToReadWrite) (.invalidRead addr len) addr len fun _ =>
        pure (.ok (), w)
    else pure (.error (.outOfBounds addr len), w)
  else pure (.ok (), w)

/-- Checks that the bytes written are allocated, and records that they are written. -/
def write (addr len : ℕ) : Checked :=
  if w.flag then do
    let inBounds ← w.isInBounds addr len
    if inBounds then
      w.scan (· ≠ .unallocated) (.invalidWrite addr len) addr len fun n => do
        let metadata ← fill .validToReadWrite w.metadata addr n
        pure (.ok (), { w with metadata })
    else pure (.error (.outOfBounds addr len), w)
  else pure (.ok (), w)

/-- Ends an allocation. -/
def free (addr : ℕ) : Checked :=
  match w.mallocs.get? addr with
  | none => pure (.error (.invalidFree addr), w)
  | some len =>
    w.scan (· ≠ .unallocated) (.invalidFree addr) addr len fun n => do
      let metadata ← fill .unallocated w.metadata addr n
      pure (.ok (), { w with metadata, mallocs := w.mallocs.erase addr })

/-- The stack has moved. -/
def updateStackPointer (newSp : ℕ) : Checked :=
  if w.maxStackSize < newSp then do
    let len ← subUsize newSp w.stackPointer
    pure (.error (.outOfBounds w.stackPointer len), w)
  else if newSp < w.stackPointer then do
    let stop ← addUsize w.stackPointer 1
    let metadata ← fill .validToReadWrite w.metadata newSp (stop - newSp)
    pure (.ok (), { w with metadata, stackPointer := newSp })
  else do
    let metadata ← fill .unallocated w.metadata w.stackPointer (newSp - w.stackPointer)
    pure (.ok (), { w with metadata, stackPointer := newSp })

/-- Sets where the stack ends. -/
def setStackSize (stackSize : ℕ) : Exec Wmemcheck := do
  let maxStackSize ← addUsize stackSize 1
  let w := { w with maxStackSize, stackPointer := stackSize }
  let (_, w) ← w.updateStackPointer 0
  pure w

/-- The memory has grown. -/
def updateMemSize (numBytes : ℕ) : Wmemcheck :=
  { w with metadata := w.metadata ++ List.replicate numBytes .unallocated }

end Wmemcheck

end WasmDeps.Memcheck
