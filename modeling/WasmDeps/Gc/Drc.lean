import WasmDeps.Gc.FreeList
import WasmDeps.Gc.GcRef

/-!
# The deferred reference-counting collector

Every object has a reference count in its header.  References that Wasm code holds on its
stack are not counted one by one: an object that is exposed to Wasm is put on the
over-approximated-stack-roots list, which holds one reference to it.  A collection marks
the objects that are still on the stack and drops the list's reference to the others.

The heap is modelled by its allocated objects, keyed by heap index.  An object is its
header and the 32-bit words after it, which is where lengths, elements, fields and host
data ids live.  Deallocating an object removes it from the map, while the source leaves
its bytes behind; reading a deallocated object faults here.
-/

namespace WasmDeps.Gc

open WasmDeps.Lib

/-! ## Objects -/

/-- The size of an object's header. -/
abbrev drcHeaderSize : ℕ := 24

/-- `ARRAY_LENGTH_OFFSET`, which is also the offset of an `externref`'s host data id. -/
abbrev drcArrayLengthOffset : ℕ := drcHeaderSize

/-- Where the elements of an array of references start. -/
abbrev drcGcRefArrayElemsOffset : ℕ := drcArrayLengthOffset + 4

/-- An array puts elements on the stack only up to this depth. -/
abbrev maxArrayStackDepth : ℕ := 1024

/-- The header of an object. -/
structure VMDrcHeader where
  kind : VMGcKind
  /-- The type of the object; `none` for an `externref`. -/
  ty : Option ℕ
  marked : Bool
  /-- The bit that says that the object is on the over-approximated-stack-roots list. -/
  inOverApproximatedStackRoots : Bool
  refCount : ℕ
  nextOverApproximatedStackRoot : Option VMGcRef
  objectSize : ℕ
  deriving DecidableEq

/-- An object: its header and the words after it. -/
structure DrcObject extends VMDrcHeader where
  data : List ℕ
  deriving DecidableEq

namespace DrcObject

variable (o : DrcObject)

/-- The word at a byte offset from the start of the object. -/
def wordAt (offset : ℕ) : Option ℕ :=
  if drcHeaderSize ≤ offset ∧ 4 ∣ offset then o.data[(offset - drcHeaderSize) / 4]? else none

/-- Reads a word of an object. -/
def readU32 (offset : ℕ) : Exec ℕ := okOr (o.wordAt offset) "out of bounds field"

/-- Writes a word of an object. -/
def writeU32 (offset value : ℕ) : Exec DrcObject := do
  let _ ← o.readU32 offset
  pure { o with data := o.data.set ((offset - drcHeaderSize) / 4) value }

def isTyped (kind : VMGcKind) : Bool := o.kind == kind

/-- The length of an array. -/
def arrayLen : Exec ℕ := do
  ensure (o.isTyped .arrayRef)
    "assertion failed: arrayref.as_gc_ref().is_typed::<VMDrcArrayHeader>(self)"
  o.readU32 drcArrayLengthOffset

/-- The identifier of an `externref`'s host data. -/
def hostData : Exec ℕ := o.readU32 drcHeaderSize

/-- One more reference to the object. -/
def incRef : Exec DrcObject := do
  ensure (0 < o.refCount) "assertion failed: self.ref_count > 0"
  let refCount ← addUsize o.refCount 1
  pure { o with refCount }

/-- Decrement the reference count, and say whether it is now zero. -/
def decRef : Exec (DrcObject × Bool) := do
  ensure (0 < o.refCount) "assertion failed: self.ref_count > 0"
  pure ({ o with refCount := o.refCount - 1 }, o.refCount - 1 == 0)

/-- The next object on the list of stack roots. -/
def getNext : Exec (Option VMGcRef) := do
  ensure o.inOverApproximatedStackRoots
    "assertion failed: self.is_in_over_approximated_stack_roots()"
  pure o.nextOverApproximatedStackRoot

/-- Sets the next object on the list of stack roots. -/
def setNext (next : Option VMGcRef) : Exec DrcObject := do
  ensure o.inOverApproximatedStackRoots
    "assertion failed: self.is_in_over_approximated_stack_roots()"
  pure { o with nextOverApproximatedStackRoot := next }

variable (stack : List VMGcRef)

/-- Push the reference at an offset onto the stack, unless it is null or an `i31`. -/
def traceOffset (offset : ℕ) : Exec (List VMGcRef) := do
  let raw ← o.readU32 offset
  match VMGcRef.fromRawU32 raw with
  | some gcRef => pure (if gcRef.isI31 then stack else gcRef :: stack)
  | none => pure stack

/-- Push the `i`-th element of an array onto the stack. -/
def traceArrayElem (i : ℕ) : Exec (List VMGcRef) := do
  let bytes ← mulU32 i 4
  let elemOffset ← addU32 drcGcRefArrayElemsOffset bytes
  o.traceOffset stack elemOffset

/-- Push the elements `start`, …, `start + n - 1` of an array onto the stack. -/
def traceArrayElems (start n : ℕ) : Exec (List VMGcRef) :=
  (List.range' start n).foldlM o.traceArrayElem stack

end DrcObject

/-! ## The heap -/

/-- The work stacks of a cascade.  The head of a stack is its top; `toDealloc` grows at
its end. -/
structure TracingAllocs where
  decRefStack : List VMGcRef
  /-- Arrays with the range of elements that are still to drop. -/
  largeArrayDecRefStack : List (VMGcRef × ℕ × ℕ)
  toDealloc : List VMGcRef
  deriving DecidableEq

/-- The heap of the reference-counting collector. -/
structure DrcHeap where
  traceInfos : TraceInfos
  noGcCount : ℕ
  /-- The head of the over-approximated-stack-roots list. -/
  overApproximatedStackRoots : Option VMGcRef
  currentOverApproximatedStackRootsLen : ℕ
  /-- The length of the list after the last collection. -/
  overApproximatedStackRootsLenAfterLastGc : ℕ
  objects : SortedMap ℕ DrcObject
  freeList : FreeList
  /-- The work stacks, when no cascade uses them. -/
  tracingAllocs : Option TracingAllocs
  allocatedBytes : ℕ
  deriving DecidableEq

namespace DrcHeap

/-- A heap that is attached to a memory of the given length. -/
def new (traceInfos : TraceInfos) (len : ℕ) : DrcHeap where
  traceInfos := traceInfos
  noGcCount := 0
  overApproximatedStackRoots := none
  currentOverApproximatedStackRootsLen := 0
  overApproximatedStackRootsLenAfterLastGc := 0
  objects := .empty
  freeList := FreeList.new len
  tracingAllocs := some ⟨[], [], []⟩
  allocatedBytes := 0

/-- The object behind a reference. -/
def index (h : DrcHeap) (gcRef : VMGcRef) : Exec DrcObject := do
  let start ← gcRef.heapIndex
  okOr (h.objects.get? start) "gc object out-of-bounds"

/-- The heap with one object written. -/
def put (h : DrcHeap) (gcRef : VMGcRef) (o : DrcObject) : DrcHeap :=
  { h with objects := h.objects.insert gcRef.raw o }

/-- Frees an object's block. -/
def dealloc (h : DrcHeap) (gcRef : VMGcRef) : Exec DrcHeap := do
  let o ← h.index gcRef
  let allocSize ← okOr (FreeList.alignedSize o.objectSize) "aligned size overflow"
  let index ← gcRef.heapIndex
  let allocatedBytes ← subUsize h.allocatedBytes allocSize
  let freeList ← h.freeList.deallocFast index allocSize
  pure { h with objects := h.objects.erase index, allocatedBytes, freeList }

/-- One more reference, unless it is an `i31`. -/
def incRef (h : DrcHeap) (gcRef : VMGcRef) : Exec DrcHeap :=
  if gcRef.isI31 then pure h
  else do
    let o ← h.index gcRef
    let o ← o.incRef
    pure (h.put gcRef o)

end DrcHeap

/-! ## Dropping references -/

/-- The state of a cascade of dropped references. -/
structure Cascade extends TracingAllocs where
  heap : DrcHeap
  host : ExternRefHostDataTable

namespace Cascade

variable (c : Cascade)

variable (gcRef : VMGcRef)

/-- An object is dead and all of its references are on the stack. -/
def bury : Cascade :=
  { c with toDealloc := c.toDealloc ++ [gcRef] }

/-- Enqueue the elements of a dead array of references. -/
def releaseArray (o : DrcObject) : Exec Cascade := do
  let len ← o.arrayLen
  if c.decRefStack.length + len ≤ maxArrayStackDepth then
    let decRefStack ← o.traceArrayElems c.decRefStack 0 len
    pure (Cascade.bury { c with decRefStack } gcRef)
  else
    -- Only the first elements fit on the stack.  The array is dead when the rest is dropped.
    let n := maxArrayStackDepth - c.decRefStack.length
    let decRefStack ← o.traceArrayElems c.decRefStack 0 n
    let largeArrayDecRefStack := (gcRef, n, len) :: c.largeArrayDecRefStack
    pure { c with decRefStack, largeArrayDecRefStack }

/-- Drop the host data of a dead `externref`. -/
def releaseExternref (o : DrcObject) : Exec Cascade := do
  ensure (o.kind.matchesKind .externRef)
    "assertion failed: drc_header.header.kind().matches(VMGcKind::ExternRef)"
  if o.isTyped .externRef then
    let hostDataId ← o.hostData
    let (host, _) ← c.host.dealloc hostDataId
    pure (Cascade.bury { c with host } gcRef)
  else throw (.error "expected externref")

/-- The reference count of an object is zero: enqueue its references. -/
def release (o : DrcObject) : Exec Cascade :=
  match o.ty with
  | none => c.releaseExternref gcRef o
  | some ty => do
    match ← c.heap.traceInfos.traceInfo ty with
    | .struct gcRefOffsets => do
      let decRefStack ← gcRefOffsets.foldlM o.traceOffset c.decRefStack
      pure (Cascade.bury { c with decRefStack } gcRef)
    | .array true => c.releaseArray gcRef o
    | .array false => pure (c.bury gcRef)

/-- Drop the reference that was popped from the stack. -/
def dropRef : Exec Cascade := do
  ensure (!gcRef.isI31) "assertion failed: !gc_ref.is_i31()"
  let o ← c.heap.index gcRef
  let (o, zero) ← o.decRef
  let c := { c with heap := c.heap.put gcRef o }
  if zero then c.release gcRef o else pure c

/-- Add the next chunk of a large array onto the stack. -/
def nextChunk (start len : ℕ) : Exec Cascade := do
  let o ← c.heap.index gcRef
  let n := min (len - start) maxArrayStackDepth
  let decRefStack ← o.traceArrayElems c.decRefStack start n
  if start + n = len then pure (Cascade.bury { c with decRefStack } gcRef)
  else
    let largeArrayDecRefStack := (gcRef, start + n, len) :: c.largeArrayDecRefStack
    pure { c with decRefStack, largeArrayDecRefStack }

/-- The loop: the stack is emptied before the next chunk of a large array is added. -/
def run : ℕ → Cascade → Exec Cascade
  | 0, _ => throw .outOfFuel
  | fuel + 1, c =>
    match c.decRefStack with
    | gcRef :: rest => do
      let c ← Cascade.dropRef { c with decRefStack := rest } gcRef
      run fuel c
    | [] =>
      match c.largeArrayDecRefStack with
      | (gcRef, start, len) :: rest => do
        let c ← Cascade.nextChunk { c with largeArrayDecRefStack := rest } gcRef start len
        run fuel c
      | [] => pure c

end Cascade

namespace DrcHeap

variable (h : DrcHeap)

/-- Where the references of an object stand. -/
def refOffsets (o : DrcObject) : List ℕ :=
  match o.ty.bind h.traceInfos.get? with
  | some (.struct gcRefOffsets) => gcRefOffsets
  | some (.array true) =>
    (List.range ((o.wordAt drcArrayLengthOffset).getD 0)).map
      fun i => drcGcRefArrayElemsOffset + 4 * i
  | _ => []

/-- Enough fuel for a cascade: every reference is pushed, popped and chunked once. -/
def cascadeFuel : ℕ :=
  (h.objects.entries.map fun e => 2 * (h.refOffsets e.2).length + 2).sum + 2

variable (hostDataTable : ExternRefHostDataTable)

/-- Decrement the reference count of an object, and deallocate everything that this
leaves without references. -/
def decRefAndMaybeDealloc
    (gcRef : VMGcRef) : Exec (DrcHeap × ExternRefHostDataTable) :=
  if gcRef.isI31 then pure (h, hostDataTable)
  else do
    let allocs ← okOr h.tracingAllocs "allocs missing during tracing"
    ensure (allocs.decRefStack = []) "assertion failed: stack.is_empty()"
    ensure (allocs.largeArrayDecRefStack = []) "assertion failed: large_array_stack.is_empty()"
    ensure (allocs.toDealloc = []) "assertion failed: to_dealloc.is_empty()"
    let c ← Cascade.run h.cascadeFuel
      ⟨{ allocs with decRefStack := [gcRef] }, { h with tracingAllocs := none }, hostDataTable⟩
    let h ← c.toDealloc.foldlM dealloc c.heap
    pure ({ h with tracingAllocs := some { c.toTracingAllocs with toDealloc := [] } }, c.host)

/-- The write barrier: the new reference is counted before the old one is given up. -/
def writeGcRef
    (destination source : Option VMGcRef) :
    Exec (DrcHeap × ExternRefHostDataTable × Option VMGcRef) := do
  let h ← source.elim (pure h) h.incRef
  let (h, host) ← destination.elim (pure (h, hostDataTable)) (h.decRefAndMaybeDealloc hostDataTable)
  pure (h, host, source)

/-! ## The over-approximated-stack-roots list -/

/-- Put an object on the list.  The list takes over the caller's reference, which is
dropped if the object is on the list already. -/
def exposeGcRefToWasm (gcRef : VMGcRef) : Exec DrcHeap := do
  let next := h.overApproximatedStackRoots
  let o ← h.index gcRef
  if o.inOverApproximatedStackRoots then
    let (o, refCountIsZero) ← o.decRef
    ensure (!refCountIsZero) ("should not have reached refcount == 0 because the OASR list " ++
      "is holding a reference")
    pure (h.put gcRef o)
  else
    let o ← DrcObject.setNext { o with inOverApproximatedStackRoots := true } next
    let len ← addU32 h.currentOverApproximatedStackRootsLen 1
    pure { h.put gcRef o with
      overApproximatedStackRoots := some gcRef
      currentOverApproximatedStackRootsLen := len }

/-- The objects on the list, from a link on. -/
def iterFrom (h : DrcHeap) : ℕ → Option VMGcRef → Exec (List VMGcRef)
  | 0, _ => throw .outOfFuel
  | _ + 1, none => pure []
  | fuel + 1, some gcRef =>
    match h.index gcRef with
    | .error _ => pure []
    | .ok o => do
      let next ← o.getNext
      let rest ← h.iterFrom fuel next
      pure (gcRef :: rest)

/-- The objects on the list of stack roots. -/
def iterOverApproximatedStackRoots : Exec (List VMGcRef) :=
  h.iterFrom (h.objects.size + 1) h.overApproximatedStackRoots

end DrcHeap

/-- A root that the embedder or the stack gives. -/
structure GcRoot where
  /-- Whether the root is in a Wasm frame. -/
  isOnWasmStack : Bool
  gcRef : VMGcRef
  deriving DecidableEq

namespace DrcHeap

/-- Mark one root, if it is on the Wasm stack and is not an `i31`. -/
def traceRoot (overApproxSet : List VMGcRef) (h : DrcHeap) (root : GcRoot) : Exec DrcHeap :=
  if !root.isOnWasmStack || root.gcRef.isI31 then pure h
  else do
    ensure (root.gcRef ∈ overApproxSet) ("every on-stack gc ref inside a Wasm frame should " ++
      s!"have be in our over-approximated stack roots set, but {root.gcRef.raw} is not in the set")
    let o ← h.index root.gcRef
    ensure o.inOverApproximatedStackRoots ("every on-stack gc ref inside a Wasm frame should " ++
      "have its in-the-over-approximated-stack-roots-list bit set")
    ensure (o.refCount ≠ 0) (s!"{root.gcRef.raw} is on the Wasm stack and therefore should be " ++
      "held alive by the over-approximated-stack-roots set; should have nonzero ref count")
    pure (h.put root.gcRef { o with marked := true })

variable (h : DrcHeap)

/-- Marks the objects that are on the stack. -/
def trace (roots : List GcRoot) : Exec DrcHeap := do
  let overApproxSet ← h.iterOverApproximatedStackRoots
  roots.foldlM (traceRoot overApproxSet) h

/-- Let the link before the object that leaves the list point to the one after it. -/
def unlink (prev next : Option VMGcRef) : Exec DrcHeap :=
  match prev with
  | none => pure { h with overApproximatedStackRoots := next }
  | some prev => do
    let o ← h.index prev
    let o ← o.setNext next
    pure (h.put prev o)

variable (hostDataTable : ExternRefHostDataTable)

/-- Take an unmarked object off the list and drop the list's reference to it. -/
def sweepUnmarked (gcRef : VMGcRef)
    (o : DrcObject) (prev next : Option VMGcRef) : Exec (DrcHeap × ExternRefHostDataTable) := do
  let h ← (h.put gcRef { o with inOverApproximatedStackRoots := false }).unlink prev next
  ensure (0 < h.currentOverApproximatedStackRootsLen) "assertion failed: *len > 0"
  let len := h.currentOverApproximatedStackRootsLen - 1
  DrcHeap.decRefAndMaybeDealloc { h with currentOverApproximatedStackRootsLen := len }
    hostDataTable gcRef

/-- The loop of the sweep, with the previous object on the list and the next one. -/
def sweepFrom : ℕ → DrcHeap → ExternRefHostDataTable → Option VMGcRef → Option VMGcRef →
    Exec (DrcHeap × ExternRefHostDataTable)
  | 0, _, _, _, _ => throw .outOfFuel
  | _ + 1, h, hostDataTable, _, none => pure (h, hostDataTable)
  | fuel + 1, h, hostDataTable, prev, some gcRef => do
    let o ← h.index gcRef
    ensure o.inOverApproximatedStackRoots
      "assertion failed: header.is_in_over_approximated_stack_roots()"
    let next ← o.getNext
    if o.marked then
      sweepFrom fuel (h.put gcRef { o with marked := false }) hostDataTable (some gcRef) next
    else do
      let (h, hostDataTable) ← h.sweepUnmarked hostDataTable gcRef o prev next
      sweepFrom fuel h hostDataTable prev next

/-- Drop the list's references to the objects that are not marked, and clear the marks. -/
def sweep :
    Exec (DrcHeap × ExternRefHostDataTable) := do
  let (h, host) ← sweepFrom (h.objects.size + 1) h hostDataTable none h.overApproximatedStackRoots
  let len := h.currentOverApproximatedStackRootsLen
  pure ({ h with overApproximatedStackRootsLenAfterLastGc := len }, host)

/-- A collection: the stack roots that are not on the stack any more are given up. -/
def gc (roots : List GcRoot) :
    Exec (DrcHeap × ExternRefHostDataTable) := do
  ensure (h.noGcCount = 0) "Cannot GC inside a no-GC scope!"
  let h ← h.trace roots
  h.sweep hostDataTable

/-! ## Allocation -/

variable (kind : VMGcKind)

/-- Trace information is registered before a type is allocated; only `externref`s have no
type. -/
def checkTraceInfo (ty : Option ℕ) : Exec Unit :=
  match ty with
  | some ty => ensure ((h.traceInfos.get? ty).isSome)
      s!"trace info for VMSharedTypeIndex({ty}) should have been eagerly registered"
  | none => ensure (kind = .externRef) "assertion `left == right` failed"

/-- An object as `alloc_raw` initialises it, with the body that the caller gives it. -/
def newObject (ty : Option ℕ) (layout : Layout) (data : List ℕ) :
    DrcObject where
  kind := kind
  ty := ty
  marked := false
  inOverApproximatedStackRoots := false
  refCount := 1
  nextOverApproximatedStackRoot := none
  objectSize := layout.size
  data := data

/-- Write the header of an object at the index that the free list returned, and count its
bytes. -/
def initObject (index allocSize : ℕ) (o : DrcObject) : Exec (DrcHeap × VMGcRef) := do
  let gcRef ← okOr (VMGcRef.fromHeapIndex index)
    s!"invalid GC heap index returned from free list alloc: {hex index}"
  let allocatedBytes ← addUsize h.allocatedBytes allocSize
  pure ({ h with objects := h.objects.insert index o, allocatedBytes }, gcRef)

/-- Allocate an object.  `data` is the body that the caller initialises it with before
anything reads it.  The inner error is the size that did not fit. -/
def allocRaw (ty : Option ℕ) (layout : Layout) (data : List ℕ) :
    Exec (DrcHeap × Except ℕ VMGcRef) := do
  ensure (drcHeaderSize ≤ layout.size)
    "assertion failed: layout.size() >= core::mem::size_of::<VMDrcHeader>()"
  ensure (8 ≤ layout.align)
    "assertion failed: layout.align() >= core::mem::align_of::<VMDrcHeader>()"
  ensure (layout.align ≤ freeListAlign)
    "assertion failed: FreeList::can_align_to(layout.align())"
  h.checkTraceInfo kind ty
  ensure (layout.size ≤ u32Max)
    "called `Result::unwrap()` on an `Err` value: TryFromIntError(())"
  let allocSize ← okOr (FreeList.alignedSize layout.size) "allocation size too large"
  let (freeList, r) ← h.freeList.allocFast allocSize
  match r with
  | none => pure ({ h with freeList }, .error layout.size)
  | some index => do
    let (h, gcRef) ← DrcHeap.initObject { h with freeList } index allocSize
      (newObject kind ty layout data)
    pure (h, .ok gcRef)

def externRefLayout : Layout := ⟨32, 8, 3, rfl⟩

/-- Allocates an `externref` with its host data. -/
def allocExternref (hostData : ℕ) : Exec (DrcHeap × Except ℕ VMGcRef) :=
  h.allocRaw .externRef none externRefLayout [hostData, 0]

end DrcHeap

/-! ## The store

What the rest of the runtime calls; it keeps `i31`s away from the heap. -/

/-- The GC heap of a store, and its host data table. -/
structure GcStore where
  heap : DrcHeap
  host : ExternRefHostDataTable
  deriving DecidableEq

namespace GcStore

/-- Another copy of a reference. -/
def cloneGcRef (s : GcStore) (gcRef : VMGcRef) : Exec GcStore :=
  if gcRef.isI31 then pure s
  else
    match s.heap.incRef gcRef with
    | .ok heap => pure { s with heap }
    | .error (.error e) => throw (.panic s!"gc heap corrupted: {e}")
    | .error fault => throw fault

/-- A write of these references has to count. -/
def needsWriteBarrier (dest gcRef : Option VMGcRef) : Bool :=
  dest.any (fun r => !r.isI31) || gcRef.any fun r => !r.isI31

/-- Writes a reference, with the barrier where it is needed. -/
def writeGcRef (s : GcStore) (destination source : Option VMGcRef) :
    Exec (GcStore × Option VMGcRef) :=
  if needsWriteBarrier destination source then do
    let (heap, host, destination) ← s.heap.writeGcRef s.host destination source
    pure (⟨heap, host⟩, destination)
  else pure (s, source)

/-- `VMGcRef::write_val` for a reference: overwrite a field or element of an object. -/
def writeVal (s : GcStore) (object : VMGcRef) (offset : ℕ) (val : Option VMGcRef) :
    Exec GcStore := do
  let o ← s.heap.index object
  let raw ← o.readU32 offset
  let (s, gcRef) ← s.writeGcRef (VMGcRef.fromRawU32 raw) val
  let o ← s.heap.index object
  let o ← o.writeU32 offset (gcRef.elim 0 VMGcRef.raw)
  pure { s with heap := s.heap.put object o }

/-- Hands a reference to the guest, which puts it on the list of stack roots. -/
def exposeGcRefToWasm (s : GcStore) (gcRef : VMGcRef) : Exec GcStore :=
  if gcRef.isI31 then pure s
  else do
    let heap ← s.heap.exposeGcRefToWasm gcRef
    pure { s with heap }

/-- Allocate an `externref` for a host value, under the id that the table gives it. -/
def allocExternref (s : GcStore) (id value : ℕ) : Exec (GcStore × Except ℕ VMGcRef) := do
  let host : ExternRefHostDataTable := ⟨s.host.slab.insert id value⟩
  let (heap, r) ← s.heap.allocExternref id
  match r with
  | .ok gcRef => pure (⟨heap, host⟩, .ok gcRef)
  | .error n => do
    let (host, _) ← host.dealloc id
    pure (⟨heap, host⟩, .error n)

/-- A collection of the store. -/
def gc (s : GcStore) (roots : List GcRoot) : Exec GcStore := do
  let (heap, host) ← s.heap.gc s.host roots
  pure ⟨heap, host⟩

end GcStore

end WasmDeps.Gc
