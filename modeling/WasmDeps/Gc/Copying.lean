import WasmDeps.Gc.GcRef
import WasmDeps.Gc.FreeList
import WasmDeps.Lib.Memory

/-!
# The copying collector

A semi-space collector.  Objects are allocated by bumping a pointer in the active half of
the heap.  A collection swaps the halves and copies what the roots reach to the new active
half, where the copies that are not scanned yet are the worklist; an object that has been
copied keeps the reference to its copy in its body.  `externref`s are on a linked list
through their bodies, so that the host data of those that were not copied can be dropped.

The heap is a byte memory.  An object begins with the words `kind`, `ty` and `object_size`
at the offsets 0, 4 and 8, and its body begins at 16: the length of an array, or the
forwarding reference of an object that has been copied.  An `externref` has its host data
id at 24 and its link at 28.

A heap knows whether it is built with debug assertions.
-/

namespace WasmDeps.Gc

open WasmDeps.Lib

/-- Every object starts at a multiple of this. -/
abbrev copyingAlign : ℕ := 16

/-- The header bit of an object that has been copied. -/
abbrev headerCopiedBit : ℕ := 1

/-- Where the elements of an array of references start. -/
abbrev copyingGcRefArrayElemsOffset : ℕ := 20

/-! ## Headers -/

/-- A number in binary, with its prefix and leading zeros 32 characters wide. -/
def bin32 (n : ℕ) : String :=
  let digits := Nat.toDigits 2 n
  "0b" ++ String.ofList (List.replicate (30 - digits.length) '0' ++ digits)

/-- The kind with the given bits, if there is one. -/
def VMGcKind.tryFromU32 (x : ℕ) : Option VMGcKind :=
  [VMGcKind.externRef, .anyRef, .eqRef, .arrayRef, .structRef, .exnRef].find?
    fun kind => x == kind.asU32

variable (word : ℕ)

/-- The high bits of a header word, which hold the kind. -/
def kindBits : ℕ := word / 2 ^ 26 * 2 ^ 26

/-- The kind that a header word holds. -/
def VMGcKind.fromHighBitsOfU32 : Exec VMGcKind :=
  unwrap (VMGcKind.tryFromU32 (kindBits word)) s!"invalid `VMGcKind`: {bin32 (kindBits word)}"

/-- The low bits of a header word, which the collector may use. -/
def reservedU26 : ℕ := word % 2 ^ 26

/-- Sets the collector's bits of a header word. -/
def setReservedU26 (word value : ℕ) : Exec ℕ := do
  ensure (value < 2 ^ 26) ("VMGcHeader::set_reserved_u26 with value using more than 26 bits: " ++
    s!"{bin32 value} ({value}, {hex value})")
  pure (kindBits word ||| value)

/-- The object has been copied and holds a forwarding reference. -/
def isCopied : Bool := reservedU26 word &&& headerCopiedBit != 0

/-- A reference as the heap stores it; zero for null. -/
def rawRef (r : Option VMGcRef) : ℕ := r.elim 0 VMGcRef.raw

/-! ## The heap -/

/-- The heap of the copying collector. -/
structure CopyingHeap where
  /-- Whether debug assertions are checked. -/
  debugAssertions : Bool
  traceInfos : TraceInfos
  noGcCount : ℕ
  memory : Memory
  /-- Where the next object is allocated. -/
  bumpPtr : ℕ
  activeSpaceEnd : ℕ
  activeSpaceStart : ℕ
  idleSpaceStart : ℕ
  idleSpaceEnd : ℕ
  /-- The first object of the worklist, which ends at `bumpPtr`. -/
  worklistPtr : ℕ
  activeExternRefSetHead : Option VMGcRef
  idleExternRefSetHead : Option VMGcRef

namespace CopyingHeap

variable (h : CopyingHeap)

/-- Something that is only checked with debug assertions. -/
def debug (check : Exec Unit) : Exec Unit :=
  if h.debugAssertions then check else pure ()

/-- An assertion of debug builds. -/
def debugAssert (p : Prop) [Decidable p] (msg : String) : Exec Unit :=
  h.debug (ensure p msg)

/-- The number of bytes for the semi-spaces: a multiple of the alignment, and a `u32`. -/
def capacity : ℕ := roundDown (min h.memory.len u32Max) copyingAlign

/-- The two spaces have one size. -/
def assertEqualSpaces : Exec Unit := h.debug do
  let active ← subU32 h.activeSpaceEnd h.activeSpaceStart
  let idle ← subU32 h.idleSpaceEnd h.idleSpaceStart
  ensure (active = idle) "the active and idle spaces should be the same size"

/-- Adjust the semi-spaces to the capacity, unless the second one is active. -/
def resizeSemiSpaces : Exec CopyingHeap := do
  h.assertEqualSpaces
  if h.idleSpaceStart < h.activeSpaceStart then pure h
  else do
    let capacity := h.capacity
    let halfway := capacity / 2
    h.debugAssert (h.bumpPtr ≤ halfway) "assertion failed: self.bump_ptr() <= halfway"
    h.debugAssert (h.idleSpaceStart ≤ halfway) "assertion failed: self.idle_space_start <= halfway"
    h.debugAssert (h.activeSpaceEnd ≤ halfway)
      "assertion failed: self.active_space_end() <= halfway"
    let h := { h with
      activeSpaceEnd := halfway, idleSpaceStart := halfway, idleSpaceEnd := capacity }
    h.assertEqualSpaces
    pure h

/-- Start to allocate after the first 16 bytes of the active space. -/
def resetBumpPtr : Exec CopyingHeap := do
  let size ← subU32 h.activeSpaceEnd h.activeSpaceStart
  let bp ← if copyingAlign ≤ size then addU32 h.activeSpaceStart copyingAlign
    else pure h.activeSpaceStart
  let h := { h with bumpPtr := bp }
  h.debugAssert (h.bumpPtr % copyingAlign = 0)
    "assertion failed: self.bump_ptr().is_multiple_of(ALIGN)"
  pure h

/-- Splits a new heap into its two spaces. -/
def initializeSemiSpaces : Exec CopyingHeap := do
  h.debugAssert (h.activeSpaceStart = 0) "assertion `left == right` failed"
  h.debugAssert (h.activeSpaceEnd = 0) "assertion `left == right` failed"
  h.debugAssert (h.idleSpaceStart = 0) "assertion `left == right` failed"
  h.debugAssert (h.idleSpaceEnd = 0) "assertion `left == right` failed"
  h.debugAssert (h.bumpPtr = 0) "assertion `left == right` failed"
  let h ← h.resizeSemiSpaces
  h.resetBumpPtr

/-- The heap of a store, over its memory. -/
def attach (debugAssertions : Bool) (traceInfos : TraceInfos) (memory : Memory) :
    Exec CopyingHeap :=
  initializeSemiSpaces
    { debugAssertions, traceInfos, noGcCount := 0, memory, bumpPtr := 0, activeSpaceEnd := 0,
      activeSpaceStart := 0, idleSpaceStart := 0, idleSpaceEnd := 0, worklistPtr := 0,
      activeExternRefSetHead := none, idleExternRefSetHead := none }

/-- Takes the memory over after it has grown. -/
def replaceMemory (memory : Memory) : Exec CopyingHeap :=
  let h := { h with memory }
  if h.activeSpaceEnd = 0 ∧ h.idleSpaceEnd = 0 then h.initializeSemiSpaces
  else h.resizeSemiSpaces

/-- The assertions on the bump pointer. -/
def assertBumpPtr : Exec Unit := do
  h.debugAssert (h.bumpPtr % copyingAlign = 0)
    "assertion failed: self.bump_ptr().is_multiple_of(ALIGN)"
  h.debugAssert (h.activeSpaceStart ≤ h.bumpPtr)
    "assertion failed: self.bump_ptr() >= self.active_space_start"
  h.debugAssert (h.bumpPtr ≤ h.activeSpaceEnd)
    "assertion failed: self.bump_ptr() <= self.active_space_end()"

/-- Takes `size` bytes at the bump pointer, if the active space has them. -/
def allocate (size : ℕ) : Exec (CopyingHeap × Option ℕ) := do
  h.debugAssert (size % copyingAlign = 0) "assertion failed: size.is_multiple_of(ALIGN)"
  h.assertBumpPtr
  let result := h.bumpPtr
  let newBumpPtr := result + size
  if u32Max < newBumpPtr ∨ h.activeSpaceEnd < newBumpPtr then pure (h, none)
  else do
    let h := { h with bumpPtr := newBumpPtr }
    h.assertBumpPtr
    pure (h, some result)

/-- The index lies in the space that objects are allocated in. -/
def isInActiveSpace (index : ℕ) : Bool :=
  h.activeSpaceStart ≤ index && index < h.activeSpaceEnd

/-- The index lies in the space that the collector left. -/
def isInIdleSpace (index : ℕ) : Bool :=
  h.idleSpaceStart ≤ index && index < h.idleSpaceEnd

/-- Swaps the two spaces. -/
def flip : Exec CopyingHeap := do
  h.assertEqualSpaces
  let h ← CopyingHeap.resetBumpPtr { h with
    activeSpaceStart := h.idleSpaceStart, activeSpaceEnd := h.idleSpaceEnd
    idleSpaceStart := h.activeSpaceStart, idleSpaceEnd := h.activeSpaceEnd }
  pure { h with
    idleExternRefSetHead := h.activeExternRefSetHead, activeExternRefSetHead := none }

/-! ## Objects -/

variable (gcRef : VMGcRef)

/-- The address of the object that a reference points to, once its `size` bytes are known to
be in the heap and aligned. -/
def index (size : ℕ) : Exec ℕ := do
  let start ← gcRef.heapIndex
  if h.memory.len < start + size then throw (.error "gc object out-of-bounds")
  else if start % 8 ≠ 0 then throw (.error "gc object and/or heap misaligned")
  else pure start

/-- The size in an object's header. -/
def objectSize : Exec ℕ := do
  let i ← h.index gcRef 16
  pure (h.memory.readU32 (i + 8))

/-- The object's header says that it was copied. -/
def copied : Exec Bool := do
  let i ← h.index gcRef 16
  pure (isCopied (h.memory.readU32 i))

/-- The kind in an object's header. -/
def kind : Exec VMGcKind := do
  let i ← h.index gcRef 16
  VMGcKind.fromHighBitsOfU32 (h.memory.readU32 i)

/-- The type in the header of an object; `externref`s have none. -/
def ty (h : CopyingHeap) (gcRef : VMGcRef) : Exec (Option ℕ) := do
  let i ← h.index gcRef 16
  let ty := h.memory.readU32 (i + 4)
  pure (if ty = u32Max then none else some ty)

/-- The object has room for a forwarding reference. -/
def assertForwardable (i : ℕ) : Exec Unit :=
  h.debugAssert (24 ≤ h.memory.readU32 (i + 8))
    ("assertion failed: self.header.object_size() >= " ++
      "u32::try_from(mem::size_of::<VMCopyingHeaderAndForwardingRef>()).unwrap()")

/-- Where an object has been copied to, if it has been. -/
def forwardingRef : Exec (Option VMGcRef) := do
  let i ← h.index gcRef 24
  h.assertForwardable i
  if isCopied (h.memory.readU32 i) then do
    let r ← okOr (VMGcRef.fromRawU32 (h.memory.readU32 (i + 16)))
      "should always have a forwarding ref if the copied bit is set"
    pure (some r)
  else pure none

/-- Marks an object as copied and leaves a reference to the copy in it. -/
def setForwardingRef (gcRef forwardingRef : VMGcRef) : Exec CopyingHeap := do
  let i ← h.index gcRef 24
  let word := h.memory.readU32 i
  h.debugAssert (!isCopied word) "assertion failed: !self.header.copied()"
  h.assertForwardable i
  let word ← setReservedU26 word (reservedU26 word ||| headerCopiedBit)
  pure { h with memory := (h.memory.writeU32 i word).writeU32 (i + 16) forwardingRef.raw }

def assertIsArray (arrayref : VMGcRef) : Exec Unit := h.debug do
  let kind ← h.kind arrayref
  ensure (kind = .arrayRef)
    "assertion failed: arrayref.as_gc_ref().is_typed::<VMCopyingArrayHeader>(self)"

/-- The length of an array. -/
def arrayLen (arrayref : VMGcRef) : Exec ℕ := do
  h.assertIsArray arrayref
  let i ← h.index arrayref 24
  pure (h.memory.readU32 (i + 16))

/-! ## Moving objects -/

/-- The worklist is empty at the start of a collection. -/
def initializeWorklist : CopyingHeap := { h with worklistPtr := h.bumpPtr }

/-- The next object that was copied and is not yet scanned. -/
def worklistPop : Exec (CopyingHeap × Option VMGcRef) := do
  h.debugAssert (h.isInActiveSpace h.worklistPtr ∨ h.worklistPtr = h.activeSpaceEnd)
    ("assertion failed: self.is_in_active_space(self.worklist_ptr) || " ++
      "self.worklist_ptr == self.active_space_end()")
  h.debugAssert (h.isInActiveSpace h.bumpPtr ∨ h.bumpPtr = h.activeSpaceEnd)
    ("assertion failed: self.is_in_active_space(self.bump_ptr()) || " ++
      "self.bump_ptr() == self.active_space_end()")
  h.debugAssert (h.worklistPtr ≤ h.bumpPtr)
    "assertion failed: self.worklist_ptr <= self.bump_ptr()"
  if h.worklistPtr = h.bumpPtr then pure (h, none)
  else if h.worklistPtr = 0 then throw (.error "worklist ptr is zero")
  else do
    let result ← okOr (VMGcRef.fromHeapIndex h.worklistPtr) "corrupt worklist_ptr"
    let objSize ← h.objectSize result
    let worklistPtr ← addU32 h.worklistPtr objSize
    h.debugAssert (worklistPtr ≤ h.bumpPtr)
      "assertion failed: self.worklist_ptr <= self.bump_ptr()"
    pure ({ h with worklistPtr }, some result)

/-- Inserting into the worklist is implied by allocating the copy. -/
def worklistInsert : Exec Unit := h.debug do
  let index ← gcRef.heapIndex
  ensure (h.isInActiveSpace index) "assertion failed: self.is_in_active_space(index)"
  let objSize ← h.objectSize gcRef
  let objEnd ← addU32 index objSize
  ensure (objEnd = h.bumpPtr) "assertion `left == right` failed"
  ensure (h.worklistPtr ≤ index) "assertion failed: self.worklist_ptr <= index"

/-- Puts an `externref` at the head of the list of those in the active space. -/
def pushExternRef (externref : VMGcRef) : Exec CopyingHeap := do
  let oldHead := h.activeExternRefSetHead
  let i ← h.index externref 32
  pure { h with
    memory := h.memory.writeU32 (i + 28) (rawRef oldHead)
    activeExternRefSetHead := some externref }

/-- Put a copy on the list of the active space if it is an `externref`. -/
def linkExternRef (toRef : VMGcRef) : Exec CopyingHeap := do
  let kind ← h.kind toRef
  if kind.matchesKind .externRef then h.pushExternRef toRef else pure h

/-- Asserts that a reference points into the idle space. -/
def assertInIdleSpace (msg : String) : Exec Unit := h.debug do
  let index ← gcRef.heapIndex
  ensure (h.isInIdleSpace index) msg

/-- Asserts that a reference points into the active space. -/
def assertInActiveSpace (msg : String) : Exec Unit :=
  h.debug do
    let index ← gcRef.heapIndex
    ensure (h.isInActiveSpace index) msg

variable (fromRef : VMGcRef)

def assertNotCopied : Exec Unit := h.debug do
  let copied ← h.copied fromRef
  ensure (!copied) "assertion failed: !self.index(copying_ref(from_ref))?.copied()"

/-- Takes room for a copy, which cannot fail since the spaces have one size. -/
def allocateCopy (size : ℕ) : Exec (CopyingHeap × VMGcRef) := do
  let (h, toIndex) ← h.allocate size
  let toIndex ← okOr toIndex ("there should always be enough room in the active semi-space for " ++
    "objects that survived collection, since the active space is the same size as the idle space")
  h.debugAssert (h.isInActiveSpace toIndex)
    "assertion failed: self.is_in_active_space(to_index)"
  let toRef ← okOr (VMGcRef.fromHeapIndex toIndex) "invalid to_index"
  pure (h, toRef)

/-- Copies the bytes of an object. -/
def copyBytes (fromIndex toIndex size : ℕ) : Exec CopyingHeap :=
  if h.memory.len < fromIndex + size ∨ h.memory.len < toIndex + size then
    throw (.error "corrupt gc heap")
  else pure { h with memory := h.memory.copyWithin fromIndex toIndex size }

/-- Copies an object out of the idle space. -/
def copy : Exec (CopyingHeap × VMGcRef) := do
  h.debugAssert (!fromRef.isI31) "assertion failed: !from_ref.is_i31()"
  let fromIndex ← fromRef.heapIndex
  h.debugAssert (h.isInIdleSpace fromIndex) "assertion failed: self.is_in_idle_space(from_index)"
  h.assertNotCopied fromRef
  let size ← h.objectSize fromRef
  let (h, toRef) ← h.allocateCopy size
  let h ← h.copyBytes fromIndex toRef.raw size
  let h ← h.setForwardingRef fromRef toRef
  let h ← h.linkExternRef toRef
  h.worklistInsert toRef
  pure (h, toRef)

/-- Where an object of the idle space is in the active space; it is copied if need be. -/
def forward : Exec (CopyingHeap × VMGcRef) := do
  h.debugAssert (!fromRef.isI31) "assertion failed: !from_ref.is_i31()"
  h.assertInIdleSpace fromRef
    "assertion failed: self.is_in_idle_space(from_ref.heap_index()?.get())"
  match ← h.forwardingRef fromRef with
  | some toRef => pure (h, toRef)
  | none => h.copy fromRef

/-- Forward the reference that a field holds, and write it back. -/
def scanChild (fieldStart : ℕ) (child : VMGcRef) : Exec CopyingHeap := do
  h.assertInIdleSpace child "assertion failed: self.is_in_idle_space(child.heap_index()?.get())"
  let (h, newRef) ← h.forward child
  h.assertInActiveSpace newRef
    "assertion failed: self.is_in_active_space(new_ref.heap_index()?.get())"
  pure { h with memory := h.memory.writeU32 fieldStart newRef.raw }

/-- Forwards the reference in one field. -/
def scanField (objectStart offset : ℕ) : Exec CopyingHeap :=
  let fieldStart := objectStart + offset
  if usizeMax < fieldStart then throw (.error "field offset overflow")
  else if h.memory.len < fieldStart + 4 then throw (.error "corrupt gc heap")
  else
    match VMGcRef.fromRawU32 (h.memory.readU32 fieldStart) with
    | some child => if child.isI31 then pure h else h.scanChild fieldStart child
    | none => pure h

/-- Forwards the reference in one array element. -/
def scanElem (objectStart : ℕ) (h : CopyingHeap) (i : ℕ) : Exec CopyingHeap :=
  if u32Max < i * 4 + copyingGcRefArrayElemsOffset then
    throw (.error "array element offset overflow")
  else h.scanField objectStart (i * 4 + copyingGcRefArrayElemsOffset)

/-- Forwards all references of an object, by the trace information of its type. -/
def scan (traceInfos : TraceInfos) : Exec CopyingHeap := do
  h.debugAssert (!gcRef.isI31) "assertion failed: !gc_ref.is_i31()"
  let objectStart ← gcRef.heapIndex
  h.debugAssert (h.isInActiveSpace objectStart)
    "assertion failed: self.is_in_active_space(index)"
  match ← h.ty gcRef with
  | none => pure h
  | some ty => do
    match ← traceInfos.traceInfo ty with
    | .struct gcRefOffsets => gcRefOffsets.foldlM (fun h offset => h.scanField objectStart offset) h
    | .array true => do
      let len ← h.arrayLen gcRef
      (List.range len).foldlM (scanElem objectStart) h
    | .array false => pure h

/-! ## Collections -/

/-- Forwards one root. -/
def processRoot (root : VMGcRef) : Exec (CopyingHeap × VMGcRef) :=
  if root.isI31 then pure (h, root)
  else do
    let oldIndex ← root.heapIndex
    h.debugAssert (h.isInIdleSpace oldIndex)
      "assertion failed: self.heap.is_in_idle_space(old_index)"
    h.forward root

/-- Forwards the roots in their order. -/
def processRoots (h : CopyingHeap) : List VMGcRef → Exec (CopyingHeap × List VMGcRef)
  | [] => pure (h, [])
  | root :: roots => do
    let (h, root) ← h.processRoot root
    let (h, roots) ← h.processRoots roots
    pure (h, root :: roots)

/-- Scans the copied objects until none is left. -/
def worklistLoop (traceInfos : TraceInfos) : ℕ → CopyingHeap → Exec CopyingHeap
  | 0, _ => throw .outOfFuel
  | fuel + 1, h => do
    let (h, next) ← h.worklistPop
    match next with
    | none => pure h
    | some gcRef => do
      h.assertInActiveSpace gcRef
        "assertion failed: self.heap.is_in_active_space(gc_ref.heap_index()?.get())"
      let h ← h.scan gcRef traceInfos
      worklistLoop traceInfos fuel h

/-- Scan until the worklist is empty.  The tracing information is taken out of the heap
while this goes on. -/
def processWorklist : Exec CopyingHeap := do
  let traceInfos := h.traceInfos
  let h ← worklistLoop traceInfos (h.activeSpaceEnd + 1) { h with traceInfos := .empty }
  pure { h with traceInfos }

variable (hostDataTable : ExternRefHostDataTable)

/-- Drop the host data of an `externref` that was not copied; `dropped` is what has been
dropped so far. -/
def sweepExternRef
    (dropped : List ℕ) (externref : VMGcRef) : Exec (ExternRefHostDataTable × List ℕ) := do
  h.assertInIdleSpace externref
    "assertion failed: self.heap.is_in_idle_space(gc_ref.heap_index()?.get())"
  let copied ← h.copied externref
  if copied then pure (hostDataTable, dropped)
  else do
    let i ← h.index externref 32
    let (hostDataTable, value) ← hostDataTable.dealloc (h.memory.readU32 (i + 24))
    pure (hostDataTable, dropped ++ [value])

/-- The loop over the `externref`s of the idle space. -/
def sweepFrom (h : CopyingHeap) : ℕ → ExternRefHostDataTable → List ℕ → Option VMGcRef →
    Exec (ExternRefHostDataTable × List ℕ)
  | 0, _, _, _ => throw .outOfFuel
  | _ + 1, hostDataTable, dropped, none => pure (hostDataTable, dropped)
  | fuel + 1, hostDataTable, dropped, some externref => do
    let (hostDataTable, dropped) ← h.sweepExternRef hostDataTable dropped externref
    let i ← h.index externref 32
    h.sweepFrom fuel hostDataTable dropped (VMGcRef.fromRawU32 (h.memory.readU32 (i + 28)))

/-- Frees the host data of every `externref` that was not copied. -/
def sweepExternRefs :
    Exec (CopyingHeap × ExternRefHostDataTable × List ℕ) := do
  let link := h.idleExternRefSetHead
  let h := { h with idleExternRefSetHead := none }
  let (hostDataTable, dropped) ← h.sweepFrom (h.idleSpaceEnd + 1) hostDataTable [] link
  pure (h, hostDataTable, dropped)

/-- The assertions on the spaces that a collection starts with. -/
def assertSpaces : Exec Unit := do
  ensure (h.activeSpaceStart ≤ h.bumpPtr)
    "assertion failed: self.heap.active_space_start <= self.heap.bump_ptr()"
  ensure (h.bumpPtr ≤ h.activeSpaceEnd)
    "assertion failed: self.heap.bump_ptr() <= self.heap.active_space_end()"
  ensure (h.idleSpaceStart ≤ h.idleSpaceEnd)
    "assertion failed: self.heap.idle_space_start <= self.heap.idle_space_end"
  ensure (h.activeSpaceEnd ≤ h.idleSpaceStart ∨ h.idleSpaceEnd ≤ h.activeSpaceStart)
    ("assertion failed: self.heap.active_space_end() <= self.heap.idle_space_start || " ++
      "self.heap.idle_space_end <= self.heap.active_space_start")

end CopyingHeap

/-- What a collection gives: the heap, the host data, the roots and the freed identifiers. -/
structure CopyingCollection where
  heap : CopyingHeap
  host : ExternRefHostDataTable
  roots : List VMGcRef
  dropped : List ℕ

namespace CopyingHeap

variable (h : CopyingHeap)

variable (hostDataTable : ExternRefHostDataTable)

/-- The one increment of a collection, which does all of it. -/
def collectIncrement
    (roots : List VMGcRef) : Exec CopyingCollection := do
  h.assertSpaces
  let h ← h.flip
  let (h, roots) ← h.initializeWorklist.processRoots roots
  let h ← h.processWorklist
  h.assertSpaces
  let (h, host, dropped) ← h.sweepExternRefs hostDataTable
  let heap ← h.resizeSemiSpaces
  heap.assertEqualSpaces
  pure { heap, host, roots, dropped }

/-- A collection, as the store asks for it. -/
def gc (roots : List VMGcRef) :
    Exec CopyingCollection := do
  ensure (h.noGcCount = 0) "Cannot GC inside a no-GC scope!"
  h.collectIncrement hostDataTable roots

/-! ## Allocation -/

/-- Trace information is registered before a type is allocated; only `externref`s have no
type. -/
def checkTraceInfo (kind : VMGcKind) (ty : Option ℕ) : Exec Unit :=
  match ty with
  | some ty => h.debugAssert ((h.traceInfos.get? ty).isSome)
      s!"trace info for VMSharedTypeIndex({ty}) should have been eagerly registered"
  | none => h.debugAssert (kind = .externRef) "assertion `left == right` failed"

/-- `u32::checked_next_multiple_of(ALIGN)`. -/
def checkedSize (size : ℕ) : Option ℕ :=
  let size := roundUp size copyingAlign
  if size ≤ u32Max then some size else none

/-- Writes the header of a new object. -/
def initHeader (index : ℕ) (kind : VMGcKind) (ty : Option ℕ) (size : ℕ) :
    Exec (CopyingHeap × VMGcRef) := do
  h.debugAssert (index ≠ 0) "index 0 is reserved; bump_ptr should skip it"
  let gcRef ← unwrap (VMGcRef.fromHeapIndex index) "called `Option::unwrap()` on a `None` value"
  let i ← h.index gcRef 16
  let memory := ((h.memory.writeU32 i kind.asU32).writeU32 (i + 4) (ty.getD u32Max)).writeU32
    (i + 8) size
  pure ({ h with memory }, gcRef)

/-- Allocates an object, or says how many bytes are missing. -/
def allocRaw (kind : VMGcKind) (ty : Option ℕ) (layout : Layout) :
    Exec (CopyingHeap × Except ℕ VMGcRef) := do
  ensure (layout.align ≤ u32Max)
    "called `Result::unwrap()` on an `Err` value: TryFromIntError(())"
  if layout.align ≠ copyingAlign then
    throw (.error (s!"copying collector requires all allocations to have alignment " ++
      s!"{copyingAlign}, but got alignment {layout.align}"))
  else do
    h.debugAssert (16 ≤ layout.size)
      "assertion failed: layout.size() >= core::mem::size_of::<VMCopyingHeader>()"
    h.debugAssert (h.bumpPtr % copyingAlign = 0) "bump_ptr is not aligned to ALIGN"
    h.checkTraceInfo kind ty
    ensure (layout.size ≤ u32Max)
      "called `Result::unwrap()` on an `Err` value: TryFromIntError(())"
    let size ← okOr (checkedSize layout.size) "allocation size too large"
    let (h, r) ← h.allocate size
    match r with
    | none => pure (h, .error layout.size)
    | some index => do
      let (h, gcRef) ← h.initHeader index kind ty size
      pure (h, .ok gcRef)

def externRefLayout : Layout := ⟨32, 16, 4, rfl⟩

/-- Allocates an `externref` for the host data `hostData`. -/
def allocExternref (hostData : ℕ) : Exec (CopyingHeap × Except ℕ VMGcRef) := do
  let (h, r) ← h.allocRaw .externRef none externRefLayout
  match r with
  | .error n => pure (h, .error n)
  | .ok gcRef => do
    let i ← h.index gcRef 32
    let h ← CopyingHeap.pushExternRef
      { h with memory := h.memory.writeU32 (i + 24) hostData } gcRef
    pure (h, .ok gcRef)

end CopyingHeap

end WasmDeps.Gc
