import WasmDeps.Lib.Exec
import WasmDeps.Lib.SortedMap

/-!
# The free list of the garbage-collected heap

`FreeList` hands out blocks of a 32-bit heap.  Free space is kept three times over:
a map from the index of a free block to its length, a map from a length to the indices
of the free blocks with it, and a *bump region* `[bump_ptr, bump_end)` from which
allocations are served first.

The definitions follow the source function by function.  An `ensure` is an assertion of
the source, `addU32` and `subU32` are its unchecked additions and subtractions, and
`unreachable` is its `unreachable!()`; all of them fault where the source would.
-/

namespace WasmDeps.Gc

open WasmDeps.Lib

/-- `ALIGN_U32`: every index and every size is a multiple of it. -/
abbrev freeListAlign : ℕ := 16

/-- The free blocks of a heap, by place and by length, and the bump region. -/
structure FreeList where
  /-- The number of bytes managed, not rounded. -/
  capacity : ℕ
  freeBlockIndexToLen : SortedMap ℕ ℕ
  freeBlockLenToIndices : SortedMap ℕ (SortedSet ℕ)
  bumpPtr : ℕ
  bumpEnd : ℕ
  deriving DecidableEq

/-- A size and an alignment, which is a power of two. -/
structure Layout where
  size : ℕ
  align : ℕ
  isPowerOfTwo : ∃ k, align = 2 ^ k

/-- The code that the source marks as unreachable. -/
def unreachable {α : Type} : Exec α := throw (.panic "internal error: entered unreachable code")

/-- `debug_assert_eq!(n % ALIGN_U32, 0)`. -/
def assertAligned (n : ℕ) : Exec Unit :=
  ensure (n % freeListAlign = 0) "assertion failed: n % ALIGN_U32 == 0"

/-- A number in the format `#x`. -/
def hex (n : ℕ) : String := "0x" ++ String.ofList (Nat.toDigits 16 n)

/-- `blocks_are_contiguous`: whether the next block starts where the previous ends,
up to the slop of less than one granule. -/
def blocksAreContiguous (prevIndex prevLen nextIndex : ℕ) : Exec Bool := do
  let endOfPrev ← addU32 prevIndex prevLen
  ensure (nextIndex ≥ endOfPrev)
    (s!"overlapping blocks: \n\t prev_index = {hex prevIndex}\n\t   prev_len = {hex prevLen}\n" ++
      s!"\tend_of_prev = {hex endOfPrev}\n\t next_index = {hex nextIndex}\n" ++
      "`next_index` should be >= `end_of_prev`")
  let delta ← subU32 nextIndex endOfPrev
  pure (decide (delta < freeListAlign))

namespace FreeList

/-- The aligned allocation size for a byte size. -/
def alignedSize (size : ℕ) : Option ℕ :=
  if size + freeListAlign ≤ u32Max then
    some (roundDown (size + freeListAlign - 1) freeListAlign)
  else none

/-- A list over `capacity` bytes, all of them in the bump region. -/
def new (capacity : ℕ) : FreeList :=
  let start := freeListAlign
  let finish := min capacity u32Max
  let len := roundDown (finish - start) freeListAlign
  { capacity
    freeBlockIndexToLen := .empty
    freeBlockLenToIndices := .empty
    bumpPtr := start
    bumpEnd := if len ≥ freeListAlign then start + len else start }

variable (f : FreeList)

/-- The number of free blocks; the bump region counts as one. -/
def numFreeBlocks : ℕ :=
  f.freeBlockIndexToLen.size + if f.bumpEnd > f.bumpPtr then 1 else 0

/-- All free blocks, the bump region included. -/
def iterFreeBlocks : List (ℕ × ℕ) :=
  f.freeBlockIndexToLen.entries ++
    if f.bumpEnd > f.bumpPtr then [(f.bumpPtr, f.bumpEnd - f.bumpPtr)] else []

/-! ## The maps of free blocks -/

/-- Takes a block out of the bucket of its length. -/
def removeFromBlockLenToIndex (buckets : SortedMap ℕ (SortedSet ℕ)) (blockIndex blockLen : ℕ) :
    Exec (SortedMap ℕ (SortedSet ℕ)) :=
  match buckets.get? blockLen with
  | none => unreachable
  | some indices => do
    ensure ((indices.get? blockIndex).isSome) "assertion failed: was_present"
    let indices := indices.erase blockIndex
    pure (if indices.isEmpty then buckets.erase blockLen else buckets.insert blockLen indices)

/-- `entry(len).or_default().insert(index)`. -/
def insertIntoBlockLenToIndex (buckets : SortedMap ℕ (SortedSet ℕ)) (blockIndex blockLen : ℕ) :
    SortedMap ℕ (SortedSet ℕ) :=
  let indices := (buckets.get? blockLen).getD .empty
  buckets.insert blockLen (indices.insert blockIndex ())

/-- Takes a block off the list. -/
def removeBlock (blockIndex blockLen : ℕ) : Exec FreeList := do
  let len ← unwrap (f.freeBlockIndexToLen.get? blockIndex)
    "called `Option::unwrap()` on a `None` value"
  ensure (blockLen = len) "assertion failed: len == len2.unwrap()"
  let freeBlockLenToIndices ←
    removeFromBlockLenToIndex f.freeBlockLenToIndices blockIndex blockLen
  pure { f with
    freeBlockIndexToLen := f.freeBlockIndexToLen.erase blockIndex
    freeBlockLenToIndices }

/-- Gives a block another length. -/
def resizeBlock (blockIndex oldLen newLen : ℕ) : Exec FreeList := do
  let _ ← unwrap (f.freeBlockIndexToLen.get? blockIndex)
    "called `Option::unwrap()` on a `None` value"
  let buckets ← removeFromBlockLenToIndex f.freeBlockLenToIndices blockIndex oldLen
  pure { f with
    freeBlockIndexToLen := f.freeBlockIndexToLen.insert blockIndex newLen
    freeBlockLenToIndices := insertIntoBlockLenToIndex buckets blockIndex newLen }

/-- Puts a block on the list. -/
def insertBlock (blockIndex blockLen : ℕ) : FreeList :=
  { f with
    freeBlockIndexToLen := f.freeBlockIndexToLen.insert blockIndex blockLen
    freeBlockLenToIndices :=
      insertIntoBlockLenToIndex f.freeBlockLenToIndices blockIndex blockLen }

/-! ## Deallocation -/

/-- If the last block ends where the bump region starts, it joins the region. -/
def absorbLast : Exec FreeList :=
  match f.freeBlockIndexToLen.last? with
  | none => pure f
  | some (blockIndex, blockLen) => do
    let blockEnd ← addU32 blockIndex blockLen
    if blockEnd = f.bumpPtr then
      removeBlock { f with bumpPtr := blockIndex } blockIndex blockLen
    else pure f

/-- If a block starts where the bump region ends, it joins the region. -/
def absorbNext : Exec FreeList :=
  match f.freeBlockIndexToLen.get? f.bumpEnd with
  | none => pure f
  | some blockLen => do
    let f ← f.removeBlock f.bumpEnd blockLen
    let bumpEnd ← addU32 f.bumpEnd blockLen
    pure { f with bumpEnd }

/-- The block before `index`, if it touches the block at `index`. -/
def contiguousPrev (index : ℕ) : Exec (Option (ℕ × ℕ)) :=
  match f.freeBlockIndexToLen.below? index with
  | none => pure none
  | some (prevIndex, prevLen) => do
    let contiguous ← blocksAreContiguous prevIndex prevLen index
    pure (if contiguous then some (prevIndex, prevLen) else none)

/-- The block after `index`, if the block at `index` touches it. -/
def contiguousNext (index size : ℕ) : Exec (Option (ℕ × ℕ)) :=
  match f.freeBlockIndexToLen.atLeast? (index + 1) with
  | none => pure none
  | some (nextIndex, nextLen) => do
    let contiguous ← blocksAreContiguous index size nextIndex
    pure (if contiguous then some (nextIndex, nextLen) else none)

/-- Insert a block between the neighbours it touches. -/
def mergeWith (index size : ℕ) :
    Option (ℕ × ℕ) → Option (ℕ × ℕ) → Exec FreeList
  | some (prevIndex, prevLen), some (nextIndex, nextLen) => do
    let f ← f.removeBlock nextIndex nextLen
    let mergedEnd ← addU32 nextIndex nextLen
    let mergedBlockLen ← subU32 mergedEnd prevIndex
    assertAligned mergedBlockLen
    f.resizeBlock prevIndex prevLen mergedBlockLen
  | some (prevIndex, prevLen), none => do
    let mergedEnd ← addU32 index size
    let mergedBlockLen ← subU32 mergedEnd prevIndex
    assertAligned mergedBlockLen
    f.resizeBlock prevIndex prevLen mergedBlockLen
  | none, some (nextIndex, nextLen) => do
    let f ← f.removeBlock nextIndex nextLen
    let mergedEnd ← addU32 nextIndex nextLen
    let mergedBlockLen ← subU32 mergedEnd index
    assertAligned mergedBlockLen
    pure (f.insertBlock index mergedBlockLen)
  | none, none => pure (f.insertBlock index size)

/-- Insert a block away from the bump region, merging it with the block before it and
the block after it where they touch. -/
def mergeBlock (index size : ℕ) : Exec FreeList := do
  let prev ← f.contiguousPrev index
  let next ← f.contiguousNext index size
  f.mergeWith index size prev next

/-- Frees a block: it goes to the bump region or is merged with its neighbours. -/
def deallocImpl (index size : ℕ) : Exec FreeList := do
  assertAligned index
  assertAligned size
  let blockEnd ← addU32 index size
  if blockEnd = f.bumpPtr then
    -- The block is directly below the bump region.
    absorbLast { f with bumpPtr := index }
  else if f.bumpEnd = index then
    -- The block is directly above the bump region.
    absorbNext { f with bumpEnd := blockEnd }
  else do
    let f ← f.mergeBlock index size
    f.absorbLast

/-- Puts the rest of a block back. -/
def insertFreeBlock (index size : ℕ) : Exec FreeList := do
  assertAligned index
  assertAligned size
  f.deallocImpl index size

/-- Frees a block whose size is known to be aligned. -/
def deallocFast (index size : ℕ) : Exec FreeList := do
  assertAligned size
  assertAligned index
  f.deallocImpl index size

/-- The heap has grown. -/
def addCapacity (additional : ℕ) : Exec FreeList :=
  let oldCapRounded := roundDown f.capacity freeListAlign
  let f := { f with capacity := min (f.capacity + additional) usizeMax }
  if u32Max < oldCapRounded then pure f
  else
    -- Indices are not zero, so the first block starts at the first aligned index.
    let index := if oldCapRounded = 0 then freeListAlign else oldCapRounded
    let newCap := roundDown (min f.capacity u32Max) freeListAlign
    if index > newCap then pure f
    else do
      let size ← subU32 newCap index
      assertAligned size
      if size = 0 then pure f
      else f.deallocImpl index size

/-! ## Allocation -/

/-- The first block at least as long as the request, over the buckets that are long
enough. -/
def findBlock (size : ℕ) : List (ℕ × SortedSet ℕ) → Exec (Option (ℕ × ℕ))
  | [] => pure none
  | (blockLen, indices) :: rest => do
    ensure (blockLen ≥ size) "assertion failed: block_len >= alloc_size"
    assertAligned blockLen
    match indices.first? with
    | some (blockIndex, _) => pure (some (blockIndex, blockLen))
    | none => findBlock size rest

/-- Put the bump region back among the blocks. -/
def putBackBump : Exec FreeList := do
  let remainingPtr := f.bumpPtr
  let remaining ← subU32 f.bumpEnd f.bumpPtr
  let f := { f with bumpPtr := freeListAlign, bumpEnd := freeListAlign }
  if remaining ≥ freeListAlign then f.insertFreeBlock remainingPtr remaining else pure f

/-- Make a block the bump region, and allocate from it. -/
def refillBump (size : ℕ) : Exec (FreeList × Option ℕ) := do
  match ← findBlock size (f.freeBlockLenToIndices.rangeFrom size) with
  | none => pure (f, none)
  | some (blockIndex, blockLen) => do
    -- `pop_first` and the removal of an emptied set, then `remove` from the index map.
    let freeBlockLenToIndices ←
      removeFromBlockLenToIndex f.freeBlockLenToIndices blockIndex blockLen
    let blockLen2 ← unwrap (f.freeBlockIndexToLen.get? blockIndex)
      "called `Option::unwrap()` on a `None` value"
    let freeBlockIndexToLen := f.freeBlockIndexToLen.erase blockIndex
    ensure (blockLen = blockLen2) "assertion failed: block_len == block_len2.unwrap()"
    assertAligned blockIndex
    assertAligned blockLen
    ensure (blockLen ≠ 0) "assertion failed: block_len != 0"
    ensure (blockLen ≥ size) "assertion failed: block_len >= alloc_size"
    let bumpPtr ← addU32 blockIndex size
    let bumpEnd ← addU32 blockIndex blockLen
    ensure (blockIndex ≠ 0) "assertion failed: block_index != 0"
    pure ({ f with freeBlockIndexToLen, freeBlockLenToIndices, bumpPtr, bumpEnd },
      some blockIndex)

/-- Allocation when the bump region is too small. -/
def allocSlow (size : ℕ) : Exec (FreeList × Option ℕ) := do
  let f ← f.putBackBump
  f.refillBump size

/-- Takes a block from the bump region, or from the list. -/
def allocImpl (size : ℕ) : Exec (FreeList × Option ℕ) := do
  assertAligned size
  -- `checked_add`: an end beyond `u32` never fits the bump region.
  if f.bumpPtr + size ≤ u32Max ∧ f.bumpPtr + size ≤ f.bumpEnd then do
    ensure (f.bumpPtr ≠ 0) "assertion failed: result != 0"
    assertAligned f.bumpPtr
    pure ({ f with bumpPtr := f.bumpPtr + size }, some f.bumpPtr)
  else f.allocSlow size

/-- Allocates a block whose size is known to be aligned. -/
def allocFast (size : ℕ) : Exec (FreeList × Option ℕ) := do
  assertAligned size
  ensure (size > 0) "assertion failed: alloc_size > 0"
  f.allocImpl size

/-- The block size for a layout. -/
def checkLayout (layout : Layout) : Exec ℕ :=
  if layout.align > freeListAlign then
    throw (.error (s!"requested allocation's alignment of {layout.align} is greater than max " ++
      s!"supported alignment of {freeListAlign}"))
  else if layout.size > u32Max then
    throw (.error "requested allocation's size does not fit in a u32")
  else if roundUp layout.size freeListAlign > u32Max then
    throw (.error (s!"failed to round allocation size of {layout.size} up to next multiple of " ++
      s!"{freeListAlign}"))
  else pure (roundUp layout.size freeListAlign)

/-- Allocates a block for a layout. -/
def alloc (layout : Layout) : Exec (FreeList × Option ℕ) := do
  let size ← checkLayout layout
  f.allocImpl size

/-- Frees the block of a layout. -/
def dealloc (index : ℕ) (layout : Layout) : Exec FreeList :=
  match checkLayout layout with
  | .ok size => f.deallocImpl index size
  | .error _ => throw (.panic "called `Result::unwrap()` on an `Err` value")

end FreeList

end WasmDeps.Gc
