import WasmDeps.Lib.Exec
import Mathlib.Data.Nat.Bitwise

/-!
# Entity lists and their pool

An `EntityList` is an index into a pool that holds the elements of many lists.  A list is kept
in a block whose size is a power of two and is not stored: it is computed again from the length
of the list.  The first element of a block is the length, encoded as an entity.  Blocks that are
not in use are on the free list of their size class, linked through their second element.
-/

namespace WasmDeps.Entity

open Lib

/-- Entity references with a reserved value. -/
class EntityRef (T : Type) where
  new : ℕ → T
  index : T → ℕ
  reservedValue : T
  index_new : ∀ n, n < u32Max → index (new n) = n

instance : EntityRef UInt32 where
  new := UInt32.ofNat
  index := UInt32.toNat
  reservedValue := 4294967295
  index_new n h := UInt32.toNat_ofNat_of_lt (h.trans (by decide))

variable {T : Type} [EntityRef T]

/-- `EntityRef::new` with its debug assertion. -/
def newRef (n : ℕ) : Exec T := do
  ensure (n < u32Max) "assertion failed: index < ($crate::__core::u32::MAX as usize)"
  pure (EntityRef.new n)

/-! ## Vectors -/

def outOfBounds (len i : ℕ) : String :=
  "index out of bounds: the len is " ++ toString len ++ " but the index is " ++ toString i

/-- Reads an element, with the panic of an index out of bounds. -/
def readAt {α : Type} (data : List α) (i : ℕ) : Exec α :=
  unwrap data[i]? (outOfBounds data.length i)

/-- Writes an element, with the panic of an index out of bounds. -/
def writeAt {α : Type} (data : List α) (i : ℕ) (x : α) : Exec (List α) := do
  ensure (i < data.length) (outOfBounds data.length i)
  pure (data.set i x)

/-- What slicing a vector out of bounds says. -/
def sliceOutOfBounds (len i : ℕ) : String :=
  "range end index " ++ toString i ++ " out of range for slice of length " ++ toString len

/-- Reads a part of the data. -/
def readSlice {α : Type} (data : List α) (i n : ℕ) : Exec (List α) := do
  ensure (i + n ≤ data.length) (sliceOutOfBounds data.length (i + n))
  pure ((data.drop i).take n)

/-- `data[i..i + xs.len()].copy_from_slice(xs)`. -/
def writeSlice {α : Type} (data : List α) (i : ℕ) (xs : List α) : Exec (List α) := do
  ensure (i + xs.length ≤ data.length) (sliceOutOfBounds data.length (i + xs.length))
  pure (data.take i ++ xs ++ data.drop (i + xs.length))

/-- `for i in (lo..lo + n).rev() { data[i] = data[i - count] }`. -/
def copyUp {α : Type} (count lo : ℕ) : ℕ → List α → Exec (List α)
  | 0, data => pure data
  | n + 1, data => do
    let x ← readAt data (lo + n - count)
    let data ← writeAt data (lo + n) x
    copyUp count lo n data

/-- `for i in lo..lo + n { data[i] = data[i + 1] }`. -/
def copyDown {α : Type} : ℕ → ℕ → List α → Exec (List α)
  | _, 0, data => pure data
  | lo, n + 1, data => do
    let x ← readAt data (lo + 1)
    let data ← writeAt data lo x
    copyDown (lo + 1) n data

/-- The bounds of a range, `core::ops::Bound`. -/
inductive Bound
  | included (x : ℕ)
  | excluded (x : ℕ)
  | unbounded

/-- The first index of a range. -/
def Bound.start : Bound → ℕ
  | included x => x
  | excluded x => x + 1
  | unbounded => 0

/-- The end of a range of a list of length `len`. -/
def Bound.stop (len : ℕ) : Bound → ℕ
  | included x => x + 1
  | excluded x => x
  | unbounded => len

/-! ## Size classes -/

/-- The number of elements in a block of a size class. -/
def sclassSize (sclass : ℕ) : ℕ := 4 <<< sclass

/-- The zeros before the first one bit, of 32. -/
def leadingZeros (n : ℕ) : ℕ := if n = 0 then 32 else 31 - n.log2

/-- The size class for a list of length `len`. -/
def sclassForLength (len : ℕ) : ℕ := 30 - leadingZeros (len % 2 ^ 32 ||| 3)

/-- The length is the least of its size class, so that a shorter list has a smaller block. -/
def isSclassMinLength (len : ℕ) : Bool := 3 < len && len.isPowerOfTwo

/-! ## The pool -/

/-- The pool that holds the elements of many lists. -/
structure ListPool (T : Type) where
  data : List T
  /-- The field `free`: heads of the free lists, one for each size class. -/
  heads : List ℕ
  deriving DecidableEq, Repr

/-- A list: where its elements start, or zero. -/
structure EntityList where
  index : ℕ
  deriving DecidableEq, Repr

namespace ListPool

def new : ListPool T := ⟨[], []⟩

variable (pool : ListPool T)

/-- `len_of`.  The index before zero is not in the vector. -/
def lenOf (list : EntityList) : Option ℕ :=
  if list.index = 0 then none else (pool.data[list.index - 1]?).map EntityRef.index

/-- Takes a block off the free list of its class, or a new one at the end. -/
def alloc (sclass : ℕ) : Exec (ℕ × ListPool T) := do
  let head := pool.heads.getD sclass 0
  if head > 0 then
    let next ← readAt pool.data head
    pure (head - 1, { pool with heads := pool.heads.set sclass (EntityRef.index next) })
  else
    pure (pool.data.length,
      { pool with data := pool.data ++ List.replicate (sclassSize sclass) EntityRef.reservedValue })

/-- Puts a block on the free list of its class. -/
def free (block sclass : ℕ) : Exec (ListPool T) := do
  let heads := if pool.heads.length ≤ sclass then
      pool.heads ++ List.replicate (sclass + 1 - pool.heads.length) 0
    else pool.heads
  let zero ← newRef 0
  let data ← writeAt pool.data block zero
  let head ← readAt heads sclass
  let next ← newRef head
  let data ← writeAt data (block + 1) next
  pure ⟨data, heads.set sclass (block + 1)⟩

/-- The copy that `realloc` makes through `mut_slices`: the lower slice ends where the upper
block starts. -/
def copyBlock (block newBlock n : ℕ) : Exec (ListPool T) := do
  if block < newBlock then
    ensure (block + n ≤ newBlock) (sliceOutOfBounds (newBlock - block) n)
  else
    ensure (newBlock + n ≤ block) (sliceOutOfBounds (block - newBlock) n)
  let old ← readSlice pool.data block n
  let data ← writeSlice pool.data newBlock old
  pure { pool with data := data }

/-- Moves a list to a block of another class. -/
def realloc (block fromSclass toSclass elemsToCopy : ℕ) :
    Exec (ℕ × ListPool T) := do
  ensure (elemsToCopy ≤ sclassSize fromSclass)
    "assertion failed: elems_to_copy <= sclass_size(from_sclass)"
  ensure (elemsToCopy ≤ sclassSize toSclass)
    "assertion failed: elems_to_copy <= sclass_size(to_sclass)"
  let (newBlock, pool) ← pool.alloc toSclass
  let pool ← if elemsToCopy > 0 then pool.copyBlock block newBlock elemsToCopy else pure pool
  let pool ← pool.free block fromSclass
  pure (newBlock, pool)

/-- `data[i] = T::new(n)`, the length field of a block. -/
def setLen (block len : ℕ) : Exec (ListPool T) := do
  let x ← newRef len
  let data ← writeAt pool.data block x
  pure { pool with data := data }

end ListPool

/-! ## Lists -/

namespace EntityList

def new : EntityList := ⟨0⟩

/-- The list whose block is `block`: `(block + 1) as u32`. -/
def ofBlock (block : ℕ) : EntityList := ⟨(block + 1) % 2 ^ 32⟩

variable (list : EntityList)

variable (pool : ListPool T)

/-- The elements of a list. -/
def asSlice : Exec (List T) :=
  match pool.lenOf list with
  | none => pure []
  | some len => readSlice pool.data list.index len

/-- A change made through `as_mut_slice`. -/
def modifySlice (f : List T → Exec (List T)) :
    Exec (ListPool T) := do
  let seq ← list.asSlice pool
  let seq ← f seq
  let data ← writeSlice pool.data list.index seq
  pure { pool with data := data }

/-- A new list with the given elements. -/
def fromSlice (slice : List T) (pool : ListPool T) : Exec (EntityList × ListPool T) := do
  if slice.length = 0 then
    pure (new, pool)
  else
    let (block, pool) ← pool.alloc (sclassForLength slice.length)
    let pool ← pool.setLen block slice.length
    let data ← writeSlice pool.data (block + 1) slice
    pure (ofBlock block, { pool with data := data })

/-- A copy of a list in a block of its own. -/
def deepClone : Exec (EntityList × ListPool T) := do
  match pool.lenOf list with
  | none => pure (new, pool)
  | some len =>
    let (block, pool) ← pool.alloc (sclassForLength len)
    let pool ← pool.setLen block len
    let src ← readSlice pool.data list.index len
    let data ← writeSlice pool.data (block + 1) src
    pure (ofBlock block, { pool with data := data })

/-- Frees the list's block. -/
def clear : Exec (EntityList × ListPool T) := do
  match pool.lenOf list with
  | none =>
    ensure (list.index = 0) "assertion `left == right` failed: Invalid pool"
    pure (new, pool)
  | some len =>
    let pool ← pool.free (list.index - 1) (sclassForLength len)
    pure (new, pool)

/-- `take`: the new list, and what is left. -/
def take : EntityList × EntityList := (list, new)

/-- The block that `push`, `grow`, `remove_last` and `truncate` go on with: if the size class
changes, a new one that the given number of elements is copied to. -/
def blockFor (changes : Bool)
    (fromSclass toSclass elemsToCopy : ℕ) : Exec (ℕ × EntityList × ListPool T) := do
  if changes then
    let (block, pool) ← pool.realloc (list.index - 1) fromSclass toSclass elemsToCopy
    pure (block, ofBlock block, pool)
  else
    pure (list.index - 1, list, pool)

/-- Appends an element. -/
def push (element : T) (pool : ListPool T) :
    Exec (ℕ × EntityList × ListPool T) := do
  match pool.lenOf list with
  | none =>
    ensure (list.index = 0) "assertion `left == right` failed: Invalid pool"
    let (block, pool) ← pool.alloc (sclassForLength 1)
    let pool ← pool.setLen block 1
    let data ← writeAt pool.data (block + 1) element
    pure (0, ofBlock block, { pool with data := data })
  | some len =>
    let newLen := len + 1
    let sclass := sclassForLength len
    let (block, list, pool) ←
      list.blockFor pool (isSclassMinLength newLen) sclass (sclass + 1) (len + 1)
    let data ← writeAt pool.data (block + newLen) element
    let pool ← ({ pool with data := data } : ListPool T).setLen block newLen
    pure (len, list, pool)

/-- `grow`, without the slice it returns. -/
def grow (count : ℕ) (pool : ListPool T) :
    Exec (EntityList × ListPool T) := do
  match pool.lenOf list with
  | none =>
    ensure (list.index = 0) "assertion `left == right` failed: Invalid pool"
    if count = 0 then
      pure (list, pool)
    else
      let (block, pool) ← pool.alloc (sclassForLength count)
      let pool ← pool.setLen block count
      pure (ofBlock block, pool)
  | some len =>
    let sclass := sclassForLength len
    let newLen := len + count
    let newSclass := sclassForLength newLen
    let (block, list, pool) ←
      list.blockFor pool (newSclass ≠ sclass) sclass newSclass (len + 1)
    let pool ← pool.setLen block newLen
    pure (list, pool)

/-- The loop of `extend` over an iterator that does not know its length. -/
def pushAll (list : EntityList) : List T → ListPool T → Exec (EntityList × ListPool T)
  | [], pool => pure (list, pool)
  | x :: xs, pool => do
    let (_, list, pool) ← list.push x pool
    pushAll list xs pool

/-- `extend`; `sized` says whether the size hint of the iterator is exact. -/
def extend (elements : List T) (sized : Bool) (pool : ListPool T) :
    Exec (EntityList × ListPool T) := do
  if sized then
    let (list, pool) ← list.grow elements.length pool
    let pool ← list.modifySlice pool fun data => do
      let offset ← subU32 data.length elements.length
      writeSlice data offset elements
    pure (list, pool)
  else
    pushAll list elements pool

/-- Puts an element at an index and shifts the later ones up. -/
def insert (index : ℕ) (element : T) (pool : ListPool T) :
    Exec (EntityList × ListPool T) := do
  let (_, list, pool) ← list.push element pool
  let pool ← list.modifySlice pool fun seq => do
    if index < seq.length then
      let tail ← copyUp 1 1 (seq.length - index - 1) (seq.drop index)
      let tail ← writeAt tail 0 element
      pure (seq.take index ++ tail)
    else
      ensure (index = seq.length) "assertion `left == right` failed"
      pure seq
  pure (list, pool)

/-- Removes the last element. -/
def removeLast (len : ℕ) (pool : ListPool T) :
    Exec (EntityList × ListPool T) := do
  if len = 1 then
    list.clear pool
  else
    ensure (0 < list.index) "attempt to subtract with overflow"
    let sclass := sclassForLength len
    let (block, list, pool) ←
      list.blockFor pool (isSclassMinLength len) sclass (sclass - 1) len
    let newLen ← subU32 len 1
    let pool ← pool.setLen block newLen
    pure (list, pool)

/-- Removes the element at an index and shifts the later ones down. -/
def remove (index : ℕ) (pool : ListPool T) :
    Exec (EntityList × ListPool T) := do
  let seq ← list.asSlice pool
  let len := seq.length
  ensure (index < len) "assertion failed: index < len"
  let pool ← list.modifySlice pool (copyDown index (len - 1 - index))
  list.removeLast len pool

/-- Puts the last element in the place of the removed one. -/
def swapRemove (index : ℕ) (pool : ListPool T) :
    Exec (EntityList × ListPool T) := do
  let seq ← list.asSlice pool
  let len := seq.length
  ensure (index < len) "assertion failed: index < len"
  let pool ← if index ≠ len - 1 then
      list.modifySlice pool fun seq => do
        let a ← readAt seq index
        let b ← readAt seq (len - 1)
        let seq ← writeAt seq index b
        writeAt seq (len - 1) a
    else pure pool
  list.removeLast len pool

/-- Shortens the list to `newLen` elements. -/
def truncate (newLen : ℕ) (pool : ListPool T) :
    Exec (EntityList × ListPool T) := do
  if newLen = 0 then
    list.clear pool
  else
    match pool.lenOf list with
    | none => pure (list, pool)
    | some len =>
      if len ≤ newLen then
        pure (list, pool)
      else
        let sclass := sclassForLength len
        let newSclass := sclassForLength newLen
        let (block, list, pool) ←
          list.blockFor pool (sclass ≠ newSclass) sclass newSclass (newLen + 1)
        let pool ← pool.setLen block newLen
        pure (list, pool)

/-- Makes room for `count` elements at an index. -/
def growAt (index count : ℕ) (pool : ListPool T) :
    Exec (EntityList × ListPool T) := do
  let (list, pool) ← list.grow count pool
  let pool ← list.modifySlice pool fun data =>
    copyUp count (index + count) (data.length - (index + count)) data
  pure (list, pool)

/-- The length of a list. -/
def len : ℕ := (pool.lenOf list).getD 0

/-- Copies a slice from an entity list in the same pool to a position in this one. -/
def copyFrom (list other : EntityList) (lo hi : Bound) (index : ℕ) (pool : ListPool T) :
    Exec (EntityList × ListPool T) := do
  ensure (index ≤ list.len pool) "attempted to copy a slice out of bounds of `self`"
  ensure (list.index ≠ other.index)
    "assertion `left != right` failed: cannot copy within one `EntityList`"
  let otherLen := other.len pool
  let start ← addUsize lo.start other.index
  let stop ← addUsize (hi.stop otherLen) other.index
  let count ← subUsize stop start
  ensure (count ≤ otherLen) "attempted to copy a slice from out of bounds of `other`"
  let (list, pool) ← list.growAt index count pool
  let slice ← readSlice pool.data start count
  let data ← writeSlice pool.data (index + list.index) slice
  pure (list, { pool with data := data })

end EntityList

end WasmDeps.Entity
