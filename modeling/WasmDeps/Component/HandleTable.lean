import WasmDeps.Lib.Call

/-!
# The component handle table

Every component instance has one table for its handles: resources, streams, futures,
tasks, waitable sets and error contexts.  A handle is one more than the index of its
slot, so that zero is never a handle.  The free slots are chained through the table
itself, from `next` on; the chain ends one past the last slot.

Each operation on a handle first looks the slot up and checks its kind, type and state.
It then reads it (`inspect`), writes through it (`update`) or frees it (`take`).
-/

namespace WasmDeps.Component

open WasmDeps.Lib

/-- Handles stay below this number. -/
def maxHandle : ℕ := 2 ^ 28

/-- The state of a stream or future handle, seen from one component instance. -/
inductive TransmitLocalState
  | write (done : Bool)
  | read (done : Bool)
  /-- A read or write is in progress. -/
  | busy
  deriving DecidableEq, Repr

/-- An index used to access a resource: a handle together with the type it is used at. -/
inductive TypedResourceIndex
  | host (index : ℕ)
  | component (index ty : ℕ)
  deriving DecidableEq, Repr

namespace TypedResourceIndex

/-- The number that the guest passed. -/
def rawIndex : TypedResourceIndex → ℕ
  | host index => index
  | component index _ => index

/-- The word for the kind of a resource. -/
def desc : TypedResourceIndex → String
  | host _ => "host resource"
  | component _ _ => "guest-defined resource"

end TypedResourceIndex

/-- The message for a handle that is used with another type. -/
def resourceTypeMismatch (expected : TypedResourceIndex) (found : String) : String :=
  "handle index " ++ toString expected.rawIndex ++ " used with the wrong type, " ++
    "expected " ++ expected.desc ++ " but found " ++ found

/-- A resource: of the host, or of a component and then with its type. -/
inductive TypedResource
  | host (rep : ℕ)
  | component (rep ty : ℕ)
  deriving DecidableEq, Repr

/-- The representation, if the resource is accessed at its own type. -/
def TypedResource.rep (r : TypedResource) (accessTy : TypedResourceIndex) : Exec ℕ :=
  match r, accessTy with
  | .host rep, .host _ => pure rep
  | .host _, expected => throw (.error (resourceTypeMismatch expected "host resource"))
  | .component rep ty, .component _ expected =>
    if ty = expected then pure rep
    else throw (.error (resourceTypeMismatch accessTy "a different guest-defined resource"))
  | .component _ _, expected =>
    throw (.error (resourceTypeMismatch expected "guest-defined resource"))

/-- What removing a resource gives: an owned one's representation, or a borrow's scope. -/
inductive RemovedResource
  | own (rep : ℕ)
  | borrow (scope : ℕ)
  deriving DecidableEq, Repr

/-- The handles that can be waited for. -/
inductive Waitable
  | subtask (isHost : Bool)
  | future
  | stream
  deriving DecidableEq, Repr

/-- One slot of the table. -/
inductive Slot
  /-- A free slot, and the next one on the free list. -/
  | free (next : ℕ)
  /-- An owned resource, and how often it is lent out. -/
  | resourceOwn (resource : TypedResource) (lendCount : ℕ)
  /-- A borrowed resource, and the call scope it belongs to. -/
  | resourceBorrow (resource : TypedResource) (scope : ℕ)
  | hostTask (rep : ℕ)
  | guestTask (rep : ℕ)
  | guestThread (rep : ℕ)
  | stream (ty rep : ℕ) (state : TransmitLocalState)
  | future (ty rep : ℕ) (state : TransmitLocalState)
  | waitableSet (rep : ℕ)
  | errorContext (rep : ℕ)
  deriving DecidableEq, Repr

/-- The next slot on the free list. -/
def Slot.freeNext : Slot → Option ℕ
  | free next => some next
  | _ => none

/-- The table: its slots, and the head of the free list. -/
structure HandleTable where
  next : ℕ
  slots : List Slot
  deriving DecidableEq, Repr

namespace HandleTable

def default : HandleTable := ⟨0, []⟩

/-! ## Primitives -/

/-- The first half of an insertion: with no free slot left, a new one is pushed.
`reserve` says whether the allocator has room for it. -/
def growSlots (reserve : Bool) : Call HandleTable PUnit := do
  let t ← Call.get
  if t.next = t.slots.length then
    let next ← Call.lift (addU32 t.next 1)
    if reserve then Call.set { t with slots := t.slots ++ [.free next] }
    else Call.bail "out of memory"
  else pure ⟨⟩

/-- The second half: the slot is stored at the head of the free list, which moves on. -/
def fillNext (slot : Slot) : Call HandleTable ℕ := do
  let t ← Call.get
  match t.slots[t.next]? with
  | some (.free next) =>
    Call.set { next := next, slots := t.slots.set t.next slot }
    Call.lift (addU32 t.next 1)
  | some _ => Call.lift (throw (.panic "internal error: entered unreachable code"))
  | none => Call.lift (throw (.panic "index out of bounds"))

/-- Puts a slot's content on the first free slot and returns its handle. -/
def insert (slot : Slot) (reserve : Bool) : Call HandleTable ℕ := do
  let t ← Call.get
  let handle ← Call.lift (addU32 t.next 1)
  if maxHandle ≤ handle then Call.bail "cannot allocate another handle: index overflow"
  else do
    growSlots reserve
    fillNext slot

variable (idx : ℕ)

/-- Handles start at one. -/
def handleIndexToTableIndex : Option ℕ :=
  if 1 ≤ idx then some (idx - 1) else none

/-- The content at a handle that is in use. -/
def lookup? (t : HandleTable) (idx : ℕ) : Option Slot :=
  match (handleIndexToTableIndex idx).bind fun i => t.slots[i]? with
  | none | some (.free _) => none
  | some slot => some slot

/-- The content at a handle, or the error for an unknown one. -/
def getMut : Call HandleTable Slot := do
  let t ← Call.get
  match t.lookup? idx with
  | none => Call.bail ("unknown handle index " ++ toString idx)
  | some slot => pure slot

/-- Write through the reference that `getMut` returns. -/
def store (slot : Slot) : Call HandleTable PUnit := do
  let t ← Call.get
  Call.set { t with slots := t.slots.set (idx - 1) slot }

/-- Put a handle's slot at the head of the free list. -/
def remove : Call HandleTable PUnit := do
  let toFill := Slot.free (← Call.get).next
  let _ ← getMut idx
  store idx toFill
  let t ← Call.get
  Call.set { t with next := idx - 1 }

/-! ## Shapes of operations -/

variable {α : Type}

/-- Reads a slot. -/
def inspect (idx : ℕ) (view : Slot → Exec α) : Call HandleTable α := do
  let slot ← getMut idx
  Call.lift (view slot)

/-- Reads a slot and frees it. -/
def take (idx : ℕ) (view : Slot → Exec α) : Call HandleTable α := do
  let ret ← inspect idx view
  remove idx
  pure ret

/-- Reads a slot and writes it back. -/
def update (idx : ℕ) (view : Slot → Exec (α × Slot)) : Call HandleTable α := do
  let ret ← inspect idx view
  store idx ret.2
  pure ret.1

/-! ## Resources -/

/-- Inserts an owned resource, which is not lent out. -/
def resourceOwnInsert (resource : TypedResource) (reserve : Bool) : Call HandleTable ℕ :=
  insert (.resourceOwn resource 0) reserve

/-- Inserts a borrow that belongs to a call's scope. -/
def resourceBorrowInsert (resource : TypedResource) (scope : ℕ) (reserve : Bool) :
    Call HandleTable ℕ :=
  insert (.resourceBorrow resource scope) reserve

/-- The representation of a resource, owned or borrowed. -/
def resourceRep (idx : TypedResourceIndex) : Call HandleTable ℕ :=
  inspect idx.rawIndex fun
    | .resourceOwn resource _ | .resourceBorrow resource _ => resource.rep idx
    | _ => throw (.error "index is not a resource")

/-- The representation of a resource that is lent, and whether it is an `own` handle,
whose lend count then goes up. -/
def resourceLend (idx : TypedResourceIndex) : Call HandleTable (ℕ × Bool) :=
  update idx.rawIndex fun
    | .resourceOwn resource lendCount => do
      let rep ← resource.rep idx
      let lendCount ← addU32 lendCount 1
      pure ((rep, true), .resourceOwn resource lendCount)
    | .resourceBorrow resource scope => do
      let rep ← resource.rep idx
      pure ((rep, false), .resourceBorrow resource scope)
    | _ => throw (.error ("index " ++ toString idx.rawIndex ++ " is not a resource"))

/-- Takes back one lending of an owned resource. -/
def resourceUndoLend (idx : TypedResourceIndex) : Call HandleTable PUnit :=
  update idx.rawIndex fun
    | .resourceOwn resource lendCount => do
      let lendCount ← subU32 lendCount 1
      pure (⟨⟩, .resourceOwn resource lendCount)
    | _ => throw (.error ("index " ++ toString idx.rawIndex ++ " is not an own resource"))

/-- What removing a slot gives; an owned resource that is lent out cannot be removed. -/
def removedResource (idx : TypedResourceIndex) : Slot → Exec RemovedResource
  | .resourceOwn resource lendCount =>
    if lendCount ≠ 0 then throw (.error "cannot remove owned resource while borrowed")
    else do
      let rep ← resource.rep idx
      pure (.own rep)
  | .resourceBorrow resource scope => do
    let _ ← resource.rep idx
    pure (.borrow scope)
  | _ => throw (.error ("index " ++ toString idx.rawIndex ++ " is not a resource"))

/-- Removes a resource from the table. -/
def removeResource (idx : TypedResourceIndex) : Call HandleTable RemovedResource :=
  take idx.rawIndex (removedResource idx)

/-! ## Streams and futures

The operations on streams and on futures are the same up to their slots and the word in
their messages. -/

/-- The two kinds of transmission. -/
inductive TransmitKind
  | stream
  | future
  deriving DecidableEq, Repr

namespace TransmitKind

def name : TransmitKind → String
  | stream => "stream"
  | future => "future"

def slot : TransmitKind → (ty rep : ℕ) → TransmitLocalState → Slot
  | stream => .stream
  | future => .future

/-- The representation and state of a slot of this kind and of the expected type. -/
def view (k : TransmitKind) (expectedTy : ℕ) : Slot → Exec (ℕ × TransmitLocalState)
  | .stream ty rep state =>
    if k ≠ stream then throw (.error ("handle is not a " ++ k.name))
    else if ty ≠ expectedTy then
      throw (.error ("handle is a " ++ k.name ++ " of a different type"))
    else pure (rep, state)
  | .future ty rep state =>
    if k ≠ future then throw (.error ("handle is not a " ++ k.name))
    else if ty ≠ expectedTy then
      throw (.error ("handle is a " ++ k.name ++ " of a different type"))
    else pure (rep, state)
  | _ => throw (.error ("handle is not a " ++ k.name))

/-- What removing the read end returns: the representation, and whether it was done. -/
def readable (k : TransmitKind) (expectedTy : ℕ) (slot : Slot) : Exec (ℕ × Bool) := do
  let (rep, state) ← k.view expectedTy slot
  match state with
  | .read done => pure (rep, done)
  | .write _ => throw (.error ("handle is not a readable end of a " ++ k.name))
  | .busy => throw (.error ("cannot remove busy " ++ k.name))

/-- The writing end of a stream or future, as dropping it requires. -/
def writable (k : TransmitKind) (expectedTy : ℕ) (slot : Slot) : Exec ℕ := do
  let (rep, state) ← k.view expectedTy slot
  match state with
  | .write _ => pure rep
  | .read _ => throw (.error ("passed read end to `" ++ k.name ++ ".drop-writable`"))
  | .busy => throw (.error ("cannot drop busy " ++ k.name))

/-- Access the state of a handle; `write` is what the caller does to it. -/
def access (k : TransmitKind) (expectedTy idx : ℕ)
    (write : TransmitLocalState → TransmitLocalState) :
    Call HandleTable (ℕ × TransmitLocalState) :=
  update idx fun slot => do
    let (rep, state) ← k.view expectedTy slot
    pure ((rep, state), k.slot expectedTy rep (write state))

end TransmitKind

/-- Inserts the reading end of a stream. -/
def streamInsertRead (ty rep : ℕ) (reserve : Bool) : Call HandleTable ℕ :=
  insert (.stream ty rep (.read false)) reserve

/-- Inserts the writing end of a stream. -/
def streamInsertWrite (ty rep : ℕ) (reserve : Bool) : Call HandleTable ℕ :=
  insert (.stream ty rep (.write false)) reserve

/-- The representation and state of a stream, whose state the caller may write. -/
def streamRep (expectedTy idx : ℕ) (write : TransmitLocalState → TransmitLocalState) :
    Call HandleTable (ℕ × TransmitLocalState) :=
  TransmitKind.stream.access expectedTy idx write

/-- Removes the reading end of a stream. -/
def streamRemoveReadable (expectedTy idx : ℕ) : Call HandleTable (ℕ × Bool) :=
  take idx (TransmitKind.stream.readable expectedTy)

/-- Removes the writing end of a stream. -/
def streamRemoveWritable (expectedTy idx : ℕ) : Call HandleTable ℕ :=
  take idx (TransmitKind.stream.writable expectedTy)

/-- Inserts the reading end of a future. -/
def futureInsertRead (ty rep : ℕ) (reserve : Bool) : Call HandleTable ℕ :=
  insert (.future ty rep (.read false)) reserve

/-- Inserts the writing end of a future. -/
def futureInsertWrite (ty rep : ℕ) (reserve : Bool) : Call HandleTable ℕ :=
  insert (.future ty rep (.write false)) reserve

/-- Looks a future up and writes its state back. -/
def futureRep (expectedTy idx : ℕ) (write : TransmitLocalState → TransmitLocalState) :
    Call HandleTable (ℕ × TransmitLocalState) :=
  TransmitKind.future.access expectedTy idx write

/-- Removes the reading end of a future. -/
def futureRemoveReadable (expectedTy idx : ℕ) : Call HandleTable (ℕ × Bool) :=
  take idx (TransmitKind.future.readable expectedTy)

/-- Removes the writing end of a future. -/
def futureRemoveWritable (expectedTy idx : ℕ) : Call HandleTable ℕ :=
  take idx (TransmitKind.future.writable expectedTy)

/-! ## Error contexts, subtasks, waitable sets and threads -/

/-- The representation of an error context. -/
def errorContextView : Slot → Exec ℕ
  | .errorContext rep => pure rep
  | _ => throw (.error "handle is not an error-context")

variable (rep : ℕ)

def errorContextInsert (reserve : Bool) : Call HandleTable ℕ :=
  insert (.errorContext rep) reserve

def errorContextRep : Call HandleTable ℕ := inspect idx errorContextView

def errorContextDrop : Call HandleTable ℕ := take idx errorContextView

/-- The representation of a subtask, and whether it is a host task. -/
def subtaskView : Slot → Exec (ℕ × Bool)
  | .guestTask rep => pure (rep, false)
  | .hostTask rep => pure (rep, true)
  | _ => throw (.error "handle is not a subtask")

/-- Inserts a subtask that a guest carries out. -/
def subtaskInsertGuest (reserve : Bool) : Call HandleTable ℕ :=
  insert (.guestTask rep) reserve

/-- Inserts a subtask that the host carries out. -/
def subtaskInsertHost (reserve : Bool) : Call HandleTable ℕ :=
  insert (.hostTask rep) reserve

/-- A subtask's representation, and whether it is the host's. -/
def subtaskRep : Call HandleTable (ℕ × Bool) := inspect idx subtaskView

/-- Removes a subtask. -/
def subtaskRemove : Call HandleTable (ℕ × Bool) := take idx subtaskView

def waitableSetInsert (reserve : Bool) : Call HandleTable ℕ :=
  insert (.waitableSet rep) reserve

/-- The representation of a waitable set; the message has the source's article. -/
def waitableSetRep : Call HandleTable ℕ :=
  inspect idx fun
    | .waitableSet rep => pure rep
    | _ => throw (.error "handle is not an waitable-set")

/-- Removes a waitable set. -/
def waitableSetRemove : Call HandleTable ℕ :=
  take idx fun
    | .waitableSet rep => pure rep
    | _ => throw (.error "handle is not a waitable-set")

/-- What a handle that is waited for stands for. -/
def waitableRep : Call HandleTable (ℕ × Waitable) :=
  inspect idx fun
    | .guestTask rep => pure (rep, .subtask false)
    | .hostTask rep => pure (rep, .subtask true)
    | .future _ rep _ => pure (rep, .future)
    | .stream _ rep _ => pure (rep, .stream)
    | _ => throw (.error "handle is not a waitable")

/-- The representation of a guest's thread. -/
def guestThreadView : Slot → Exec ℕ
  | .guestThread rep => pure rep
  | _ => throw (.error "handle is not a guest thread")

/-- Insert a guest thread; threads have a table of their own. -/
def guestThreadInsert (reserve : Bool) : Call HandleTable ℕ :=
  insert (.guestThread rep) reserve

def guestThreadRep : Call HandleTable ℕ := inspect idx guestThreadView

def guestThreadRemove : Call HandleTable ℕ := take idx guestThreadView

end HandleTable

end WasmDeps.Component
