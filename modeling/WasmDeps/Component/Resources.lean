import WasmDeps.Component.HandleTable

/-!
# Resource operations of the canonical ABI

A resource operation works on the handle tables of a component's instances, on the
host's own table, and on the call contexts of the active calls.  A call context counts
the borrows handed to its call and lists the owned handles that were lent to it.

Every operation is a `Call`: an operation that fails leaves behind what it did before it
failed.
-/

namespace WasmDeps.Component

open WasmDeps.Lib

/-- What a call has lent and borrowed. -/
structure CallContext where
  lenders : List TypedResourceIndex
  /-- How many borrows the call has been given and has not dropped. -/
  borrowCount : ℕ
  deriving DecidableEq, Repr

def CallContext.default : CallContext := ⟨[], 0⟩

/-! ## Call scopes -/

/-- The task on whose behalf the store runs. -/
inductive CurrentThread
  | guest (task : ℕ)
  | host (task : ℕ)
  | none
  deriving DecidableEq, Repr

/-- A guest or host task, with its call context. -/
structure Task where
  isHost : Bool
  callContext : CallContext
  deriving DecidableEq, Repr

/-- The tasks of a store with concurrency support.  A task is named by its position. -/
structure ConcurrentState where
  currentThread : CurrentThread
  table : List (Option Task)
  deriving DecidableEq, Repr

/-- Where the call contexts of a store are. -/
inductive ComponentTaskState
  /-- A stack of nested calls; the last one is the innermost. -/
  | notConcurrent (scopes : List CallContext)
  /-- One context for each task. -/
  | concurrent (state : ConcurrentState)
  deriving DecidableEq, Repr

namespace ConcurrentState

/-- The call context of a scope: the lowest bit tells host tasks from guest tasks. -/
def callContext (s : ConcurrentState) (id : ℕ) : Exec CallContext :=
  match s.table[id / 2]?.join with
  | none => throw (.error "resource not present")
  | some task =>
    if task.isHost = decide (id % 2 = 1) then pure task.callContext
    else throw (.error "resource is of another type")

/-- The state with the context of one call replaced; the lowest bit says whose call it is. -/
def setCallContext (s : ConcurrentState) (id : ℕ) (cx : CallContext) : ConcurrentState :=
  { s with table := s.table.set (id / 2) (some ⟨decide (id % 2 = 1), cx⟩) }

/-- The identifier of the call that runs, packed into 32 bits. -/
def currentCallContextScopeId (s : ConcurrentState) : Exec ℕ :=
  let pack (bits : ℕ) (isHost : Bool) : Exec ℕ := do
    ensure (bits < 2 ^ 31) "assertion `left == right` failed"
    pure (2 * bits + isHost.toNat)
  match s.currentThread with
  | .guest task => pack task false
  | .host task => pack task true
  | .none => throw (.error "current thread is not set")

end ConcurrentState

namespace ComponentTaskState

/-- The context of a call. -/
def callContext (s : ComponentTaskState) (id : ℕ) : Exec CallContext :=
  match s with
  | notConcurrent scopes => unwrap scopes[id]? "index out of bounds"
  | concurrent state => state.callContext id

/-- The state with the context of one call replaced. -/
def setCallContext (s : ComponentTaskState) (id : ℕ) (cx : CallContext) : ComponentTaskState :=
  match s with
  | notConcurrent scopes => notConcurrent (scopes.set id cx)
  | concurrent state => concurrent (state.setCallContext id cx)

/-- The identifier of the call that runs; without concurrency the innermost scope. -/
def currentCallContextScopeId (s : ComponentTaskState) : Exec ℕ :=
  match s with
  | notConcurrent scopes => do
    let id ← subUsize scopes.length 1
    if id ≤ u32Max then pure id
    else throw (.error "out of range integral type conversion attempted")
  | concurrent state => state.currentCallContextScopeId

variable (s : ComponentTaskState)

/-- `enter_call_not_concurrent`; `reserve` says whether the allocator has room. -/
def enterCallNotConcurrent (reserve : Bool) : Exec ComponentTaskState :=
  match s with
  | notConcurrent scopes =>
    if reserve then pure (notConcurrent (scopes ++ [.default]))
    else throw (.error "out of memory")
  | concurrent _ => throw (.panic "internal error: entered unreachable code")

/-- The innermost scope ends. -/
def exitCallNotConcurrent : Exec ComponentTaskState :=
  match s with
  | notConcurrent scopes => pure (notConcurrent scopes.dropLast)
  | concurrent _ => throw (.panic "internal error: entered unreachable code")

/-- A task is created at a free position of the task table. -/
def pushTask (rep : ℕ) (isHost : Bool) : Exec ComponentTaskState :=
  match s with
  | concurrent state =>
    if rep < state.table.length then
      pure (concurrent { state with table := state.table.set rep (some ⟨isHost, .default⟩) })
    else pure (concurrent { state with table := state.table ++ [some ⟨isHost, .default⟩] })
  | notConcurrent _ => throw (.panic "expected concurrent state to be present")

/-- A task is removed from the concurrent state. -/
def deleteTask (rep : ℕ) : Exec ComponentTaskState :=
  match s with
  | concurrent state =>
    match state.table[rep]?.join with
    | none => throw (.error "resource not present")
    | some _ => pure (concurrent { state with table := state.table.set rep none })
  | notConcurrent _ => throw (.panic "expected concurrent state to be present")

/-- Another thread goes on. -/
def setThread (thread : CurrentThread) : Exec ComponentTaskState :=
  match s with
  | concurrent state => pure (concurrent { state with currentThread := thread })
  | notConcurrent _ => throw (.panic "expected concurrent state to be present")

end ComponentTaskState

/-! ## The tables -/

/-- The tables of the instances of a component. -/
structure GuestTables where
  states : List HandleTable
  /-- The instance whose table holds the resources of a type, if the type is concrete. -/
  types : List (Option ℕ)
  deriving DecidableEq, Repr

/-- All that resource operations work on. -/
structure ResourceTables where
  /-- The tables of the component; absent in operations of the embedder. -/
  guest : Option GuestTables
  hostTable : HandleTable
  taskState : ComponentTaskState
  deriving DecidableEq, Repr

/-- Which of the tables. -/
inductive TableRef
  | host
  | guest (i : ℕ)
  deriving DecidableEq, Repr

def TypedResource.ty? : TypedResource → Option ℕ
  | host _ => none
  | component _ ty => some ty

def TypedResourceIndex.ty? : TypedResourceIndex → Option ℕ
  | host _ => none
  | component _ ty => some ty

namespace ResourceTables

variable (rt : ResourceTables)

/-- The table for a type; host resources have none. -/
def locate : Option ℕ → Exec TableRef
  | none => pure .host
  | some ty => do
    let guest ← unwrap rt.guest "called `Option::unwrap()` on a `None` value"
    let resource ← unwrap guest.types[ty]? "index out of bounds"
    let i ← unwrap resource "not a concrete resource table"
    ensure (i < guest.states.length) "index out of bounds"
    pure (.guest i)

/-- The table of a reference. -/
def table : TableRef → HandleTable
  | .host => rt.hostTable
  | .guest i => ((rt.guest.bind fun g => g.states[i]?).getD .default)

/-- The tables with one of them replaced. -/
def setTable (ref : TableRef) (t : HandleTable) : ResourceTables :=
  match ref with
  | .host => { rt with hostTable := t }
  | .guest i => { rt with guest := rt.guest.map fun g => { g with states := g.states.set i t } }

variable {α : Type}

/-- A call on one of the tables. -/
def onTable (ref : TableRef) (c : Call HandleTable α) : Call ResourceTables α :=
  Call.zoom (fun rt => rt.table ref) (fun rt t => rt.setTable ref t) c

variable (resource : TypedResource)

/-- The table that a resource is put into. -/
def tableForResource : Call ResourceTables TableRef := do
  let rt ← Call.get
  Call.lift (rt.locate resource.ty?)

variable (index : TypedResourceIndex)

/-- The table that an index is looked up in. -/
def tableForIndex : Call ResourceTables TableRef := do
  let rt ← Call.get
  Call.lift (rt.locate index.ty?)

def callContext (id : ℕ) : Call ResourceTables CallContext := do
  let rt ← Call.get
  Call.lift (rt.taskState.callContext id)

def setCallContext (id : ℕ) (cx : CallContext) : Call ResourceTables PUnit := do
  let rt ← Call.get
  Call.set { rt with taskState := rt.taskState.setCallContext id cx }

def currentCallContextScopeId : Call ResourceTables ℕ := do
  let rt ← Call.get
  Call.lift rt.taskState.currentCallContextScopeId

/-! ## The operations -/

/-- Makes an owned handle. -/
def resourceNew (reserve : Bool) : Call ResourceTables ℕ := do
  let ref ← tableForResource resource
  onTable ref (HandleTable.resourceOwnInsert resource reserve)

/-- The representation behind a handle. -/
def resourceRep (index : TypedResourceIndex) : Call ResourceTables ℕ := do
  let ref ← tableForIndex index
  onTable ref (HandleTable.resourceRep index)

/-- A borrow ends: the call it belongs to has one less. -/
def dropBorrow (scope : ℕ) : Call ResourceTables (Option ℕ) := do
  let cx ← callContext scope
  let borrowCount ← Call.lift (subU32 cx.borrowCount 1)
  setCallContext scope { cx with borrowCount := borrowCount }
  pure none

/-- The `resource.drop` intrinsic, without the destructor. -/
def resourceDrop : Call ResourceTables (Option ℕ) := do
  let ref ← tableForIndex index
  match (← onTable ref (HandleTable.removeResource index)) with
  | .own rep => pure (some rep)
  | .borrow scope => dropBorrow scope

/-- `lower_own`: the same as `resourceNew`. -/
def resourceLowerOwn (reserve : Bool) : Call ResourceTables ℕ := do
  let ref ← tableForResource resource
  onTable ref (HandleTable.resourceOwnInsert resource reserve)

/-- `lift_own`: remove an owned handle.  A borrow is removed before it is refused. -/
def resourceLiftOwn : Call ResourceTables ℕ := do
  let ref ← tableForIndex index
  match (← onTable ref (HandleTable.removeResource index)) with
  | .own rep => pure rep
  | .borrow _ => Call.bail "cannot lift own resource from a borrow"

/-- The running call notes the handle that it has lent. -/
def recordLender : Call ResourceTables PUnit := do
  let scope ← currentCallContextScopeId
  let cx ← callContext scope
  setCallContext scope { cx with lenders := cx.lenders ++ [index] }

/-- `lift_borrow`: lend a handle to the current scope. -/
def resourceLiftBorrow : Call ResourceTables ℕ := do
  let ref ← tableForIndex index
  let (rep, isOwn) ← onTable ref (HandleTable.resourceLend index)
  if isOwn then do
    recordLender index
    pure rep
  else pure rep

/-- The running call has one borrow more. -/
def countBorrow : Call ResourceTables ℕ := do
  let scope ← currentCallContextScopeId
  let cx ← callContext scope
  let borrowCount ← Call.lift (addU32 cx.borrowCount 1)
  setCallContext scope { cx with borrowCount := borrowCount }
  pure scope

/-- `lower_borrow`: the borrow is counted first and inserted afterwards. -/
def resourceLowerBorrow (reserve : Bool) : Call ResourceTables ℕ := do
  let scope ← countBorrow
  let ref ← tableForResource resource
  onTable ref (HandleTable.resourceBorrowInsert resource scope reserve)

/-- The `unwrap` of a result: an error becomes a panic. -/
def unwrapErr (c : Call HandleTable PUnit) : Call HandleTable PUnit :=
  ⟨fun t =>
    match c.run t with
    | (.error (.error _), t') =>
      (.error (.panic "called `Result::unwrap()` on an `Err` value"), t')
    | r => r⟩

/-- Takes the lendings of a call back, one after the other. -/
def undoLends : List TypedResourceIndex → Call ResourceTables PUnit
  | [] => pure ⟨⟩
  | lender :: rest => do
    let ref ← tableForIndex lender
    onTable ref (unwrapErr (HandleTable.resourceUndoLend lender))
    undoLends rest

/-- Check that the current scope can be exited, and take back what was lent to it. -/
def validateScopeExit : Call ResourceTables PUnit := do
  let current ← currentCallContextScopeId
  let cx ← callContext current
  if 0 < cx.borrowCount then
    Call.bail "borrow handles still remain at the end of the call"
  else do
    setCallContext current { cx with lenders := [] }
    undoLends cx.lenders

end ResourceTables

end WasmDeps.Component
