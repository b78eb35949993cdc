import WasmDeps.Lib.Call
import WasmDeps.Lib.Slab
import WasmDeps.Types.WasmTypes

/-!
# The type registry of an engine

Recursion groups are hash-consed: a group canonicalised for hash consing is looked up, and
a group seen before is reused.  Entries are reference counted.  Their counters are atomics
outside of the registry's lock; everything else is behind it.

The state holds what all threads share: the registry, the counters, the live
`RegisteredType` handles and `TypeCollection`s, and the entries that some thread saw
reaching zero registrations and has not unregistered yet.  An operation that holds the lock
does not stop other threads from cloning and dropping handles: before each of its accesses
to a counter it lets the other threads run the lock-free steps that the schedule gives.
The schedule also says which allocations fail.

An entry object is named by its position in `TypeRegistryInner.entries`, which holds every
entry ever made.  Capacities of the arenas are not modelled: a reservation is an allocation
that may fail, and what was reserved is there.  One capacity is: whether the trampoline map
was ever given space decides whether removing an entry drains the drop stack early.
-/

namespace WasmDeps.Types

open Lib TypeTrace

/-- The place of an entry among all entries that were ever made. -/
abbrev EntryId := ℕ

/-- The parts of an entry that never change once it is initialised. -/
structure RecGroupEntry where
  hashConsingKey : List WasmSubType
  sharedTypeIndices : List ℕ
  deriving DecidableEq, Repr

/-- The layout of a GC type, which is a function of its definition and stands for it. -/
abbrev GcLayout := WasmCompositeInnerType

/-- What the registry's lock protects. -/
structure TypeRegistryInner where
  entries : List RecGroupEntry
  hashConsingMap : List EntryId
  /-- The registered types, canonicalised for runtime usage; `some none` while the type's
  group is being inserted. -/
  types : Slab (Option WasmSubType)
  typeToRecGroup : ℕ → Option EntryId
  /-- The supertypes of each type that declares one, the root of its hierarchy first. -/
  typeToSupertypes : ℕ → Option (List ℕ)
  /-- The trampoline type of each function type that is not its own. -/
  typeToTrampoline : ℕ → Option ℕ
  /-- Whether the trampoline map was ever given space. -/
  trampolineSpace : Bool
  typeToGcLayout : ℕ → Option GcLayout
  /-- Entries that are about to be removed, the next one first. -/
  dropStack : List EntryId

namespace TypeRegistryInner

def empty : TypeRegistryInner where
  entries := []
  hashConsingMap := []
  types := Slab.empty
  typeToRecGroup := fun _ => none
  typeToSupertypes := fun _ => none
  typeToTrampoline := fun _ => none
  trampolineSpace := false
  typeToGcLayout := fun _ => none
  dropStack := []

variable (s : TypeRegistryInner)

/-- The hash-consing key of an entry. -/
def key (e : EntryId) : List WasmSubType :=
  (s.entries.getD e ⟨[], []⟩).hashConsingKey

/-- The engine-wide indices of the types of an entry. -/
def indices (e : EntryId) : List ℕ :=
  (s.entries.getD e ⟨[], []⟩).sharedTypeIndices

/-- The entry of the hash-consing map with key `k`. -/
def lookup (k : List WasmSubType) : Option EntryId :=
  s.hashConsingMap.find? fun e => s.key e = k

/-- The supertypes of a type, the most general one first. -/
def supertypes (i : ℕ) : List ℕ := (s.typeToSupertypes i).getD []

/-- The type at an index, once it has been filled in. -/
def type? (i : ℕ) : Option WasmSubType := (s.types.get? i).join

/-- The entries that an entry's types refer to, once for each reference. -/
def edges (e : EntryId) : List EntryId :=
  (traceEngineIndices (s.key e)).filterMap s.typeToRecGroup

/-- The entries of the trampoline types of an entry's types. -/
def trampolines (e : EntryId) : List EntryId :=
  (s.indices e).filterMap fun i => (s.typeToTrampoline i).bind s.typeToRecGroup

/-- All that an entry keeps a registration of. -/
def refs (e : EntryId) : List EntryId := s.edges e ++ s.trampolines e

end TypeRegistryInner

/-- A handle that keeps a type registered. -/
structure RegisteredType where
  entry : EntryId
  index : ℕ
  deriving DecidableEq, Repr

/-- What a module holds: its recursion groups, and for each of its types the engine's index. -/
structure TypeCollection where
  recGroups : List EntryId
  types : List ℕ
  /-- The module's recursion groups as they were given to the registry; kept for
  specification only. -/
  moduleTypes : List (List WasmSubType)
  deriving DecidableEq, Repr

/-- What a thread does to a handle without taking the lock. -/
inductive LockFree
  | clone (h : RegisteredType)
  /-- `RegisteredType::drop`, up to the decrement. -/
  | drop (h : RegisteredType)
  deriving DecidableEq, Repr

/-- What is outside of the control of an operation that holds the lock. -/
structure Schedule where
  /-- The steps other threads take before each of the next accesses to a counter. -/
  others : List (List LockFree)
  /-- Which of the next allocations fail. -/
  failures : List Bool

/-- The state that all threads of an engine share. -/
structure TypeRegistry where
  inner : TypeRegistryInner
  registrations : EntryId → ℕ
  /-- The flag of each entry that says that it was removed. -/
  unregistered : EntryId → Bool
  gcRuntime : Bool
  handles : List RegisteredType
  collections : List TypeCollection
  /-- Entries that a thread dropped to zero and has yet to call `unregister_entry` for. -/
  dropping : List EntryId
  /-- What other threads and the allocator will do. -/
  schedule : Schedule
  /-- The entries that were removed, one for each removal; kept for specification only. -/
  removed : List EntryId

variable (s : TypeRegistry)

/-- The registrations that handles and collections hold. -/
def TypeRegistry.held : List EntryId :=
  s.handles.map RegisteredType.entry ++ s.collections.flatMap TypeCollection.recGroups

/-- A handle, a collection or a registered group holds a registration of an entry. -/
def TypeRegistry.IsHeld (e : EntryId) : Prop :=
  e ∈ s.held ∨ ∃ e' ∈ s.inner.hashConsingMap, e ∈ s.inner.refs e'

instance (s : TypeRegistry) (e : EntryId) : Decidable (s.IsHeld e) :=
  inferInstanceAs (Decidable (_ ∨ _))

variable (gcRuntime : Bool)

/-- The registry of a new engine. -/
def TypeRegistry.init : TypeRegistry where
  inner := TypeRegistryInner.empty
  registrations := fun _ => 0
  unregistered := fun _ => false
  gcRuntime := gcRuntime
  handles := []
  collections := []
  dropping := []
  schedule := ⟨[], []⟩
  removed := []

/-! ## Accesses to the state -/

def modify (f : TypeRegistry → TypeRegistry) : Call TypeRegistry Unit := do
  let s ← Call.get
  Call.set (f s)

def modifyInner (f : TypeRegistryInner → TypeRegistryInner) : Call TypeRegistry Unit :=
  modify fun s => { s with inner := f s.inner }

/-- An assertion on the state. -/
def check (p : Prop) [Decidable p] (msg : String) : Call TypeRegistry Unit :=
  Call.lift (ensure p msg)

/-- An allocation, which fails if the schedule says so. -/
def alloc : Call TypeRegistry Unit := do
  let s ← Call.get
  match s.schedule.failures with
  | [] => pure ()
  | fails :: rest => do
    Call.set { s with schedule := { s.schedule with failures := rest } }
    if fails then Call.bail "out of memory" else pure ()

/-- The entry's counter is set to `n`. -/
def TypeRegistry.setRegistrations (e : EntryId) (n : ℕ) : TypeRegistry :=
  { s with registrations := Function.update s.registrations e n }

variable (e : EntryId)

/-- The atomic decrement of an entry's registrations; true if they reached zero. -/
def fetchSub : Call TypeRegistry Bool := do
  let s ← Call.get
  check (s.registrations e ≠ 0) "old_count != 0"
  Call.set (s.setRegistrations e (s.registrations e - 1))
  pure (s.registrations e = 1)

/-- A lock-free step of another thread, which must own the handle. -/
def LockFree.run (op : LockFree) : Call TypeRegistry Unit := do
  let s ← Call.get
  match op with
  | .clone h =>
    if h ∈ s.handles then
      modify fun s =>
        { s.setRegistrations h.entry (s.registrations h.entry + 1) with
          handles := h :: s.handles }
    else pure ()
  | .drop h =>
    if h ∈ s.handles then do
      modify fun s => { s with handles := s.handles.erase h }
      let zero ← fetchSub h.entry
      if zero then modify fun s => { s with dropping := h.entry :: s.dropping } else pure ()
    else pure ()

/-- Let the other threads run until the next access to a counter. -/
def interfere : Call TypeRegistry Unit := do
  let s ← Call.get
  match s.schedule.others with
  | [] => pure ()
  | ops :: rest => do
    Call.set { s with schedule := { s.schedule with others := rest } }
    ops.forM LockFree.run

/-- Adds one registration, after whatever other threads do. -/
def incref : Call TypeRegistry Unit := do
  interfere
  modify fun s => s.setRegistrations e (s.registrations e + 1)

/-- Takes one registration away and says whether it was the last. -/
def decref : Call TypeRegistry Bool := do
  interfere
  fetchSub e

/-- Reads the counter, as other threads have left it. -/
def loadRegistrations : Call TypeRegistry ℕ := do
  interfere
  let s ← Call.get
  pure (s.registrations e)

/-- Run `body`; if it fails with an `Err`, run `rollback` and fail. -/
def undo {α : Type} (rollback : Call TypeRegistry Unit) (body : Call TypeRegistry α) :
    Call TypeRegistry α :=
  ⟨fun s =>
    match body.run s with
    | (.error (.error msg), t) => (rollback >>= fun _ => Call.bail msg).run t
    | r => r⟩

/-! ## Assertions about registered types -/

variable (i : ℕ)

/-- The assertion that an index is registered: it has a type and an entry. -/
def debugAssertRegistered : Call TypeRegistry Unit := do
  let s ← Call.get
  check ((s.inner.types.get? i).isSome) "registry's slab should contain the index"
  check ((s.inner.type? i).isSome) "registry's slab should actually contain a type"
  check ((s.inner.typeToRecGroup i).isSome) "should have an associated rec group entry"

/-- The same for all types of an entry. -/
def debugAssertAllRegistered : Call TypeRegistry Unit := do
  let s ← Call.get
  (s.inner.indices e).forM debugAssertRegistered

variable (ty : WasmSubType)

/-- The assertion that a type refers only to types of the engine, all of them registered. -/
def assertCanonicalized : Call TypeRegistry Unit :=
  (trace ty).forM fun i =>
    match i with
    | .engine i => debugAssertRegistered i
    | _ => Call.lift (throw (.panic "not canonicalized for runtime usage"))

/-- The type registered under an index: `types[id].as_ref().unwrap()`. -/
def typeAt : Call TypeRegistry WasmSubType := do
  let s ← Call.get
  let ty ← Call.lift (unwrap (s.inner.types.get? i) "id from different slab")
  Call.lift (unwrap ty "called Option::unwrap() on a None value")

/-- The entry of a registered type: `type_to_rec_group[index].as_ref().unwrap()`. -/
def entryOf : Call TypeRegistry EntryId := do
  let s ← Call.get
  Call.lift (unwrap (s.inner.typeToRecGroup i) "called Option::unwrap() on a None value")

/-! ## Removal -/

/-- A secondary map without the given keys. -/
def clearKeys {β : Type} (m : ℕ → Option β) (is : List ℕ) : ℕ → Option β :=
  fun j => if j ∈ is then none else m j

/-- Puts an entry on the stack of those whose last registration is gone. -/
def pushToDropStack : Call TypeRegistry Unit :=
  modifyInner fun s => { s with dropStack := e :: s.dropStack }

/-- Forgets the layouts of an entry's types. -/
def removeEntryGcLayouts : Call TypeRegistry Unit :=
  modifyInner fun s => { s with typeToGcLayout := clearKeys s.typeToGcLayout (s.indices e) }

/-- Forgets a type's trampoline type and gives up the registration held of it. -/
def removeTrampoline : Call TypeRegistry Unit := do
  let s ← Call.get
  match s.inner.typeToTrampoline i with
  | none => pure ()
  | some t => do
    modifyInner fun s =>
      { s with typeToTrampoline := Function.update s.typeToTrampoline i none }
    debugAssertRegistered t
    let te ← entryOf t
    let zero ← decref te
    if zero then pushToDropStack te else pure ()

variable (drain : Call TypeRegistry Unit)

/-- `remove_entry_trampolines`; `drain` is `drain_drop_stack`. -/
def removeEntryTrampolines (e : EntryId) :
    Call TypeRegistry Unit := do
  let s ← Call.get
  if s.inner.trampolineSpace then do
    (s.inner.indices e).forM removeTrampoline
    drain
  else pure ()

/-- Forgets the supertypes of an entry's types. -/
def removeEntrySupertypes : Call TypeRegistry Unit :=
  modifyInner fun s => { s with typeToSupertypes := clearKeys s.typeToSupertypes (s.indices e) }

/-- Forgets to which entry an entry's types belong. -/
def removeEntryRecGroups : Call TypeRegistry Unit :=
  modifyInner fun s => { s with typeToRecGroup := clearKeys s.typeToRecGroup (s.indices e) }

/-- Frees the index of one type. -/
def removeType : Call TypeRegistry Unit := do
  let s ← Call.get
  check ((s.inner.types.get? i).isSome) "self.types.contains(id)"
  let types ← Call.lift (s.inner.types.dealloc i)
  modifyInner fun s => { s with types := types }

/-- Frees the indices of an entry's types. -/
def removeEntryTypes : Call TypeRegistry Unit := do
  let s ← Call.get
  (s.inner.indices e).forM removeType

/-- Gives up the registration that an edge of a dropped entry holds. -/
def decrefEdge : Call TypeRegistry Unit := do
  debugAssertRegistered i
  let te ← entryOf i
  let s ← Call.get
  check (s.unregistered te = false) "other_entry.0.unregistered == false"
  let zero ← decref te
  if zero then pushToDropStack te else pure ()

/-- `decref_outgoing_edges`; `drain` is `drain_drop_stack`. -/
def decrefOutgoingEdges (e : EntryId) :
    Call TypeRegistry Unit := do
  let s ← Call.get
  (traceEngineIndices (s.inner.key e)).forM decrefEdge
  drain

/-- `remove_entry_impl`; `drain` is `drain_drop_stack`.  The last assertion is not one of
the source: it says of every removal, wherever it takes place, that nobody holds the
entry. -/
def removeEntryImpl (e : EntryId) (shouldDecref : Bool) :
    Call TypeRegistry Unit := do
  let registrations ← loadRegistrations e
  check (registrations = 0) "entry.0.registrations == 0"
  let s ← Call.get
  check (s.unregistered e = false) "entry.0.unregistered == false"
  check (¬s.IsHeld e) "the entry that is removed is held"
  modify fun s =>
    { s with unregistered := Function.update s.unregistered e true, removed := e :: s.removed }
  modifyInner fun s =>
    { s with hashConsingMap := s.hashConsingMap.filter fun e' => s.key e' ≠ s.key e }
  removeEntryGcLayouts e
  removeEntryTrampolines drain e
  removeEntrySupertypes e
  removeEntryRecGroups e
  removeEntryTypes e
  if shouldDecref then decrefOutgoingEdges drain e else pure ()

/-- `drain_drop_stack` with a bound on the number of removals. -/
def drainWith : ℕ → Call TypeRegistry Unit
  | 0 => do
    let s ← Call.get
    if s.inner.dropStack = [] then pure () else Call.lift (throw .outOfFuel)
  | fuel + 1 => do
    let s ← Call.get
    match s.inner.dropStack with
    | [] => pure ()
    | e :: rest => do
      modifyInner fun s => { s with dropStack := rest }
      debugAssertAllRegistered e
      removeEntryImpl (drainWith fuel) e true
      drainWith fuel

/-- `drain_drop_stack`: each entry is removed at most once, which bounds the loop. -/
def drainDropStack : Call TypeRegistry Unit := do
  let s ← Call.get
  drainWith s.inner.entries.length

/-- Removes an entry whose counter came to zero, with every entry that only it kept. -/
def unregisterEntry : Call TypeRegistry Unit := do
  let s ← Call.get
  check (s.inner.dropStack = []) "self.drop_stack.is_empty()"
  let registrations ← loadRegistrations e
  if registrations ≠ 0 then do
    -- The entry was concurrently resurrected.
    let s ← Call.get
    check (s.unregistered e = false) "entry.0.unregistered == false"
  else do
    let s ← Call.get
    -- The entry may have been resurrected, dropped again and already unregistered.
    if s.unregistered e then pure ()
    else do
      pushToDropStack e
      drainDropStack

/-- Gives up a registration, and unregisters the entry if it was the last. -/
def dropRegistration : Call TypeRegistry Unit := do
  let zero ← decref e
  if zero then unregisterEntry e else pure ()

/-! ## Registration -/

/-- Allocate `n` indices: the loop of `assign_shared_type_indices`. -/
def assignSharedTypeIndices :
    ℕ → Slab (Option WasmSubType) → List ℕ × Slab (Option WasmSubType)
  | 0, s => ([], s)
  | n + 1, s =>
    let rest := assignSharedTypeIndices n (s.alloc none)
    (s.nextId :: rest.1, rest.2)

/-- The allocations that are made before a group's index is. -/
def reserveCapacityForRecGroup : Call TypeRegistry Unit := do
  alloc -- hash_consing_map
  alloc -- types
  alloc -- type_to_rec_group
  let s ← Call.get
  check (s.inner.dropStack = []) "drop_stack.is_empty()"
  alloc -- drop_stack

/-- Make the entry of a new group: assign its indices and initialise the object. -/
def newEntry (key : List WasmSubType) : Call TypeRegistry EntryId := do
  let s ← Call.get
  let assigned := assignSharedTypeIndices key.length s.inner.types
  modifyInner fun s =>
    { s with entries := s.entries ++ [⟨key, assigned.1⟩], types := assigned.2 }
  pure s.inner.entries.length

/-- What `canonicalize_type_for_runtime_usage` asserts of a reference. -/
def checkForRuntimeUsage (start stop : ℕ) (map : List ℕ) (e : EntryId) :
    TypeIndex → Call TypeRegistry Unit
  | .engine _ => pure ()
  | .module m => do
    let s ← Call.get
    if m < start then do
      let i ← Call.lift (unwrap map[m]? "index out of bounds")
      debugAssertRegistered i
    else do
      check (m < stop) "module_index < range.end"
      let i ← Call.lift (unwrap (s.inner.indices e)[m - start]? "index out of bounds")
      check ((s.inner.types.get? i).isSome) "self.types.contains(engine_index)"
  | .recGroup _ =>
    Call.lift (throw (.panic "should not already be canonicalized for hash consing"))

/-- What a reference of a module becomes: before `start` by the module's map, else in the group. -/
def runtimeIndex (start : ℕ) (map indices : List ℕ) : TypeIndex → TypeIndex
  | .module m =>
    if m < start then .engine (map.getD m 0) else .engine (indices.getD (m - start) 0)
  | i => i

/-- The types of a group with every reference turned into one of the engine. -/
def canonicalizeEntryTypes (start stop : ℕ) (map : List ℕ) (e : EntryId)
    (types : List WasmSubType) : Call TypeRegistry (List WasmSubType) := do
  let s ← Call.get
  check (types.length = (s.inner.indices e).length) "sub_tys.len() == shared_type_indices.len()"
  (trace types).forM (checkForRuntimeUsage start stop map e)
  pure (traceMut (runtimeIndex start map (s.inner.indices e)) types)

/-- Adds the registration that an edge of a new entry holds. -/
def increfEdge : Call TypeRegistry Unit := do
  debugAssertRegistered i
  let te ← entryOf i
  let s ← Call.get
  check (s.unregistered te = false) "other_entry.0.unregistered == false"
  incref te

/-- Adds a registration for each reference of an entry's key. -/
def increfOutgoingEdges : Call TypeRegistry Unit := do
  let s ← Call.get
  (traceEngineIndices (s.inner.key e)).forM increfEdge

/-- Fills in the type of an index that was reserved for it. -/
def insertType : Call TypeRegistry Unit := do
  check (isCanonicalizedForRuntimeUsage ty) "sub_ty.is_canonicalized_for_runtime_usage()"
  let s ← Call.get
  check (s.inner.types.get? i = some none) "self.types[id].is_none()"
  alloc
  let s ← Call.get
  let types ← Call.lift (s.inner.types.put i (some ty))
  modifyInner fun s => { s with types := types }

/-- Fills in the types of an entry. -/
def insertEntryTypes (tys : List WasmSubType) : Call TypeRegistry Unit := do
  let s ← Call.get
  check ((s.inner.indices e).length = tys.length) "shared_type_indices.len() == sub_types.len()"
  ((s.inner.indices e).zip tys).forM fun p => insertType p.1 p.2

/-- Records to which entry a type belongs. -/
def insertRecGroup (i : ℕ) : Call TypeRegistry Unit := do
  let s ← Call.get
  check (s.inner.typeToRecGroup i = none) "self.type_to_rec_group[ty].is_none()"
  modifyInner fun s => { s with typeToRecGroup := Function.update s.typeToRecGroup i (some e) }

/-- Records the entry of each of its types. -/
def insertEntryRecGroups : Call TypeRegistry Unit := do
  let s ← Call.get
  (s.inner.indices e).forM (insertRecGroup e)

/-- Records a type's supertypes: those of its declared supertype, and that one. -/
def insertSupertypes : Call TypeRegistry Unit := do
  let ty ← typeAt i
  match ty.supertype with
  | none => pure ()
  | some supertype => do
    alloc -- type_to_supertypes.resize
    let supertype ← Call.lift supertype.unwrapEngineTypeIndex
    alloc -- the list
    modifyInner fun s =>
      { s with
        typeToSupertypes :=
          Function.update s.typeToSupertypes i (some (s.supertypes supertype ++ [supertype])) }

/-- Records the supertypes of an entry's types. -/
def insertEntrySupertypes : Call TypeRegistry Unit := do
  let s ← Call.get
  (s.inner.indices e).forM insertSupertypes

variable (single : WasmSubType → Call TypeRegistry EntryId)

/-- Register one function type's trampoline type; `single` is
`register_singleton_rec_group`. -/
def insertTrampoline (i : ℕ) :
    Call TypeRegistry Unit := do
  let ty ← typeAt i
  match ty.trampolineSubType with
  | none => pure ()
  | some t => do
    alloc -- the trampoline's function type
    alloc -- type_to_trampoline.resize
    modifyInner fun s => { s with trampolineSpace := true }
    let te ← single t
    let s ← Call.get
    check ((s.inner.indices te).length = 1) "shared_type_indices.len() == 1"
    let ti ← Call.lift (unwrap (s.inner.indices te)[0]? "index out of bounds")
    debugAssertRegistered ti
    check (i ≠ ti) "ty_idx != trampoline_index"
    modifyInner fun s =>
      { s with typeToTrampoline := Function.update s.typeToTrampoline i (some ti) }

/-- Records the trampoline types of an entry's function types. -/
def insertEntryTrampolines (e : EntryId) :
    Call TypeRegistry Unit := do
  let s ← Call.get
  (s.inner.indices e).forM (insertTrampoline single)

/-- Whether the engine computes a layout for a definition. -/
def WasmCompositeInnerType.hasGcLayout : WasmCompositeInnerType → Bool
  | array _ | struct _ | exn _ _ => true
  | func _ | cont _ => false

def WasmCompositeInnerType.isFunc : WasmCompositeInnerType → Bool
  | func _ => true
  | _ => false

/-- Records the layout of an array, a struct or an exception, which needs a collector. -/
def insertGcLayout : Call TypeRegistry Unit := do
  let s ← Call.get
  let ty ← typeAt i
  check (ty.compositeType.shared = false) "!sub_ty.composite_type.shared"
  if s.gcRuntime then
    if ty.compositeType.inner.hasGcLayout then do
      alloc -- the layout
      alloc -- type_to_gc_layout.resize
      modifyInner fun s =>
        { s with
          typeToGcLayout := Function.update s.typeToGcLayout i (some ty.compositeType.inner) }
    else pure ()
  else check ty.compositeType.inner.isFunc "matches!(composite_type.inner, Func(_))"

/-- Records the layouts of an entry's types. -/
def insertEntryGcLayouts : Call TypeRegistry Unit := do
  let s ← Call.get
  (s.inner.indices e).forM insertGcLayout

/-- The rollback of `register_new_rec_group`. -/
def rollbackEntry (didIncref : Bool) : Call TypeRegistry Unit := do
  removeEntryImpl drainDropStack e didIncref
  drainDropStack

/-- The fallible insertions of `register_new_rec_group`. -/
def insertEntry (e : EntryId)
    (tys : List WasmSubType) : Call TypeRegistry Unit := do
  insertEntryTypes e tys
  insertEntryRecGroups e
  insertEntrySupertypes e
  insertEntryTrampolines single e
  insertEntryGcLayouts e
  alloc
  let s ← Call.get
  check (s.inner.lookup (s.inner.key e) = none) "is_new_entry"
  modifyInner fun s => { s with hashConsingMap := e :: s.hashConsingMap }
  debugAssertAllRegistered e

/-- `register_new_rec_group`.  Nothing fails between the creation of the entry and the
increments of its outgoing edges, so the first rollback is never taken. -/
def registerNewRecGroup (map : List ℕ)
    (start : ℕ) (key types : List WasmSubType) : Call TypeRegistry EntryId := do
  reserveCapacityForRecGroup
  alloc -- shared_type_indices
  alloc -- the entry object
  let e ← newEntry key
  let tys ← undo (rollbackEntry e false) do
    let tys ← canonicalizeEntryTypes start (start + types.length) map e types
    increfOutgoingEdges e
    pure tys
  undo (rollbackEntry e true) (insertEntry single e tys)
  incref e
  pure e

/-- `register_singleton_rec_group`, with `register_rec_group` as a parameter. -/
def registerSingleton (register : List ℕ → ℕ → List WasmSubType → Call TypeRegistry EntryId)
    (ty : WasmSubType) : Call TypeRegistry EntryId := do
  assertCanonicalized ty
  register [] (u32Max - 1) [ty]

/-- `register_rec_group`, for a group of module types that starts at `start`.  Registering
a group registers its trampoline types, which need no trampoline types of their own: the
fuel bounds that recursion. -/
def registerRecGroup : ℕ → List ℕ → ℕ → List WasmSubType → Call TypeRegistry EntryId
  | 0, _, _, _ => Call.lift (throw .outOfFuel)
  | fuel + 1, map, start, types => do
    alloc
    let key ← Call.lift
      (types.mapM (canonicalizeForHashConsing start (start + types.length) map))
    (traceEngineIndices key).forM debugAssertRegistered
    let s ← Call.get
    match s.inner.lookup key with
    | some e => do
      check (s.unregistered e = false) "entry.0.unregistered == false"
      debugAssertAllRegistered e
      incref e
      pure e
    | none =>
      registerNewRecGroup (registerSingleton (registerRecGroup fuel)) map start key types

/-- Register the groups that are left, after those in `entries`, whose types have the
engine indices `map`: the loop of `register_module_types_impl`. -/
def registerGroups :
    List (List WasmSubType) → List EntryId → List ℕ → Call TypeRegistry (List EntryId × List ℕ)
  | [], entries, map => pure (entries, map)
  | group :: groups, entries, map => do
    let e ← undo (entries.forM dropRegistration) (registerRecGroup 2 map map.length group)
    let s ← Call.get
    registerGroups groups (entries ++ [e]) (map ++ s.inner.indices e)

/-- `register_module_types`, for the recursion groups of a module in order. -/
def registerModuleTypes (groups : List (List WasmSubType)) :
    Call TypeRegistry (List EntryId × List ℕ) := do
  alloc -- entries
  alloc -- map
  registerGroups groups [] []

/-! ## The steps of the threads -/

/-- Registers the types of a module and keeps them in a collection. -/
def registerAndCanonicalizeTypes (groups : List (List WasmSubType)) : Call TypeRegistry Unit := do
  let registered ← registerModuleTypes groups
  modify fun s =>
    { s with collections := ⟨registered.1, registered.2, groups⟩ :: s.collections }

/-- Registers one type, given by the embedder, and makes a handle of it. -/
def newRegisteredType : Call TypeRegistry Unit := do
  assertCanonicalized ty
  let e ← registerSingleton (registerRecGroup 2) ty
  let s ← Call.get
  let index ← Call.lift (unwrap (s.inner.indices e)[0]? "index out of bounds")
  let _ ← typeAt index
  modify fun s => { s with handles := ⟨e, index⟩ :: s.handles }

/-- Makes a handle of a type that is registered already. -/
def rootRegisteredType (index : ℕ) : Call TypeRegistry Unit := do
  debugAssertRegistered index
  let _ ← typeAt index
  let e ← entryOf index
  incref e
  modify fun s => { s with handles := ⟨e, index⟩ :: s.handles }

/-- The assertions on a handle, which may be checked whenever it is live: clones and drops
start with `debug_assert_contains`, and `RegisteredType::from_parts` also checks the
registration count. -/
def debugAssertHandle (h : RegisteredType) : Call TypeRegistry Unit := do
  debugAssertRegistered h.index
  let s ← Call.get
  check (s.registrations h.entry ≠ 0) "entry should have a non-zero registration count"

/-- `TypeCollection::drop`: `unregister_type_collection`. -/
def dropCollection (c : TypeCollection) : Call TypeRegistry Unit := do
  modify fun s => { s with collections := s.collections.erase c }
  c.recGroups.forM fun e => do
    debugAssertAllRegistered e
    dropRegistration e

/-- The second half of dropping a handle, which takes the lock. -/
def finishDrop : Call TypeRegistry Unit := do
  modify fun s => { s with dropping := s.dropping.erase e }
  unregisterEntry e

/-- The atomic steps of the threads. -/
inductive RegistryOp
  /-- Register a module's types under the write lock. -/
  | registerTypes (groups : List (List WasmSubType))
  /-- `RegisteredType::new`, under the write lock. -/
  | newType (ty : WasmSubType)
  /-- `RegisteredType::root`, under the read lock. -/
  | root (index : ℕ)
  /-- The debug assertions on a live handle, under the read lock. -/
  | assertHandle (h : RegisteredType)
  /-- Clone or drop a handle without the lock. -/
  | lockFree (op : LockFree)
  /-- The `unregister_entry` call of a thread that dropped an entry to zero. -/
  | unregister (e : EntryId)
  /-- Drop a type collection, under the write lock. -/
  | dropTypes (c : TypeCollection)

/-- What an operation calls. -/
def RegistryOp.call : RegistryOp → Call TypeRegistry Unit
  | registerTypes groups => registerAndCanonicalizeTypes groups
  | newType ty => newRegisteredType ty
  | root index => rootRegisteredType index
  | assertHandle h => debugAssertHandle h
  | lockFree op => op.run
  | unregister e => finishDrop e
  | dropTypes c => dropCollection c

/-! ## What the callers promise -/

/-- The engine can hold the type: it is not shared, and needs no collector that is missing. -/
def WasmSubType.isSupported : Bool :=
  !ty.compositeType.shared && (gcRuntime || ty.compositeType.inner.isFunc)

def WasmValType.isConcreteExn : WasmValType → Bool
  | ref ⟨_, .concreteExn _⟩ => true
  | _ => false

def WasmFieldType.valTypes (f : WasmFieldType) : List WasmValType :=
  match f.elementType with
  | .val v => [v]
  | _ => []

/-- The value types that stand in a composite type. -/
def WasmCompositeInnerType.valTypes : WasmCompositeInnerType → List WasmValType
  | array a => a.valTypes
  | func f => f.paramsResults
  | struct fields => fields.flatMap WasmFieldType.valTypes
  | cont _ => []
  | exn _ fields => fields.flatMap WasmFieldType.valTypes

/-- A valid type of a module at the given index, in a group that ends at `stop`: it refers
to types up to the end of the group, its supertype comes before it, and it has no concrete
exception types, which only the host can make. -/
def WasmSubType.isValid (stop index : ℕ) (ty : WasmSubType) : Bool :=
  (trace ty).all (fun i => match i with | .module k => k < stop | _ => false) &&
  (match ty.supertype with | some (.module k) => decide (k < index) | _ => true) &&
  ty.isSupported gcRuntime && ty.compositeType.inner.valTypes.all fun v => !v.isConcreteExn

/-- A valid recursion group of a module, or its part from the given index on. -/
def isValidGroup (gcRuntime : Bool) (stop : ℕ) : ℕ → List WasmSubType → Bool
  | _, [] => true
  | index, ty :: types =>
    ty.isValid gcRuntime stop index && isValidGroup gcRuntime stop (index + 1) types

/-- The recursion groups of a valid type section, from the given index on. -/
def isValidSection (gcRuntime : Bool) : ℕ → List (List WasmSubType) → Bool
  | _, [] => true
  | start, group :: groups =>
    isValidGroup gcRuntime (start + group.length) start group &&
      isValidSection gcRuntime (start + group.length) groups

/-- A type that the host can register now: what it refers to is registered. -/
def TypeRegistry.canRegister : Bool :=
  (trace ty).all (fun i => match i with
    | .engine x => (s.inner.typeToRecGroup x).isSome
    | _ => false) && ty.isSupported s.gcRuntime

/-- When an operation may be called: type sections are valid, the types and handles passed
are live, and only who dropped an entry to zero unregisters it. -/
def RegistryOp.allowed : RegistryOp → Bool
  | registerTypes groups => isValidSection s.gcRuntime 0 groups
  | newType ty => s.canRegister ty
  | root index => (s.inner.typeToRecGroup index).isSome
  | assertHandle h => decide (h ∈ s.handles)
  | lockFree (.clone h) | lockFree (.drop h) => decide (h ∈ s.handles)
  | unregister e => decide (e ∈ s.dropping)
  | dropTypes c => decide (c ∈ s.collections)

/-- One operation under a schedule.  An `Err` is returned to the caller. -/
def TypeRegistry.step (op : RegistryOp × Schedule) : Exec TypeRegistry :=
  match op.1.call.run { s with schedule := op.2 } with
  | (.ok _, t) => .ok t
  | (.error (.error _), t) => .ok t
  | (.error f, _) => .error f

/-- All threads of an engine: operations take the lock in any order, and lock-free steps
come between and inside of them. -/
def registryMachine : Machine TypeRegistry (RegistryOp × Schedule) where
  start s := ∃ gcRuntime, s = .init gcRuntime
  allowed s op := op.1.allowed s = true
  step s op := s.step op

instance (s : TypeRegistry) (op : RegistryOp × Schedule) :
    Decidable (registryMachine.allowed s op) :=
  inferInstanceAs (Decidable (op.1.allowed s = true))

/-! ## Subtyping -/

/-- The subtype test by the list of supertypes. -/
def isSubtypeSlow (sub sup : ℕ) : Call TypeRegistry Bool := do
  let s ← Call.get
  let subSupertypes := s.inner.supertypes sub
  let supSupertypes := s.inner.supertypes sup
  pure (subSupertypes[supSupertypes.length]? = some sup)

/-- Whether `sub` is `sup` or one of its subtypes. -/
def isSubtype (sub sup : ℕ) : Call TypeRegistry Bool := do
  debugAssertRegistered sub
  debugAssertRegistered sup
  if sub = sup then pure true else isSubtypeSlow sub sup

end WasmDeps.Types
