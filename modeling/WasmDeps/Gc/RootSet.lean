import WasmDeps.Gc.GcRef
import WasmDeps.Lib.Slab

/-!
# The roots that an embedder holds

A store keeps two kinds of roots for the references its embedder holds.  *Scoped* roots
live on a stack that is cut back when a scope is exited; a handle to one carries the
position on the stack and the generation in which it was pushed.  *Owned* roots live in a
slab until every handle is dropped; the handles share a reference count, the store keeps a
weak reference to it, the root's *liveness flag*, and from time to time removes the roots
whose flag is dead.
-/

namespace WasmDeps.Gc

open WasmDeps.Lib

def i31Ref (n : ℕ) : VMGcRef := ⟨2 * n + 1, by omega⟩

/-! ## Handles -/

/-- A position on the stack of scoped roots or an id in the slab of owned ones, packed into
32 bits.  The high bit says which; the lower 31 bits are the payload. -/
structure PackedIndex where
  bits : ℕ
  deriving DecidableEq

namespace PackedIndex

/-- The bit that tells owned roots from the others. -/
abbrev discriminantMask : ℕ := 2147483648

/-- The index of a root on the stack of scopes. -/
def newLifo (index : ℕ) : Exec PackedIndex := do
  ensure (index ≤ u32Max) "called `Result::unwrap()` on an `Err` value: TryFromIntError(())"
  ensure (index / discriminantMask = 0) "assertion `left == right` failed"
  pure ⟨index⟩

/-- The index of an owned root. -/
def newOwned (id : ℕ) : Exec PackedIndex := do
  ensure (id / discriminantMask = 0) "assertion `left == right` failed"
  pure ⟨discriminantMask + id⟩

def isLifo (p : PackedIndex) : Bool := p.bits / discriminantMask = 0

/-- The index without its kind. -/
def payload (p : PackedIndex) : ℕ := p.bits % discriminantMask

def asLifo (p : PackedIndex) : Option ℕ := if p.isLifo then some p.payload else none

def asOwned (p : PackedIndex) : Option ℕ := if p.isLifo then none else some p.payload

variable {index id : ℕ} {p : PackedIndex}

theorem newLifo_eq_ok (h : newLifo index = .ok p) : p.asLifo = some index := by
  obtain ⟨_, -, h⟩ := Exec.bind_eq_ok.mp h
  obtain ⟨_, hmask, h⟩ := Exec.bind_eq_ok.mp h
  obtain rfl : (⟨index⟩ : PackedIndex) = p := by simpa using h
  by_cases hlt : index / discriminantMask = 0
  · have hmod : index % discriminantMask = index := by rw [discriminantMask] at hlt ⊢; omega
    simp [asLifo, isLifo, payload, hlt, hmod]
  · simp [hlt] at hmask

theorem newOwned_eq_ok (h : newOwned id = .ok p) : p.asLifo = none ∧ p.asOwned = some id := by
  obtain ⟨_, hmask, h⟩ := Exec.bind_eq_ok.mp h
  obtain rfl : (⟨discriminantMask + id⟩ : PackedIndex) = p := by simpa using h
  by_cases hlt : id / discriminantMask = 0
  · have hmod : (discriminantMask + id) % discriminantMask = id := by
      rw [discriminantMask] at hlt ⊢; omega
    simp [asLifo, asOwned, isLifo, payload, hmod]
  · simp [hlt] at hmask

end PackedIndex

/-- The index of a root in the root set of a particular store. -/
structure GcRootIndex where
  storeId : ℕ
  /-- The generation of a scoped root; zero for an owned one. -/
  generation : ℕ
  /-- Where in the store's root set it is. -/
  index : PackedIndex
  deriving DecidableEq

/-! ## The root set -/

/-- A root on the stack, and the generation it was made in. -/
structure LifoRoot where
  generation : ℕ
  gcRef : VMGcRef
  deriving DecidableEq

/-- A weak reference to a shared count, and the slab id of the root that it tells about. -/
structure LivenessFlag where
  flag : ℕ
  index : ℕ
  deriving DecidableEq

/-- The roots that the embedder holds. -/
structure RootSet where
  ownedRooted : Slab VMGcRef
  livenessFlags : List LivenessFlag
  /-- The number of flags at which they are trimmed. -/
  livenessTrimHighWater : Option ℕ
  lifoRoots : List LifoRoot
  lifoGeneration : ℕ

namespace RootSet

def empty : RootSet where
  ownedRooted := Slab.empty
  livenessFlags := []
  livenessTrimHighWater := none
  lifoRoots := []
  lifoGeneration := 0

/-- A scope is where the stack was when it was entered. -/
def enterLifoScope (r : RootSet) : ℕ := r.lifoRoots.length

/-- `generation + 1`: with overflow checks it panics at the end of the `u32` range, without
them it wraps around. -/
def nextGeneration (overflowChecks : Bool) (generation : ℕ) : Exec ℕ :=
  if overflowChecks then addU32 generation 1 else pure ((generation + 1) % (u32Max + 1))

/-- Exit a scope that has roots: a new generation, and the stack is cut back.  Returns the
references that the drop barrier of the GC store, if there is one, is run for. -/
def exitLifoScopeSlow (overflowChecks gcStore : Bool) (r : RootSet) (scope : ℕ) :
    Exec (RootSet × List VMGcRef) := do
  let generation ← nextGeneration overflowChecks r.lifoGeneration
  let dropped := if gcStore then (r.lifoRoots.drop scope).map LifoRoot.gcRef else []
  pure ({ r with lifoGeneration := generation, lifoRoots := r.lifoRoots.take scope }, dropped)

/-- Drops the roots of a scope. -/
def exitLifoScope (overflowChecks gcStore : Bool) (r : RootSet) (scope : ℕ) :
    Exec (RootSet × List VMGcRef) :=
  if scope < r.lifoRoots.length then exitLifoScopeSlow overflowChecks gcStore r scope
  else pure (r, [])

/-- Puts a root on the stack. -/
def pushLifoRoot (r : RootSet) (storeId : ℕ) (gcRef : VMGcRef) :
    Exec (GcRootIndex × RootSet) := do
  let index ← PackedIndex.newLifo r.lifoRoots.length
  pure (⟨storeId, r.lifoGeneration, index⟩,
    { r with lifoRoots := r.lifoRoots ++ [⟨r.lifoGeneration, gcRef⟩] })

abbrev defaultHighWater : ℕ := 8

/-- How much larger than the number of live roots the high-water mark is. -/
abbrev growthFactor : ℕ := 2

/-- Keep the flags whose count is not zero, and take the roots of the others out of the
slab.  Returns the references taken out. -/
def retain (strongCount : ℕ → ℕ) :
    List LivenessFlag → Slab VMGcRef → Exec (List LivenessFlag × Slab VMGcRef × List VMGcRef)
  | [], roots => pure ([], roots, [])
  | f :: flags, roots =>
    if strongCount f.flag = 0 then do
      let roots' ← roots.dealloc f.index
      let (kept, roots'', dropped) ← retain strongCount flags roots'
      pure (kept, roots'', (roots.get? f.index).toList ++ dropped)
    else do
      let (kept, roots', dropped) ← retain strongCount flags roots
      pure (f :: kept, roots', dropped)

/-- The number of flags at which the next trim that is not eager looks at them. -/
def highWaterMark (r : RootSet) : ℕ := r.livenessTrimHighWater.getD defaultHighWater

/-- Trim stale owned roots; unless `eager`, only when there are many flags.  Returns the
references that the drop barrier is run for. -/
def trimLivenessFlags (strongCount : ℕ → ℕ) (r : RootSet) (eager : Bool) :
    Exec (RootSet × List VMGcRef) :=
  if eager = false ∧ r.livenessFlags.length < r.highWaterMark then pure (r, [])
  else do
    let (kept, roots, dropped) ← retain strongCount r.livenessFlags r.ownedRooted
    let mark := max defaultHighWater (min usizeMax (kept.length * growthFactor))
    let trimmed :=
      { r with
        ownedRooted := roots
        livenessFlags := kept
        livenessTrimHighWater := some mark }
    pure (trimmed, dropped)

end RootSet

/-! ## The store -/

/-- What rooting touches of a store. -/
structure StoreOpaque where
  id : ℕ
  /-- Whether the GC heap has been allocated.  References to `i31`s do not need one. -/
  gcStore : Bool
  gcRoots : RootSet

/-- The reference that a handle stands for; `none` if it has been unrooted. -/
def GcRootIndex.getGcRef (root : GcRootIndex) (store : StoreOpaque) : Exec (Option VMGcRef) := do
  ensure (root.storeId = store.id) "object used with wrong store"
  match root.index.asLifo with
  | some index =>
    match store.gcRoots.lifoRoots[index]? with
    | some entry =>
      pure (if entry.generation = root.generation then some entry.gcRef else none)
    | none => pure none
  | none =>
    match root.index.asOwned with
    | some id => pure (store.gcRoots.ownedRooted.get? id)
    | none => throw (.panic "internal error: entered unreachable code")

/-- Trim stale owned roots, if there is a GC store to run the drop barriers of. -/
def StoreOpaque.trimGcLivenessFlags (strongCount : ℕ → ℕ) (store : StoreOpaque) (eager : Bool) :
    Exec StoreOpaque :=
  if store.gcStore then do
    let (roots, _) ← store.gcRoots.trimLivenessFlags strongCount eager
    pure { store with gcRoots := roots }
  else pure store

/-- An owned root: where it is, and the shared count of its handles. -/
structure OwnedRooted where
  inner : GcRootIndex
  livenessFlag : ℕ
  deriving DecidableEq

/-- Make an owned root, whose handles share the count `livenessFlag`.  The slab may be
unable to grow. -/
def OwnedRooted.new (strongCount : ℕ → ℕ) (store : StoreOpaque) (outOfMemory : Bool)
    (livenessFlag : ℕ) (gcRef : VMGcRef) :
    Exec (Except StoreOpaque (OwnedRooted × StoreOpaque)) := do
  let store ← store.trimGcLivenessFlags strongCount false
  if outOfMemory then pure (.error store)
  else do
    let roots := store.gcRoots
    let id := roots.ownedRooted.nextId
    let roots :=
      { roots with
        ownedRooted := roots.ownedRooted.alloc gcRef
        livenessFlags := roots.livenessFlags ++ [⟨livenessFlag, id⟩] }
    let index ← PackedIndex.newOwned id
    pure (.ok (⟨⟨store.id, 0, index⟩, livenessFlag⟩, { store with gcRoots := roots }))

end WasmDeps.Gc
