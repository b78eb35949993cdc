import WasmDeps.Lib.Exec
import Mathlib.Data.List.Basic

/-!
# WebAssembly types and their references to other types

The type data of the runtime: value, reference and heap types, composite types,
subtypes.  A reference to another type is a `TypeIndex`; which of its three forms a type
uses says how far the type has been canonicalised.

Everything that contains such references implements `TypeTrace`: the references can be
listed in order, and they can be rewritten in place.  The laws that relate the two are
fields of the class.  Concrete exception types are heap types that neither operation
visits.
-/

namespace WasmDeps.Types

open Lib List

/-- An interned type index: `EngineOrModuleTypeIndex`. -/
inductive TypeIndex
  /-- An index within an engine, canonicalised among all modules. -/
  | engine (i : ℕ)
  /-- An index within the current module. -/
  | module (i : ℕ)
  /-- An index within the containing type's recursion group. -/
  | recGroup (i : ℕ)
  deriving DecidableEq, Repr

namespace TypeIndex

/-- The engine-wide index, if the reference is one. -/
def asEngineTypeIndex : TypeIndex → Option ℕ
  | engine i => some i
  | _ => none

/-- The underlying engine-level index, or panic. -/
def unwrapEngineTypeIndex (i : TypeIndex) : Exec ℕ :=
  unwrap i.asEngineTypeIndex "unwrap_engine_type_index"

end TypeIndex

/-- The heap types, with the references that the concrete ones have. -/
inductive WasmHeapType
  | externHeap
  | noExternHeap
  | func
  | concreteFunc (i : TypeIndex)
  | noFunc
  | exn
  | concreteExn (i : TypeIndex)
  | noExn
  | cont
  | concreteCont (i : TypeIndex)
  | noCont
  | any
  | eq
  | i31
  | array
  | concreteArray (i : TypeIndex)
  | struct
  | concreteStruct (i : TypeIndex)
  | none
  deriving DecidableEq, Repr

/-- A reference type. -/
structure WasmRefType where
  nullable : Bool
  heapType : WasmHeapType
  deriving DecidableEq, Repr

/-- The value types. -/
inductive WasmValType
  | i32
  | i64
  | f32
  | f64
  | v128
  | ref (r : WasmRefType)
  deriving DecidableEq, Repr

/-- A function type; parameters and results stand in one list. -/
structure WasmFuncType where
  paramsResults : List WasmValType
  paramsLen : ℕ
  nonI31GcRefParamsCount : ℕ
  nonI31GcRefResultsCount : ℕ
  deriving DecidableEq, Repr

/-- What a field or an array element stores. -/
inductive WasmStorageType
  | i8
  | i16
  | val (v : WasmValType)
  deriving DecidableEq, Repr

/-- The type of a field. -/
structure WasmFieldType where
  elementType : WasmStorageType
  isMutable : Bool
  deriving DecidableEq, Repr

/-- What a type definition defines. -/
inductive WasmCompositeInnerType
  | array (element : WasmFieldType)
  | func (f : WasmFuncType)
  | struct (fields : List WasmFieldType)
  | cont (i : TypeIndex)
  | exn (funcTy : TypeIndex) (fields : List WasmFieldType)
  deriving DecidableEq, Repr

/-- A composite type, and whether it is shared. -/
structure WasmCompositeType where
  inner : WasmCompositeInnerType
  shared : Bool
  deriving DecidableEq, Repr

/-- A type definition with its declared supertype. -/
structure WasmSubType where
  isFinal : Bool
  supertype : Option TypeIndex
  compositeType : WasmCompositeType
  deriving DecidableEq, Repr

/-! ## Tracing references -/

/-- Things whose type references can be listed and rewritten. -/
class TypeTrace (α : Type) where
  trace : α → List TypeIndex
  traceMut : (TypeIndex → TypeIndex) → α → α
  /-- The references of a rewritten thing are the rewritten references. -/
  trace_traceMut : ∀ g x, trace (traceMut g x) = (trace x).map g
  /-- Rewriting twice rewrites by the composition. -/
  traceMut_traceMut : ∀ g h x, traceMut g (traceMut h x) = traceMut (g ∘ h) x
  /-- Rewriting looks at the listed references only. -/
  traceMut_congr : ∀ g h x, (∀ i ∈ trace x, g i = h i) → traceMut g x = traceMut h x
  /-- Rewriting each reference to itself changes nothing. -/
  traceMut_id : ∀ x, traceMut id x = x

open TypeTrace

instance [TypeTrace α] : TypeTrace (List α) where
  trace := fun xs => xs.flatMap trace
  traceMut := fun g xs => xs.map (traceMut g)
  trace_traceMut := by
    intro g xs
    simp [flatMap_map, map_flatMap, trace_traceMut]
  traceMut_traceMut := by
    intro g h xs
    simp [traceMut_traceMut, Function.comp_def]
  traceMut_congr := by
    intro g h xs hgh
    refine map_congr_left fun x hx => traceMut_congr g h x fun i hi => ?_
    exact hgh i (mem_flatMap.mpr ⟨x, hx, hi⟩)
  traceMut_id := by
    intro xs
    have hid : (traceMut id : α → α) = id := funext traceMut_id
    simp [hid]

theorem trace_list [TypeTrace α] (xs : List α) : trace xs = xs.flatMap trace := rfl

theorem traceMut_list [TypeTrace α] (g : TypeIndex → TypeIndex) (xs : List α) :
    traceMut g xs = xs.map (traceMut g) := rfl

/-- References in a heap type; concrete exception types are not visited. -/
def WasmHeapType.trace : WasmHeapType → List TypeIndex
  | concreteArray i => [i]
  | concreteFunc i => [i]
  | concreteStruct i => [i]
  | concreteCont i => [i]
  | _ => []

/-- Rewrites the reference of a heap type; that of an exception stays as it is. -/
def WasmHeapType.traceMut (g : TypeIndex → TypeIndex) : WasmHeapType → WasmHeapType
  | concreteArray i => concreteArray (g i)
  | concreteFunc i => concreteFunc (g i)
  | concreteStruct i => concreteStruct (g i)
  | concreteCont i => concreteCont (g i)
  | h => h

instance : TypeTrace WasmHeapType where
  trace := WasmHeapType.trace
  traceMut := WasmHeapType.traceMut
  trace_traceMut := by
    intro g h
    cases h <;> rfl
  traceMut_traceMut := by
    intro g g' h
    cases h <;> rfl
  traceMut_congr := by
    intro g g' h hgg
    cases h <;> simp_all [WasmHeapType.trace, WasmHeapType.traceMut]
  traceMut_id := by
    intro h
    cases h <;> rfl

instance : TypeTrace WasmRefType where
  trace := fun r => trace r.heapType
  traceMut := fun g r => { r with heapType := traceMut g r.heapType }
  trace_traceMut := fun g r => trace_traceMut g r.heapType
  traceMut_traceMut := by
    intro g h r
    simp [traceMut_traceMut]
  traceMut_congr := by
    intro g h r hgh
    simp [traceMut_congr g h r.heapType hgh]
  traceMut_id := by
    intro r
    simp [traceMut_id]

def WasmValType.trace : WasmValType → List TypeIndex
  | ref r => TypeTrace.trace r
  | _ => []

def WasmValType.traceMut (g : TypeIndex → TypeIndex) : WasmValType → WasmValType
  | ref r => ref (TypeTrace.traceMut g r)
  | v => v

instance : TypeTrace WasmValType where
  trace := WasmValType.trace
  traceMut := WasmValType.traceMut
  trace_traceMut := by
    intro g v
    cases v <;> simp [WasmValType.trace, WasmValType.traceMut, trace_traceMut]
  traceMut_traceMut := by
    intro g h v
    cases v <;> simp [WasmValType.traceMut, traceMut_traceMut]
  traceMut_congr := by
    intro g h v hgh
    cases v with
    | ref r => exact congrArg WasmValType.ref (traceMut_congr g h r hgh)
    | _ => rfl
  traceMut_id := by
    intro v
    cases v <;> simp [WasmValType.traceMut, traceMut_id]

instance : TypeTrace WasmFuncType where
  trace := fun f => trace f.paramsResults
  traceMut := fun g f => { f with paramsResults := traceMut g f.paramsResults }
  trace_traceMut := fun g f => trace_traceMut g f.paramsResults
  traceMut_traceMut := by
    intro g h f
    simp [traceMut_traceMut]
  traceMut_congr := by
    intro g h f hgh
    simp [traceMut_congr g h f.paramsResults hgh]
  traceMut_id := by
    intro f
    simp [traceMut_id]

def WasmStorageType.trace : WasmStorageType → List TypeIndex
  | val v => TypeTrace.trace v
  | _ => []

def WasmStorageType.traceMut (g : TypeIndex → TypeIndex) : WasmStorageType → WasmStorageType
  | val v => val (TypeTrace.traceMut g v)
  | t => t

instance : TypeTrace WasmStorageType where
  trace := WasmStorageType.trace
  traceMut := WasmStorageType.traceMut
  trace_traceMut := by
    intro g t
    cases t <;> simp [WasmStorageType.trace, WasmStorageType.traceMut, trace_traceMut]
  traceMut_traceMut := by
    intro g h t
    cases t <;> simp [WasmStorageType.traceMut, traceMut_traceMut]
  traceMut_congr := by
    intro g h t hgh
    cases t with
    | val v => exact congrArg WasmStorageType.val (traceMut_congr g h v hgh)
    | _ => rfl
  traceMut_id := by
    intro t
    cases t <;> simp [WasmStorageType.traceMut, traceMut_id]

instance : TypeTrace WasmFieldType where
  trace := fun f => trace f.elementType
  traceMut := fun g f => { f with elementType := traceMut g f.elementType }
  trace_traceMut := fun g f => trace_traceMut g f.elementType
  traceMut_traceMut := by
    intro g h f
    simp [traceMut_traceMut]
  traceMut_congr := by
    intro g h f hgh
    simp [traceMut_congr g h f.elementType hgh]
  traceMut_id := by
    intro f
    simp [traceMut_id]

/-- The references of a composite type. -/
def WasmCompositeInnerType.trace : WasmCompositeInnerType → List TypeIndex
  | array a => TypeTrace.trace a
  | func f => TypeTrace.trace f
  | struct fields => TypeTrace.trace fields
  | cont i => [i]
  | exn funcTy fields => funcTy :: TypeTrace.trace fields

/-- Rewrites the references of a composite type. -/
def WasmCompositeInnerType.traceMut (g : TypeIndex → TypeIndex) :
    WasmCompositeInnerType → WasmCompositeInnerType
  | array a => array (TypeTrace.traceMut g a)
  | func f => func (TypeTrace.traceMut g f)
  | struct fields => struct (TypeTrace.traceMut g fields)
  | cont i => cont (g i)
  | exn funcTy fields => exn (g funcTy) (TypeTrace.traceMut g fields)

instance : TypeTrace WasmCompositeInnerType where
  trace := WasmCompositeInnerType.trace
  traceMut := WasmCompositeInnerType.traceMut
  trace_traceMut := by
    intro g t
    cases t <;>
      simp [WasmCompositeInnerType.trace, WasmCompositeInnerType.traceMut, trace_traceMut]
  traceMut_traceMut := by
    intro g h t
    cases t <;> simp [WasmCompositeInnerType.traceMut, traceMut_traceMut]
  traceMut_congr := by
    intro g h t hgh
    cases t with
    | array a => exact congrArg WasmCompositeInnerType.array (traceMut_congr g h a hgh)
    | func f => exact congrArg WasmCompositeInnerType.func (traceMut_congr g h f hgh)
    | struct fs => exact congrArg WasmCompositeInnerType.struct (traceMut_congr g h fs hgh)
    | cont i => exact congrArg WasmCompositeInnerType.cont (hgh i (mem_singleton_self i))
    | exn i fs =>
      have hi : g i = h i := hgh i mem_cons_self
      have hfs := traceMut_congr g h fs fun j hj => hgh j (mem_cons_of_mem i hj)
      simp [WasmCompositeInnerType.traceMut, hi, hfs]
  traceMut_id := by
    intro t
    cases t <;> simp [WasmCompositeInnerType.traceMut, traceMut_id]

instance : TypeTrace WasmSubType where
  trace := fun t => t.supertype.toList ++ trace t.compositeType.inner
  traceMut := fun g t =>
    { t with
      supertype := t.supertype.map g
      compositeType := { t.compositeType with inner := traceMut g t.compositeType.inner } }
  trace_traceMut := by
    intro g t
    cases t.supertype <;> simp [trace_traceMut]
  traceMut_traceMut := by
    intro g h t
    simp [traceMut_traceMut, Function.comp_def]
  traceMut_congr := by
    intro g h t hgh
    have hinner := traceMut_congr g h t.compositeType.inner fun i hi =>
      hgh i (mem_append_right _ hi)
    have hsuper : t.supertype.map g = t.supertype.map h := by
      cases hs : t.supertype with
      | none => rfl
      | some i => simpa using hgh i (by simp [hs])
    simp only [hinner, hsuper]
  traceMut_id := by
    intro t
    simp [traceMut_id]

/-- The engine-level references: `trace_engine_indices`. -/
def traceEngineIndices [TypeTrace α] (x : α) : List ℕ :=
  (trace x).filterMap TypeIndex.asEngineTypeIndex

theorem mem_traceEngineIndices [TypeTrace α] {x : α} {i : ℕ} :
    i ∈ traceEngineIndices x ↔ TypeIndex.engine i ∈ trace x := by
  rw [traceEngineIndices, mem_filterMap]
  constructor
  · rintro ⟨j, hj, hi⟩
    cases j with
    | engine k => simp_all [TypeIndex.asEngineTypeIndex]
    | module k => cases hi
    | recGroup k => cases hi
  · exact fun hi => ⟨_, hi, rfl⟩

theorem traceMut_eq_self [TypeTrace α] {x : α} (h : trace x = []) (g : TypeIndex → TypeIndex) :
    traceMut g x = x := by
  rw [traceMut_congr g id x (by simp [h]), traceMut_id]

variable (g : TypeIndex → TypeIndex)

@[simp] theorem supertype_traceMut (ty : WasmSubType) :
    (traceMut g ty).supertype = ty.supertype.map g := rfl

theorem supertype_mem_trace {ty : WasmSubType} {i : TypeIndex} (h : ty.supertype = some i) :
    i ∈ trace ty := by
  change i ∈ ty.supertype.toList ++ trace ty.compositeType.inner
  simp [h]

/-! ## Canonicalisation -/

/-- What `canonicalize_for_hash_consing` asserts of a reference: inside of the group, or
to a module type that has an engine index. -/
def checkForHashConsing (start stop : ℕ) (map : List ℕ) : TypeIndex → Exec Unit
  | .engine _ => pure ()
  | .module m =>
    if start ≤ m then ensure (m < stop) "module_index < rec_group_range.end"
    else ensure (m < map.length) "index out of bounds"
  | .recGroup _ => throw (.panic "should not already be canonicalized for hash consing")

/-- The form of a reference in a hash-consing key: inside of the group by its place. -/
def hashConsingIndex (start : ℕ) (map : List ℕ) : TypeIndex → TypeIndex
  | .module m => if start ≤ m then .recGroup (m - start) else .engine (map.getD m 0)
  | i => i

/-- `canonicalize_for_hash_consing`, for a group that starts at `start` and ends before
`stop`; `map` gives the engine indices of the module types before the group. -/
def canonicalizeForHashConsing (start stop : ℕ) (map : List ℕ) (ty : WasmSubType) :
    Exec WasmSubType := do
  (trace ty).forM (checkForHashConsing start stop map)
  pure (traceMut (hashConsingIndex start map) ty)

/-- All references are engine-wide. -/
def isCanonicalizedForRuntimeUsage (ty : WasmSubType) : Bool :=
  (trace ty).all fun i => i.asEngineTypeIndex.isSome

/-! ## Trampoline types -/

/-- The top of a heap type's hierarchy, as a heap type. -/
def WasmHeapType.top : WasmHeapType → WasmHeapType
  | externHeap | noExternHeap => externHeap
  | func | concreteFunc _ | noFunc => func
  | cont | concreteCont _ | noCont => cont
  | exn | concreteExn _ | noExn => exn
  | any | eq | i31 | array | concreteArray _ | struct | concreteStruct _ | none => any

/-- Values of the type are references of the collector. -/
def WasmHeapType.isVmgcrefType (h : WasmHeapType) : Bool :=
  h.top = any || h.top = externHeap || h.top = exn

def WasmValType.isVmgcrefTypeAndNotI31 : WasmValType → Bool
  | ref r => r.heapType.isVmgcrefType && r.heapType != .i31
  | _ => false

/-- The type a trampoline uses for a value: references become their nullable top type. -/
def WasmValType.trampolineType : WasmValType → WasmValType
  | ref r => ref { nullable := true, heapType := r.heapType.top }
  | v => v

namespace WasmFuncType

/-- The type of a function, with its counts of collected references. -/
def new (params results : List WasmValType) : WasmFuncType where
  paramsResults := params ++ results
  paramsLen := params.length
  nonI31GcRefParamsCount := params.countP WasmValType.isVmgcrefTypeAndNotI31
  nonI31GcRefResultsCount := results.countP WasmValType.isVmgcrefTypeAndNotI31

variable (f : WasmFuncType)

def params : List WasmValType := f.paramsResults.take f.paramsLen

def results : List WasmValType := f.paramsResults.drop f.paramsLen

/-- Whether the function type can be used by trampolines as it is. -/
def isTrampolineType : Bool :=
  (f.params.all fun p => p = p.trampolineType) && f.results.all fun r => r = r.trampolineType

/-- The version of the type that trampolines use; `none` where it is the type itself, which
the source returns borrowed. -/
def trampolineType (f : WasmFuncType) : Option WasmFuncType :=
  if f.isTrampolineType then none
  else
    some (new (f.params.map WasmValType.trampolineType)
      (f.results.map WasmValType.trampolineType))

end WasmFuncType

namespace WasmSubType

/-- The function type defined, unless the type is shared. -/
def asFunc (ty : WasmSubType) : Option WasmFuncType :=
  if ty.compositeType.shared then none
  else
    match ty.compositeType.inner with
    | .func f => some f
    | _ => none

/-- The trampoline type of a function type, as `insert_entry_trampolines` registers it:
final and without supertype.  `none` for other types and for function types that are their
own trampoline type. -/
def trampolineSubType (ty : WasmSubType) : Option WasmSubType :=
  match ty.asFunc with
  | none => none
  | some f =>
    match f.trampolineType with
    | some t => some ⟨true, none, ⟨.func t, ty.compositeType.shared⟩⟩
    | none =>
      if !ty.isFinal || ty.supertype.isSome then
        some ⟨true, none, ⟨.func f, ty.compositeType.shared⟩⟩
      else none

end WasmSubType

theorem WasmValType.trampolineType_idem (v : WasmValType) :
    v.trampolineType.trampolineType = v.trampolineType := by
  cases v with
  | ref r => rcases r with ⟨n, h⟩; cases h <;> rfl
  | _ => rfl

theorem WasmValType.trace_of_trampoline {v : WasmValType} (h : v = v.trampolineType) :
    TypeTrace.trace v = [] := by
  rw [h]
  clear h
  cases v with
  | ref r => rcases r with ⟨n, h⟩; cases h <;> rfl
  | _ => rfl

theorem WasmValType.trampoline_traceMut (v : WasmValType) :
    TypeTrace.traceMut g v = (TypeTrace.traceMut g v).trampolineType ↔ v = v.trampolineType := by
  cases v with
  | ref r =>
    rcases r with ⟨n, h⟩
    cases h <;>
      simp [TypeTrace.traceMut, WasmValType.traceMut, WasmHeapType.traceMut, trampolineType,
        WasmHeapType.top]
  | _ => simp [TypeTrace.traceMut, WasmValType.traceMut, trampolineType]

theorem WasmFuncType.isTrampolineType_iff (f : WasmFuncType) :
    f.isTrampolineType = true ↔ ∀ v ∈ f.paramsResults, v = v.trampolineType := by
  have happ : f.paramsResults = f.params ++ f.results := (take_append_drop _ _).symm
  simp only [isTrampolineType, Bool.and_eq_true, all_eq_true, decide_eq_true_eq, happ, mem_append]
  constructor
  · rintro ⟨hp, hr⟩ v (hv | hv)
    · exact hp v hv
    · exact hr v hv
  · exact fun h => ⟨fun v hv => h v (.inl hv), fun v hv => h v (.inr hv)⟩

theorem WasmFuncType.isTrampolineType_traceMut (f : WasmFuncType) :
    (traceMut g f).isTrampolineType = f.isTrampolineType := by
  rw [Bool.eq_iff_iff, isTrampolineType_iff, isTrampolineType_iff]
  change (∀ v ∈ f.paramsResults.map (traceMut g), _) ↔ _
  simp [WasmValType.trampoline_traceMut]

theorem WasmFuncType.trampolineType_isTrampolineType {f t : WasmFuncType}
    (h : f.trampolineType = some t) : t.isTrampolineType = true := by
  rw [trampolineType] at h
  split at h
  · cases h
  cases h
  rw [isTrampolineType_iff]
  intro v hv
  simp only [new, mem_append, mem_map] at hv
  rcases hv with ⟨w, -, rfl⟩ | ⟨w, -, rfl⟩ <;> exact (w.trampolineType_idem).symm

theorem WasmFuncType.trace_of_isTrampolineType {f : WasmFuncType} (h : f.isTrampolineType = true) :
    trace f = [] := by
  rw [isTrampolineType_iff] at h
  exact flatMap_eq_nil_iff.mpr fun v hv => WasmValType.trace_of_trampoline (h v hv)

theorem trampolineSubType_traceMut (ty : WasmSubType) :
    (traceMut g ty).trampolineSubType = none ↔ ty.trampolineSubType = none := by
  rcases ty with ⟨fin, sup, ⟨inner, shared⟩⟩
  change WasmSubType.trampolineSubType ⟨fin, sup.map g, ⟨traceMut g inner, shared⟩⟩ = none ↔ _
  cases shared with
  | true => simp [WasmSubType.trampolineSubType, WasmSubType.asFunc]
  | false =>
    cases inner with
    | func f =>
      have hf := WasmFuncType.isTrampolineType_traceMut g f
      change WasmSubType.trampolineSubType ⟨fin, sup.map g, ⟨.func (traceMut g f), false⟩⟩ =
        none ↔ _
      by_cases ht : f.isTrampolineType = true
      · simp [WasmSubType.trampolineSubType, WasmSubType.asFunc, WasmFuncType.trampolineType,
          hf, ht]
      · simp [WasmSubType.trampolineSubType, WasmSubType.asFunc, WasmFuncType.trampolineType,
          hf, ht]
    | _ => exact .rfl

/-- **Trampoline types.**  They are unshared function types that refer to no other type,
declare no supertype and are their own trampoline types. -/
theorem trampolineSubType_spec {ty t : WasmSubType} (h : ty.trampolineSubType = some t) :
    trace t = [] ∧ t.trampolineSubType = none ∧ t.compositeType.shared = false ∧
      ∃ f, t.compositeType.inner = .func f := by
  rcases ty with ⟨fin, sup, ⟨inner, shared⟩⟩
  have key : ∀ f, f.isTrampolineType = true →
      trace (⟨true, none, ⟨.func f, false⟩⟩ : WasmSubType) = [] ∧
        WasmSubType.trampolineSubType ⟨true, none, ⟨.func f, false⟩⟩ = none := by
    intro f hf
    refine ⟨WasmFuncType.trace_of_isTrampolineType hf, ?_⟩
    simp [WasmSubType.trampolineSubType, WasmSubType.asFunc, WasmFuncType.trampolineType, hf]
  rw [WasmSubType.trampolineSubType] at h
  split at h
  · cases h
  rename_i f hf
  have hshd : shared = false := by
    cases shared with
    | true => simp [WasmSubType.asFunc] at hf
    | false => rfl
  subst hshd
  split at h
  · rename_i g hg
    cases h
    obtain ⟨h1, h2⟩ := key g (WasmFuncType.trampolineType_isTrampolineType hg)
    exact ⟨h1, h2, rfl, g, rfl⟩
  rename_i hg
  have hft : f.isTrampolineType = true := by
    by_contra hn
    simp [WasmFuncType.trampolineType, hn] at hg
  split at h
  · cases h
    obtain ⟨h1, h2⟩ := key f hft
    exact ⟨h1, h2, rfl, f, rfl⟩
  · cases h

end WasmDeps.Types
