import WasmDeps.Lib.Exec
import WasmDeps.Lib.SortedMap

/-!
# What the collectors share

References into a GC heap, the kinds of GC objects, the tracing information of their
types, and the side table with the host data of `externref`s.
-/

namespace WasmDeps.Gc

open WasmDeps.Lib

/-- A raw, unrooted GC reference, which is never zero. -/
@[ext]
structure VMGcRef where
  raw : ℕ
  raw_ne_zero : raw ≠ 0
  deriving DecidableEq

namespace VMGcRef

/-- The bit that tells an `i31` from a heap index. -/
abbrev i31RefDiscriminant : ℕ := 1

/-- A reference from its raw value; `none` for zero. -/
def fromRawU32 (raw : ℕ) : Option VMGcRef :=
  if h : raw ≠ 0 then some ⟨raw, h⟩ else none

/-- Whether the reference is an unboxed 31-bit integer. -/
def isI31 (r : VMGcRef) : Bool := r.raw % 2 = i31RefDiscriminant

/-- A reference to a heap index; `none` if the index would read as an `i31`. -/
def fromHeapIndex (index : ℕ) : Option VMGcRef :=
  if index % 2 = i31RefDiscriminant then none else fromRawU32 index

/-- Where the referent is; an `i31` has no place. -/
def heapIndex (r : VMGcRef) : Exec ℕ :=
  if r.isI31 then throw (.error "attempted to get heap index of i31") else pure r.raw

variable {r : VMGcRef}

theorem isI31_eq_false (h : 2 ∣ r.raw) : r.isI31 = false := by
  rw [isI31, decide_eq_false_iff_not, i31RefDiscriminant]
  omega

theorem heapIndex_of_dvd (h : 2 ∣ r.raw) : r.heapIndex = .ok r.raw := by
  simp [heapIndex, isI31_eq_false h]

theorem fromRawU32_eq_some {raw : ℕ} : fromRawU32 raw = some r ↔ raw = r.raw := by
  have hr := r.raw_ne_zero
  rw [fromRawU32]
  split
  · simp [VMGcRef.ext_iff]
  constructor
  · simp
  · rintro rfl
    contradiction

end VMGcRef

/-- The kinds of objects. -/
inductive VMGcKind
  | externRef
  | anyRef
  | eqRef
  | arrayRef
  | structRef
  | exnRef
  deriving DecidableEq

/-- The kind as the high six bits of a header word. -/
def VMGcKind.asU32 : VMGcKind → ℕ
  | .externRef => 0b010000 * 2 ^ 26
  | .anyRef => 0b100000 * 2 ^ 26
  | .eqRef => 0b101000 * 2 ^ 26
  | .arrayRef => 0b101010 * 2 ^ 26
  | .structRef => 0b101100 * 2 ^ 26
  | .exnRef => 0b000001 * 2 ^ 26

/-- Whether the kind is a subtype of the other kind: the source's `matches`. -/
def VMGcKind.matchesKind (kind other : VMGcKind) : Bool :=
  kind.asU32 &&& other.asU32 == other.asU32

/-- What the collector knows of a type. -/
inductive TraceInfo
  /-- An array, with references as elements or without. -/
  | array (gcRefElems : Bool)
  | struct (gcRefOffsets : List ℕ)
  deriving DecidableEq

/-- The trace information of all types. -/
abbrev TraceInfos := SortedMap ℕ TraceInfo

/-- The tracing information of a type, which must be present. -/
def TraceInfos.traceInfo (infos : TraceInfos) (ty : ℕ) : Exec TraceInfo :=
  unwrap (infos.get? ty) "no entry found for key"

/-- The side table with the host data of `externref`s, by id. -/
structure ExternRefHostDataTable where
  slab : SortedMap ℕ ℕ
  deriving DecidableEq

namespace ExternRefHostDataTable

/-- Frees the host data of one identifier. -/
def dealloc (table : ExternRefHostDataTable) (id : ℕ) : Exec (ExternRefHostDataTable × ℕ) :=
  match table.slab.get? id with
  | some value => pure ({ slab := table.slab.erase id }, value)
  | none => throw (.error "invalid `ExternRefHostDataId`")

end ExternRefHostDataTable

/-- Frees the host data of identifiers, one after the other. -/
def ExternRefHostDataTable.deallocAll (table : ExternRefHostDataTable) (ids : List ℕ) :
    Exec ExternRefHostDataTable :=
  ids.foldlM (fun table id => Prod.fst <$> table.dealloc id) table

theorem deallocAll_cons (table : ExternRefHostDataTable) (id : ℕ) (ids : List ℕ) :
    table.deallocAll (id :: ids) = table.dealloc id >>= fun p => p.1.deallocAll ids := by
  rw [ExternRefHostDataTable.deallocAll, List.foldlM_cons]
  cases table.dealloc id <;> rfl

theorem deallocAll_append {table table' : ExternRefHostDataTable} {xs ys : List ℕ}
    (h : table.deallocAll xs = .ok table') :
    table.deallocAll (xs ++ ys) = table'.deallocAll ys := by
  rw [ExternRefHostDataTable.deallocAll, List.foldlM_append]
  exact congrArg (· >>= _) h

theorem dealloc_eq {table : ExternRefHostDataTable} {id : ℕ} (h : (table.slab.get? id).isSome) :
    ∃ value, table.dealloc id = .ok (⟨table.slab.erase id⟩, value) := by
  obtain ⟨value, hval⟩ := Option.isSome_iff_exists.mp h
  exact ⟨value, by simp [ExternRefHostDataTable.dealloc, hval]⟩

theorem get?_deallocAll {table table' : ExternRefHostDataTable} {ids : List ℕ}
    (h : table.deallocAll ids = .ok table') (id : ℕ) :
    table'.slab.get? id = if id ∈ ids then none else table.slab.get? id := by
  induction ids generalizing table with
  | nil =>
    obtain rfl : table = table' := Except.ok.inj h
    simp
  | cons i ids ih =>
    rw [deallocAll_cons] at h
    cases hi : table.slab.get? i with
    | none => simp [ExternRefHostDataTable.dealloc, hi] at h
    | some value =>
      obtain ⟨v, heq⟩ := dealloc_eq (Option.isSome_iff_exists.mpr ⟨value, hi⟩)
      rw [heq] at h
      rw [ih h]
      by_cases hid : id = i <;> simp [hid]

end WasmDeps.Gc
