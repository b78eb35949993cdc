import WasmDeps.Gc.Drc
import WasmDeps.Gc.FreeListRuns
import WasmDeps.Lib.RefCount

/-!
# Dropping a reference

Dropping the last reference to an object drops the references of the object, and so on.
The source runs this cascade with a stack of references, a stack of arrays that are too
large to put on it at once, and a list of dead objects that it deallocates at the end.

The two stacks together hold the references that are dropped but not yet subtracted, so
the loop simulates a cascade on the graph of the heap (`RefGraph.Balanced`): popping a
reference is a step of it, and adding a chunk of a large array changes nothing.
-/

namespace WasmDeps.Gc

open WasmDeps.Lib FreeList List VMGcRef SortedMap Exec DrcHeap

/-! ## The references of an object -/

variable {o : DrcObject} {h h' : DrcHeap} {host : ExternRefHostDataTable} {x : ℕ} {c : Cascade}
  {r : VMGcRef} {G : RefGraph ℕ} {ext : ℕ → ℕ}

namespace DrcObject

/-- The reference at an offset, unless it is null or an `i31`. -/
def refAt (o : DrcObject) (offset : ℕ) : Option VMGcRef :=
  ((o.wordAt offset).bind VMGcRef.fromRawU32).filter fun r => !r.isI31

/-- The references of an object at the given places. -/
def refsAt (o : DrcObject) (offsets : List ℕ) : List VMGcRef := offsets.filterMap o.refAt

/-- The offsets of the elements `start`, …, `start + n - 1` of an array of references. -/
def elemOffsets (start n : ℕ) : List ℕ :=
  (List.range' start n).map fun i => drcGcRefArrayElemsOffset + 4 * i

theorem elemOffsets_add (start m n : ℕ) :
    elemOffsets start (m + n) = elemOffsets start m ++ elemOffsets (start + m) n := by
  rw [elemOffsets, ← range'_append_1, map_append]
  rfl

theorem length_elemOffsets (start n : ℕ) : (elemOffsets start n).length = n := by
  simp [elemOffsets]

theorem refsAt_append (o : DrcObject) (xs ys : List ℕ) :
    o.refsAt (xs ++ ys) = o.refsAt xs ++ o.refsAt ys := filterMap_append

theorem length_refsAt_le (o : DrcObject) (offsets : List ℕ) :
    (o.refsAt offsets).length ≤ offsets.length := length_filterMap_le _ _

theorem traceOffset_eq {offset : ℕ} (h : (o.wordAt offset).isSome) (stack : List VMGcRef) :
    o.traceOffset stack offset = .ok ((o.refAt offset).toList ++ stack) := by
  obtain ⟨raw, hraw⟩ := Option.isSome_iff_exists.mp h
  rw [traceOffset, readU32, refAt, hraw, okOr_some, ok_bind, Option.bind_some]
  cases fromRawU32 raw with
  | none => rfl
  | some r => cases hi31 : r.isI31 <;> simp [hi31, Option.filter]

/-- The references are pushed in their order. -/
theorem foldlM_traceOffset_eq {offsets : List ℕ} (h : ∀ i ∈ offsets, (o.wordAt i).isSome)
    (stack : List VMGcRef) :
    offsets.foldlM o.traceOffset stack = .ok ((o.refsAt offsets).reverse ++ stack) := by
  induction offsets generalizing stack with
  | nil => rfl
  | cons i offsets ih =>
    rw [foldlM_cons, traceOffset_eq (h i mem_cons_self), ok_bind, ih fun j hj => h j (.tail i hj)]
    cases hr : o.refAt i <;> simp [refsAt, hr]

end DrcObject

open DrcObject

/-- What the tracing information of its type says about an object. -/
def DrcObject.Fits (o : DrcObject) : Option TraceInfo → Prop
  | some (.struct offsets) => offsets.Nodup ∧ ∀ i ∈ offsets, (o.wordAt i).isSome
  | some (.array true) =>
    o.kind = .arrayRef ∧ (o.wordAt drcArrayLengthOffset).any (· < o.data.length)
  | some (.array false) => True
  | none => False

instance (o : DrcObject) : (info : Option TraceInfo) → Decidable (o.Fits info)
  | some (.struct offsets) =>
    inferInstanceAs (Decidable (offsets.Nodup ∧ ∀ i ∈ offsets, (o.wordAt i).isSome))
  | some (.array true) => inferInstanceAs (Decidable (o.kind = .arrayRef ∧
      (o.wordAt drcArrayLengthOffset).any (· < o.data.length)))
  | some (.array false) => .isTrue trivial
  | none => .isFalse id

/-- The size of an object's block. -/
def DrcObject.blockSize (o : DrcObject) : ℕ := roundUp o.objectSize freeListAlign

namespace DrcHeap

/-- The object agrees with its type: its size is a size of the free list and bounds its
words, an `externref` has a host data id, and the references of a struct or an array are
inside of it. -/
structure WellTyped (h : DrcHeap) (o : DrcObject) : Prop where
  size_le : o.objectSize + freeListAlign ≤ u32Max
  data_le : drcHeaderSize + 4 * o.data.length ≤ o.objectSize + 3
  externref : o.ty = none → o.kind = .externRef ∧ (o.wordAt drcHeaderSize).isSome
  fits : ∀ ty, o.ty = some ty → o.Fits (h.traceInfos.get? ty)

/-- The array of references has length `len`. -/
def IsRefArray (h : DrcHeap) (o : DrcObject) (len : ℕ) : Prop :=
  o.ty.bind h.traceInfos.get? = some (.array true) ∧ o.wordAt drcArrayLengthOffset = some len

theorem WellTyped.array (W : h.WellTyped o) {len : ℕ} (ha : h.IsRefArray o len) :
    o.kind = .arrayRef ∧ len < o.data.length := by
  obtain ⟨ty, hty, hinfo⟩ := Option.bind_eq_some_iff.mp ha.1
  have := W.fits ty hty
  rw [hinfo] at this
  exact ⟨this.1, by simpa [ha.2] using this.2⟩

theorem IsRefArray.refOffsets {len : ℕ} (ha : h.IsRefArray o len) :
    h.refOffsets o = elemOffsets 0 len := by
  rw [DrcHeap.refOffsets, ha.1, ha.2, range_eq_range']
  rfl

theorem wordAt_elemOffset {i : ℕ} (hi : i + 1 < o.data.length) :
    (o.wordAt (drcGcRefArrayElemsOffset + 4 * i)).isSome := by
  have hidx : (drcGcRefArrayElemsOffset + 4 * i - drcHeaderSize) / 4 = i + 1 := by
    rw [drcGcRefArrayElemsOffset, drcArrayLengthOffset]
    omega
  have hoff : drcHeaderSize ≤ drcGcRefArrayElemsOffset + 4 * i ∧
      4 ∣ drcGcRefArrayElemsOffset + 4 * i := by
    rw [drcGcRefArrayElemsOffset, drcArrayLengthOffset, drcHeaderSize]
    omega
  rw [wordAt, if_pos hoff, hidx]
  simpa using hi

theorem WellTyped.traceArrayElems_eq (W : h.WellTyped o) {len start n : ℕ}
    (ha : h.IsRefArray o len) (hle : start + n ≤ len) (stack : List VMGcRef) :
    o.traceArrayElems stack start n =
      .ok ((o.refsAt (elemOffsets start n)).reverse ++ stack) := by
  have hlen := (W.array ha).2
  have hdata := W.data_le
  have hsize := W.size_le
  have hmem : ∀ i ∈ range' start n, i + 1 < o.data.length := by
    intro i hi
    have := mem_range'_1.mp hi
    omega
  have helem : ∀ is : List ℕ, (∀ i ∈ is, i + 1 < o.data.length) → ∀ stack,
      is.foldlM o.traceArrayElem stack =
        (is.map fun i => drcGcRefArrayElemsOffset + 4 * i).foldlM o.traceOffset stack := by
    intro is
    induction is with
    | nil => exact fun _ _ => rfl
    | cons i is ih =>
      intro his stack
      have hi := his i (.head _)
      have hfits : drcGcRefArrayElemsOffset + i * 4 ≤ u32Max := by
        rw [drcGcRefArrayElemsOffset, drcArrayLengthOffset, drcHeaderSize] at *
        omega
      have hoff : o.traceArrayElem stack i =
          o.traceOffset stack (drcGcRefArrayElemsOffset + 4 * i) := by
        rw [traceArrayElem, mulU32_of_le (by omega), ok_bind, addU32_of_le hfits, ok_bind, mul_comm]
      rw [map_cons, foldlM_cons]
      congr 1
      funext stack'
      exact ih (fun j hj => his j (.tail i hj)) stack'
  rw [traceArrayElems, helem _ hmem]
  refine foldlM_traceOffset_eq (fun off hoff => ?_) stack
  obtain ⟨i, hi, rfl⟩ := mem_map.mp hoff
  exact wordAt_elemOffset (hmem i hi)

/-! ## The heap as a graph -/

/-- The objects that an object refers to. -/
def children (h : DrcHeap) (o : DrcObject) : Multiset ℕ :=
  ↑((o.refsAt (h.refOffsets o)).map VMGcRef.raw)

/-- The objects that the object at `x` refers to. -/
def fields (h : DrcHeap) (x : ℕ) : Multiset ℕ := ((h.objects.get? x).map h.children).getD 0

/-- The heap as a graph of references. -/
def graph (h : DrcHeap) : RefGraph ℕ := ⟨h.objects.keys, h.fields⟩

/-- The reference count at `x`. -/
def refCount (h : DrcHeap) (x : ℕ) : ℕ := ((h.objects.get? x).map fun o => o.refCount).getD 0

/-- The blocks that the objects take. -/
def blocks (h : DrcHeap) : List (ℕ × ℕ) := h.objects.entries.map fun e => (e.1, e.2.blockSize)

/-- The host data that an `externref` holds. -/
def hostDataAt (h : DrcHeap) (x : ℕ) : Option ℕ :=
  ((h.objects.get? x).filter fun o => o.ty.isNone).bind fun o => o.wordAt drcHeaderSize

/-- The objects are the live blocks of the free list. -/
structure Stored (h : DrcHeap) : Prop where
  blocks : FreeListState.Holds ⟨h.freeList, h.blocks⟩
  bytes : h.allocatedBytes = (h.blocks.map Prod.snd).sum
  sized : ∀ x o, h.objects.get? x = some o → FreeList.alignedSize o.objectSize = some o.blockSize

/-- **A sound heap**: objects agree with their types, `externref`s have host data of their
own, and the objects are the live blocks of the free list. -/
structure Sound (h : DrcHeap) (host : ExternRefHostDataTable) : Prop where
  typed : ∀ x o, h.objects.get? x = some o → h.WellTyped o
  host_live : ∀ x id, h.hostDataAt x = some id → (host.slab.get? id).isSome
  host_inj : ∀ x y id, h.hostDataAt x = some id → h.hostDataAt y = some id → x = y
  stored : h.Stored
  allocs : h.tracingAllocs = some ⟨[], [], []⟩

theorem mem_blocks {n : ℕ} :
    (x, n) ∈ h.blocks ↔ (h.objects.get? x).map DrcObject.blockSize = some n := by
  simp only [blocks, mem_map, Prod.exists, Prod.mk.injEq, Option.map_eq_some_iff, get?_eq_some]
  constructor
  · rintro ⟨y, o, hmem, rfl, rfl⟩
    exact ⟨o, hmem, rfl⟩
  · rintro ⟨o, hmem, rfl⟩
    exact ⟨x, o, hmem, rfl, rfl⟩

theorem Stored.placed (S : h.Stored) (hx : h.objects.get? x = some o) :
    Placed x o.blockSize (managedEnd h.freeList.capacity) :=
  S.blocks.placed (x, o.blockSize) (mem_blocks.mpr (by simp [hx]))

theorem Stored.two_dvd (S : h.Stored) (hx : h.objects.get? x = some o) : 2 ∣ x :=
  dvd_trans (by decide) (S.placed hx).dvd_index

theorem index_eq (heven : 2 ∣ r.raw) (hr : h.objects.get? r.raw = some o) :
    h.index r = .ok o := by
  rw [index, heapIndex_of_dvd heven, ok_bind, hr, okOr_some]

end DrcHeap

/-! ## The loop -/

/-- The references of the elements `start`, …, `len - 1` of the array at an index. -/
def DrcHeap.elemRefs (h : DrcHeap) (x start len : ℕ) : Multiset ℕ :=
  ((h.objects.get? x).map fun o =>
    (↑((o.refsAt (elemOffsets start (len - start))).map VMGcRef.raw) : Multiset ℕ)).getD 0

namespace Cascade

/-- The references that are dropped but not yet subtracted. -/
def pending (h : DrcHeap) (c : Cascade) : Multiset ℕ :=
  ↑(c.decRefStack.map VMGcRef.raw) +
    (c.largeArrayDecRefStack.map fun e => h.elemRefs e.1.raw e.2.1 e.2.2).sum

/-- The objects that a cascade has found dead and not freed yet. -/
def dead (c : Cascade) : List VMGcRef := c.toDealloc ++ c.largeArrayDecRefStack.map Prod.fst

/-- A bound on the steps that the work stacks are good for. -/
def work (c : Cascade) : ℕ :=
  c.decRefStack.length + (c.largeArrayDecRefStack.map fun e => 2 * (e.2.2 - e.2.1) + 1).sum

/-- The host data ids of the objects that are ready to be deallocated. -/
def hostIds (h : DrcHeap) (c : Cascade) : List ℕ :=
  c.toDealloc.filterMap fun r => h.hostDataAt r.raw

/-- What becomes of a dead object: its references are pending, and its host data is gone. -/
structure Enqueues (h : DrcHeap) (c c' : Cascade) (r : VMGcRef) (o : DrcObject) : Prop where
  heap_eq : c'.heap = c.heap
  pending_eq : c'.pending h = h.children o + c.pending h
  dead_perm : c'.dead.Perm (r :: c.dead)
  large : ∀ e ∈ c'.largeArrayDecRefStack, e ∈ c.largeArrayDecRefStack ∨
    e.1 = r ∧ h.IsRefArray o e.2.2 ∧ e.2.1 ≤ e.2.2
  hostIds_eq : c'.hostIds h = c.hostIds h ++ (h.hostDataAt r.raw).toList
  host_eq : c.host.deallocAll (h.hostDataAt r.raw).toList = .ok c'.host
  work_lt : c'.work < c.work + (2 * (h.refOffsets o).length + 2)

theorem pending_push (refs : List VMGcRef) :
    pending h { c with decRefStack := refs.reverse ++ c.decRefStack } =
      ↑(refs.map VMGcRef.raw) + c.pending h := by
  have hperm : (↑((refs.reverse ++ c.decRefStack).map raw) : Multiset ℕ) =
      ↑(refs.map raw) + ↑(c.decRefStack.map raw) := by
    rw [Multiset.coe_add, Multiset.coe_eq_coe, ← map_append]
    exact ((reverse_perm refs).append_right _).map _
  simp only [pending, hperm, add_assoc]

/-- A dead object puts its references on the stack. -/
theorem enqueues_bury (refs : List VMGcRef) (hrefs : h.children o = ↑(refs.map VMGcRef.raw))
    (hlen : refs.length ≤ (h.refOffsets o).length)
    (hhost : c.host.deallocAll (h.hostDataAt r.raw).toList = .ok host) :
    c.Enqueues h (bury { c with decRefStack := refs.reverse ++ c.decRefStack, host } r) r o where
  heap_eq := rfl
  pending_eq := by
    rw [hrefs]
    exact pending_push refs
  dead_perm := by
    rw [dead, bury, append_assoc]
    exact perm_middle
  large e he := .inl he
  hostIds_eq := by
    simp only [hostIds, bury, filterMap_append]
    cases hid : h.hostDataAt r.raw <;> simp [hid]
  host_eq := hhost
  work_lt := by
    simp only [work, bury, length_append, length_reverse]
    omega

theorem deallocAll_of_ty {ty : ℕ} (hr : h.objects.get? r.raw = some o) (hty : o.ty = some ty) :
    c.host.deallocAll (h.hostDataAt r.raw).toList = .ok c.host := by
  have hnone : h.hostDataAt r.raw = none := by simp [hostDataAt, hr, hty, Option.filter]
  rw [hnone]
  rfl

/-- A dead array puts its first elements on the stack. -/
theorem releaseArray_spec (W : h.WellTyped o) (hr : h.objects.get? r.raw = some o) {len : ℕ}
    (ha : h.IsRefArray o len) : ∃ c', c.releaseArray r o = .ok c' ∧ c.Enqueues h c' r o := by
  have hlen : o.arrayLen = .ok len := by
    simp [arrayLen, isTyped, (W.array ha).1, readU32, ha.2]
  obtain ⟨ty, hty, -⟩ := Option.bind_eq_some_iff.mp ha.1
  have hch : h.children o = ↑((o.refsAt (elemOffsets 0 len)).map raw) := by
    rw [children, ha.refOffsets]
  have hhost := deallocAll_of_ty (c := c) hr hty
  rw [releaseArray, hlen, ok_bind]
  by_cases hsm : c.decRefStack.length + len ≤ maxArrayStackDepth
  · rw [if_pos hsm, W.traceArrayElems_eq ha (by omega)]
    refine ⟨_, rfl, enqueues_bury _ hch ?_ hhost⟩
    rw [ha.refOffsets]
    exact length_refsAt_le _ _
  rw [if_neg hsm]
  obtain ⟨n, hn⟩ : ∃ n, n = maxArrayStackDepth - c.decRefStack.length := ⟨_, rfl⟩
  have hle : n ≤ len := by omega
  simp only [← hn]
  rw [W.traceArrayElems_eq ha (by omega)]
  have hspl : elemOffsets 0 len = elemOffsets 0 n ++ elemOffsets n (len - n) := by
    rw [← Nat.add_sub_cancel' hle, elemOffsets_add]
    simp
  refine ⟨_, rfl, rfl, ?_, ?_, ?_, ?_, hhost, ?_⟩
  · rw [hch, hspl, refsAt_append, map_append, ← Multiset.coe_add]
    have helem : h.elemRefs r.raw n len = ↑((o.refsAt (elemOffsets n (len - n))).map raw) := by
      simp [elemRefs, hr]
    have hpush := pending_push (h := h) (c := c) (o.refsAt (elemOffsets 0 n))
    simp only [pending, map_cons, sum_cons, helem] at hpush ⊢
    rw [add_left_comm, hpush]
    rw [add_assoc, add_left_comm]
  · rw [dead]
    exact perm_middle
  · intro e he
    rcases mem_cons.mp he with rfl | he
    · exact .inr ⟨rfl, ha, hle⟩
    · exact .inl he
  · have hnone : h.hostDataAt r.raw = none := by
      simp [hostDataAt, hr, hty, Option.filter]
    simp [hostIds, hnone]
  · have := length_refsAt_le o (elemOffsets 0 n)
    rw [length_elemOffsets] at this
    rw [ha.refOffsets, length_elemOffsets]
    simp only [work, length_append, length_reverse, map_cons, sum_cons]
    omega

/-- A dead object is released, as its type says. -/
theorem release_spec (W : h.WellTyped o) (hr : h.objects.get? r.raw = some o)
    (hinfos : c.heap.traceInfos = h.traceInfos)
    (hlive : ∀ id, h.hostDataAt r.raw = some id → (c.host.slab.get? id).isSome) :
    ∃ c', c.release r o = .ok c' ∧ c.Enqueues h c' r o := by
  rw [release, hinfos]
  cases hty : o.ty with
  | none =>
    obtain ⟨hkind, hword⟩ := W.externref hty
    obtain ⟨id, hid⟩ := Option.isSome_iff_exists.mp hword
    have hat : h.hostDataAt r.raw = some id := by
      simp [hostDataAt, hr, hty, Option.filter, hid]
    obtain ⟨value, hdea⟩ := dealloc_eq (hlive id hat)
    have hch : h.children o = ↑(([] : List VMGcRef).map raw) := by
      simp [children, DrcHeap.refOffsets, hty, refsAt]
    have hhost : c.host.deallocAll (h.hostDataAt r.raw).toList = .ok ⟨c.host.slab.erase id⟩ := by
      rw [hat, Option.toList_some, deallocAll_cons, hdea]
      rfl
    refine ⟨_, ?_, enqueues_bury [] hch (Nat.zero_le _) hhost⟩
    have hmatches : VMGcKind.externRef.matchesKind .externRef = true := by decide
    simp [releaseExternref, hkind, hmatches, isTyped, hostData, readU32, hid, hdea]
  | some ty =>
    have hfits := W.fits ty hty
    have hhost := deallocAll_of_ty (c := c) hr hty
    cases hinfo : h.traceInfos.get? ty with
    | none => simp [hinfo, Fits] at hfits
    | some info =>
      have hbind : o.ty.bind h.traceInfos.get? = some info := by simp [hty, hinfo]
      simp only [TraceInfos.traceInfo, hinfo, unwrap_some, ok_bind]
      rcases info with (_ | _) | offsets
      · have hch : h.children o = ↑(([] : List VMGcRef).map raw) := by
          simp [children, DrcHeap.refOffsets, hbind, refsAt]
        exact ⟨_, rfl, enqueues_bury [] hch (Nat.zero_le _) hhost⟩
      · rw [hinfo, Fits, Option.any_eq_true] at hfits
        obtain ⟨-, len, hlen, -⟩ := hfits
        exact releaseArray_spec W hr ⟨hbind, hlen⟩
      have hrefs : h.refOffsets o = offsets := by simp [DrcHeap.refOffsets, hbind]
      rw [hinfo] at hfits
      simp only [foldlM_traceOffset_eq hfits.2, ok_bind]
      refine ⟨_, rfl, enqueues_bury _ ?_ ?_ hhost⟩
      · rw [children, hrefs]
      · rw [hrefs]
        exact length_refsAt_le o offsets

end Cascade

/-- The heaps agree on everything but their objects and where these are stored. -/
structure DrcHeap.SameFrame (h' h : DrcHeap) : Prop where
  traceInfos : h'.traceInfos = h.traceInfos
  noGcCount : h'.noGcCount = h.noGcCount
  roots : h'.overApproximatedStackRoots = h.overApproximatedStackRoots
  len : h'.currentOverApproximatedStackRootsLen = h.currentOverApproximatedStackRootsLen
  lenAfterLastGc :
    h'.overApproximatedStackRootsLenAfterLastGc = h.overApproximatedStackRootsLenAfterLastGc

namespace DrcHeap.SameFrame

variable {h'' : DrcHeap}

protected theorem rfl : h.SameFrame h := ⟨rfl, rfl, rfl, rfl, rfl⟩

theorem trans (a : h''.SameFrame h') (b : h'.SameFrame h) : h''.SameFrame h :=
  ⟨a.1.trans b.1, a.2.trans b.2, a.3.trans b.3, a.4.trans b.4, a.5.trans b.5⟩

end DrcHeap.SameFrame

/-- What a cascade starts from: a sound heap and a graph of its references.  The graph may
leave out references of objects that are held from outside, since these do not die. -/
structure Represents (h : DrcHeap) (host : ExternRefHostDataTable) (G : RefGraph ℕ)
    (ext : ℕ → ℕ) : Prop where
  sound : h.Sound host
  nodes : G.nodes = h.objects.keys
  out : ∀ x ∈ G.nodes, ext x = 0 → G.out x = h.fields x

/-- A bound on the steps that the death of an object is good for. -/
def DrcHeap.weight (h : DrcHeap) (x : ℕ) : ℕ :=
  ((h.objects.get? x).map fun o => 2 * (h.refOffsets o).length + 2).getD 0

namespace Cascade

/-- **The invariant of the loop**: it is a cascade on the graph of the heap.  Only counts
change, and the dead objects are the ones that wait for deallocation or whose elements are
still being dropped. -/
structure Simulates (h : DrcHeap) (host : ExternRefHostDataTable) (G : RefGraph ℕ) (ext : ℕ → ℕ)
    (c : Cascade) (dead : Finset ℕ) : Prop where
  balanced : G.Balanced ext dead (c.pending h) c.heap.refCount
  frame : c.heap.SameFrame h
  freeList_eq : c.heap.freeList = h.freeList
  bytes_eq : c.heap.allocatedBytes = h.allocatedBytes
  same : ∀ x, c.heap.objects.get? x =
    (h.objects.get? x).map fun o => { o with refCount := c.heap.refCount x }
  large : ∀ e ∈ c.largeArrayDecRefStack, ∃ o, h.objects.get? e.1.raw = some o ∧
    h.IsRefArray o e.2.2 ∧ e.2.1 ≤ e.2.2
  nodup : (c.dead.map VMGcRef.raw).Nodup
  mem_dead : ∀ x, x ∈ dead ↔ x ∈ c.dead.map VMGcRef.raw
  host_eq : host.deallocAll (c.hostIds h) = .ok c.host

/-- What is left to do, at most. -/
def potential (h : DrcHeap) (c : Cascade) (dead : Finset ℕ) : ℕ :=
  ∑ x ∈ h.objects.keys \ dead, h.weight x + c.work

variable {dead : Finset ℕ}

theorem refCount_put (h : DrcHeap) (r : VMGcRef) (o : DrcObject) :
    (h.put r o).refCount = Function.update h.refCount r.raw o.refCount := by
  funext x
  by_cases hx : x = r.raw
  · subst hx
    simp [refCount, put]
  · simp [refCount, put, hx]

theorem pending_cons :
    pending h { c with decRefStack := r :: c.decRefStack } = r.raw ::ₘ c.pending h := by
  simp [pending, ← Multiset.cons_coe, Multiset.cons_add]

theorem pending_large (e : VMGcRef × ℕ × ℕ) :
    pending h { c with largeArrayDecRefStack := e :: c.largeArrayDecRefStack } =
      h.elemRefs e.1.raw e.2.1 e.2.2 + c.pending h := by
  simp [pending, add_left_comm]

theorem sum_weight_insert (hx : x ∈ h.objects.keys) (hdead : x ∉ dead) :
    ∑ y ∈ h.objects.keys \ dead, h.weight y =
      ∑ y ∈ h.objects.keys \ insert x dead, h.weight y + h.weight x := by
  have hmem := Finset.mem_sdiff.mpr ⟨hx, hdead⟩
  rw [← Finset.sum_erase_add _ _ hmem, Finset.sdiff_insert]

/-- Host data is dropped once: the id of an object that is not dead is still in the table. -/
theorem Simulates.host_live (R : Represents h host G ext) (S : Simulates h host G ext c dead)
    {x id : ℕ} (hx : x ∉ dead) (hid : h.hostDataAt x = some id) : (c.host.slab.get? id).isSome := by
  rw [get?_deallocAll S.host_eq]
  have hnot : id ∉ c.hostIds h := by
    intro hmem
    obtain ⟨r, hr, hrid⟩ := mem_filterMap.mp hmem
    obtain rfl := R.sound.host_inj _ _ id hrid hid
    refine hx ((S.mem_dead _).mpr ?_)
    exact mem_map.mpr ⟨r, mem_append_left _ hr, rfl⟩
  rw [if_neg hnot]
  exact R.sound.host_live x id hid

theorem Simulates.get?_of_pending (R : Represents h host G ext)
    (S : Simulates h host G ext { c with decRefStack := r :: c.decRefStack } dead) :
    ∃ o, h.objects.get? r.raw = some o ∧ 2 ∣ r.raw ∧ 0 < c.heap.refCount r.raw := by
  have B := S.balanced
  rw [pending_cons] at B
  have hmem := B.pending_mem r.raw (Multiset.mem_cons_self _ _)
  rw [R.nodes] at hmem
  obtain ⟨o, ho⟩ := mem_keys.mp hmem
  exact ⟨o, ho, R.sound.stored.two_dvd ho, B.count_pos⟩

theorem Simulates.get?_put (S : Simulates h host G ext c dead)
    (ho : h.objects.get? r.raw = some o) (n x : ℕ) :
    (c.heap.put r { o with refCount := n }).objects.get? x = (h.objects.get? x).map fun o' =>
      { o' with refCount := (c.heap.put r { o with refCount := n }).refCount x } := by
  rw [refCount_put]
  by_cases hx : x = r.raw
  · subst hx
    simp [put, ho]
  · simp [put, hx, S.same x]

section

variable (R : Represents h host G ext)
include R

/-- **Popping a reference** is a step of the cascade. -/
theorem dropRef_simulates
    (S : Simulates h host G ext { c with decRefStack := r :: c.decRefStack } dead) :
    ∃ c' dead', c.dropRef r = .ok c' ∧ Simulates h host G ext c' dead' ∧
      c'.potential h dead' < potential h { c with decRefStack := r :: c.decRefStack } dead := by
  obtain ⟨o, ho, heven, hpos⟩ := S.get?_of_pending R
  obtain ⟨n, hn⟩ : ∃ n, n = c.heap.refCount r.raw := ⟨_, rfl⟩
  have B := S.balanced
  rw [pending_cons] at B
  have hget : c.heap.objects.get? r.raw = some { o with refCount := n } := by
    rw [hn]
    simpa [ho] using S.same r.raw
  obtain ⟨g, hg⟩ : ∃ g, g = c.heap.put r { o with refCount := n - 1 } := ⟨_, rfl⟩
  have hsame : ∀ x, g.objects.get? x = (h.objects.get? x).map fun o' =>
      { o' with refCount := g.refCount x } := hg ▸ S.get?_put ho (n - 1)
  have hframe : g.SameFrame h := hg ▸ ⟨S.frame.1, S.frame.2, S.frame.3, S.frame.4, S.frame.5⟩
  have hlist : g.freeList = h.freeList := hg ▸ S.freeList_eq
  have hbs : g.allocatedBytes = h.allocatedBytes := hg ▸ S.bytes_eq
  have hcnt : g.refCount = Function.update c.heap.refCount r.raw (n - 1) := by
    rw [hg, refCount_put]
  have hdrop : c.dropRef r =
      if n = 1 then release { c with heap := g } r o else .ok { c with heap := g } := by
    have hpos' : 0 < n := by omega
    simp only [dropRef, isI31_eq_false heven, Bool.not_false, ensure_of, ok_bind,
      index_eq heven hget, decRef, hpos', pure_eq, ← hg, beq_iff_eq]
    by_cases h1 : n = 1
    · rw [if_pos (by omega), if_pos h1]
      rfl
    · rw [if_neg (by omega), if_neg h1]
  rw [hdrop]
  by_cases h1 : n = 1
  · -- The last reference: the object dies, and its references become pending.
    obtain ⟨hx, hdead, hext, B'⟩ := B.drop_last (hn ▸ h1)
    have hlive : ∀ id, h.hostDataAt r.raw = some id → (c.host.slab.get? id).isSome :=
      fun id hid => S.host_live R hdead hid
    obtain ⟨c', hok, E⟩ := release_spec (c := { c with heap := g })
      (R.sound.typed _ _ ho) ho hframe.traceInfos hlive
    have hout : G.out r.raw = h.children o := by
      rw [R.out _ hx hext, fields, ho]
      rfl
    have hnot : r.raw ∉ c.dead.map raw := fun hm => hdead ((S.mem_dead _).mpr hm)
    have hperm := E.dead_perm.map raw
    refine ⟨c', insert r.raw dead, by rw [if_pos h1, hok], ?_, ?_⟩
    · refine ⟨?_, E.heap_eq ▸ hframe, E.heap_eq ▸ hlist, E.heap_eq ▸ hbs, E.heap_eq ▸ hsame,
        fun e he => ?_, ?_, fun x => ?_, ?_⟩
      · rw [E.pending_eq, ← hout, E.heap_eq, hcnt, h1]
        exact B'
      · rcases E.large e he with he | ⟨rfl, ha, hle⟩
        · exact S.large e he
        · exact ⟨o, ho, ha, hle⟩
      · exact hperm.nodup_iff.mpr (nodup_cons.mpr ⟨hnot, S.nodup⟩)
      · rw [Finset.mem_insert, S.mem_dead, hperm.mem_iff, map_cons, mem_cons]
        rfl
      · rw [E.hostIds_eq]
        exact (deallocAll_append S.host_eq).trans E.host_eq
    have hwork := E.work_lt
    have hweight : h.weight r.raw = 2 * (h.refOffsets o).length + 2 := by
      simp [weight, ho]
    have hsum := sum_weight_insert (R.nodes ▸ hx) hdead
    simp only [potential, work, length_cons] at hwork ⊢
    omega
  refine ⟨_, dead, if_neg h1, ⟨?_, hframe, hlist, hbs, hsame, S.large, S.nodup, S.mem_dead,
    S.host_eq⟩, ?_⟩
  · have B' := B.drop_one (show 1 < c.heap.refCount r.raw by omega)
    rw [← hn, ← hcnt] at B'
    exact B'
  · simp only [potential, work, length_cons]
    omega

/-- **Adding a chunk of a large array** changes nothing of the cascade. -/
theorem nextChunk_simulates {start len : ℕ} (S : Simulates h host G ext
      { c with largeArrayDecRefStack := (r, start, len) :: c.largeArrayDecRefStack } dead) :
    ∃ c', c.nextChunk r start len = .ok c' ∧ Simulates h host G ext c' dead ∧
      c'.potential h dead < potential h
        { c with largeArrayDecRefStack := (r, start, len) :: c.largeArrayDecRefStack } dead := by
  obtain ⟨o, ho, ha, hle⟩ : ∃ o, h.objects.get? r.raw = some o ∧ h.IsRefArray o len ∧
      start ≤ len := S.large (r, start, len) (.head _)
  have hget : c.heap.objects.get? r.raw = some { o with refCount := c.heap.refCount r.raw } := by
    simpa [ho] using S.same r.raw
  obtain ⟨n, hn⟩ : ∃ n, n = min (len - start) maxArrayStackDepth := ⟨_, rfl⟩
  obtain ⟨stack, hstk⟩ : ∃ stack, stack =
    (o.refsAt (elemOffsets start n)).reverse ++ c.decRefStack := ⟨_, rfl⟩
  have htr : traceArrayElems { o with refCount := c.heap.refCount r.raw }
      c.decRefStack start n = .ok stack :=
    hstk ▸ (R.sound.typed _ _ ho).traceArrayElems_eq ha (by omega) c.decRefStack
  have hlen : stack.length ≤ n + c.decRefStack.length := by
    have := length_refsAt_le o (elemOffsets start n)
    rw [length_elemOffsets] at this
    simpa [hstk] using this
  have hnone : h.hostDataAt r.raw = none := by
    obtain ⟨ty, hty, -⟩ := Option.bind_eq_some_iff.mp ha.1
    simp [hostDataAt, ho, hty, Option.filter]
  -- The chunk moves from the array to the stack.
  have hspl : h.elemRefs r.raw start len =
      ↑((o.refsAt (elemOffsets start n)).map raw) + h.elemRefs r.raw (start + n) len := by
    have hsum : len - start = n + (len - (start + n)) := by omega
    simp only [elemRefs, ho, Option.map_some, Option.getD_some]
    rw [hsum, elemOffsets_add, refsAt_append, map_append, ← Multiset.coe_add]
  have hpend : h.elemRefs r.raw start len + c.pending h =
      h.elemRefs r.raw (start + n) len + pending h { c with decRefStack := stack } := by
    rw [hstk, pending_push, hspl, add_assoc, add_left_comm]
  have B := S.balanced
  rw [pending_large, hpend] at B
  simp only [nextChunk, index_eq (R.sound.stored.two_dvd ho) hget, ok_bind, ← hn, htr]
  have hdepth : maxArrayStackDepth = 1024 := rfl
  by_cases hdone : start + n = len
  · -- The array is dead now.
    rw [if_pos hdone]
    have hzero : h.elemRefs r.raw (start + n) len = 0 := by
      simp [elemRefs, ho, hdone, elemOffsets, refsAt]
    rw [hzero, zero_add] at B
    have hdead : Cascade.dead (bury { c with decRefStack := stack } r) = Cascade.dead
        { c with largeArrayDecRefStack := (r, start, len) :: c.largeArrayDecRefStack } := by
      simp [Cascade.dead, bury]
    have hids : hostIds h (bury { c with decRefStack := stack } r) = c.hostIds h := by
      simp [hostIds, bury, hnone]
    refine ⟨_, rfl, ⟨B, S.frame, S.freeList_eq, S.bytes_eq, S.same,
      fun e he => S.large e (.tail _ he), hdead ▸ S.nodup, hdead ▸ S.mem_dead,
      hids ▸ S.host_eq⟩, ?_⟩
    simp only [potential, work, bury, map_cons, sum_cons]
    omega
  rw [if_neg hdone]
  refine ⟨_, rfl, { S with balanced := ?_, large := fun e he => ?_ }, ?_⟩
  · have hlg := pending_large (h := h) (c := { c with decRefStack := stack })
      (r, start + n, len)
    exact hlg ▸ B
  · rcases mem_cons.mp he with rfl | he
    · exact ⟨o, ho, ha, by simp only; omega⟩
    · exact S.large e (.tail _ he)
  · simp only [potential, work, map_cons, sum_cons]
    omega

/-- **The loop terminates** with empty work stacks, and keeps the invariant. -/
theorem run_simulates {fuel : ℕ}
    (S : Simulates h host G ext c dead) (hfuel : c.potential h dead < fuel) :
    ∃ c' dead', run fuel c = .ok c' ∧ Simulates h host G ext c' dead' ∧
      c'.decRefStack = [] ∧ c'.largeArrayDecRefStack = [] := by
  induction fuel generalizing c dead with
  | zero => omega
  | succ fuel ih =>
    rw [run]
    split
    · rename_i r rest hstk
      obtain ⟨c1, hc⟩ : ∃ c1, c1 = { c with decRefStack := rest } := ⟨_, rfl⟩
      obtain rfl : c = { c1 with decRefStack := r :: c1.decRefStack } := by
        rw [hc, ← hstk]
      obtain ⟨c', dead', hok, S', hlt⟩ := dropRef_simulates R S
      rw [← hc, hok, ok_bind]
      exact ih S' (by omega)
    rename_i hstk
    split
    · rename_i r start len rest hlg
      obtain ⟨c1, hc⟩ : ∃ c1, c1 = { c with largeArrayDecRefStack := rest } := ⟨_, rfl⟩
      obtain rfl : c = { c1 with
          largeArrayDecRefStack := (r, start, len) :: c1.largeArrayDecRefStack } := by
        rw [hc, ← hlg]
      obtain ⟨c', hok, S', hlt⟩ := nextChunk_simulates R S
      rw [← hc, hok, ok_bind]
      exact ih S' (by omega)
    · rename_i hlg
      exact ⟨c, dead, rfl, S, hstk, hlg⟩

end

end Cascade

/-! ## Deallocating the dead objects -/

/-- Frees blocks one after the other. -/
def FreeList.deallocAll (f : FreeList) (blocks : List (ℕ × ℕ)) : Exec FreeList :=
  blocks.foldlM (fun f b => f.deallocFast b.1 b.2) f

namespace DrcHeap

/-- The size of the block at `x`. -/
def blockSizeAt (h : DrcHeap) (x : ℕ) : ℕ := ((h.objects.get? x).map DrcObject.blockSize).getD 0

/-- No block stands twice. -/
theorem nodup_blocks (h : DrcHeap) : h.blocks.Nodup := by
  apply List.Nodup.of_map Prod.fst
  have hfst : h.blocks.map Prod.fst = h.objects.entries.map Prod.fst := by
    simp [blocks, Function.comp_def]
  rw [hfst]
  exact h.objects.nodup_map_fst

theorem Stored.congr (S : h.Stored) (hlist : h'.freeList = h.freeList)
    (hbs : h'.allocatedBytes = h.allocatedBytes)
    (hsame : ∀ x, (h'.objects.get? x).map (fun o => o.objectSize) =
      (h.objects.get? x).map fun o => o.objectSize) : h'.Stored := by
  have hsize : ∀ x, (h'.objects.get? x).map DrcObject.blockSize =
      (h.objects.get? x).map DrcObject.blockSize := by
    intro x
    have := congrArg (Option.map fun n => roundUp n freeListAlign) (hsame x)
    rwa [Option.map_map, Option.map_map] at this
  have hperm : h.blocks.Perm h'.blocks := by
    rw [perm_ext_iff_of_nodup h.nodup_blocks h'.nodup_blocks]
    rintro ⟨x, n⟩
    rw [mem_blocks, mem_blocks, hsize]
  refine ⟨hlist ▸ S.blocks.perm hperm, ?_, fun x o ho => ?_⟩
  · rw [hbs, S.bytes]
    exact (hperm.map Prod.snd).sum_eq
  have := hsame x
  rw [ho] at this
  obtain ⟨o', ho', heq⟩ :=
    Option.map_eq_some_iff.mp this.symm
  have := S.sized x o' ho'
  rwa [DrcObject.blockSize, heq] at this

/-- Freeing an object frees its block. -/
theorem Stored.dealloc (S : h.Stored) (hr : h.objects.get? r.raw = some o) :
    ∃ f, h.freeList.deallocFast r.raw o.blockSize = .ok f ∧
      h.dealloc r = .ok { h with
        objects := h.objects.erase r.raw
        allocatedBytes := h.allocatedBytes - o.blockSize
        freeList := f } ∧
      Stored { h with
        objects := h.objects.erase r.raw
        allocatedBytes := h.allocatedBytes - o.blockSize
        freeList := f } := by
  have hp := S.placed hr
  have heven := S.two_dvd hr
  have hperm : h.blocks.Perm ((r.raw, o.blockSize) ::
      (h.objects.erase r.raw).entries.map fun e => (e.1, e.2.blockSize)) :=
    (perm_erase hr).map _
  have hsum := (hperm.map Prod.snd).sum_eq
  rw [map_cons, sum_cons, ← S.bytes] at hsum
  obtain ⟨f, hok, hstp⟩ := steps_deallocImpl (S.blocks.perm hperm)
    (.deallocFast r.raw o.blockSize) rfl (.head _)
  have hfast : h.freeList.deallocFast r.raw o.blockSize = .ok f := by
    simp [deallocFast, assertAligned_of hp.dvd_index, assertAligned_of hp.dvd_size, hok]
  refine ⟨f, hfast, ?_, ?_, ?_, fun x o' ho' => ?_⟩
  · simp [DrcHeap.dealloc, index_eq heven hr, S.sized _ _ hr, heapIndex_of_dvd heven,
      subUsize_of_le (show o.blockSize ≤ h.allocatedBytes by omega), hfast]
  · have := hstp.holds
    rwa [erase_cons_head] at this
  · have : h.allocatedBytes - o.blockSize =
        (((h.objects.erase r.raw).entries.map fun e => (e.1, e.2.blockSize)).map Prod.snd).sum := by
      omega
    exact this
  · rw [get?_erase] at ho'
    split at ho'
    · cases ho'
    · exact S.sized x o' ho'

/-- Freeing objects frees their blocks. -/
theorem Stored.foldlM_dealloc {rs : List VMGcRef} (S : h.Stored)
    (hnd : (rs.map VMGcRef.raw).Nodup) (hmem : ∀ r ∈ rs, r.raw ∈ h.objects.keys) :
    ∃ h', rs.foldlM DrcHeap.dealloc h = .ok h' ∧ h'.Stored ∧
      h'.SameFrame h ∧
      (∀ x, h'.objects.get? x =
        if x ∈ rs.map VMGcRef.raw then none else h.objects.get? x) ∧
      h.freeList.deallocAll ((rs.map VMGcRef.raw).map fun x => (x, h.blockSizeAt x)) =
        .ok h'.freeList := by
  induction rs generalizing h with
  | nil => exact ⟨h, rfl, S, .rfl, by simp, rfl⟩
  | cons r rs ih =>
    obtain ⟨hnot, hnd⟩ := nodup_cons.mp hnd
    obtain ⟨o, ho⟩ := SortedMap.mem_keys.mp (hmem r (.head _))
    obtain ⟨f, hfast, hok, S1⟩ := S.dealloc ho
    have hne : ∀ s ∈ rs, s.raw ≠ r.raw := fun s hs heq =>
      hnot (mem_map.mpr ⟨s, hs, heq⟩)
    obtain ⟨h', hok', S', hframe, hget, hlist⟩ := ih S1 hnd fun s hs => by
      rw [keys_erase]
      exact Finset.mem_erase.mpr ⟨hne s hs, hmem s (.tail r hs)⟩
    refine ⟨h', ?_, S', hframe.trans ⟨rfl, rfl, rfl, rfl, rfl⟩, fun x => ?_, ?_⟩
    · rw [foldlM_cons, hok, ok_bind, hok']
    · rw [hget x, get?_erase]
      by_cases hx : x = r.raw <;> simp [hx]
    have hsizes : ((rs.map raw).map fun x => (x, h.blockSizeAt x)) =
        (rs.map raw).map fun x => (x, blockSizeAt { h with
          objects := h.objects.erase r.raw
          allocatedBytes := h.allocatedBytes - o.blockSize
          freeList := f } x) := by
      refine map_congr_left fun x hx => ?_
      obtain ⟨s, hs, rfl⟩ := mem_map.mp hx
      simp [blockSizeAt, hne s hs]
    have hsize : h.blockSizeAt r.raw = o.blockSize := by simp [blockSizeAt, ho]
    rw [map_cons, map_cons, hsizes, hsize, FreeList.deallocAll, foldlM_cons, hfast, ok_bind]
    exact hlist

end DrcHeap

/-! ## The whole cascade -/

/-- **What dropping a reference does**: the objects `freed` are deallocated, each once and
with its own size, the host data of the `externref`s among them is dropped, and the others
only change their counts. -/
structure Dropped (h : DrcHeap) (host : ExternRefHostDataTable) (G : RefGraph ℕ) (ext : ℕ → ℕ)
    (h' : DrcHeap) (host' : ExternRefHostDataTable) (freed : List ℕ) : Prop where
  nodup : freed.Nodup
  mem_iff : ∀ x, x ∈ freed ↔ G.Released ext x
  get?_eq : ∀ x, h'.objects.get? x = if x ∈ freed then none else
    (h.objects.get? x).map fun o => { o with refCount := G.refsTo freed.toFinset x + ext x }
  freeList_eq : h.freeList.deallocAll (freed.map fun x => (x, h.blockSizeAt x)) = .ok h'.freeList
  host_eq : host.deallocAll (freed.filterMap h.hostDataAt) = .ok host'
  frame : h'.SameFrame h
  allocs : h'.tracingAllocs = some ⟨[], [], []⟩
  stored : h'.Stored

variable {host' : ExternRefHostDataTable} {freed : List ℕ}

/-- The fuel is enough for the work of a cascade. -/
theorem sum_weight_add_lt_cascadeFuel (h : DrcHeap) :
    ∑ x ∈ h.objects.keys, h.weight x + 1 < h.cascadeFuel := by
  have hsum : ∑ x ∈ h.objects.keys, h.weight x =
      (h.objects.entries.map fun e => 2 * (h.refOffsets e.2).length + 2).sum := by
    rw [sum_keys]
    refine congrArg List.sum (map_congr_left fun e he => ?_)
    simp [weight, get?_eq_some.mpr he]
  rw [hsum, cascadeFuel]
  omega

/-- The simulation holds at the start. -/
theorem simulates_start (host : ExternRefHostDataTable) (B : G.Balanced ext ∅ {r.raw} h.refCount) :
    Cascade.Simulates h host G ext ⟨⟨[r], [], []⟩, { h with tracingAllocs := none }, host⟩ ∅ where
  balanced := B
  frame := ⟨rfl, rfl, rfl, rfl, rfl⟩
  freeList_eq := rfl
  bytes_eq := rfl
  same x := by
    cases ho : h.objects.get? x with
    | none => rfl
    | some o =>
      have hcnt : refCount { h with tracingAllocs := none } x = o.refCount := by
        simp [refCount, ho]
      simp [hcnt]
  large e he := by simp at he
  nodup := nodup_nil
  mem_dead x := by simp [Cascade.dead]
  host_eq := rfl

/-- **Dropping a reference**, for any graph that represents the heap. -/
theorem decRefAndMaybeDealloc_spec (R : Represents h host G ext)
    (B : G.Balanced ext ∅ {r.raw} h.refCount) :
    ∃ h' host' freed, h.decRefAndMaybeDealloc host r = .ok (h', host') ∧
      Dropped h host G ext h' host' freed := by
  have S := simulates_start host B
  obtain ⟨o, ho, heven, -⟩ := S.get?_of_pending (c := ⟨⟨[], [], []⟩, _, host⟩) R
  have hfuel : Cascade.potential h ⟨⟨[r], [], []⟩, { h with tracingAllocs := none }, host⟩ ∅ <
      h.cascadeFuel := by
    have := sum_weight_add_lt_cascadeFuel h
    simpa [Cascade.potential, Cascade.work] using this
  obtain ⟨c, dead, hrun, S', hstk, hlg⟩ := Cascade.run_simulates R S hfuel
  have hdead : c.dead = c.toDealloc := by simp [Cascade.dead, hlg]
  have B' := S'.balanced
  have hpend : c.pending h = 0 := by simp [Cascade.pending, hstk, hlg]
  rw [hpend] at B'
  have hkeys : ∀ x, x ∈ c.heap.objects.keys ↔ x ∈ h.objects.keys := by
    intro x
    rw [SortedMap.mem_keys, SortedMap.mem_keys]
    simp [S'.same x]
  have hstd : c.heap.Stored := by
    refine R.sound.stored.congr S'.freeList_eq S'.bytes_eq fun x => ?_
    rw [S'.same x, Option.map_map]
    rfl
  have hnd := S'.nodup
  have hmem := S'.mem_dead
  rw [hdead] at hnd hmem
  obtain ⟨h', hok, hstd', hframe, hget, hlist⟩ := hstd.foldlM_dealloc hnd fun s hs => by
    rw [hkeys, ← R.nodes]
    exact ((B'.dead_iff _).mp ((hmem _).mpr (mem_map.mpr ⟨s, hs, rfl⟩))).1
  have hframe' : DrcHeap.SameFrame { h' with tracingAllocs := some ⟨[], [], []⟩ } c.heap :=
    ⟨hframe.1, hframe.2, hframe.3, hframe.4, hframe.5⟩
  refine ⟨{ h' with tracingAllocs := some ⟨[], [], []⟩ }, c.host, c.toDealloc.map raw,
    ?_, hnd, fun x => ?_, fun x => ?_, ?_, ?_, hframe'.trans S'.frame, rfl, ?_⟩
  · simp [DrcHeap.decRefAndMaybeDealloc, isI31_eq_false heven, R.sound.allocs, hrun, hok,
      hstk, hlg]
  · rw [← hmem, B'.mem_dead_iff]
  · rw [hget x]
    by_cases hx : x ∈ c.toDealloc.map raw
    · rw [if_pos hx, if_pos hx]
    rw [if_neg hx, if_neg hx, S'.same x]
    cases ho : h.objects.get? x with
    | none => rfl
    | some o =>
      have hxn := R.nodes ▸ mem_keys_of_get? ho
      have hset : (c.toDealloc.map raw).toFinset = dead := by
        ext y
        rw [mem_toFinset, hmem]
      rw [hset, B'.count_eq x hxn]
      simp
  · have hsizes : ∀ x, c.heap.blockSizeAt x = h.blockSizeAt x := by
      intro x
      rw [DrcHeap.blockSizeAt, S'.same x, Option.map_map]
      rfl
    simp only [hsizes] at hlist
    exact S'.freeList_eq ▸ hlist
  · have hids : c.hostIds h = (c.toDealloc.map raw).filterMap h.hostDataAt := by
      rw [filterMap_map]
      rfl
    exact hids ▸ S'.host_eq
  · exact hstd'.congr rfl rfl fun _ => rfl

/-! ## What is left -/

namespace Dropped

variable (D : Dropped h host G ext h' host' freed)
include D

theorem hostDataAt_eq (x : ℕ) : h'.hostDataAt x = if x ∈ freed then none else h.hostDataAt x := by
  rw [hostDataAt, D.get?_eq]
  by_cases hx : x ∈ freed
  · simp [hx]
  cases ho : h.objects.get? x with
  | none => simp [hostDataAt, ho]
  | some o =>
    cases hty : o.ty with
    | none => simp [hostDataAt, ho, hx, hty, Option.filter, wordAt]
    | some ty => simp [hostDataAt, ho, hx, hty, Option.filter]

theorem fields_eq (hx : x ∉ freed) : h'.fields x = h.fields x := by
  have hoffs : ∀ o n, h'.refOffsets { o with refCount := n } = h.refOffsets o := by
    intro o n
    rw [DrcHeap.refOffsets, D.frame.traceInfos]
    rfl
  rw [fields, fields, D.get?_eq, if_neg hx, Option.map_map]
  refine congrArg (fun f => ((h.objects.get? x).map f).getD 0) (funext fun o => ?_)
  rw [Function.comp_apply, children, hoffs]
  rfl

theorem mem_keys_iff : x ∈ h'.objects.keys ↔ x ∈ h.objects.keys ∧ x ∉ freed := by
  rw [SortedMap.mem_keys, SortedMap.mem_keys, D.get?_eq]
  by_cases hx : x ∈ freed <;> simp [hx]

/-- What is still there refers to nothing that was freed. -/
theorem not_mem_of_ref {y : ℕ} (hx : x ∈ G.nodes)
    (hfreed : x ∉ freed) (hy : y ∈ G.out x) : y ∉ freed := by
  intro hmem
  obtain ⟨-, -, hrefs⟩ := (D.mem_iff y).mp hmem
  exact hfreed ((D.mem_iff x).mpr (hrefs x hx hy))

omit D

/-- The heap is sound after a drop. -/
theorem sound (R : Represents h host G ext) (D : Dropped h host G ext h' host' freed) :
    h'.Sound host' where
  typed x o ho := by
    rw [D.get?_eq] at ho
    split at ho
    · cases ho
    · obtain ⟨o', ho', rfl⟩ := Option.map_eq_some_iff.mp ho
      have W := R.sound.typed x o' ho'
      exact ⟨W.size_le, W.data_le, W.externref, fun ty hty => D.frame.traceInfos ▸ W.fits ty hty⟩
  host_live x id hid := by
    rw [D.hostDataAt_eq] at hid
    split at hid
    · cases hid
    rename_i hx
    have hnot : id ∉ freed.filterMap h.hostDataAt := by
      intro hmem
      obtain ⟨y, hy, hyid⟩ := mem_filterMap.mp hmem
      exact hx (R.sound.host_inj y x id hyid hid ▸ hy)
    rw [get?_deallocAll D.host_eq, if_neg hnot]
    exact R.sound.host_live x id hid
  host_inj x y id hx hy := by
    rw [D.hostDataAt_eq] at hx hy
    split at hx
    · cases hx
    · split at hy
      · cases hy
      · exact R.sound.host_inj x y id hx hy
  stored := D.stored
  allocs := D.allocs

end Dropped

/-- **The counting equation**: the count of every object is the number of fields and
elements of allocated objects that refer to it, and of references outside of the heap. -/
structure DrcHeap.Counted (h : DrcHeap) (ext : ℕ → ℕ) : Prop where
  closed : ∀ x ∈ h.objects.keys, ∀ y ∈ h.fields x, y ∈ h.objects.keys
  held_mem : ∀ x, 0 < ext x → x ∈ h.objects.keys
  count_pos : ∀ x ∈ h.objects.keys, 0 < h.refCount x
  count_eq : ∀ x ∈ h.objects.keys, h.refCount x = h.graph.refsTo ∅ x + ext x

/-- One reference to `x` less. -/
def dropOne (ext : ℕ → ℕ) (x : ℕ) : ℕ → ℕ := Function.update ext x (ext x - 1)

theorem dropOne_add {y : ℕ} (hx : 0 < ext x) :
    dropOne ext x y + (Multiset.count y {x}) = ext y := by
  by_cases hy : y = x
  · subst hy
    rw [dropOne, Function.update_self, Multiset.count_singleton_self]
    omega
  · simp [dropOne, hy]

theorem DrcHeap.Counted.balanced (C : h.Counted ext) (hx : 0 < ext x) :
    h.graph.Balanced (dropOne ext x) ∅ {x} h.refCount := by
  refine .start C.closed (fun y hy => ?_) C.count_pos fun y hy => ?_
  · rw [Multiset.mem_singleton.mp hy]
    exact C.held_mem x hx
  · rw [add_assoc, dropOne_add hx]
    exact C.count_eq y hy

/-- The counts are right after a drop. -/
theorem Dropped.counted (R : Represents h host G ext) (D : Dropped h host G ext h' host' freed)
    (hclo : ∀ a ∈ G.nodes, ∀ y ∈ G.out a, y ∈ G.nodes) (hext : ∀ x, 0 < ext x → x ∈ G.nodes)
    {h'' : DrcHeap} (hkeys : h''.objects.keys = h'.objects.keys)
    (hcnt : h''.refCount = h'.refCount)
    (hfld : ∀ x ∈ h'.objects.keys, h''.fields x = G.out x) : h''.Counted ext := by
  have hmem : ∀ x, x ∈ h''.objects.keys ↔ x ∈ G.nodes ∧ x ∉ freed := by
    intro x
    rw [hkeys, D.mem_keys_iff, R.nodes]
  have hrefs : ∀ x, h''.graph.refsTo ∅ x = G.refsTo freed.toFinset x := by
    intro x
    have hset : h''.objects.keys = G.nodes \ freed.toFinset := by
      ext y
      rw [hmem, Finset.mem_sdiff, mem_toFinset]
    simp only [RefGraph.refsTo, graph, Finset.sdiff_empty, hset]
    refine Finset.sum_congr rfl fun a ha => ?_
    rw [hfld a (hkeys ▸ hset ▸ ha)]
  have hval : ∀ x ∈ h''.objects.keys, h''.refCount x = G.refsTo freed.toFinset x + ext x := by
    intro x hx
    obtain ⟨hx, hfreed⟩ := (hmem x).mp hx
    rw [R.nodes] at hx
    obtain ⟨o, ho⟩ := mem_keys.mp hx
    rw [hcnt, refCount, D.get?_eq, if_neg hfreed, ho]
    rfl
  have hne : ∀ x, G.Released ext x → x ∉ h''.objects.keys := fun x hrel hx =>
    ((hmem x).mp hx).2 ((D.mem_iff x).mpr hrel)
  refine ⟨fun x hx y hy => ?_, fun x hx => ?_, fun x hx => ?_, fun x hx => ?_⟩
  · rw [hfld x (hkeys ▸ hx)] at hy
    obtain ⟨hx, hfreed⟩ := (hmem x).mp hx
    exact (hmem y).mpr ⟨hclo x hx y hy, D.not_mem_of_ref hx hfreed hy⟩
  · refine (hmem x).mpr ⟨hext x hx, fun hfreed => ?_⟩
    obtain ⟨-, h0, -⟩ := (D.mem_iff x).mp hfreed
    omega
  · -- An object without references would have been released.
    rw [hval x hx]
    by_contra hzero
    refine hne x (.intro ((hmem x).mp hx).1 (by omega) fun a ha hya => ?_) hx
    by_contra hrel
    have hsum : G.refsTo freed.toFinset x = 0 := by omega
    have ha' : a ∈ G.nodes \ freed.toFinset := by
      rw [Finset.mem_sdiff, mem_toFinset, D.mem_iff]
      exact ⟨ha, hrel⟩
    exact Multiset.count_ne_zero.mpr hya (Finset.sum_eq_zero_iff.mp hsum a ha')
  · rw [hval x hx, hrefs]

/-- Giving a reference up returns, and keeps the heap sound and the counts right. -/
theorem DrcHeap.Counted.drop (C : h.Counted ext) (S : h.Sound host) (hr : 0 < ext r.raw) :
    ∃ h' host' freed, h.decRefAndMaybeDealloc host r = .ok (h', host') ∧
      Dropped h host h.graph (dropOne ext r.raw) h' host' freed ∧
      h'.Sound host' ∧ h'.Counted (dropOne ext r.raw) := by
  have R : Represents h host h.graph (dropOne ext r.raw) := ⟨S, rfl, fun _ _ _ => rfl⟩
  obtain ⟨h', host', freed, hok, D⟩ := decRefAndMaybeDealloc_spec R (C.balanced hr)
  have hheld : ∀ x, 0 < dropOne ext r.raw x → x ∈ h.objects.keys := by
    intro x hx
    have := dropOne_add (y := x) hr
    exact C.held_mem x (by omega)
  have hfld : ∀ x ∈ h'.objects.keys, h'.fields x = h.graph.out x := fun x hx =>
    D.fields_eq (D.mem_keys_iff.mp hx).2
  exact ⟨h', host', freed, hok, D, D.sound R, D.counted R C.closed hheld rfl rfl hfld⟩

end WasmDeps.Gc
