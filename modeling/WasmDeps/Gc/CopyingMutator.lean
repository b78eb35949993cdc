import WasmDeps.Gc.CopyingCollect

/-!
# The mutator of a copying heap

Between two collections a program allocates objects, writes to their fields and may grow the
heap.  Each of these keeps the heap well-formed: a new object comes after the others, a write
changes one field, and growth changes no object.
-/

namespace WasmDeps.Gc

open WasmDeps.Lib CopyingHeap List Exec Memory Except

variable {h h' : CopyingHeap} {host host' : ExternRefHostDataTable} {infos : TraceInfos}
  {m m' : Memory} {objs chain xs : List ℕ} {head : Option VMGcRef} {lo hi b e x o : ℕ}

/-! ## The objects of a heap -/

/-- The objects between `b` and `e`, each one where the last one ends. -/
def objectsFrom (m : Memory) : ℕ → ℕ → ℕ → List ℕ
  | 0, _, _ => []
  | fuel + 1, b, e => if b < e then b :: objectsFrom m fuel (b + objSize m b) e else []

/-- Walking the space finds the objects that are laid out in it. -/
theorem LaidOut.objectsFrom_eq {fuel : ℕ} (h : LaidOut m b xs e)
    (hpos : ∀ x ∈ xs, 0 < objSize m x) (hfuel : e ≤ b + fuel) : objectsFrom m fuel b e = xs := by
  induction fuel generalizing b xs with
  | zero =>
    cases xs with
    | nil => rfl
    | cons x xs =>
      have := hpos x (.head _)
      have := h.end_eq
      rw [totalSize_cons] at this
      omega
  | succ fuel ih =>
    rw [objectsFrom]
    cases xs with
    | nil => exact if_neg (not_lt.mpr (le_of_eq h.symm))
    | cons x xs =>
      have hx := hpos x (.head _)
      have hend := h.end_eq
      obtain ⟨rfl, h⟩ := h
      rw [totalSize_cons] at hend
      rw [if_pos (by omega), ih h (fun y hy => hpos y (.tail x hy)) (by omega)]

/-- The objects of the active space. -/
def CopyingHeap.objects (h : CopyingHeap) : List ℕ :=
  objectsFrom h.memory h.bumpPtr (firstObject h.activeSpaceStart h.activeSpaceEnd) h.bumpPtr

/-- The objects of a well-formed heap are found by walking. -/
theorem CopyingHeap.WellFormed.objects_eq (W : h.WellFormed host objs) : h.objects = objs :=
  W.objects.laidOut.objectsFrom_eq (fun _ hx => W.objects.size_pos hx) (Nat.le_add_left _ _)

/-! ## Frames -/

/-- The bytes of the objects are the same in both memories. -/
def Untouched (m m' : Memory) (objs : List ℕ) : Prop :=
  ∀ x ∈ objs, ∀ k < objSize m x, m'.byte (x + k) = m.byte (x + k)

theorem LaidOut.congr (h : LaidOut m b xs e) (hsize : ∀ x ∈ xs, objSize m' x = objSize m x) :
    LaidOut m' b xs e := by
  induction xs generalizing b with
  | nil => exact h
  | cons x xs ih =>
    obtain ⟨rfl, h⟩ := h
    refine ⟨rfl, ?_⟩
    rw [hsize x mem_cons_self]
    exact ih h fun y hy => hsize y (.tail x hy)

namespace Untouched

variable (U : Untouched m m' objs) (F : FromSpace infos m objs lo hi)
include U

/-- Fields of untouched objects are the same. -/
theorem readU32_eq {k : ℕ} (hx : x ∈ objs) (hk : k + 4 ≤ objSize m x) :
    m'.readU32 (x + k) = m.readU32 (x + k) := by
  exact readU32_add_congr fun i _ hi => U x hx i (by omega)

include F

/-- Untouched objects keep their shape. -/
theorem shape (hx : x ∈ objs) : SameShape infos m m' x x := by
  have := (F.ok x hx).le_size
  exact ⟨fun k hk => U x hx k (by omega), fun _ _ => U.readU32_eq hx (by omega)⟩

/-- The space stays sound if its objects are untouched. -/
theorem fromSpace : FromSpace infos m' objs lo hi where
  laidOut := F.laidOut.congr fun x hx => (U.shape F hx).objSize_eq
  ok x hx := (U.shape F hx).objectOk (F.ok x hx)
  closed x hx o ho href := by
    rw [(U.shape F hx).refOffsets_eq] at ho
    rw [U.readU32_eq hx ((F.ok x hx).offsets o ho).2] at href ⊢
    exact F.closed x hx o ho href

/-- The list of `externref`s stays if the objects are untouched. -/
theorem externs (X : Externs m head objs chain) : Externs m' head objs chain where
  path := by
    refine X.path.congr fun x hx => ?_
    have hx := ((X.mem_iff x).mp hx).1
    have := (F.ok x hx).le_size
    rw [externLink, externLink, U.readU32_eq hx (by omega)]
  nodup := X.nodup
  mem_iff x := by
    rw [X.mem_iff]
    exact and_congr_right fun hx => by rw [(U.shape F hx).isExtern_eq]

theorem hostId_eq (hx : x ∈ objs) : hostId m' x = hostId m x := by
  have := (F.ok x hx).le_size
  exact U.readU32_eq hx (by omega)

/-- Host data stays if the objects are untouched. -/
theorem hostData (H : HostData m host objs) : HostData m' host objs where
  live x hx := by
    rw [(U.shape F hx).isExtern_eq, U.hostId_eq F hx]
    exact H.live x hx
  inj x hx y hy := by
    rw [(U.shape F hx).isExtern_eq, (U.shape F hy).isExtern_eq, U.hostId_eq F hx, U.hostId_eq F hy]
    exact H.inj x hx y hy

end Untouched

/-! ## Allocation -/

theorem LaidOut.push (h : LaidOut m b xs e) : LaidOut m b (xs ++ [e]) (e + objSize m e) := by
  induction xs generalizing b with
  | nil =>
    obtain rfl : b = e := h
    exact ⟨rfl, rfl⟩
  | cons x xs ih => exact ⟨h.1, ih h.2⟩

/-- A new object at the end of the space. -/
theorem FromSpace.push (F : FromSpace infos m objs lo hi) (ok : ObjectOk infos m hi)
    (hclo : ∀ o ∈ refOffsets infos m hi, isHeapRef (m.readU32 (hi + o)) = true →
      m.readU32 (hi + o) ∈ objs ++ [hi]) :
    FromSpace infos m (objs ++ [hi]) lo (hi + objSize m hi) where
  laidOut := F.laidOut.push
  ok x hx := by
    rcases mem_append.mp hx with hx | hx
    · exact F.ok x hx
    · rwa [mem_singleton.mp hx]
  closed x hx o ho href := by
    rcases mem_append.mp hx with hx | hx
    · exact mem_append_left _ (F.closed x hx o ho href)
    · obtain rfl := mem_singleton.mp hx
      exact hclo o ho href

theorem Externs.push_of_not (X : Externs m head objs chain) (hx : isExtern m x = false) :
    Externs m head (objs ++ [x]) chain where
  path := X.path
  nodup := X.nodup
  mem_iff y := by
    rw [X.mem_iff, mem_append, mem_singleton, or_and_right]
    refine ⟨.inl, fun h => h.resolve_right ?_⟩
    rintro ⟨rfl, hy⟩
    exact Bool.false_ne_true (hx.symm.trans hy)

variable {r : VMGcRef}

/-- A new `externref` at the head of the list. -/
theorem Externs.push (X : Externs m head objs chain) (hx : isExtern m r.raw = true)
    (hnew : r.raw ∉ objs) (hlink : externLink m r.raw = head.map VMGcRef.raw) :
    Externs m (some r) (objs ++ [r.raw]) (r.raw :: chain) where
  path := by
    refine ⟨rfl, ?_⟩
    rw [hlink]
    exact X.path
  nodup := nodup_cons.mpr ⟨fun hmem => hnew ((X.mem_iff _).mp hmem).1, X.nodup⟩
  mem_iff y := by
    rw [mem_cons, X.mem_iff, mem_append, mem_singleton, or_and_right, or_comm]
    refine or_congr_right ⟨fun h => ⟨h, h ▸ hx⟩, And.left⟩

variable {value : ℕ}

/-- A new `externref` with new host data. -/
theorem HostData.push (H : HostData m host objs) (hfr : host.slab.get? (hostId m x) = none)
    (hhost : ∀ id, host'.slab.get? id = if id = hostId m x then some value else host.slab.get? id) :
    HostData m host' (objs ++ [x]) := by
  have hother : ∀ y ∈ objs, isExtern m y = true → hostId m y ≠ hostId m x := by
    intro y hy hie heq
    have := H.live y hy hie
    simp [heq, hfr] at this
  refine ⟨fun y hy hie => ?_, fun y hy z hz hie hie' heq => ?_⟩
  · rw [hhost]
    split
    · rfl
    rename_i hne
    rcases mem_append.mp hy with hy | hy
    · exact H.live y hy hie
    · exact absurd (congrArg (hostId m) (mem_singleton.mp hy)) hne
  rcases mem_append.mp hy with hy | hy <;> rcases mem_append.mp hz with hz | hz
  · exact H.inj y hy z hz hie hie' heq
  · exact absurd (heq.trans (congrArg (hostId m) (mem_singleton.mp hz))) (hother y hy hie)
  · exact absurd (heq.symm.trans (congrArg (hostId m) (mem_singleton.mp hy)))
      (hother z hz hie')
  · exact (mem_singleton.mp hy).trans (mem_singleton.mp hz).symm

theorem HostData.push_of_not (H : HostData m host objs) (hx : isExtern m x = false) :
    HostData m host (objs ++ [x]) := by
  have hold : ∀ y ∈ objs ++ [x], isExtern m y = true → y ∈ objs := by
    intro y hy hie
    refine (mem_append.mp hy).resolve_right fun hy => ?_
    rw [mem_singleton.mp hy, hx] at hie
    exact Bool.false_ne_true hie
  exact ⟨fun y hy hie => H.live y (hold y hy hie) hie, fun y hy z hz hie hie' =>
    H.inj y (hold y hy hie) z (hold z hz hie') hie hie'⟩

/-- Write the header and then the words of a new object. -/
def objectMemory (m : Memory) (b : ℕ) (kind : VMGcKind) (ty : Option ℕ) (size : ℕ)
    (data : List (ℕ × ℕ)) : Memory :=
  data.foldl (fun m p => m.writeU32 (b + p.1) p.2)
    (((m.writeU32 b kind.asU32).writeU32 (b + 4) (ty.getD u32Max)).writeU32 (b + 8) size)

variable {data : List (ℕ × ℕ)} {kind : VMGcKind} {ty : Option ℕ}

theorem byte_foldl_writeU32 {i : ℕ} (h : ∀ p ∈ data, i < b + p.1 ∨ b + p.1 + 4 ≤ i) :
    (data.foldl (fun m p => m.writeU32 (b + p.1) p.2) m).byte i = m.byte i := by
  induction data generalizing m with
  | nil => rfl
  | cons p data ih =>
    rw [foldl_cons, ih fun q hq => h q (.tail p hq)]
    exact byte_writeU32_of (h p (.head _))

theorem len_foldl_writeU32 : (data.foldl (fun m p => m.writeU32 (b + p.1) p.2) m).len = m.len := by
  induction data generalizing m with
  | nil => rfl
  | cons p data ih => exact ih

section ObjectMemory

variable {size : ℕ}

theorem len_objectMemory : (objectMemory m b kind ty size data).len = m.len := len_foldl_writeU32

/-- Allocation writes only the new object. -/
theorem byte_objectMemory {i : ℕ} (hsize : 16 ≤ size) (hdata : ∀ p ∈ data, p.1 + 4 ≤ size)
    (hi : i < b ∨ b + size ≤ i) : (objectMemory m b kind ty size data).byte i = m.byte i := by
  rw [objectMemory, byte_foldl_writeU32 fun p hp => by have := hdata p hp; omega,
    byte_writeU32_of (by omega), byte_writeU32_of (by omega),
    byte_writeU32_of (by omega)]

theorem objSize_objectMemory (hsize : size < 2 ^ 32) (hdata : ∀ p ∈ data, 16 ≤ p.1) :
    objSize (objectMemory m b kind ty size data) b = size := by
  refine .trans (readU32_congr fun k hk => byte_foldl_writeU32 fun p hp => ?_)
    (readU32_writeU32_self hsize)
  have := hdata p hp
  omega

end ObjectMemory

namespace CopyingHeap

/-- What `allocate` did, if it returned. -/
theorem allocate_cases {size : ℕ} {i : Option ℕ} (hok : h.allocate size = .ok (h', i)) :
    (h' = h ∧ i = none) ∨ (i = some h.bumpPtr ∧ h.bumpPtr + size ≤ h.activeSpaceEnd ∧
      h' = { h with bumpPtr := h.bumpPtr + size }) := by
  obtain ⟨-, -, hok⟩ := bind_eq_ok.mp hok
  obtain ⟨-, -, hok⟩ := bind_eq_ok.mp hok
  simp only [] at hok
  split at hok
  · obtain ⟨rfl, rfl⟩ := Prod.mk.inj (ok.inj hok)
    exact .inl ⟨rfl, rfl⟩
  obtain ⟨-, -, hok⟩ := bind_eq_ok.mp hok
  obtain ⟨rfl, rfl⟩ := Prod.mk.inj (ok.inj hok)
  exact .inr ⟨rfl, by omega, rfl⟩

theorem index_cases {n i : ℕ} (hok : h.index r n = .ok i) : i = r.raw := by
  obtain ⟨j, hj, hok⟩ := bind_eq_ok.mp hok
  have hj : r.raw = j := by
    rw [VMGcRef.heapIndex] at hj
    split at hj
    · cases hj
    · exact ok.inj hj
  split at hok
  · cases hok
  · split at hok
    · cases hok
    · exact (ok.inj hok).symm.trans hj.symm

/-- What `init_header` did, if it returned. -/
theorem initHeader_cases {i size : ℕ} (hok : h.initHeader i kind ty size = .ok (h', r)) :
    r.raw = i ∧ h' = { h with memory := objectMemory h.memory i kind ty size [] } := by
  obtain ⟨-, -, hok⟩ := bind_eq_ok.mp hok
  obtain ⟨r', hr, hok⟩ := bind_eq_ok.mp hok
  obtain ⟨j, hj, hok⟩ := bind_eq_ok.mp hok
  obtain ⟨rfl, rfl⟩ := Prod.mk.inj (ok.inj hok)
  have hraw : i = r'.raw := by
    cases hfrom : VMGcRef.fromHeapIndex i with
    | none => simp [hfrom, unwrap] at hr
    | some q =>
      rw [hfrom] at hr
      obtain rfl := ok.inj hr
      rw [VMGcRef.fromHeapIndex] at hfrom
      split at hfrom
      · cases hfrom
      · exact VMGcRef.fromRawU32_eq_some.mp hfrom
  obtain rfl := index_cases hj
  rw [← hraw]
  exact ⟨rfl, rfl⟩

/-- **What `alloc_raw` can do**: there is no room, or a new object comes at the bump pointer. -/
theorem allocRaw_cases {layout : Layout}
    {res : Except ℕ VMGcRef} (hok : h.allocRaw kind ty layout = .ok (h', res)) :
    (h' = h ∧ ∃ n, res = .error n) ∨ ∃ r, res = .ok r ∧ r.raw = h.bumpPtr ∧
      roundUp layout.size copyingAlign ≤ u32Max ∧
      h.bumpPtr + roundUp layout.size copyingAlign ≤ h.activeSpaceEnd ∧
      h' = { h with
        bumpPtr := h.bumpPtr + roundUp layout.size copyingAlign
        memory :=
          objectMemory h.memory h.bumpPtr kind ty (roundUp layout.size copyingAlign) [] } := by
  obtain ⟨-, -, hok⟩ := bind_eq_ok.mp hok
  split at hok
  · cases hok
  obtain ⟨-, -, hok⟩ := bind_eq_ok.mp hok
  obtain ⟨-, -, hok⟩ := bind_eq_ok.mp hok
  obtain ⟨-, -, hok⟩ := bind_eq_ok.mp hok
  obtain ⟨-, -, hok⟩ := bind_eq_ok.mp hok
  obtain ⟨size, hsize, hok⟩ := bind_eq_ok.mp hok
  obtain ⟨⟨h1, i⟩, halloc, hok⟩ := bind_eq_ok.mp hok
  have hround : roundUp layout.size copyingAlign ≤ u32Max ∧
      roundUp layout.size copyingAlign = size := by
    rw [checkedSize] at hsize
    split at hsize
    · exact ⟨‹_›, ok.inj hsize⟩
    · cases hsize
  obtain ⟨hu32, rfl⟩ := hround
  rcases allocate_cases halloc with ⟨rfl, rfl⟩ | ⟨rfl, hroom, rfl⟩
  · obtain ⟨rfl, rfl⟩ := Prod.mk.inj (ok.inj hok)
    exact .inl ⟨rfl, _, rfl⟩
  obtain ⟨⟨h2, r⟩, hinit, hok⟩ := bind_eq_ok.mp hok
  obtain ⟨rfl, rfl⟩ := Prod.mk.inj (ok.inj hok)
  obtain ⟨hr, rfl⟩ := initHeader_cases hinit
  exact .inr ⟨r, rfl, hr, hu32, hroom, rfl⟩

/-- What `alloc_externref` did, if it returned. -/
theorem allocExternref_cases {id : ℕ} {res : Except ℕ VMGcRef}
    (hok : h.allocExternref id = .ok (h', res)) :
    (h' = h ∧ ∃ n, res = .error n) ∨ ∃ r, res = .ok r ∧ r.raw = h.bumpPtr ∧
      h.bumpPtr + 32 ≤ h.activeSpaceEnd ∧
      h' = { h with
        bumpPtr := h.bumpPtr + 32
        memory := objectMemory h.memory h.bumpPtr .externRef none 32
          [(24, id), (28, rawRef h.activeExternRefSetHead)]
        activeExternRefSetHead := some r } := by
  obtain ⟨⟨h1, res1⟩, halloc, hok⟩ := bind_eq_ok.mp hok
  rcases allocRaw_cases halloc with ⟨rfl, n, rfl⟩ | ⟨r, rfl, hr, -, hroom, rfl⟩
  · obtain ⟨rfl, rfl⟩ := Prod.mk.inj (ok.inj hok)
    exact .inl ⟨rfl, n, rfl⟩
  obtain ⟨i, hi, hok⟩ := bind_eq_ok.mp hok
  obtain ⟨h2, hpush, hok⟩ := bind_eq_ok.mp hok
  obtain ⟨rfl, rfl⟩ := Prod.mk.inj (ok.inj hok)
  obtain ⟨j, hj, hpush⟩ := bind_eq_ok.mp hpush
  obtain rfl := index_cases hi
  obtain rfl := index_cases hj
  obtain rfl := ok.inj hpush
  refine .inr ⟨r, rfl, hr, hroom, ?_⟩
  rw [hr]
  rfl

end CopyingHeap

namespace CopyingHeap.WellFormed

variable (W : h.WellFormed host objs)
include W

theorem lt_bump (hx : x ∈ objs) : x < h.bumpPtr := by
  have := (W.objects.laidOut.bounds hx).2
  have := W.objects.size_pos hx
  omega

/-- A heap with one more object is well formed. -/
theorem push (F : h'.SameSpaces h) (hinfos : h'.traceInfos = h.traceInfos)
    (U : Untouched h.memory h'.memory objs)
    (hbump : h'.bumpPtr = h.bumpPtr + objSize h'.memory h.bumpPtr)
    (hle : h'.bumpPtr ≤ h.activeSpaceEnd) (ok : ObjectOk h.traceInfos h'.memory h.bumpPtr)
    (hclo : ∀ o ∈ refOffsets h.traceInfos h'.memory h.bumpPtr,
      isHeapRef (h'.memory.readU32 (h.bumpPtr + o)) = true →
        h'.memory.readU32 (h.bumpPtr + o) ∈ objs ++ [h.bumpPtr])
    (X : ∃ chain, Externs h'.memory h'.activeExternRefSetHead (objs ++ [h.bumpPtr]) chain)
    (H : HostData h'.memory host' (objs ++ [h.bumpPtr])) :
    h'.WellFormed host' (objs ++ [h.bumpPtr]) where
  semiSpaces := by
    obtain ⟨half, S⟩ := W.semiSpaces
    exact ⟨half, S.congr F⟩
  objects := by
    rw [hinfos, F.activeSpaceStart, F.activeSpaceEnd, hbump]
    exact (U.fromSpace W.objects).push ok hclo
  bump_le := F.activeSpaceEnd ▸ hle
  externs := X
  hostData := H

theorem untouched_objectMemory {size : ℕ} (hsize : 16 ≤ size) (hdata : ∀ p ∈ data, p.1 + 4 ≤ size) :
    Untouched h.memory (objectMemory h.memory h.bumpPtr kind ty size data) objs := by
  intro x hx k hk
  have := (W.objects.laidOut.bounds hx).2
  exact byte_objectMemory hsize hdata (by omega)

/-- Allocating an object keeps the heap well formed. -/
theorem allocObject {size : ℕ} {m' : Memory} (hsize : size ≤ u32Max)
    (hdata : ∀ p ∈ data, 16 ≤ p.1 ∧ p.1 + 4 ≤ size) (hroom : h.bumpPtr + size ≤ h.activeSpaceEnd)
    (hm' : m' = objectMemory h.memory h.bumpPtr kind ty size data)
    (ok : ObjectOk h.traceInfos m' h.bumpPtr) (hnot : isExtern m' h.bumpPtr = false)
    (hclo : ∀ o ∈ refOffsets h.traceInfos m' h.bumpPtr,
      isHeapRef (m'.readU32 (h.bumpPtr + o)) = true →
        m'.readU32 (h.bumpPtr + o) ∈ objs ++ [h.bumpPtr]) :
    WellFormed { h with bumpPtr := h.bumpPtr + size, memory := m' } host (objs ++ [h.bumpPtr]) ∧
      Untouched h.memory m' objs := by
  rw [u32Max] at hsize
  have hobj : objSize m' h.bumpPtr = size := by
    rw [hm']
    exact objSize_objectMemory (by omega) fun p hp => (hdata p hp).1
  have hle := ok.le_size
  have U : Untouched h.memory m' objs := by
    rw [hm']
    exact W.untouched_objectMemory (by omega) fun p hp => (hdata p hp).2
  obtain ⟨chain, X⟩ := W.externs
  refine ⟨W.push ⟨rfl, rfl, hm' ▸ len_objectMemory, rfl, rfl, rfl, rfl, rfl⟩ rfl U ?_ hroom ok
    hclo ⟨chain, (U.externs W.objects X).push_of_not hnot⟩
    ((U.hostData W.objects W.hostData).push_of_not hnot), U⟩
  rw [hobj]

theorem rawRef_head_le : rawRef h.activeExternRefSetHead ≤ h.bumpPtr := by
  obtain ⟨chain, X⟩ := W.externs
  cases hhead : h.activeExternRefSetHead with
  | none => exact Nat.zero_le _
  | some r =>
    have hpath := X.path
    rw [hhead] at hpath
    exact le_of_lt (W.lt_bump ((X.mem_iff _).mp hpath.mem_of_some).1)

/-- Allocating an `externref` keeps the heap well formed. -/
theorem allocExternref {id : ℕ} {m' : Memory} (value : ℕ) (hr : r.raw = h.bumpPtr)
    (hroom : h.bumpPtr + 32 ≤ h.activeSpaceEnd) (hid : id ≤ u32Max)
    (hfr : host.slab.get? id = none)
    (hm' : m' = objectMemory h.memory h.bumpPtr .externRef none 32
      [(24, id), (28, rawRef h.activeExternRefSetHead)]) :
    WellFormed { h with
      bumpPtr := h.bumpPtr + 32
      memory := m'
      activeExternRefSetHead := some r } ⟨host.slab.insert id value⟩ (objs ++ [h.bumpPtr]) ∧
      hostId m' h.bumpPtr = id ∧ isExtern m' h.bumpPtr = true ∧
      Untouched h.memory m' objs := by
  obtain ⟨half, S⟩ := W.semiSpaces
  have hu32 := S.end_le.2.2.1
  have hhead := W.rawRef_head_le
  rw [u32Max] at hu32 hid
  have hkind : m'.readU32 h.bumpPtr = VMGcKind.externRef.asU32 := by
    simp only [hm', objectMemory, foldl]
    rw [readU32_writeU32_of (by omega), readU32_writeU32_of (by omega),
      readU32_writeU32_of (by omega), readU32_writeU32_of (by omega),
      readU32_writeU32_self (by decide)]
  have hty : objTy m' h.bumpPtr = u32Max := by
    simp only [objTy, hm', objectMemory, foldl]
    rw [readU32_writeU32_of (by omega), readU32_writeU32_of (by omega),
      readU32_writeU32_of (by omega), readU32_writeU32_self (by decide)]
    rfl
  have hsize : objSize m' h.bumpPtr = 32 := by
    rw [hm']
    exact objSize_objectMemory (by decide) (by simp)
  have hhost : hostId m' h.bumpPtr = id := by
    simp only [hostId, hm', objectMemory, foldl]
    rw [readU32_writeU32_of (by omega), readU32_writeU32_self (by omega)]
  have hlink : externLink m' h.bumpPtr = h.activeExternRefSetHead.map VMGcRef.raw := by
    simp only [externLink, hm', objectMemory, foldl]
    rw [readU32_writeU32_self (by omega), fromRawU32_rawRef]
  have hie : isExtern m' h.bumpPtr = true := decide_eq_true hty
  have hoffs : refOffsets h.traceInfos m' h.bumpPtr = [] := refOffsets_of_isExtern hie
  have ok : ObjectOk h.traceInfos m' h.bumpPtr := by
    refine ⟨by rw [hsize]; decide, by rw [hsize], ⟨.externRef, hkind, by simp [hie], ?_⟩, ?_,
      by simp [hoffs], by simp [hoffs]⟩
    · simp [hie]
    · simp [hie]
  have U : Untouched h.memory m' objs := by
    rw [hm']
    exact W.untouched_objectMemory (by decide) (by simp)
  obtain ⟨chain, X⟩ := W.externs
  refine ⟨W.push ⟨rfl, rfl, ?_, rfl, rfl, rfl, rfl, rfl⟩ rfl U ?_ hroom ok (by simp [hoffs])
    ⟨h.bumpPtr :: chain, ?_⟩ ?_, hhost, hie, U⟩
  · rw [hm']
    exact len_objectMemory
  · show h.bumpPtr + 32 = h.bumpPtr + objSize m' h.bumpPtr
    rw [hsize]
  · have X' := (U.externs W.objects X).push (hr ▸ hie)
      (fun hmem => lt_irrefl _ (hr ▸ W.lt_bump hmem)) (hr ▸ hlink)
    rwa [hr] at X'
  · have hinsert : ∀ i, (host.slab.insert id value).get? i =
        if i = hostId m' h.bumpPtr then some value else host.slab.get? i := fun i => by
      rw [hhost, SortedMap.get?_insert]
    exact (U.hostData W.objects W.hostData).push (hhost ▸ hfr) hinsert

end CopyingHeap.WellFormed

/-! ## Writes to fields -/

/-- The word at an offset of an object may be overwritten by a value: it is a reference field and
the value is a reference to an object, or it overlaps neither a reference nor a header nor the
length of an array. -/
def Writable (infos : TraceInfos) (m : Memory) (objs : List ℕ) (x o value : ℕ) : Prop :=
  (o ∈ refOffsets infos m x ∧ (isHeapRef value = true → value ∈ objs)) ∨
    (16 ≤ o ∧ o + 4 ≤ objSize m x ∧
      (∀ elems, infos.get? (objTy m x) = some (.array elems) → 20 ≤ o) ∧
      ∀ o' ∈ refOffsets infos m x, o' + 4 ≤ o ∨ o + 4 ≤ o')

instance {value : ℕ} : Decidable (Writable infos m objs x o value) :=
  inferInstanceAs (Decidable (_ ∨ _))

theorem Writable.bounds (H : Writable infos m objs x o value) (ok : ObjectOk infos m x) :
    16 ≤ o ∧ o + 4 ≤ objSize m x := by
  rcases H with ⟨ho, -⟩ | ⟨hle, hend, -⟩
  · exact ok.offsets o ho
  · exact ⟨hle, hend⟩

theorem Writable.length (H : Writable infos m objs x o value) (hty : isExtern m x = false)
    (hinfo : infos.get? (objTy m x) = some (.array true)) : 20 ≤ o := by
  rcases H with ⟨ho, -⟩ | ⟨-, -, hlen, -⟩
  · rw [refOffsets, if_neg (of_decide_eq_false hty), hinfo] at ho
    obtain ⟨i, -, rfl⟩ := mem_map.mp ho
    exact Nat.le_add_left _ _
  · exact hlen true hinfo

/-- Writing a field keeps the heap well formed. -/
theorem CopyingHeap.WellFormed.write (W : h.WellFormed host objs) (hx : x ∈ objs)
    (hnot : isExtern h.memory x = false) (hval : value ≤ u32Max)
    (H : Writable h.traceInfos h.memory objs x o value) :
    WellFormed { h with memory := h.memory.writeU32 (x + o) value } host objs ∧
      ∀ y ∈ objs, isExtern h.memory y = true →
        isExtern (h.memory.writeU32 (x + o) value) y = true ∧
        hostId (h.memory.writeU32 (x + o) value) y = hostId h.memory y := by
  obtain ⟨hle, hend⟩ := H.bounds (W.objects.ok x hx)
  have hbyte : ∀ i, i < x + o ∨ x + o + 4 ≤ i →
      (h.memory.writeU32 (x + o) value).byte i = h.memory.byte i :=
    fun i hi => byte_writeU32_of hi
  -- All objects but the one that is written to are untouched.
  have hother : ∀ y ∈ objs, y = x ∨ ∀ k < objSize h.memory y,
      (h.memory.writeU32 (x + o) value).byte (y + k) = h.memory.byte (y + k) := by
    intro y hy
    refine (W.objects.laidOut.disjoint hy hx).imp_right fun hdisj k hk => hbyte _ ?_
    omega
  have hsh : ∀ y ∈ objs, SameShape h.traceInfos h.memory
      (h.memory.writeU32 (x + o) value) y y := by
    intro y hy
    have := (W.objects.ok y hy).le_size
    rcases hother y hy with rfl | hsame
    · refine ⟨fun k hk => hbyte _ (by omega), fun hty hinfo => ?_⟩
      have := H.length hty hinfo
      exact readU32_writeU32_of (by omega)
    · refine ⟨fun k hk => hsame k (by omega), fun _ _ => readU32_add_congr fun i _ hi => ?_⟩
      exact hsame i (by omega)
  have hie : ∀ y ∈ objs, isExtern h.memory y = true → ∀ k, k + 4 ≤ objSize h.memory y →
      (h.memory.writeU32 (x + o) value).readU32 (y + k) = h.memory.readU32 (y + k) := by
    intro y hy hyes k hk
    have hsame := (hother y hy).resolve_left fun heq =>
      Bool.false_ne_true (hnot.symm.trans (heq ▸ hyes))
    exact readU32_add_congr fun i _ hi => hsame i (by omega)
  have hhostId : ∀ y ∈ objs, isExtern h.memory y = true →
      hostId (h.memory.writeU32 (x + o) value) y = hostId h.memory y := by
    intro y hy hyes
    have := (W.objects.ok y hy).le_size
    exact hie y hy hyes 24 (by omega)
  refine ⟨⟨?_, ⟨W.objects.laidOut.congr fun y hy => (hsh y hy).objSize_eq,
    fun y hy => (hsh y hy).objectOk (W.objects.ok y hy), fun y hy o' ho' href => ?_⟩, W.bump_le,
    ?_, fun y hy hyes => ?_, fun y hy z hz hyes hyes' => ?_⟩, fun y hy hyes =>
      ⟨(hsh y hy).isExtern_eq.trans hyes, hhostId y hy hyes⟩⟩
  · obtain ⟨half, S⟩ := W.semiSpaces
    exact ⟨half, S.congr ⟨rfl, rfl, rfl, rfl, rfl, rfl, rfl, rfl⟩⟩
  · rw [(hsh y hy).refOffsets_eq] at ho'
    have hclo := W.objects.closed y hy o' ho'
    -- The reference is the one that is written, or it is as before.
    have hread : ((h.memory.writeU32 (x + o) value).readU32 (y + o') = value ∧
        (isHeapRef value = true → value ∈ objs)) ∨
        (h.memory.writeU32 (x + o) value).readU32 (y + o') = h.memory.readU32 (y + o') := by
      have hend' := ((W.objects.ok y hy).offsets o' ho').2
      rcases W.objects.laidOut.disjoint hy hx with rfl | hdisj
      · rcases H with ⟨ho, hmem⟩ | ⟨-, -, -, hdisj⟩
        · rcases (W.objects.ok y hx).apart ho ho' with rfl | hdisj
          · rw [u32Max] at hval
            exact .inl ⟨readU32_writeU32_self (by omega), hmem⟩
          · exact .inr (readU32_writeU32_of (by omega))
        · have := hdisj o' ho'
          exact .inr (readU32_writeU32_of (by omega))
      · exact .inr (readU32_writeU32_of (by omega))
    rcases hread with ⟨hread, hmem⟩ | hread
    · rw [hread] at href ⊢
      exact hmem href
    · rw [hread] at href ⊢
      exact hclo href
  · obtain ⟨chain, X⟩ := W.externs
    refine ⟨chain, X.path.congr fun y hy => ?_, X.nodup, fun y => ?_⟩
    · obtain ⟨hmem, hyes⟩ := (X.mem_iff y).mp hy
      have := (W.objects.ok y hmem).le_size
      rw [externLink, externLink, hie y hmem hyes 28 (by omega)]
    · rw [X.mem_iff]
      exact and_congr_right fun hy => by rw [(hsh y hy).isExtern_eq]
  · rw [(hsh y hy).isExtern_eq] at hyes
    rw [hhostId y hy hyes]
    exact W.hostData.live y hy hyes
  · rw [(hsh y hy).isExtern_eq] at hyes
    rw [(hsh z hz).isExtern_eq] at hyes'
    rw [hhostId y hy hyes, hhostId z hz hyes']
    exact W.hostData.inj y hy z hz hyes hyes'

/-! ## Growth -/

namespace CopyingHeap

/-- `initialize_semi_spaces` returns, with two spaces of one size. -/
theorem initializeSemiSpaces_eq (hzero : h.activeSpaceStart = 0 ∧ h.activeSpaceEnd = 0 ∧
    h.idleSpaceStart = 0 ∧ h.idleSpaceEnd = 0 ∧ h.bumpPtr = 0) :
    ∃ stop idleStart idleStop half, h.initializeSemiSpaces = .ok { h with
        activeSpaceEnd := stop, idleSpaceStart := idleStart, idleSpaceEnd := idleStop
        bumpPtr := firstObject 0 stop } ∧
      SemiSpaces { h with
        activeSpaceEnd := stop, idleSpaceStart := idleStart, idleSpaceEnd := idleStop } half := by
  obtain ⟨h1, h2, h3, h4, h5⟩ := hzero
  have S : h.Halves 0 := ⟨.inl ⟨h1, h2, h3, h4⟩, Nat.dvd_zero 8, Nat.zero_le _⟩
  obtain ⟨stop, idleStart, idleStop, half, hresize, S', -⟩ :=
    S.resizeSemiSpaces_eq (by omega) (.inr (.inr rfl))
  refine ⟨stop, idleStart, idleStop, half, ?_, S'⟩
  rw [initializeSemiSpaces, debugAssert_eq fun _ => h1, ok_bind, debugAssert_eq fun _ => h2,
    ok_bind, debugAssert_eq fun _ => h3, ok_bind, debugAssert_eq fun _ => h4,
    ok_bind, debugAssert_eq fun _ => h5, ok_bind, hresize, ok_bind,
    resetBumpPtr_eq S'.le.1 S'.end_le.2.2.1 (by simp [h1])]
  rw [h1]

/-- A heap without objects is well formed. -/
theorem SemiSpaces.wellFormed {half : ℕ} (S : h.SemiSpaces half)
    (hbump : h.bumpPtr = firstObject h.activeSpaceStart h.activeSpaceEnd)
    (hhead : h.activeExternRefSetHead = none) : h.WellFormed host [] where
  semiSpaces := ⟨half, S⟩
  objects := ⟨hbump.symm, by simp, by simp⟩
  bump_le := by
    obtain ⟨granule, hgranule, hfst, -⟩ := S.firstObject_eq
    have := S.size_eq.1
    have := S.le.1
    omega
  externs := ⟨[], by rw [hhead]; rfl, nodup_nil, by simp⟩
  hostData := ⟨by simp, by simp⟩

/-- What growth leaves alone. -/
structure GrownTo (h h' : CopyingHeap) (len : ℕ) : Prop where
  memory : h'.memory = { h.memory with len }
  infos : h'.traceInfos = h.traceInfos
  debugAssertions : h'.debugAssertions = h.debugAssertions
  noGcCount : h'.noGcCount = h.noGcCount
  bump : h'.bumpPtr = h.bumpPtr ∨ 16 ∣ h'.bumpPtr

/-- **Growth** of a heap whose length is a multiple of the page size. -/
theorem WellFormed.grow {len : ℕ} (W : h.WellFormed host objs) (hpages : 65536 ∣ h.memory.len)
    (hlen : h.memory.len ≤ len) :
    ∃ h', h.replaceMemory { h.memory with len } = .ok h' ∧ h'.WellFormed host objs ∧
      h.GrownTo h' len := by
  obtain ⟨half, S⟩ := W.semiSpaces
  obtain ⟨-, hcapacity, -⟩ := h.capacity_spec
  have hbump := W.bump_le
  have hle := S.le_capacity
  have hmono : h.capacity ≤ capacity { h with memory := { h.memory with len } } :=
    capacity_mono hlen
  rw [replaceMemory]
  by_cases hzero : h.activeSpaceEnd = 0 ∧ h.idleSpaceEnd = 0
  · -- The heap was empty.
    rw [if_pos hzero]
    have hall : h.activeSpaceStart = 0 ∧ h.activeSpaceEnd = 0 ∧ h.idleSpaceStart = 0 ∧
        h.idleSpaceEnd = 0 ∧ h.bumpPtr = 0 := by
      have := S.halves
      omega
    have hobjs : objs = [] := by
      refine eq_nil_iff_forall_not_mem.mpr fun x hx => ?_
      have := W.lt_bump hx
      omega
    have hhead : h.activeExternRefSetHead = none := by
      obtain ⟨chain, X⟩ := W.externs
      have hchain := eq_nil_iff_forall_not_mem.mpr fun x hx => by
        have := ((X.mem_iff x).mp hx).1
        simp [hobjs] at this
      have hpath := X.path
      rw [hchain] at hpath
      exact Option.map_eq_none_iff.mp hpath
    obtain ⟨stop, idleStart, idleStop, half', hinit, S'⟩ :=
      initializeSemiSpaces_eq (h := { h with memory := { h.memory with len } }) hall
    have hfst : firstObject 0 stop = firstObject h.activeSpaceStart stop := by rw [hall.1]
    refine ⟨_, hinit, ?_, rfl, rfl, rfl, rfl, .inr ?_⟩
    · rw [hobjs]
      refine SemiSpaces.wellFormed (S'.congr ?_) hfst hhead
      exact ⟨rfl, rfl, rfl, rfl, rfl, rfl, rfl, rfl⟩
    · simp only [firstObject, copyingAlign]
      split <;> omega
  rw [if_neg hzero]
  have hpos : 16 ≤ half := by
    have := S.granule
    have := h.lt_capacity_add
    rw [u32Max] at this
    have := S.halves
    omega
  have S' : Halves { h with memory := { h.memory with len } } half :=
    ⟨S.halves, S.aligned, hle.trans hmono⟩
  obtain ⟨stop, idleStart, idleStop, half', hresize, S'', hstop, hfst⟩ :=
    S'.resizeSemiSpaces_eq hbump (.inl hpos)
  have U : Untouched h.memory { h.memory with len } objs := fun _ _ _ _ => rfl
  obtain ⟨chain, X⟩ := W.externs
  refine ⟨_, hresize, ⟨⟨half', S''⟩, ?_, hbump.trans hstop, ⟨chain, U.externs W.objects X⟩,
    U.hostData W.objects W.hostData⟩, rfl, rfl, rfl, rfl, .inl rfl⟩
  have hfst := hfst (.inl (by omega))
  rw [hfst]
  exact U.fromSpace W.objects

end CopyingHeap

end WasmDeps.Gc
