import WasmDeps.Gc.CopyingMutator

/-!
# Runs of the copying collector

A run attaches a heap to a memory and then allocates, writes to fields, collects and grows the
heap, in any order.  The host data of the `externref`s is numbered in the order in which they are
allocated, and the state keeps what the collections have dropped, so that a run shows which
`externref`s have lost their host data.
-/

namespace WasmDeps.Gc

open WasmDeps.Lib CopyingHeap Exec SortedMap Machine

/-! ## The machine -/

/-- A heap and its host data. -/
structure CopyingState where
  heap : CopyingHeap
  host : ExternRefHostDataTable
  /-- The number of `externref`s so far; they got the host data 0, 1, …. -/
  born : ℕ
  /-- The host data that collections have dropped. -/
  dropped : List ℕ

/-- The host data of the `externref` at `x`. -/
def CopyingState.hostDataAt (s : CopyingState) (x : ℕ) : Option ℕ :=
  s.host.slab.get? (hostId s.heap.memory x)

/-- The operations of the heap. -/
inductive CopyingOp
  | allocRaw (kind : VMGcKind) (ty : ℕ) (layout : Layout) (data : List (ℕ × ℕ))
  | allocExternref (id : ℕ)
  | write (object : VMGcRef) (offset value : ℕ)
  | gc (roots : List VMGcRef)
  | replaceMemory (len : ℕ)

abbrev gcHeapPageSize : ℕ := 65536

namespace CopyingOp

/-- The memory with a new object, if there is room for it. -/
def newMemory (s : CopyingState) (kind : VMGcKind) (ty : ℕ) (layout : Layout)
    (data : List (ℕ × ℕ)) : Memory :=
  objectMemory s.heap.memory s.heap.bumpPtr kind (some ty) (roundUp layout.size copyingAlign) data

/-- What the caller of an operation promises.  A new object is initialised so that it agrees with
its type and refers to objects; host data ids are fresh; fields are written as `Writable` says;
roots are objects; and the memory grows in pages up to 4 GiB. -/
def Allowed (s : CopyingState) : CopyingOp → Prop
  | allocRaw kind ty layout data =>
    (∀ p ∈ data, 16 ≤ p.1 ∧ p.1 + 4 ≤ roundUp layout.size copyingAlign) ∧
    ObjectOk s.heap.traceInfos (newMemory s kind ty layout data) s.heap.bumpPtr ∧
    isExtern (newMemory s kind ty layout data) s.heap.bumpPtr = false ∧
    ∀ o ∈ refOffsets s.heap.traceInfos (newMemory s kind ty layout data) s.heap.bumpPtr,
      isHeapRef ((newMemory s kind ty layout data).readU32 (s.heap.bumpPtr + o)) = true →
        (newMemory s kind ty layout data).readU32 (s.heap.bumpPtr + o) ∈
          s.heap.objects ++ [s.heap.bumpPtr]
  | allocExternref id => s.host.slab.get? id = none ∧ id ≤ u32Max
  | write object offset value => object.raw ∈ s.heap.objects ∧
      isExtern s.heap.memory object.raw = false ∧ value ≤ u32Max ∧
      Writable s.heap.traceInfos s.heap.memory s.heap.objects object.raw offset value
  | gc roots => ∀ r ∈ roots, isHeapRef r.raw = true → r.raw ∈ s.heap.objects
  | replaceMemory len => s.heap.memory.len ≤ len ∧ gcHeapPageSize ∣ len ∧ len ≤ 2 ^ 32

instance (s : CopyingState) (op : CopyingOp) : Decidable (op.Allowed s) := by
  cases op <;> dsimp only [Allowed] <;> infer_instance

/-- One operation of the heap. -/
def run (s : CopyingState) : CopyingOp → Exec CopyingState
  | allocRaw kind ty layout data => do
    let (heap, r) ← s.heap.allocRaw kind (some ty) layout
    match r with
    | .ok gcRef =>
      let memory := data.foldl (fun m p => m.writeU32 (gcRef.raw + p.1) p.2) heap.memory
      pure { s with heap := { heap with memory } }
    | .error _ => pure { s with heap }
  | allocExternref id => do
    let host : ExternRefHostDataTable := ⟨s.host.slab.insert id s.born⟩
    let (heap, r) ← s.heap.allocExternref id
    match r with
    | .ok _ => pure { s with heap, host, born := s.born + 1 }
    | .error _ => do
      -- The value goes back to the caller.
      let (host, _) ← host.dealloc id
      pure { s with heap, host }
  | write object offset value =>
    let memory := s.heap.memory.writeU32 (object.raw + offset) value
    pure { s with heap := { s.heap with memory } }
  | gc roots => do
    let c ← s.heap.gc s.host roots
    pure { s with heap := c.heap, host := c.host, dropped := s.dropped ++ c.dropped }
  | replaceMemory len => do
    let heap ← s.heap.replaceMemory { s.heap.memory with len }
    pure { s with heap }

end CopyingOp

/-- Runs that attach a heap to a memory of at most 4 GiB. -/
def copyingMachine : Machine CopyingState CopyingOp where
  start s := ∃ debugAssertions traceInfos memory, gcHeapPageSize ∣ memory.len ∧
    memory.len ≤ 2 ^ 32 ∧ attach debugAssertions traceInfos memory = .ok s.heap ∧
    s.host = ⟨.empty⟩ ∧ s.born = 0 ∧ s.dropped = []
  allowed s op := op.Allowed s
  step s op := op.run s

instance (s : CopyingState) (op : CopyingOp) : Decidable (copyingMachine.allowed s op) :=
  inferInstanceAs (Decidable (op.Allowed s))

/-! ## Host data -/

/-- **Which host data is where**: the host data so far is either in the table, once, or it has
been dropped, once. -/
structure Tokens (host : ExternRefHostDataTable) (born : ℕ) (dropped : List ℕ) : Prop where
  lt : ∀ id k, host.slab.get? id = some k → k < born
  inj : ∀ id id' k, host.slab.get? id = some k → host.slab.get? id' = some k → id = id'
  nodup : dropped.Nodup
  dropped_iff : ∀ k, k ∈ dropped ↔ k < born ∧ ∀ id, host.slab.get? id ≠ some k

namespace Tokens

variable {host host' : ExternRefHostDataTable} {born : ℕ} {dropped dead : List ℕ}
  (T : Tokens host born dropped)
include T

theorem congr (h : ∀ id, host'.slab.get? id = host.slab.get? id) : Tokens host' born dropped := by
  obtain ⟨hlt, hinj, hnd, hdrop⟩ := T
  refine ⟨?_, ?_, hnd, ?_⟩ <;> simp only [h]
  · exact hlt
  · exact hinj
  · exact hdrop

/-- A new token for new host data. -/
theorem alloc {id : ℕ} (hfr : host.slab.get? id = none) :
    Tokens ⟨host.slab.insert id born⟩ (born + 1) dropped := by
  refine ⟨fun i k hi => ?_, fun i j k hi hj => ?_, T.nodup, fun k => ?_⟩
  · rw [get?_insert] at hi
    split at hi
    · exact Option.some.inj hi ▸ Nat.lt_succ_self _
    · exact Nat.lt_succ_of_lt (T.lt i k hi)
  · rw [get?_insert] at hi hj
    split at hi <;> split at hj
    · exact ‹i = id›.trans ‹j = id›.symm
    · exact absurd (T.lt j k hj) (Option.some.inj hi ▸ lt_irrefl _)
    · exact absurd (T.lt i k hi) (Option.some.inj hj ▸ lt_irrefl _)
    · exact T.inj i j k hi hj
  rw [T.dropped_iff]
  constructor
  · rintro ⟨hlt, hnone⟩
    refine ⟨Nat.lt_succ_of_lt hlt, fun i hi => ?_⟩
    rw [get?_insert] at hi
    split at hi
    · exact absurd hlt (Option.some.inj hi ▸ lt_irrefl _)
    · exact hnone i hi
  rintro ⟨hlt, hnone⟩
  have hne : k ≠ born := fun heq => hnone id (by rw [get?_insert, if_pos rfl, heq])
  refine ⟨by omega, fun i hi => hnone i ?_⟩
  rw [get?_insert, if_neg fun heq => ?_, hi]
  rw [heq, hfr] at hi
  cases hi

/-- Freed host data is dropped once. -/
theorem deallocAll (hnd : dead.Nodup) (hdea : host.deallocAll dead = .ok host') :
    Tokens host' born (dropped ++ dead.filterMap host.slab.get?) := by
  have hget := get?_deallocAll hdea
  have hold : ∀ id k, host'.slab.get? id = some k → id ∉ dead ∧ host.slab.get? id = some k := by
    intro id k hid
    rw [hget] at hid
    split at hid
    · cases hid
    · exact ⟨‹_›, hid⟩
  refine ⟨fun id k hid => T.lt id k (hold id k hid).2,
    fun id id' k hid hid' => T.inj id id' k (hold id k hid).2 (hold id' k hid').2, ?_, fun k => ?_⟩
  · apply List.Nodup.append T.nodup (hnd.filterMap T.inj)
    intro k hk hk'
    obtain ⟨id, -, hid⟩ := List.mem_filterMap.mp hk'
    exact ((T.dropped_iff k).mp hk).2 id hid
  rw [List.mem_append, T.dropped_iff, List.mem_filterMap]
  constructor
  · rintro (⟨hlt, hnone⟩ | ⟨id, hid, hk⟩)
    · exact ⟨hlt, fun id hid => hnone id (hold id k hid).2⟩
    · refine ⟨T.lt id k hk, fun id' hid' => ?_⟩
      obtain ⟨hnot, hk'⟩ := hold id' k hid'
      exact hnot (T.inj id id' k hk hk' ▸ hid)
  rintro ⟨hlt, hnone⟩
  by_cases hlive : ∃ id, host.slab.get? id = some k
  · obtain ⟨id, hk⟩ := hlive
    refine .inr ⟨id, ?_, hk⟩
    by_contra hnot
    exact hnone id (by rw [hget, if_neg hnot, hk])
  · exact .inl ⟨hlt, fun id hid => hlive ⟨id, hid⟩⟩

end Tokens

/-! ## The invariant -/

/-- Host data in the table belongs to an `externref`. -/
def Owned (m : Memory) (host : ExternRefHostDataTable) (objs : List ℕ) : Prop :=
  ∀ id, (host.slab.get? id).isSome → ∃ x ∈ objs, isExtern m x = true ∧ hostId m x = id

/-- **The invariant of a run.** -/
structure CopyingState.Holds (s : CopyingState) : Prop where
  wellFormed : s.heap.WellFormed s.host s.heap.objects
  pages : gcHeapPageSize ∣ s.heap.memory.len
  tokens : Tokens s.host s.born s.dropped
  owned : Owned s.heap.memory s.host s.heap.objects

/-- A collection copies into a space that starts at a multiple of 16. -/
def CollectsAligned (s : CopyingState) : CopyingOp → Prop
  | .gc _ => 16 ∣ s.heap.idleSpaceStart
  | _ => True

instance (s : CopyingState) (op : CopyingOp) : Decidable (CollectsAligned s op) := by
  cases op <;> dsimp only [CollectsAligned] <;> infer_instance

variable {s s' : CopyingState} {op : CopyingOp} {objs : List ℕ}

/-- Host data stays owned when objects are added. -/
theorem Owned.append {m m' : Memory} {host : ExternRefHostDataTable} {infos : TraceInfos}
    {more : List ℕ} {lo hi : ℕ} (O : Owned m host objs) (U : Untouched m m' objs)
    (F : FromSpace infos m objs lo hi) : Owned m' host (objs ++ more) := by
  intro id hid
  obtain ⟨x, hx, hie, heq⟩ := O id hid
  refine ⟨x, List.mem_append_left _ hx, ?_, ?_⟩
  · rw [(U.shape F hx).isExtern_eq, hie]
  · rw [U.hostId_eq F hx, heq]

namespace CopyingState.Holds

theorem of_wellFormed (W : s.heap.WellFormed s.host objs)
    (hpages : gcHeapPageSize ∣ s.heap.memory.len)
    (T : Tokens s.host s.born s.dropped) (O : Owned s.heap.memory s.host objs) : s.Holds := by
  obtain rfl := W.objects_eq
  exact ⟨W, hpages, T, O⟩

variable (H : s.Holds)
include H

/-- `alloc_raw` keeps the invariant. -/
theorem allocRaw {kind : VMGcKind} {ty : ℕ} {layout : Layout} {data : List (ℕ × ℕ)}
    (ha : (CopyingOp.allocRaw kind ty layout data).Allowed s)
    (hok : (CopyingOp.allocRaw kind ty layout data).run s = .ok s') :
    s'.Holds ∧ (16 ∣ s.heap.bumpPtr → 16 ∣ s'.heap.bumpPtr) := by
  obtain ⟨hdata, ok, hnot, hclo⟩ := ha
  obtain ⟨⟨heap, r⟩, halloc, hok⟩ := bind_eq_ok.mp hok
  rcases allocRaw_cases halloc with ⟨rfl, n, rfl⟩ | ⟨r, rfl, hr, hu32, hroom, rfl⟩
  · obtain rfl := Except.ok.inj hok
    exact ⟨H, id⟩
  obtain rfl := Except.ok.inj hok
  rw [hr]
  obtain ⟨W, U⟩ := H.wellFormed.allocObject hu32 hdata hroom rfl ok hnot hclo
  refine ⟨of_wellFormed W ?_ H.tokens (H.owned.append U H.wellFormed.objects), fun hdvd => ?_⟩
  · show gcHeapPageSize ∣ (objectMemory _ _ _ _ _ _).len
    rw [len_objectMemory]
    exact H.pages
  · exact Nat.dvd_add hdvd (dvd_roundUp _ _)

/-- `alloc_externref` keeps the invariant. -/
theorem allocExternref {id : ℕ} (ha : (CopyingOp.allocExternref id).Allowed s)
    (hok : (CopyingOp.allocExternref id).run s = .ok s') :
    s'.Holds ∧ (16 ∣ s.heap.bumpPtr → 16 ∣ s'.heap.bumpPtr) := by
  obtain ⟨hfr, hid⟩ := ha
  obtain ⟨⟨heap, r⟩, halloc, hok⟩ := bind_eq_ok.mp hok
  rcases allocExternref_cases halloc with ⟨rfl, n, rfl⟩ | ⟨r, rfl, hr, hroom, rfl⟩
  · obtain ⟨⟨host, value⟩, hdea, hok⟩ := bind_eq_ok.mp hok
    obtain rfl := Except.ok.inj hok
    have hhost : ∀ i, host.slab.get? i = s.host.slab.get? i := by
      intro i
      have hget : (s.host.slab.insert id s.born).get? id = some s.born := by simp
      rw [ExternRefHostDataTable.dealloc, hget] at hdea
      obtain ⟨rfl, -⟩ := Prod.mk.inj (Except.ok.inj hdea)
      by_cases hi : i = id <;> simp [hi, hfr]
    have W := H.wellFormed
    refine ⟨⟨⟨W.semiSpaces, W.objects, W.bump_le, W.externs, ?_, W.hostData.inj⟩, H.pages,
      H.tokens.congr hhost, ?_⟩, fun hdvd => hdvd⟩
    · simp only [hhost]
      exact W.hostData.live
    · rw [Owned]
      simp only [hhost]
      exact H.owned
  obtain rfl := Except.ok.inj hok
  obtain ⟨W, hhost, hie, U⟩ := H.wellFormed.allocExternref s.born hr hroom hid hfr rfl
  refine ⟨of_wellFormed W ?_ (H.tokens.alloc hfr) fun i hi => ?_, fun hdvd => ?_⟩
  · show gcHeapPageSize ∣ (objectMemory _ _ _ _ _ _).len
    exact H.pages
  · rw [get?_insert] at hi
    split at hi
    · exact ⟨_, List.mem_append_right _ (.head _), hie, hhost.trans ‹i = id›.symm⟩
    · exact H.owned.append U H.wellFormed.objects i hi
  · show 16 ∣ s.heap.bumpPtr + 32
    omega

/-- A write keeps the invariant. -/
theorem write {object : VMGcRef} {offset value : ℕ}
    (ha : (CopyingOp.write object offset value).Allowed s)
    (hok : (CopyingOp.write object offset value).run s = .ok s') :
    s'.Holds ∧ (16 ∣ s.heap.bumpPtr → 16 ∣ s'.heap.bumpPtr) := by
  obtain ⟨hmem, hnot, hval, hwr⟩ := ha
  obtain rfl := Except.ok.inj hok
  obtain ⟨W, hkeep⟩ := H.wellFormed.write hmem hnot hval hwr
  refine ⟨of_wellFormed W H.pages H.tokens fun id hid => ?_, fun hdvd => hdvd⟩
  obtain ⟨x, hx, hie, heq⟩ := H.owned id hid
  obtain ⟨hie', hhost⟩ := hkeep x hx hie
  exact ⟨x, hx, hie', hhost.trans heq⟩

/-- `replace_memory` keeps the invariant. -/
theorem replaceMemory {len : ℕ} (ha : (CopyingOp.replaceMemory len).Allowed s)
    (hok : (CopyingOp.replaceMemory len).run s = .ok s') :
    s'.Holds ∧ (16 ∣ s.heap.bumpPtr → 16 ∣ s'.heap.bumpPtr) := by
  obtain ⟨hlen, hdvd, -⟩ := ha
  obtain ⟨h', hreplace, W, G⟩ := H.wellFormed.grow H.pages hlen
  obtain ⟨heap, hheap, hok⟩ := bind_eq_ok.mp hok
  obtain rfl := Except.ok.inj (hreplace.symm.trans hheap)
  obtain rfl := Except.ok.inj hok
  refine ⟨of_wellFormed W ?_ H.tokens ?_, fun hbump => ?_⟩
  · rw [G.memory]
    exact hdvd
  · rw [G.memory]
    exact H.owned
  · exact G.bump.elim (fun heq => heq ▸ hbump) fun hdvd => hdvd

/-- A collection that returns is one of the specification. -/
theorem collected {roots : List VMGcRef} (ha : (CopyingOp.gc roots).Allowed s)
    (hok : (CopyingOp.gc roots).run s = .ok s') :
    ∃ c froms, Collected s.heap s.host s.heap.objects roots c froms ∧
      s' = { s with heap := c.heap, host := c.host, dropped := s.dropped ++ c.dropped } := by
  obtain ⟨c, hgc, hok⟩ := bind_eq_ok.mp hok
  obtain ⟨-, -, hcol⟩ := bind_eq_ok.mp hgc
  obtain rfl := Except.ok.inj hok
  obtain ⟨c', froms, hcol', C⟩ := H.wellFormed.collect (H.wellFormed.dvd_of_collect hcol) ha
  obtain rfl := Except.ok.inj (hcol'.symm.trans hcol)
  exact ⟨c', froms, C, rfl⟩

/-- A collection keeps the invariant. -/
theorem gc {roots : List VMGcRef} (ha : (CopyingOp.gc roots).Allowed s)
    (hok : (CopyingOp.gc roots).run s = .ok s') :
    s'.Holds ∧ (16 ∣ s.heap.idleSpaceStart → 16 ∣ s'.heap.bumpPtr) := by
  obtain ⟨c, froms, C, rfl⟩ := H.collected ha hok
  obtain ⟨dead, hnd, hdead, hdea, hdrop⟩ := C.dropped
  have T := H.tokens.deallocAll hnd hdea
  rw [← hdrop] at T
  refine ⟨of_wellFormed C.wellFormed (C.len_eq ▸ H.pages) T fun id hid => ?_, fun hdvd => ?_⟩
  · rw [get?_deallocAll hdea] at hid
    split at hid
    · cases hid
    rename_i hlive
    obtain ⟨x, hx, hie, heq⟩ := H.owned id hid
    have hmem : x ∈ froms := by
      by_contra hnot
      exact hlive ((hdead id).mpr ⟨x, hx, hie, hnot, heq⟩)
    obtain ⟨t, ht⟩ := exists_place hmem
    have ok := H.wellFormed.objects.ok x hx
    refine ⟨t, mem_copies.mpr ⟨x, ht⟩, ?_, ?_⟩
    · rw [((C.body x t ht).shape ok).isExtern_eq, hie]
    · rw [(C.body x t ht).hostId_eq ok hie, heq]
  have hend := C.wellFormed.objects.laidOut.end_eq
  have htotal :
      16 ∣ totalSize c.heap.memory (copies s.heap.memory s.heap.swapped.bumpPtr froms) :=
    dvd_totalSize fun t ht => (C.wellFormed.objects.ok t ht).size_dvd
  have hfst : 16 ∣ firstObject c.heap.activeSpaceStart c.heap.activeSpaceEnd :=
    Nat.dvd_of_mod_eq_zero ((firstObject_mod _ _).mpr (C.start_eq ▸ hdvd))
  rw [← hend]
  exact Nat.dvd_add hfst htotal

/-- **The invariant is kept by every operation.** -/
theorem step (ha : op.Allowed s) (hok : op.run s = .ok s') :
    s'.Holds ∧ (16 ∣ s.heap.bumpPtr → CollectsAligned s op → 16 ∣ s'.heap.bumpPtr) := by
  cases op with
  | allocRaw kind ty layout data =>
    obtain ⟨H', hdvd⟩ := H.allocRaw ha hok
    exact ⟨H', fun hbump _ => hdvd hbump⟩
  | allocExternref id =>
    obtain ⟨H', hdvd⟩ := H.allocExternref ha hok
    exact ⟨H', fun hbump _ => hdvd hbump⟩
  | write object offset value =>
    obtain ⟨H', hdvd⟩ := H.write ha hok
    exact ⟨H', fun hbump _ => hdvd hbump⟩
  | gc roots =>
    obtain ⟨H', hdvd⟩ := H.gc ha hok
    exact ⟨H', fun _ hal => hdvd hal⟩
  | replaceMemory len =>
    obtain ⟨H', hdvd⟩ := H.replaceMemory ha hok
    exact ⟨H', fun hbump _ => hdvd hbump⟩

end CopyingState.Holds

/-- The invariant holds at the start. -/
theorem copyingHolds_start (h : copyingMachine.start s) : s.Holds ∧ 16 ∣ s.heap.bumpPtr := by
  obtain ⟨heap, host, born, dropped⟩ := s
  obtain ⟨debugAssertions, infos, memory, hpages, -, hattach, rfl, rfl, rfl⟩ := h
  obtain ⟨stop, idleStart, idleStop, half, hinit, S⟩ := initializeSemiSpaces_eq
    (h := { debugAssertions := debugAssertions, traceInfos := infos, noGcCount := 0
            memory := memory, bumpPtr := 0, activeSpaceEnd := 0, activeSpaceStart := 0
            idleSpaceStart := 0, idleSpaceEnd := 0, worklistPtr := 0, activeExternRefSetHead := none
            idleExternRefSetHead := none }) ⟨rfl, rfl, rfl, rfl, rfl⟩
  obtain rfl := Except.ok.inj (hinit.symm.trans hattach)
  refine ⟨.of_wellFormed (SemiSpaces.wellFormed (S.congr ?_) rfl rfl) hpages
    ⟨by simp, by simp, List.nodup_nil, by simp⟩ (fun id hid => by simp at hid), ?_⟩
  · exact ⟨rfl, rfl, rfl, rfl, rfl, rfl, rfl, rfl⟩
  · exact Nat.dvd_of_mod_eq_zero ((firstObject_mod 0 stop).mpr (Nat.dvd_zero 16))

/-- **The invariant holds in every state of a run.** -/
theorem reaches_copyingHolds (hs : copyingMachine.Reaches s) : s.Holds :=
  hs.invariant (fun _ h => (copyingHolds_start h).1) fun _ _ _ H ha hok => (H.step ha hok).1

/-! ## The semi-spaces -/

/-- **The semi-spaces in every state of a run** whose collections all swap in an aligned space:
they are of the same size and disjoint, the bump pointer is in the active one and aligned, and so
is every index that is allocated. -/
theorem semiSpaces_aligned (hs : (copyingMachine.onlyWhen CollectsAligned).Reaches s) :
    s.heap.activeSpaceStart ≤ s.heap.activeSpaceEnd ∧ s.heap.idleSpaceStart ≤ s.heap.idleSpaceEnd ∧
    s.heap.activeSpaceEnd - s.heap.activeSpaceStart = s.heap.idleSpaceEnd - s.heap.idleSpaceStart ∧
    (s.heap.activeSpaceEnd ≤ s.heap.idleSpaceStart ∨
      s.heap.idleSpaceEnd ≤ s.heap.activeSpaceStart) ∧
    s.heap.activeSpaceEnd ≤ s.heap.memory.len ∧ s.heap.idleSpaceEnd ≤ s.heap.memory.len ∧
    s.heap.activeSpaceStart ≤ s.heap.bumpPtr ∧ s.heap.bumpPtr ≤ s.heap.activeSpaceEnd ∧
    copyingAlign ∣ s.heap.bumpPtr ∧
    ∀ size h' index, 0 < size → copyingAlign ∣ size →
      s.heap.allocate size = .ok (h', some index) → index ≠ 0 ∧ copyingAlign ∣ index := by
  obtain ⟨H, hbump⟩ : s.Holds ∧ 16 ∣ s.heap.bumpPtr := by
    refine Reaches.invariant (P := fun s => s.Holds ∧ 16 ∣ s.heap.bumpPtr) ?_ ?_ hs
    · exact fun s hst => copyingHolds_start hst
    · intro s op s' ⟨H, hbump⟩ ⟨ha, hal⟩ hok
      obtain ⟨H', hdvd⟩ := H.step ha hok
      exact ⟨H', hdvd hbump hal⟩
  obtain ⟨half, S⟩ := H.wellFormed.semiSpaces
  obtain ⟨hact, hidle, hapart⟩ := S.le
  obtain ⟨hsize, hsize'⟩ := S.size_eq
  obtain ⟨hlen, hlen', -, -⟩ := S.end_le
  obtain ⟨granule, hgranule, hfst, -⟩ := S.firstObject_eq
  have hend := H.wellFormed.objects.laidOut.end_eq
  refine ⟨hact, hidle, hsize.trans hsize'.symm, hapart, hlen, hlen', by omega,
    H.wellFormed.bump_le, hbump, fun size h' index hpos hdvd halloc => ?_⟩
  rcases allocate_cases halloc with ⟨-, hnone⟩ | ⟨hidx, hroom, -⟩
  · cases hnone
  obtain rfl := Option.some.inj hidx
  -- Only a space without a first granule starts at zero, and it has no room.
  have := Nat.le_of_dvd hpos hdvd
  rw [copyingAlign] at this
  exact ⟨by omega, hbump⟩

/-- A heap that has been attached to an empty memory, for structs with one reference. -/
def attachedState (debugAssertions : Bool) (len half : ℕ) : CopyingState where
  heap :=
    { debugAssertions, traceInfos := SortedMap.empty.insert 0 (.struct [16]), noGcCount := 0
      memory := ⟨len, fun _ => 0⟩, bumpPtr := 16, activeSpaceEnd := half, activeSpaceStart := 0
      idleSpaceStart := half, idleSpaceEnd := 2 * half, worklistPtr := 0
      activeExternRefSetHead := none, idleExternRefSetHead := none }
  host := ⟨.empty⟩
  born := 0
  dropped := []

theorem start_attachedState : copyingMachine.start (attachedState true 65536 32768) :=
  ⟨true, empty.insert 0 (.struct [16]), ⟨65536, fun _ => 0⟩, by decide, by decide, rfl,
   rfl, rfl, rfl⟩

/-- Two `externref`s, the second of which is held by a struct that survives a collection. -/
def holdOne : List CopyingOp :=
  [.allocExternref 5, .allocExternref 6, .allocRaw .structRef 0 externRefLayout [(16, 48)],
    .gc [⟨80, by decide⟩]]

theorem semiSpaces_aligned_holdOne : ∃ s, (copyingMachine.onlyWhen CollectsAligned).Reaches s ∧
    s.heap.bumpPtr = 32848 ∧ copyingAlign ∣ s.heap.bumpPtr := by
  obtain ⟨s, hs, hbump⟩ := reaches_of_run?
    (M := copyingMachine.onlyWhen CollectsAligned) (p := fun s => decide (s.heap.bumpPtr = 32848))
    holdOne start_attachedState (by decide +kernel)
  exact ⟨s, hs, of_decide_eq_true hbump, (semiSpaces_aligned hs).2.2.2.2.2.2.2.2.1⟩

/-- Half of the capacity of a heap of 4 GiB is not a multiple of the alignment, so that without
debug assertions the first collection leaves a bump pointer that is not aligned. -/
theorem bumpPtr_misaligned : ∃ s, copyingMachine.Reaches s ∧ s.heap.memory.len = 2 ^ 32 ∧
    ¬copyingAlign ∣ s.heap.bumpPtr ∧ ∃ h' index, s.heap.allocate 32 = .ok (h', some index) ∧
      ¬copyingAlign ∣ index := by
  have hst : copyingMachine.start (attachedState false (2 ^ 32) 0x7ffffff8) :=
    ⟨false, empty.insert 0 (.struct [16]), ⟨2 ^ 32, fun _ => 0⟩, by decide, by decide,
      rfl, rfl, rfl, rfl⟩
  obtain ⟨s, hs, hp⟩ := reaches_of_run? (M := copyingMachine)
    (p := fun s => decide (s.heap.memory.len = 2 ^ 32 ∧ ¬copyingAlign ∣ s.heap.bumpPtr ∧
      (s.heap.allocate 32).toOption.any fun r => r.2.any fun i => ¬copyingAlign ∣ i))
    [.gc []] hst (by decide +kernel)
  obtain ⟨hlen, hbump, halloc⟩ := of_decide_eq_true hp
  refine ⟨s, hs, hlen, hbump, ?_⟩
  cases hok : s.heap.allocate 32 with
  | error e => simp [hok, Except.toOption] at halloc
  | ok r =>
    obtain ⟨index, hidx, hdvd⟩ := (Option.any_eq_true _ _).mp
      (show r.2.any (fun i => ¬copyingAlign ∣ i) = true by rwa [hok] at halloc)
    exact ⟨r.1, index, by rw [← hidx], of_decide_eq_true hdvd⟩

/-! ## The `externref`s -/

/-- Only collections drop host data. -/
theorem CopyingOp.dropped_eq (hop : ∀ roots, op ≠ .gc roots) (hok : op.run s = .ok s') :
    s'.dropped = s.dropped := by
  cases op with
  | allocRaw kind ty layout data =>
    obtain ⟨⟨heap, r⟩, -, hok⟩ := bind_eq_ok.mp hok
    cases r <;> exact Except.ok.inj hok ▸ rfl
  | allocExternref id =>
    obtain ⟨⟨heap, r⟩, -, hok⟩ := bind_eq_ok.mp hok
    cases r with
    | ok r => exact Except.ok.inj hok ▸ rfl
    | error n =>
      obtain ⟨p, -, hok⟩ := bind_eq_ok.mp hok
      exact Except.ok.inj hok ▸ rfl
  | write object offset value => exact Except.ok.inj hok ▸ rfl
  | gc roots => exact absurd rfl (hop roots)
  | replaceMemory len =>
    obtain ⟨heap, -, hok⟩ := bind_eq_ok.mp hok
    exact Except.ok.inj hok ▸ rfl

/-- **The `externref`s in every state of a run.**  The list goes through exactly the `externref`s
of the active space, each once.  Each host data that was ever given to an `externref` has been
dropped exactly once if no `externref` of the active space has it, and not at all otherwise, and a
collection drops the host data of exactly those `externref`s that the roots do not reach. -/
theorem externrefs_accounted (hs : copyingMachine.Reaches s) :
    LaidOut s.heap.memory (firstObject s.heap.activeSpaceStart s.heap.activeSpaceEnd)
      s.heap.objects s.heap.bumpPtr ∧
    (∃ chain, Externs s.heap.memory s.heap.activeExternRefSetHead s.heap.objects chain) ∧
    s.dropped.Nodup ∧
    (∀ k, k ∈ s.dropped ↔ k < s.born ∧ ∀ x ∈ s.heap.objects,
      isExtern s.heap.memory x = true → s.hostDataAt x ≠ some k) ∧
    (∀ x ∈ s.heap.objects, isExtern s.heap.memory x = true → (s.hostDataAt x).isSome) ∧
    (∀ x ∈ s.heap.objects, ∀ y ∈ s.heap.objects, isExtern s.heap.memory x = true →
      isExtern s.heap.memory y = true → s.hostDataAt x = s.hostDataAt y → x = y) ∧
    ∀ (op : CopyingOp) s', op.Allowed s → op.run s = .ok s' → ∃ drops, s'.dropped = s.dropped ++
      drops ∧
      ∀ k, k ∈ drops ↔ ∃ roots, op = .gc roots ∧ ∃ x ∈ s.heap.objects,
        isExtern s.heap.memory x = true ∧ ¬Reachable s.heap.traceInfos s.heap.memory roots x ∧
        s.hostDataAt x = some k := by
  have H := reaches_copyingHolds hs
  refine ⟨H.wellFormed.objects.laidOut, H.wellFormed.externs, H.tokens.nodup, fun k => ?_,
    H.wellFormed.hostData.live, fun x hx y hy hie hie' heq => ?_, fun op s' ha hok => ?_⟩
  · rw [H.tokens.dropped_iff]
    refine and_congr_right fun _ => ⟨fun hnone x _ _ => hnone _, fun hnone id hid => ?_⟩
    obtain ⟨x, hx, hie, rfl⟩ := H.owned id (by rw [hid]; rfl)
    exact hnone x hx hie hid
  · obtain ⟨k, hk⟩ := Option.isSome_iff_exists.mp (H.wellFormed.hostData.live x hx hie)
    exact H.wellFormed.hostData.inj x hx y hy hie hie'
      (H.tokens.inj _ _ k hk (heq.symm.trans hk))
  by_cases hop : ∃ roots, op = .gc roots
  · obtain ⟨roots, rfl⟩ := hop
    obtain ⟨c, froms, C, rfl⟩ := H.collected ha hok
    obtain ⟨dead, -, hdead, -, hdrop⟩ := C.dropped
    refine ⟨c.dropped, rfl, fun k => ?_⟩
    rw [hdrop, List.mem_filterMap]
    constructor
    · rintro ⟨id, hid, hk⟩
      obtain ⟨x, hx, hie, hnot, rfl⟩ := (hdead id).mp hid
      exact ⟨roots, rfl, x, hx, hie, fun hrch => hnot ((C.reachable_iff x).mp hrch), hk⟩
    · rintro ⟨_, heq, x, hx, hie, hnot, hk⟩
      obtain rfl := CopyingOp.gc.inj heq
      exact ⟨_, (hdead _).mpr ⟨x, hx, hie, fun hmem => hnot ((C.reachable_iff x).mpr hmem),
        rfl⟩, hk⟩
  refine ⟨[], ?_, fun k => ?_⟩
  · rw [List.append_nil]
    exact CopyingOp.dropped_eq (fun roots heq => hop ⟨roots, heq⟩) hok
  · apply iff_of_false List.not_mem_nil
    rintro ⟨roots, heq, -⟩
    exact hop ⟨roots, heq⟩

theorem externrefs_accounted_holdOne : ∃ s, copyingMachine.Reaches s ∧ s.dropped = [0] ∧
    s.born = 2 ∧ ∃ chain,
      Externs s.heap.memory s.heap.activeExternRefSetHead s.heap.objects chain := by
  obtain ⟨s, hs, hp⟩ := reaches_of_run? (M := copyingMachine)
    (p := fun s => decide (s.dropped = [0] ∧ s.born = 2)) holdOne start_attachedState
    (by decide +kernel)
  obtain ⟨hdrop, hborn⟩ := of_decide_eq_true hp
  exact ⟨s, hs, hdrop, hborn, (externrefs_accounted hs).2.1⟩

end WasmDeps.Gc
