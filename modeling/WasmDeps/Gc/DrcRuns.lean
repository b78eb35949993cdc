import WasmDeps.Gc.DrcRoots

/-!
# Runs of the reference-counting collector

A run allocates objects, clones, overwrites and exposes references and collects, in any
order.  Beside the store, the state keeps the references that are held outside of the
heap: those in the slots of the embedder, in globals, tables and so on.
-/

namespace WasmDeps.Gc

open WasmDeps.Lib FreeList DrcObject DrcHeap Exec SortedMap Option Machine

/-! ## The machine -/

/-- A store, and the references to its heap that are held outside of it. -/
structure DrcState extends GcStore where
  /-- The heap indices of the references. -/
  held : Multiset ℕ

/-- The operations of the store. -/
inductive DrcOp
  | allocRaw (kind : VMGcKind) (ty : ℕ) (layout : Layout) (data : List ℕ)
  | allocExternref (id value : ℕ)
  | cloneGcRef (gcRef : VMGcRef)
  | writeGcRef (destination source : Option VMGcRef)
  | writeVal (object : VMGcRef) (offset : ℕ) (val : Option VMGcRef)
  | exposeGcRefToWasm (gcRef : VMGcRef)
  | gc (roots : List GcRoot)

namespace DrcOp

/-- What the caller of an operation promises.  A new object agrees with its type, and the
references that it is initialised with are the caller's; host data ids are fresh; a slot
that is overwritten was held, and so is a reference that is passed to Wasm; fields are
written in objects that are alive; and the roots on the Wasm stack were passed to it. -/
def Allowed (s : DrcState) : DrcOp → Prop
  | allocRaw kind ty layout data =>
    (drcHeaderSize ≤ layout.size ∧ layout.size ≤ u32Max) ∧
    (8 ≤ layout.align ∧ layout.align ≤ freeListAlign) ∧
    drcHeaderSize + 4 * data.length ≤ layout.size + 3 ∧
    (newObject kind (some ty) layout data).Fits (s.heap.traceInfos.get? ty) ∧
    s.heap.children (newObject kind (some ty) layout data) ≤ s.held
  | allocExternref id _ => s.host.slab.get? id = none
  | cloneGcRef gcRef => ∀ x ∈ heapRefs (some gcRef), x ∈ s.heap.objects.keys
  | writeGcRef destination source => heapRefs destination ≤ s.held ∧
      ∀ x ∈ heapRefs source, x ∈ s.heap.objects.keys
  | writeVal object offset val =>
    (∃ o ∈ s.heap.objects.get? object.raw, offset ∈ s.heap.refOffsets o ∧
      (object.raw ∈ s.held ∨ o.inOverApproximatedStackRoots = true)) ∧
    ∀ x ∈ heapRefs val, x ∈ s.heap.objects.keys
  | exposeGcRefToWasm gcRef => heapRefs (some gcRef) ≤ s.held
  | gc roots => ∀ x ∈ stackRefs roots,
      (s.heap.objects.get? x).any fun o => o.inOverApproximatedStackRoots

instance (s : DrcState) (op : DrcOp) : Decidable (op.Allowed s) := by
  cases op <;> dsimp only [Allowed] <;> infer_instance

/-- Run an operation.  A new object holds the references that it is initialised with, and
its own is handed to the caller. -/
def run (s : DrcState) : DrcOp → Exec DrcState
  | allocRaw kind ty layout data => do
    let (heap, r) ← s.heap.allocRaw kind (some ty) layout data
    match r with
    | .ok gcRef =>
      let held := s.held - s.heap.children (newObject kind (some ty) layout data)
      pure { s with heap, held := gcRef.raw ::ₘ held }
    | .error _ => pure { s with heap }
  | allocExternref id value => do
    let (store, r) ← s.toGcStore.allocExternref id value
    match r with
    | .ok gcRef => pure { store with held := gcRef.raw ::ₘ s.held }
    | .error _ => pure { store with held := s.held }
  | cloneGcRef gcRef => do
    let store ← s.toGcStore.cloneGcRef gcRef
    pure { store with held := s.held + heapRefs (some gcRef) }
  | writeGcRef destination source => do
    let (store, destination') ← s.toGcStore.writeGcRef destination source
    pure { store with held := s.held - heapRefs destination + heapRefs destination' }
  | writeVal object offset val => do
    let store ← s.toGcStore.writeVal object offset val
    pure { store with held := s.held }
  | exposeGcRefToWasm gcRef => do
    let store ← s.toGcStore.exposeGcRefToWasm gcRef
    pure { store with held := s.held - heapRefs (some gcRef) }
  | gc roots => do
    let store ← s.toGcStore.gc roots
    pure { store with held := s.held }

end DrcOp

/-- All runs of the store from a new heap. -/
def drcMachine : Machine DrcState DrcOp where
  start s := ∃ traceInfos len host, len ≤ usizeMax ∧ s = ⟨⟨DrcHeap.new traceInfos len, host⟩, 0⟩
  allowed s op := op.Allowed s
  step s op := op.run s

instance (s : DrcState) (op : DrcOp) : Decidable (drcMachine.allowed s op) :=
  inferInstanceAs (Decidable (op.Allowed s))

/-! ## The invariant -/

/-- **The invariant of a run**: between the calls the roots list is `xs`, nothing is marked,
and the references that are held and those of the list are counted. -/
structure DrcState.Holds (s : DrcState) (xs : List ℕ) : Prop where
  listed : s.heap.Listed s.host (fun x => s.held.count x) xs
  unmarked : ∀ x, s.heap.isMarked x = false
  noGcCount : s.heap.noGcCount = 0

variable {s s' : DrcState} {xs : List ℕ}

variable {r : VMGcRef}

namespace DrcState.Holds

variable (H : s.Holds xs)
include H

theorem of_keepsRoots (K : s'.heap.KeepsRoots s.heap) (S : s'.heap.Sound s'.host)
    (C : s'.heap.Counted fun x => s'.held.count x + xs.count x) : s'.Holds xs := by
  have hmem : ∀ x ∈ xs, x ∈ s'.heap.objects.keys := fun x hx =>
    C.held_mem x (Nat.lt_add_left _ (List.count_pos_iff.mpr hx))
  refine ⟨⟨S, H.listed.rooted.of_keepsRoots K hmem, C⟩, fun x => ?_,
    K.frame.noGcCount.trans H.noGcCount⟩
  by_cases hx : x ∈ s'.heap.objects.keys
  · rw [K.isMarked_eq hx, H.unmarked]
  · exact isMarked_of_not_mem hx

theorem stackRefs_subset {roots : List GcRoot} (ha : (DrcOp.gc roots).Allowed s) :
    stackRefs roots ⊆ xs := by
  intro x hx
  obtain ⟨o, ho, hin⟩ := (any_eq_true _ _).mp (ha x hx)
  exact (H.listed.rooted.inList_iff x).mp ⟨o, ho, hin⟩

/-- The write barrier keeps the invariant. -/
theorem writeGcRef {destination source : Option VMGcRef} (hheld : heapRefs destination ≤ s.held)
    (hsrc : ∀ x ∈ heapRefs source, x ∈ s.heap.objects.keys)
    (hfits : ∀ x ∈ heapRefs source, s.heap.refCount x + 1 ≤ usizeMax) :
    ∃ h' host', s.heap.writeGcRef s.host destination source = .ok (h', host', source) ∧
      Holds ⟨⟨h', host'⟩, s.held - heapRefs destination + heapRefs source⟩ xs := by
  have hle : ∀ x, (heapRefs destination).count x ≤ s.held.count x := fun x =>
    Multiset.count_le_of_le x hheld
  have hext : ∀ x, (s.held - heapRefs destination + heapRefs source).count x + xs.count x +
      (heapRefs destination).count x = s.held.count x + xs.count x + (heapRefs source).count x := by
    intro x
    have := hle x
    rw [Multiset.count_add, Multiset.count_sub]
    omega
  obtain ⟨h', host', hok, S, hshr, C⟩ := H.listed.counted.writeGcRef H.listed.sound hsrc
    hfits hext fun x => (hle x).trans (Nat.le_add_right _ _)
  exact ⟨h', host', hok, H.of_keepsRoots hshr.keepsRoots S C⟩

theorem size_le : s.heap.objects.size ≤ u32Max := by
  have S := H.listed.sound.stored
  have hsum := sum_blocks_le S.blocks
  have hlen : (s.heap.blocks.map Prod.snd).length ≤ (s.heap.blocks.map Prod.snd).sum := by
    refine List.length_le_sum_of_one_le _ fun n hn => ?_
    obtain ⟨b, hb, rfl⟩ := List.mem_map.mp hn
    exact (S.blocks.placed b hb).size_pos
  have hsize : (s.heap.blocks.map Prod.snd).length = s.heap.objects.size := by
    simp [blocks, size]
  have := managedEnd_le s.heap.freeList.capacity
  omega

omit H

variable {o : DrcObject} {h' : DrcHeap} {host' : ExternRefHostDataTable}

include H

/-- A reference that is on the list is given up. -/
theorem expose_listed (ho : s.heap.objects.get? r.raw = some o)
    (hin : o.inOverApproximatedStackRoots = true) (hheld : r.raw ∈ s.held) :
    ∃ h', s.heap.exposeGcRefToWasm r = .ok h' ∧
      Holds ⟨⟨h', s.host⟩, s.held - {r.raw}⟩ xs := by
  have hmem := (H.listed.rooted.inList_iff _).mp ⟨o, ho, hin⟩
  have hcnt := H.listed.counted.count_eq _ (mem_keys_of_get? ho)
  have hpos := Multiset.count_pos.mpr hheld
  have hpos' := List.count_pos_iff.mpr hmem
  have hval : s.heap.refCount r.raw = o.refCount := by simp [refCount, ho]
  have B : SameBody { o with refCount := o.refCount - 1 } o := ⟨rfl, rfl, rfl, rfl⟩
  refine ⟨s.heap.put r { o with refCount := o.refCount - 1 }, ?_,
    H.of_keepsRoots (shrinks_put ho _).keepsRoots (H.listed.sound.put ho B)
      (H.listed.counted.put ho B ?_ (fun x hx => ?_) ?_)⟩
  · simp [exposeGcRefToWasm, index_eq (H.listed.sound.stored.two_dvd ho) ho, hin, decRef,
      show 0 < o.refCount by omega, show o.refCount - 1 ≠ 0 by omega]
  · show 0 < o.refCount - 1
    omega
  · simp [hx]
  · show o.refCount - 1 + _ = o.refCount + _
    rw [Multiset.count_sub, Multiset.count_singleton_self]
    omega

/-- A reference that is not on the list moves there. -/
theorem expose_unlisted (ho : s.heap.objects.get? r.raw = some o)
    (hin : o.inOverApproximatedStackRoots = false) (hheld : r.raw ∈ s.held) :
    ∃ h', s.heap.exposeGcRefToWasm r = .ok h' ∧
      Holds ⟨⟨h', s.host⟩, s.held - {r.raw}⟩ (r.raw :: xs) := by
  obtain ⟨S, R, C⟩ := H.listed
  have hnot : r.raw ∉ xs := by
    intro hmem
    obtain ⟨p, hp, hbit⟩ := R.get? hmem
    obtain rfl : o = p := some.inj (ho.symm.trans hp)
    exact Bool.false_ne_true (hin.symm.trans hbit)
  have hlen : s.heap.currentOverApproximatedStackRootsLen + 1 ≤ u32Max := by
    have hnd := List.nodup_cons.mpr ⟨hnot, R.nodup⟩
    have := length_le_size hnd fun x hx => by
      rcases List.mem_cons.mp hx with rfl | hx
      · exact mem_keys_of_get? ho
      · exact H.listed.mem_keys hx
    have := H.size_le
    rw [R.len]
    exact this.trans' (by simpa using ‹_›)
  obtain ⟨o', ho'⟩ : ∃ o', o' = { o with
    inOverApproximatedStackRoots := true
    nextOverApproximatedStackRoot := s.heap.overApproximatedStackRoots } := ⟨_, rfl⟩
  obtain ⟨h', hh'⟩ : ∃ h', h' = { s.heap.put r o' with
    overApproximatedStackRoots := some r
    currentOverApproximatedStackRootsLen := s.heap.currentOverApproximatedStackRootsLen + 1 } :=
    ⟨_, rfl⟩
  have B : o'.SameBody o := ho' ▸ ⟨rfl, rfl, rfl, rfl⟩
  have hcnt : o'.refCount = o.refCount := ho' ▸ rfl
  have hpos : 0 < o.refCount := by
    simpa [refCount, ho] using C.count_pos _ (mem_keys_of_get? ho)
  have hget : ∀ x, h'.objects.get? x = if x = r.raw then some o' else s.heap.objects.get? x := by
    intro x
    rw [hh']
    exact get?_insert ..
  have S' : h'.Sound s.host := by
    have S1 := S.put ho B
    exact hh' ▸ S1.congr rfl rfl (S1.stored.congr rfl rfl fun _ => rfl) rfl
  have C' : h'.Counted fun x => (s.held - {r.raw}).count x + (r.raw :: xs).count x := by
    have hext : (fun x => (s.held - {r.raw}).count x + (r.raw :: xs).count x) =
        fun x => s.held.count x + xs.count x := by
      funext x
      have := Multiset.count_pos.mpr hheld
      by_cases hx : x = r.raw
      · subst hx
        rw [Multiset.count_sub, Multiset.count_singleton_self, List.count_cons_self]
        omega
      · simp [hx, Ne.symm hx]
    rw [hext]
    exact hh' ▸ (C.put ho B (hcnt ▸ hpos) (fun _ _ => rfl) (by rw [hcnt])).congr rfl rfl
  have R' := R.push hnot (hh' ▸ rfl) (hh' ▸ rfl) (ho' ▸ rfl) (ho' ▸ rfl) hget
  refine ⟨h', ?_, ⟨S', R', C'⟩, fun x => ?_, ?_⟩
  · simp [exposeGcRefToWasm, index_eq (S.stored.two_dvd ho) ho, hin, setNext,
      addU32_of_le hlen, hh', ho']
  · show h'.isMarked x = false
    have := H.unmarked x
    rw [isMarked] at this ⊢
    rw [hget]
    by_cases hx : x = r.raw
    · subst hx
      rw [ho] at this
      simpa [ho'] using this
    · rwa [if_neg hx]
  · show h'.noGcCount = 0
    rw [hh']
    exact H.noGcCount

/-- A new object takes over the references it is initialised with. -/
theorem allocates {kind : VMGcKind} {ty : Option ℕ} {layout : Layout} {data : List ℕ}
    (A : s.heap.Allocates h' r (newObject kind ty layout data)) (S : h'.Sound host')
    (hle : s.heap.children (newObject kind ty layout data) ≤ s.held) :
    Holds ⟨⟨h', host'⟩, r.raw ::ₘ (s.held - s.heap.children (newObject kind ty layout data))⟩
      xs := by
  obtain ⟨o, ho⟩ : ∃ o, o = newObject kind ty layout data := ⟨_, rfl⟩
  rw [← ho] at A hle ⊢
  have hin : o.inOverApproximatedStackRoots = false := ho ▸ rfl
  have hget : ∀ x, h'.objects.get? x = if x = r.raw then some o else s.heap.objects.get? x := by
    intro x
    rw [A.objects_eq, get?_insert]
  have hle' : ∀ x, (s.heap.children o).count x ≤ s.held.count x := fun x =>
    Multiset.count_le_of_le x hle
  have hext : ∀ x, (r.raw ::ₘ (s.held - s.heap.children o)).count x + xs.count x +
      (s.heap.children o).count x = s.held.count x + xs.count x + if x = r.raw then 1 else 0 := by
    intro x
    have := hle' x
    rw [Multiset.count_cons, Multiset.count_sub]
    omega
  have C := A.counted H.listed.counted (ho ▸ rfl) (fun x => (hle' x).trans (Nat.le_add_right _ _))
    hext
  have R : h'.Rooted xs := by
    refine H.listed.rooted.congr A.frame.roots A.frame.len (fun x _ p hp => ?_) fun x p hp hbit =>
      ?_
    · have hne : x ≠ r.raw := fun heq => by simp [heq, A.fresh] at hp
      exact ⟨p, by rw [hget, if_neg hne, hp], rfl, rfl⟩
    rw [hget] at hp
    split at hp
    · obtain rfl := some.inj hp
      exact absurd (hin.symm.trans hbit) Bool.false_ne_true
    · exact ⟨p, hp, hbit⟩
  refine ⟨⟨S, R, C⟩, fun x => ?_, A.frame.noGcCount.trans H.noGcCount⟩
  rw [isMarked, hget]
  split
  · rw [ho]
    rfl
  · exact H.unmarked x

theorem of_objects_eq (hframe : h'.SameFrame s.heap) (hobj : h'.objects = s.heap.objects)
    (hstd : h'.Stored) (hallocs : h'.tracingAllocs = s.heap.tracingAllocs)
    (hlive : ∀ id, (s.host.slab.get? id).isSome → (host'.slab.get? id).isSome) :
    Holds ⟨⟨h', host'⟩, s.held⟩ xs := by
  have S := H.listed.sound.congr hobj hframe.traceInfos hstd hallocs
  exact H.of_keepsRoots ⟨hframe, fun x o ho => ⟨o, hobj ▸ ho, rfl, rfl, rfl⟩⟩
    { S with host_live := fun x id hid => hlive id (S.host_live x id hid) }
    (H.listed.counted.congr hobj hframe.traceInfos)

end DrcState.Holds

/-! ## Steps -/

namespace DrcOp

/-- The reference whose object an operation counts once more. -/
def counts : DrcOp → Option VMGcRef
  | cloneGcRef gcRef => some gcRef
  | writeGcRef _ source => source
  | writeVal _ _ val => val
  | _ => none

/-- The count of that object does not overflow. -/
def Fits (s : DrcState) (op : DrcOp) : Prop :=
  ∀ x ∈ heapRefs op.counts, s.heap.refCount x + 1 ≤ usizeMax

variable {op : DrcOp}

variable (H : s.Holds xs)
include H

/-- `alloc_raw` fails or keeps the invariant. -/
theorem run_allocRaw {kind : VMGcKind} {ty : ℕ} {layout : Layout} {data : List ℕ}
    (ha : (allocRaw kind ty layout data).Allowed s) :
    (∃ msg, (allocRaw kind ty layout data).run s = .error (.error msg)) ∨
      ∃ s', (allocRaw kind ty layout data).run s = .ok s' ∧ s'.Holds xs := by
  obtain ⟨hsize, hal, hdata, hfits, hle⟩ := ha
  have hsome : (s.heap.traceInfos.get? ty).isSome := by
    cases hinfo : s.heap.traceInfos.get? ty with
    | none =>
      rw [hinfo] at hfits
      exact hfits.elim
    | some info => rfl
  have hinfo : s.heap.checkTraceInfo kind (some ty) = .ok () := ensure_of hsome _
  have S := H.listed.sound
  rcases allocRaw_spec S.stored data hsize hal hinfo with ⟨msg, hok⟩ |
    ⟨h', hok, hframe, hobj, hstd, hallocs⟩ | ⟨h', r, hok, A⟩
  · exact .inl ⟨msg, by rw [run, hok]; rfl⟩
  · refine .inr ⟨⟨⟨h', s.host⟩, s.held⟩, by rw [run, hok]; rfl,
      H.of_objects_eq hframe hobj hstd hallocs fun _ => id⟩
  have W : s.heap.WellTyped (newObject kind (some ty) layout data) := by
    refine ⟨?_, hdata, fun h => by simp [newObject] at h, fun ty' hty => ?_⟩
    · have hself : h'.objects.get? r.raw = some (newObject kind (some ty) layout data) := by
        rw [A.objects_eq, get?_insert, if_pos rfl]
      have hsized := A.stored.sized _ _ hself
      by_contra hlg
      simp [alignedSize, hlg] at hsized
    · obtain rfl : ty = ty' := some.inj hty
      exact hfits
  exact .inr ⟨_, by rw [run, hok]; rfl,
    H.allocates A (A.sound S W (fun _ => id) fun h => by simp [newObject] at h) hle⟩

/-- `alloc_externref` fails or keeps the invariant. -/
theorem run_allocExternref {id value : ℕ} (ha : (allocExternref id value).Allowed s) :
    (∃ msg, (allocExternref id value).run s = .error (.error msg)) ∨
      ∃ s', (allocExternref id value).run s = .ok s' ∧ s'.Holds xs := by
  have S := H.listed.sound
  have hch : s.heap.children (newObject .externRef none externRefLayout [id, 0]) = 0 := rfl
  have hlive : ∀ j, (s.host.slab.get? j).isSome →
      ((s.host.slab.insert id value).get? j).isSome := by
    intro j hj
    rw [get?_insert]
    split
    · rfl
    · exact hj
  have hsize : drcHeaderSize ≤ externRefLayout.size ∧ externRefLayout.size ≤ u32Max := by decide
  have hal : 8 ≤ externRefLayout.align ∧ externRefLayout.align ≤ freeListAlign := by decide
  have hinfo : s.heap.checkTraceInfo .externRef none = .ok () := ensure_of rfl _
  rcases allocRaw_spec S.stored [id, 0] hsize hal hinfo with ⟨msg, hok⟩ |
    ⟨h', hok, hframe, hobj, hstd, hallocs⟩ | ⟨h', r, hok, A⟩
  · exact .inl ⟨msg, by rw [run, GcStore.allocExternref, DrcHeap.allocExternref, hok]; rfl⟩
  · refine .inr ⟨⟨⟨h', ⟨(s.host.slab.insert id value).erase id⟩⟩, s.held⟩, ?_,
      H.of_objects_eq hframe hobj hstd hallocs fun j hj => ?_⟩
    · rw [run, GcStore.allocExternref, DrcHeap.allocExternref, hok]
      simp [ExternRefHostDataTable.dealloc]
    · have hne : j ≠ id := fun heq => by simp [heq, show s.host.slab.get? id = none from ha] at hj
      simpa [hne] using hj
  have W : s.heap.WellTyped (newObject .externRef none externRefLayout [id, 0]) :=
    ⟨show externRefLayout.size + freeListAlign ≤ u32Max by decide,
      by simp [newObject, externRefLayout, drcHeaderSize], fun _ => ⟨rfl, rfl⟩,
      fun ty hty => by simp [newObject] at hty⟩
  have hid : ∀ j, wordAt (newObject .externRef none externRefLayout [id, 0]) drcHeaderSize =
      some j → ((s.host.slab.insert id value).get? j).isSome ∧
        ∀ x, s.heap.hostDataAt x ≠ some j := by
    intro j hj
    obtain rfl : id = j := some.inj hj
    refine ⟨by simp, fun x hx => ?_⟩
    have := S.host_live x id hx
    simp [show s.host.slab.get? id = none from ha] at this
  have H' := H.allocates A (A.sound S W hlive fun _ => hid) (hch ▸ Multiset.zero_le _)
  rw [hch, Multiset.sub_zero] at H'
  exact .inr ⟨_, by rw [run, GcStore.allocExternref, DrcHeap.allocExternref, hok]; rfl, H'⟩

/-- A write of a reference keeps the invariant. -/
theorem run_writeGcRef {destination source : Option VMGcRef}
    (ha : (writeGcRef destination source).Allowed s)
    (hfits : (writeGcRef destination source).Fits s) :
    ∃ s', (writeGcRef destination source).run s = .ok s' ∧ s'.Holds xs := by
  obtain ⟨h', host', hok, H'⟩ := H.writeGcRef ha.1 ha.2 hfits
  refine ⟨_, ?_, H'⟩
  rw [run, GcStore.writeGcRef_eq, hok]
  rfl

/-- A clone keeps the invariant. -/
theorem run_cloneGcRef (ha : (cloneGcRef r).Allowed s)
    (hfits : (cloneGcRef r).Fits s) : ∃ s', (cloneGcRef r).run s = .ok s' ∧ s'.Holds xs := by
  -- Cloning a reference is writing it to an empty slot.
  have hnone : heapRefs none ≤ s.held := Multiset.zero_le _
  obtain ⟨h', host', hok, H'⟩ := H.writeGcRef hnone ha hfits
  have hinc : s.heap.incRef r = .ok h' ∧ host' = s.host := by
    obtain ⟨h1, hinc, hrest⟩ := bind_eq_ok.mp hok
    obtain ⟨rfl, rfl⟩ : h1 = h' ∧ s.host = host' := by simpa using hrest
    exact ⟨hinc, rfl⟩
  obtain ⟨hinc, rfl⟩ := hinc
  refine ⟨_, ?_, H'⟩
  cases hi31 : r.isI31 with
  | true =>
    obtain rfl : s.heap = h' := by simpa [DrcHeap.incRef, hi31] using hinc
    simp [run, GcStore.cloneGcRef, hi31]
  | false => simp [run, GcStore.cloneGcRef, hi31, hinc]

/-- A write of a field keeps the invariant. -/
theorem run_writeVal {object : VMGcRef} {offset : ℕ} {val : Option VMGcRef}
    (ha : (writeVal object offset val).Allowed s) (hfits : (writeVal object offset val).Fits s) :
    ∃ s', (writeVal object offset val).run s = .ok s' ∧ s'.Holds xs := by
  obtain ⟨⟨o, ho, hoff, halive⟩, hval⟩ := ha
  have hheld : 0 < s.held.count object.raw + xs.count object.raw := by
    rcases halive with hmem | hin
    · exact Nat.add_pos_left (Multiset.count_pos.mpr hmem) _
    · exact Nat.add_pos_right _
        (List.count_pos_iff.mpr ((H.listed.rooted.inList_iff _).mp ⟨o, ho, hin⟩))
  obtain ⟨store, hok, S, C, K⟩ :=
    GcStore.writeVal_spec H.listed.sound H.listed.counted ho hheld hoff hval hfits
  refine ⟨⟨store, s.held⟩, ?_, H.of_keepsRoots K S C⟩
  rw [run, hok]
  rfl

/-- Handing a reference to the guest keeps the invariant. -/
theorem run_exposeGcRefToWasm (ha : (exposeGcRefToWasm r).Allowed s) :
    ∃ s' xs', (exposeGcRefToWasm r).run s = .ok s' ∧ s'.Holds xs' := by
  cases hi31 : r.isI31 with
  | true =>
    refine ⟨s, xs, ?_, H⟩
    simp [run, GcStore.exposeGcRefToWasm, hi31, heapRefs_of_isI31 hi31]
  | false =>
    have hrefs := heapRefs_some hi31
    have hheld : r.raw ∈ s.held := Multiset.singleton_le.mp (hrefs ▸ ha)
    have hmem := H.listed.counted.held_mem r.raw (Nat.add_pos_left (Multiset.count_pos.mpr hheld) _)
    obtain ⟨o, ho⟩ := mem_keys.mp hmem
    have hrun : ∀ h', s.heap.exposeGcRefToWasm r = .ok h' →
        (exposeGcRefToWasm r).run s = .ok ⟨⟨h', s.host⟩, s.held - {r.raw}⟩ := by
      intro h' hok
      simp [run, GcStore.exposeGcRefToWasm, hi31, hok, hrefs]
    cases hin : o.inOverApproximatedStackRoots with
    | true =>
      obtain ⟨h', hok, H'⟩ := H.expose_listed ho hin hheld
      exact ⟨_, xs, hrun h' hok, H'⟩
    | false =>
      obtain ⟨h', hok, H'⟩ := H.expose_unlisted ho hin hheld
      exact ⟨_, _, hrun h' hok, H'⟩

/-- A collection keeps the invariant. -/
theorem run_gc {roots : List GcRoot} (ha : (gc roots).Allowed s) :
    ∃ s' xs', (gc roots).run s = .ok s' ∧ s'.Holds xs' := by
  obtain ⟨h1, h2, host2, -, -, hgc, -, W, L, hmarks⟩ :=
    gc_spec H.listed H.unmarked H.noGcCount (H.stackRefs_subset ha)
  refine ⟨⟨⟨h2, host2⟩, s.held⟩, _, ?_, L, hmarks, W.noGcCount.trans H.noGcCount⟩
  rw [run, GcStore.gc, hgc]
  rfl

omit H

theorem fits_of_incRef {h h' : DrcHeap} (hok : h.incRef r = .ok h') :
    ∀ x ∈ heapRefs (some r), h.refCount x + 1 ≤ usizeMax := by
  cases hi31 : r.isI31 with
  | true => simp [heapRefs_of_isI31 hi31]
  | false =>
    simp only [heapRefs_some hi31, Multiset.mem_singleton, forall_eq]
    rw [DrcHeap.incRef, hi31] at hok
    obtain ⟨o, ho, hok⟩ := bind_eq_ok.mp hok
    obtain ⟨o', ho', -⟩ := bind_eq_ok.mp hok
    obtain ⟨-, -, ho'⟩ := bind_eq_ok.mp ho'
    obtain ⟨n, hn, -⟩ := bind_eq_ok.mp ho'
    have hget : h.objects.get? r.raw = some o := by
      rw [index, VMGcRef.heapIndex, hi31] at ho
      cases hx : h.objects.get? r.raw with
      | none => simp [hx, okOr] at ho
      | some p => simpa [hx] using ho
    simpa [refCount, hget] using (addUsize_eq_ok.mp hn).1

/-- Counters fit if the operation returned. -/
theorem fits_of_run (hok : op.run s = .ok s') : op.Fits s := by
  have hwr : ∀ {d source p}, s.toGcStore.writeGcRef d source = .ok p →
      ∀ x ∈ heapRefs source, s.heap.refCount x + 1 ≤ usizeMax := by
    intro d source p hp
    rw [GcStore.writeGcRef_eq] at hp
    obtain ⟨q, hq, -⟩ := bind_eq_ok.mp hp
    obtain ⟨h', hinc, -⟩ := bind_eq_ok.mp hq
    match source with
    | none => simp
    | some r => exact fits_of_incRef hinc
  cases op with
  | cloneGcRef r =>
    obtain ⟨store, hclone, -⟩ := bind_eq_ok.mp hok
    cases hi31 : r.isI31 with
    | true => simp [Fits, counts, heapRefs_of_isI31 hi31]
    | false =>
      rw [GcStore.cloneGcRef, hi31] at hclone
      cases hinc : s.heap.incRef r with
      | ok h' => exact fits_of_incRef hinc
      | error fault => cases fault <;> simp [hinc] at hclone
  | writeGcRef d source =>
    obtain ⟨p, hp, -⟩ := bind_eq_ok.mp hok
    exact hwr hp
  | writeVal object offset val =>
    obtain ⟨store, hp, -⟩ := bind_eq_ok.mp hok
    obtain ⟨o, -, hp⟩ := bind_eq_ok.mp hp
    obtain ⟨raw, -, hp⟩ := bind_eq_ok.mp hp
    obtain ⟨p, hp, -⟩ := bind_eq_ok.mp hp
    exact hwr hp
  | _ => exact fun x hx => absurd hx (Multiset.notMem_zero x)

/-- **What an operation does**: it keeps the invariant, unless an allocation is refused. -/
theorem run_spec (H : s.Holds xs) (ha : op.Allowed s) (hfits : op.Fits s) :
    (∃ msg, op.run s = .error (.error msg)) ∨ ∃ s' xs', op.run s = .ok s' ∧ s'.Holds xs' := by
  have hsame : (∃ s', op.run s = .ok s' ∧ s'.Holds xs) →
      ∃ s' xs', op.run s = .ok s' ∧ s'.Holds xs' := fun ⟨s', h⟩ => ⟨s', xs, h⟩
  cases op with
  | allocRaw kind ty layout data => exact (run_allocRaw H ha).imp_right hsame
  | allocExternref id value => exact (run_allocExternref H ha).imp_right hsame
  | cloneGcRef r => exact .inr (hsame (run_cloneGcRef H ha hfits))
  | writeGcRef d source => exact .inr (hsame (run_writeGcRef H ha hfits))
  | writeVal object offset val => exact .inr (hsame (run_writeVal H ha hfits))
  | exposeGcRefToWasm r => exact .inr (run_exposeGcRefToWasm H ha)
  | gc roots => exact .inr (run_gc H ha)

end DrcOp

/-! ## Runs -/

/-- The invariant holds at the start. -/
theorem holds_start (hs : drcMachine.start s) : s.Holds [] := by
  obtain ⟨traceInfos, len, host, hlen, rfl⟩ := hs
  have hnone : ∀ x, (new traceInfos len).objects.get? x = none := fun _ => rfl
  have S : (new traceInfos len).Sound host := by
    refine ⟨fun x o ho => ?_, fun x id hid => ?_, fun x y id hid => ?_,
      ⟨(holds_new hlen).1, rfl, fun x o ho => ?_⟩, rfl⟩
    · simp [hnone] at ho
    · simp [hostDataAt, hnone] at hid
    · simp [hostDataAt, hnone] at hid
    · simp [hnone] at ho
  refine ⟨⟨S, ⟨rfl, fun x => ?_, List.nodup_nil, rfl⟩, ⟨?_, ?_, ?_, ?_⟩⟩, fun x => ?_, rfl⟩
  · simp [InList, hnone]
  all_goals simp [mem_keys, hnone, isMarked]

/-- **The invariant holds in every state of a run.** -/
theorem reaches_holds (hs : drcMachine.Reaches s) : ∃ xs, s.Holds xs := by
  refine Reaches.invariant (P := fun s => ∃ xs, s.Holds xs) ?_ ?_ hs
  · intro s hs
    exact ⟨[], holds_start hs⟩
  intro s op s' ⟨xs, H⟩ ha hok
  rcases DrcOp.run_spec H ha (DrcOp.fits_of_run hok) with ⟨msg, herr⟩ | ⟨t, ys, hrun, H'⟩
  · exact absurd (hok.symm.trans herr) (by simp)
  · obtain rfl : s' = t := Except.ok.inj (hok.symm.trans hrun)
    exact ⟨ys, H'⟩

/-- **The over-approximated-stack-roots list.**  In every state of a run the list is acyclic,
the objects on it are those with the in-list bit, its length is recorded, all of them are
allocated with a positive count, and nothing is marked.  A collection succeeds and leaves
the objects on the list that it marked.  Every object loses the reference of the list if
it was on it and is not marked, and the references from the objects that are freed. -/
theorem roots_listed (hs : drcMachine.Reaches s) :
    ∃ xs : List ℕ, Path s.heap.nextRoot s.heap.headRoot xs none ∧ xs.Nodup ∧
      (∀ x, s.heap.InList x ↔ x ∈ xs) ∧
      s.heap.currentOverApproximatedStackRootsLen = xs.length ∧
      (∀ x ∈ xs, x ∈ s.heap.objects.keys ∧ 1 ≤ s.heap.refCount x) ∧
      (∀ x, s.heap.isMarked x = false) ∧
      ∀ roots, (DrcOp.gc roots).Allowed s → ∃ h₁ h₂ host₂,
        s.heap.trace roots = .ok h₁ ∧ h₁.sweep s.host = .ok (h₂, host₂) ∧
        (DrcOp.gc roots).run s = .ok ⟨⟨h₂, host₂⟩, s.held⟩ ∧
        (∃ ys : List ℕ, Path h₂.nextRoot h₂.headRoot ys none ∧ ys.Nodup ∧
          ∀ x, x ∈ ys ↔ h₁.isMarked x = true) ∧
        ∀ x ∈ s.heap.objects.keys, s.heap.refCount x = h₂.refCount x +
          (if x ∈ xs ∧ h₁.isMarked x = false then 1 else 0) +
          ∑ a ∈ s.heap.objects.keys \ h₂.objects.keys, (s.heap.fields a).count x := by
  obtain ⟨xs, H⟩ := reaches_holds hs
  have R := H.listed.rooted
  refine ⟨xs, R.path, R.nodup, R.inList_iff, R.len, fun x hx => ?_, H.unmarked, fun roots ha => ?_⟩
  · have hmem := H.listed.mem_keys hx
    exact ⟨hmem, H.listed.counted.count_pos x hmem⟩
  have hsub := H.stackRefs_subset ha
  obtain ⟨h₁, h₂, host₂, htr, hsw, hgc, hmarks, W, L, -⟩ :=
    gc_spec H.listed H.unmarked H.noGcCount hsub
  have hrun : (DrcOp.gc roots).run s = .ok ⟨⟨h₂, host₂⟩, s.held⟩ := by
    rw [DrcOp.run, GcStore.gc, hgc]
    rfl
  refine ⟨h₁, h₂, host₂, htr, hsw, hrun, ⟨_, L.rooted.path, L.rooted.nodup, fun x => ?_⟩,
    fun x hx => ?_⟩
  · rw [hmarks, List.mem_filter]
    exact and_iff_right_of_imp fun hx => hsub (of_decide_eq_true hx)
  have hcnt := H.listed.count_eq L W hx
  have hone : xs.count x = if x ∈ xs then 1 else 0 := List.Nodup.count R.nodup
  have htwo := List.Nodup.count (a := x) L.rooted.nodup
  simp only [List.mem_filter] at htwo
  rw [hmarks]
  by_cases hmem : x ∈ xs <;> by_cases hmark : x ∈ stackRefs roots <;>
    simp only [hmem, hmark, decide_true, decide_false, and_true, and_false, if_true, if_false,
      Bool.false_eq_true, Bool.true_eq_false] at hone htwo ⊢ <;>
    omega

/-- A struct type with one reference, at the start of its body. -/
def oneRefTraceInfos : TraceInfos := SortedMap.empty.insert 0 (.struct [drcHeaderSize])

def emptyState : DrcState := ⟨⟨DrcHeap.new oneRefTraceInfos 1024, ⟨.empty⟩⟩, 0⟩

theorem start_emptyState : drcMachine.start emptyState :=
  ⟨oneRefTraceInfos, 1024, ⟨.empty⟩, by decide, rfl⟩

/-- A struct at 48 refers to an `externref` at 16, and both are passed to Wasm. -/
def exposeBoth : List DrcOp :=
  [.allocExternref 5 7, .cloneGcRef ⟨16, by decide⟩, .cloneGcRef ⟨16, by decide⟩,
    .allocRaw .structRef 0 externRefLayout [16, 0], .exposeGcRefToWasm ⟨48, Nat.succ_ne_zero 47⟩,
    .exposeGcRefToWasm ⟨16, by decide⟩]

theorem roots_listed_exposeBoth : ∃ s, drcMachine.Reaches s ∧
    ∃ xs : List ℕ, xs.length = 2 ∧ Path s.heap.nextRoot s.heap.headRoot xs none ∧
      ∀ x ∈ xs, 1 ≤ s.heap.refCount x := by
  obtain ⟨s, hs, hlen⟩ := reaches_of_run?
    (p := fun s => s.heap.currentOverApproximatedStackRootsLen == 2) exposeBoth start_emptyState
    (by decide +kernel)
  obtain ⟨xs, hpath, -, -, hxs, hcnt, -⟩ := roots_listed hs
  exact ⟨s, hs, xs, hxs ▸ of_decide_eq_true hlen, hpath, fun x hx => (hcnt x hx).2⟩

/-- Collecting without roots after `exposeBoth` drops two references to the `externref` that
leaves the list: that of the list, and that of the struct, which is freed. -/
theorem unmarked_loses_two : ∃ s, drcMachine.Reaches s ∧ (DrcOp.gc []).Allowed s ∧
    ∃ h₁ h₂ host₂, s.heap.trace [] = .ok h₁ ∧ h₁.sweep s.host = .ok (h₂, host₂) ∧
      s.heap.InList 16 ∧ h₁.isMarked 16 = false ∧ s.heap.refCount 16 = 3 ∧ h₂.refCount 16 = 1 := by
  obtain ⟨s, hs, h⟩ := reaches_of_run? (p := fun s => match s.heap.trace [] with
      | .ok h₁ => match h₁.sweep s.host with
          | .ok (h₂, _) => decide ((s.heap.objects.get? 16).any
              (fun o => o.inOverApproximatedStackRoots) ∧ h₁.isMarked 16 = false ∧
              s.heap.refCount 16 = 3 ∧ h₂.refCount 16 = 1)
          | .error _ => false
      | .error _ => false) exposeBoth start_emptyState (by decide +kernel)
  split at h
  · rename_i h₁ htr
    split at h
    · rename_i h₂ host₂ hsw
      obtain ⟨hin, hrest⟩ := of_decide_eq_true h
      obtain ⟨o, ho, hbit⟩ := (any_eq_true _ _).mp hin
      exact ⟨s, hs, by simp [DrcOp.Allowed, stackRefs], h₁, h₂, host₂, htr, hsw,
        ⟨o, ho, hbit⟩, hrest⟩
    · cases h
  · cases h

/-! ## Dropping a reference -/

/-- **Dropping a held reference releases exactly what it kept alive.**  In a heap whose counts
are right, `decRefAndMaybeDealloc` terminates without a fault and with empty work stacks.
The objects that it frees are those that have no reference left from outside and whose
references all come from freed objects, as the least such set, so that a cycle is not
freed.  Each of them is returned to the free list once, with its own aligned size, each
freed `externref` returns its host data once, and the counts of all others are right. -/
theorem decRefAndMaybeDealloc_releases {h : DrcHeap} {host : ExternRefHostDataTable}
    {ext : ℕ → ℕ} {r : VMGcRef} (S : h.Sound host) (C : h.Counted ext) (hr : 0 < ext r.raw) :
    ∃ h' host', ∃ freed : List ℕ, h.decRefAndMaybeDealloc host r = .ok (h', host') ∧
      freed.Nodup ∧ (∀ x, x ∈ freed ↔ h.graph.Released (dropOne ext r.raw) x) ∧
      h.freeList.deallocAll (freed.map fun x => (x, h.blockSizeAt x)) = .ok h'.freeList ∧
      host.deallocAll (freed.filterMap h.hostDataAt) = .ok host' ∧
      (∀ x, h'.objects.get? x = if x ∈ freed then none else
        (h.objects.get? x).map fun o => { o with refCount := h'.refCount x }) ∧
      h'.Sound host' ∧ h'.Counted (dropOne ext r.raw) ∧ h'.tracingAllocs = some ⟨[], [], []⟩ := by
  obtain ⟨h', host', freed, hok, D, S', C'⟩ := C.drop S hr
  refine ⟨h', host', freed, hok, D.nodup, D.mem_iff, D.freeList_eq, D.host_eq, fun x => ?_,
    S', C', D.allocs⟩
  rw [D.get?_eq]
  by_cases hx : x ∈ freed
  · rw [if_pos hx, if_pos hx]
  cases ho : h.objects.get? x with
  | none => rfl
  | some o => simp [refCount, D.get?_eq, hx, ho]

theorem decRefAndMaybeDealloc_releases_struct : ∃ s, drcMachine.Reaches s ∧ 48 ∈ s.held ∧
    ∃ h' host', s.heap.decRefAndMaybeDealloc s.host ⟨48, by decide⟩ = .ok (h', host') ∧
      h'.tracingAllocs = some ⟨[], [], []⟩ := by
  obtain ⟨s, hs, hheld⟩ := reaches_of_run? (M := drcMachine)
    (p := fun s => decide (48 ∈ s.held)) (exposeBoth.take 4) start_emptyState (by decide +kernel)
  have hheld := of_decide_eq_true hheld
  obtain ⟨xs, H⟩ := reaches_holds hs
  have hpos : 0 < s.held.count 48 + xs.count 48 := Nat.add_pos_left (Multiset.count_pos.mpr hheld) _
  obtain ⟨h', host', -, hok, -, -, -, -, -, -, -, hallocs⟩ :=
    decRefAndMaybeDealloc_releases (r := ⟨48, by decide⟩) H.listed.sound H.listed.counted hpos
  exact ⟨s, hs, hheld, h', host', hok, hallocs⟩

end WasmDeps.Gc
