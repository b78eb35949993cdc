import WasmDeps.Types.Registry
import Mathlib.Data.List.Perm.Basic
import Mathlib.Data.List.Count

/-!
# The invariant of the type registry

The invariant has two halves.  `Shape` is about the maps behind the lock: which type
indices are allocated and to which entries, what is stored for them, and where entries
refer to.  `Counted` is about the counters: a registered entry has as many registrations as
there are handles, collections, references from other entries and registrations in the hands
of the running operation, and somebody is about to remove every entry without any.

Both are relative to a `Work`, which says what the operation holding the lock is in the
middle of.  Between operations it is `Work.idle`.
-/

namespace WasmDeps.Types

open Lib TypeTrace List Function Call TypeRegistry TypeRegistryInner

/-- What the operation that holds the lock is in the middle of. -/
structure Work where
  /-- Entries that have been made and are not registered yet. -/
  building : List EntryId
  /-- Those of them whose references are counted. -/
  linked : List EntryId
  /-- Those of them whose types, backlinks and supertypes are in place. -/
  ready : List EntryId
  /-- Entries that are no longer registered and still have their type indices. -/
  removing : List EntryId
  /-- Type indices of unregistered entries that have neither trampoline type nor layout. -/
  bare : List ℕ

/-- No call is at work. -/
def Work.idle : Work := ⟨[], [], [], [], []⟩

namespace TypeRegistryInner

variable (s : TypeRegistryInner)

/-- The index belongs to an entry that is in the hash-consing map. -/
def Registered (i : ℕ) : Prop :=
  ∃ e ∈ s.hashConsingMap, i ∈ s.indices e

/-- The entries whose types have indices: the hash-consed ones and those at work. -/
def allocated (w : Work) : List EntryId :=
  s.hashConsingMap ++ (w.building ++ w.removing)

/-- The entries that everything is in place for. -/
def complete (w : Work) : List EntryId := s.hashConsingMap ++ w.ready

/-- The entries whose references are counted. -/
def holders (w : Work) : List EntryId :=
  s.hashConsingMap ++ (w.linked ++ w.removing)

end TypeRegistryInner

/-- A reference of a hash-consing key as it is at runtime; `is` are the indices of the
group. -/
def absoluteIndex (is : List ℕ) : TypeIndex → TypeIndex
  | .recGroup k => .engine (is.getD k 0)
  | i => i

/-- The supertypes stored for a type are those of its declared supertype, and then it. -/
def SupertypesOf (s : TypeRegistryInner) (i : ℕ) (ty : WasmSubType) : Prop :=
  match ty.supertype with
  | none => s.typeToSupertypes i = none
  | some j => ∃ x, j = .engine x ∧ s.typeToSupertypes i = some (s.supertypes x ++ [x])

/-- A type that trampolines are compiled for: an unshared function type that refers to no
type. -/
structure IsTrampoline (ty : WasmSubType) : Prop where
  trace : TypeTrace.trace ty = []
  own : ty.trampolineSubType = none
  unshared : ty.compositeType.shared = false
  func : ty.compositeType.inner.isFunc = true

theorem isTrampoline_of_trampolineSubType {ty t : WasmSubType} (h : ty.trampolineSubType = some t) :
    IsTrampoline t := by
  obtain ⟨htr, hown, hshd, f, hf⟩ := trampolineSubType_spec h
  exact ⟨htr, hown, hshd, by rw [hf]; rfl⟩

/-- The maps behind the lock. -/
structure Shape (s : TypeRegistryInner) (w : Work) : Prop where
  nodup : (s.allocated w).Nodup
  known : ∀ e ∈ s.allocated w, e < s.entries.length
  linked : ∀ e ∈ w.linked, e ∈ w.building
  /-- Only entries being built are marked as ready. -/
  ready : ∀ e ∈ w.ready, e ∈ w.building
  /-- Registered entries and those being built have distinct keys. -/
  keys : ∀ e ∈ s.hashConsingMap ++ w.building, ∀ e' ∈ s.hashConsingMap ++ w.building,
    s.key e = s.key e' → e = e'
  /-- The slab holds exactly the indices of the entries. -/
  occupied : ∀ i, (s.types.get? i).isSome ↔ ∃ e ∈ s.allocated w, i ∈ s.indices e
  disjoint : ∀ e ∈ s.allocated w, ∀ e' ∈ s.allocated w, ∀ i, i ∈ s.indices e →
    i ∈ s.indices e' → e = e'
  indicesNodup : ∀ e ∈ s.allocated w, (s.indices e).Nodup
  /-- An entry has one index for each of its types. -/
  lengths : ∀ e ∈ s.allocated w, (s.indices e).length = (s.key e).length
  /-- Backlinks are from indices of the entry. -/
  groups : ∀ i e, s.typeToRecGroup i = some e → e ∈ s.allocated w ∧ i ∈ s.indices e
  /-- Every index of a complete entry has its backlink. -/
  backlinks : ∀ e ∈ s.complete w, ∀ i ∈ s.indices e, s.typeToRecGroup i = some e
  /-- The types of a complete entry are those of its key. -/
  content : ∀ e ∈ s.complete w, ∀ (p i : ℕ) (ty : WasmSubType), (s.indices e)[p]? = some i →
    (s.key e)[p]? = some ty → s.type? i = some (traceMut (absoluteIndex (s.indices e)) ty)
  /-- The supertypes of a complete entry's types. -/
  supertypes : ∀ e ∈ s.complete w, ∀ i ∈ s.indices e, ∀ ty, s.type? i = some ty →
    SupertypesOf s i ty
  /-- References of a key are to other groups or inside of its own. -/
  relative : ∀ e ∈ s.allocated w, ∀ j ∈ trace (s.key e),
    (∃ x, j = .engine x) ∨ ∃ k, j = .recGroup k ∧ k < (s.key e).length
  supertypeKeys : ∀ i, s.typeToSupertypes i ≠ none → ∃ e ∈ s.allocated w, i ∈ s.indices e
  layoutKeys : ∀ i, s.typeToGcLayout i ≠ none → ∃ e ∈ s.allocated w, i ∈ s.indices e
  /-- Trampoline types are stored for allocated indices only, and they are registered. -/
  trampolineKeys : ∀ i t, s.typeToTrampoline i = some t →
    (∃ e ∈ s.allocated w, i ∈ s.indices e) ∧
      ∃ te ∈ s.hashConsingMap, t ∈ s.indices te ∧ ∃ ty, s.key te = [ty] ∧ IsTrampoline ty
  /-- Trampoline types are stored for types that are not their own. -/
  trampolineTypes : ∀ i t, s.typeToTrampoline i = some t →
    ∃ ty, s.type? i = some ty ∧ ty.trampolineSubType ≠ none
  /-- There are no trampoline types without space for them. -/
  trampolineSpace : s.trampolineSpace = false → ∀ i, s.typeToTrampoline i = none
  /-- Some indices of unregistered entries have neither trampoline type nor layout. -/
  bare : ∀ i ∈ w.bare, s.typeToTrampoline i = none ∧ s.typeToGcLayout i = none ∧
    ∃ e ∈ w.building ++ w.removing, i ∈ s.indices e
  /-- References to other groups are to older, registered entries. -/
  edges : ∀ e ∈ s.allocated w, ∀ x ∈ traceEngineIndices (s.key e),
    ∃ t ∈ s.hashConsingMap, x ∈ s.indices t ∧ t < e

/-- The counters.  `mine` are the registrations that the operation holds itself, and `duty`
are the entries without registrations that it is about to remove. -/
structure Counted (s : TypeRegistry) (w : Work) (mine duty : List EntryId) : Prop where
  /-- A registered entry's registrations are accounted for. -/
  counts : ∀ t ∈ s.inner.hashConsingMap, s.registrations t =
    s.held.count t + mine.count t + ((s.inner.holders w).flatMap s.inner.refs).count t
  /-- Registrations are held of registered entries. -/
  heldMem : ∀ t ∈ s.held ++ mine, t ∈ s.inner.hashConsingMap
  /-- Other entries have no registrations. -/
  offMap : ∀ t, t ∉ s.inner.hashConsingMap → s.registrations t = 0
  /-- Somebody is about to remove a registered entry without registrations. -/
  zero : ∀ t ∈ s.inner.hashConsingMap, s.registrations t = 0 →
    t ∈ s.dropping ∨ t ∈ s.inner.dropStack ∨ t ∈ duty
  /-- No entry is on the drop stack twice. -/
  stackNodup : s.inner.dropStack.Nodup
  /-- The drop stack holds registered entries without registrations. -/
  stack : ∀ t ∈ s.inner.dropStack, t ∈ s.inner.hashConsingMap ∧ s.registrations t = 0
  /-- The flag is set for exactly the entries that are no longer registered. -/
  flag : ∀ e, s.unregistered e = true ↔
    e < s.inner.entries.length ∧ e ∉ s.inner.hashConsingMap ++ w.building
  /-- The flag is set for exactly the entries that were removed. -/
  removedIff : ∀ e, e ∈ s.removed ↔ s.unregistered e = true
  removedNodup : s.removed.Nodup
  droppingKnown : ∀ e ∈ s.dropping ++ duty, e < s.inner.entries.length

/-- The state is sound while `w` is at work, `mine` is held and `duty` is to be given up. -/
structure Sound (s : TypeRegistry) (w : Work) (mine duty : List EntryId) : Prop where
  shape : Shape s.inner w
  counted : Counted s w mine duty

/-- What every operation of a thread leaves of the state: entries are made, never changed. -/
structure Extends (s t : TypeRegistry) : Prop where
  entries : s.inner.entries <+: t.inner.entries
  gcRuntime : t.gcRuntime = s.gcRuntime
  /-- The collections are touched at the end of an operation only. -/
  collections : t.collections = s.collections
  /-- Space for trampoline types is not given back. -/
  space : s.inner.trampolineSpace = true → t.inner.trampolineSpace = true
  /-- Handles are cloned and dropped; others appear at the end of an operation only. -/
  handles : t.handles ⊆ s.handles

/-- What a call that leaves nothing to drop keeps: the registry is sound and extends the one
the call started from. -/
abbrev SoundAfter (s t : TypeRegistry) (w : Work) (mine duty : List EntryId) : Prop :=
  Sound t w mine duty ∧ Extends s t ∧ t.inner.dropStack = []

variable {e : EntryId} {u : TypeRegistry} {w : Work} {i : ℕ} {R : TypeRegistry → Prop}
  {m d : List EntryId}

namespace Extends

variable {s t : TypeRegistry}

theorem refl (s : TypeRegistry) : Extends s s :=
  ⟨prefix_rfl, rfl, rfl, id, .refl _⟩

theorem trans (h : Extends s t) (h' : Extends t u) : Extends s u :=
  ⟨h.entries.trans h'.entries, h'.gcRuntime.trans h.gcRuntime,
    h'.collections.trans h.collections, fun hs => h'.space (h.space hs),
    List.Subset.trans h'.handles h.handles⟩

/-- The extension depends on the entries and the holders only. -/
theorem of_start {s' : TypeRegistry} (h : Extends s' t)
    (he : s'.inner.entries = s.inner.entries := by rfl) (hg : s'.gcRuntime = s.gcRuntime := by rfl)
    (hc : s'.collections = s.collections := by rfl)
    (hp : s'.inner.trampolineSpace = s.inner.trampolineSpace := by rfl)
    (hh : s'.handles = s.handles := by rfl) : Extends s t :=
  ⟨he ▸ h.entries, hg ▸ h.gcRuntime, hc ▸ h.collections, hp ▸ h.space, hh ▸ h.handles⟩

theorem of_eq (he : t.inner.entries = s.inner.entries := by rfl)
    (hg : t.gcRuntime = s.gcRuntime := by rfl) (hc : t.collections = s.collections := by rfl)
    (hp : t.inner.trampolineSpace = s.inner.trampolineSpace := by rfl)
    (hh : t.handles = s.handles := by rfl) : Extends s t := (refl t).of_start he hg hc hp hh

variable (h : Extends s t)
include h

section

variable (he : e < s.inner.entries.length)
include he

theorem lt : e < t.inner.entries.length := lt_of_lt_of_le he h.entries.length_le

theorem getD_eq : t.inner.entries.getD e ⟨[], []⟩ = s.inner.entries.getD e ⟨[], []⟩ := by
  obtain ⟨rest, hrest⟩ := h.entries
  rw [← hrest, getD_eq_getElem?_getD, getD_eq_getElem?_getD, getElem?_append_left he]

/-- Keys do not change. -/
theorem key : t.inner.key e = s.inner.key e :=
  congrArg RecGroupEntry.hashConsingKey (h.getD_eq he)

/-- Indices do not change. -/
theorem indices : t.inner.indices e = s.inner.indices e :=
  congrArg RecGroupEntry.sharedTypeIndices (h.getD_eq he)

end

end Extends

/-! ## Consequences of the shape -/

section Shape

variable {s : TypeRegistryInner}

theorem TypeRegistryInner.mem_allocated (s : TypeRegistryInner) (w : Work)
    (h : e ∈ s.hashConsingMap) : e ∈ s.allocated w := mem_append_left _ h

namespace Shape

variable (hs : Shape s w)
include hs

theorem mem_allocated_of_complete (h : e ∈ s.complete w) : e ∈ s.allocated w := by
  rcases mem_append.mp h with h | h
  · exact mem_append_left _ h
  · exact mem_append_right _ (mem_append_left _ (hs.ready e h))

theorem mem_allocated_of_holders (h : e ∈ s.holders w) : e ∈ s.allocated w := by
  rcases mem_append.mp h with h | h
  · exact mem_append_left _ h
  · rcases mem_append.mp h with h | h
    · exact mem_append_right _ (mem_append_left _ (hs.linked e h))
    · exact mem_append_right _ (mem_append_right _ h)

/-- A type of a hash-consed entry belongs to it. -/
theorem owner (he : e ∈ s.hashConsingMap) (hi : i ∈ s.indices e) : s.typeToRecGroup i = some e :=
  hs.backlinks e (mem_append_left _ he) i hi

section

variable (he : e ∈ s.complete w) (hi : i ∈ s.indices e)
include he hi

/-- The types of a complete entry are those of its key. -/
theorem type?_of_complete :
    ∃ (p : ℕ) (ty : WasmSubType), (s.indices e)[p]? = some i ∧ (s.key e)[p]? = some ty ∧
      s.type? i = some (traceMut (absoluteIndex (s.indices e)) ty) := by
  obtain ⟨p, hp, hpi⟩ := getElem_of_mem hi
  have hlen := hs.lengths e (hs.mem_allocated_of_complete he)
  have hip := getElem?_eq_some_iff.mpr ⟨hp, hpi⟩
  have hkp : (s.key e)[p]? = some ((s.key e).get ⟨p, by omega⟩) :=
    List.getElem?_eq_some_iff.mpr ⟨by omega, rfl⟩
  exact ⟨p, _, hip, hkp, hs.content e he p i _ hip hkp⟩

theorem get?_of_complete : ∃ ty, s.types.get? i = some (some ty) := by
  obtain ⟨-, ty, -, -, hty⟩ := hs.type?_of_complete he hi
  rw [type?] at hty
  cases h : s.types.get? i with
  | none => simp [h] at hty
  | some x =>
    cases x with
    | none => simp [h] at hty
    | some ty' => exact ⟨ty', rfl⟩

/-- Supertypes belong to complete entries. -/
theorem supertype_complete
    {ty : WasmSubType} (hty : s.type? i = some ty) {j : TypeIndex} (hj : ty.supertype = some j) :
    ∃ x, j = .engine x ∧ ∃ e' ∈ s.complete w, x ∈ s.indices e' := by
  obtain ⟨p, kty, -, hkp, hkty⟩ := hs.type?_of_complete he hi
  obtain rfl : ty = traceMut (absoluteIndex (s.indices e)) kty := by
    rw [hty] at hkty
    exact Option.some.inj hkty
  have hall := hs.mem_allocated_of_complete he
  rw [supertype_traceMut, Option.map_eq_some_iff] at hj
  obtain ⟨kj, hkj, rfl⟩ := hj
  have hmem := mem_flatMap.mpr ⟨kty, mem_of_getElem? hkp, supertype_mem_trace hkj⟩
  rcases hs.relative e hall kj hmem with ⟨x, rfl⟩ | ⟨k, rfl, hk⟩
  · obtain ⟨t, ht, hxt, -⟩ := hs.edges e hall x (mem_traceEngineIndices.mpr hmem)
    exact ⟨x, rfl, t, mem_append_left _ ht, hxt⟩
  have hlt : k < (s.indices e).length := by
    rw [hs.lengths e hall]
    exact hk
  have hget : (s.indices e).getD k 0 = (s.indices e).get ⟨k, hlt⟩ := by
    simp [getD_eq_getElem?_getD, getElem?_eq_getElem hlt]
  exact ⟨_, rfl, e, he, hget ▸ get_mem _ _⟩

end

/-- What an entry refers to is hash-consed. -/
theorem refs_mem (he : e ∈ s.allocated w) {t : EntryId} (ht : t ∈ s.refs e) :
    t ∈ s.hashConsingMap := by
  rcases mem_append.mp ht with ht | ht
  · obtain ⟨x, hx, hxt⟩ := mem_filterMap.mp ht
    obtain ⟨t', ht', hx', -⟩ := hs.edges e he x hx
    rw [hs.owner ht' hx'] at hxt
    cases hxt
    exact ht'
  obtain ⟨x, hx, hxt⟩ := mem_filterMap.mp ht
  obtain ⟨j, hj, hjt⟩ := Option.bind_eq_some_iff.mp hxt
  obtain ⟨-, te, hte, hjte, -⟩ := hs.trampolineKeys x j hj
  rw [hs.owner hte hjte] at hjt
  cases hjt
  exact hte

end Shape

/-- What is stored for indices outside of a list is the same in both states. -/
structure SameOff (s s' : TypeRegistryInner) (is : List ℕ) : Prop where
  types : ∀ j, j ∉ is → s'.types.get? j = s.types.get? j
  groups : ∀ j, j ∉ is → s'.typeToRecGroup j = s.typeToRecGroup j
  supertypes : ∀ j, j ∉ is → s'.typeToSupertypes j = s.typeToSupertypes j

namespace SameOff

variable {s' : TypeRegistryInner} {is : List ℕ}

theorem type?_eq (h : SameOff s s' is) (hi : i ∉ is) : s'.type? i = s.type? i := by
  unfold type?
  rw [h.types i hi]

/-- Supertypes are right after a change elsewhere. -/
theorem supertypesOf (h : SameOff s s' is) (hs : Shape s w)
    (hother : ∀ x ∈ s.complete w, ∀ i ∈ s.indices x, i ∉ is) (he : e ∈ s.complete w)
    (hi : i ∈ s.indices e) {ty : WasmSubType} (hty : s'.type? i = some ty) :
    SupertypesOf s' i ty := by
  have hie := hother e he i hi
  rw [h.type?_eq hie] at hty
  have hsup := hs.supertypes e he i hi ty hty
  rw [SupertypesOf] at hsup ⊢
  cases hj : ty.supertype with
  | none =>
    rw [hj] at hsup
    exact (h.supertypes i hie).trans hsup
  | some j =>
    rw [hj] at hsup
    obtain ⟨y, rfl, hy⟩ := hsup
    refine ⟨y, rfl, (h.supertypes i hie).trans (hy.trans ?_)⟩
    obtain ⟨y', hy', x', hx', hyx'⟩ := hs.supertype_complete he hi hty hj
    cases hy'
    simp [TypeRegistryInner.supertypes, h.supertypes y (hother x' hx' y hyx')]

/-- References are the same after a change elsewhere. -/
theorem refs_eq (h : SameOff s s' is) (hs : Shape s w)
    (hother : ∀ x ∈ s.hashConsingMap, ∀ i ∈ s.indices x, i ∉ is) (he : e ∈ s.allocated w)
    (hents : s'.entries = s.entries) (htramp : s'.typeToTrampoline = s.typeToTrampoline) :
    s'.refs e = s.refs e := by
  unfold refs edges trampolines key indices
  rw [hents, htramp]
  refine congrArg₂ (· ++ ·) (filterMap_congr fun y hy => ?_) (filterMap_congr fun y hy => ?_)
  · obtain ⟨t, ht, hyt, -⟩ := hs.edges e he y hy
    exact h.groups y (hother t ht y hyt)
  cases hj : s.typeToTrampoline y with
  | none => rfl
  | some j =>
    obtain ⟨-, te, hte, hjte, -⟩ := hs.trampolineKeys y j hj
    exact h.groups j (hother te hte j hjte)

end SameOff

end Shape

/-! ## Rules for the accesses to the state -/

section Rules

variable {s : TypeRegistry}

variable {Q : Unit → TypeRegistry → Prop}

theorem meets_modify {f : TypeRegistry → TypeRegistry} (h : Q () (f s)) :
    (modify f).Meets s Q R := h

theorem meets_check {p : Prop} [Decidable p] {msg : String} (hp : p) (h : Q () s) :
    (check p msg).Meets s Q R :=
  meets_lift (ensure_of hp msg) h

/-- An allocation changes only the schedule. -/
theorem alloc_meets (s : TypeRegistry) :
    alloc.Meets s (fun _ t => ∃ sc, t = { s with schedule := sc })
      (fun t => ∃ sc, t = { s with schedule := sc }) := by
  rw [alloc]
  refine .bind (meets_get ?_)
  cases s.schedule.failures with
  | nil => exact meets_pure ⟨s.schedule, rfl⟩
  | cons fails rest =>
    refine .bind (meets_set ?_)
    cases fails with
    | false => exact meets_pure ⟨_, rfl⟩
    | true => exact meets_bail ⟨_, rfl⟩

variable {α : Type}

theorem alloc_bind_meets {c : Unit → Call TypeRegistry α}
    {Q : α → TypeRegistry → Prop} (hok : ∀ sc, (c ()).Meets { s with schedule := sc } Q R)
    (herr : ∀ sc, R { s with schedule := sc }) : (alloc >>= c).Meets s Q R := by
  refine .bind ((alloc_meets s).mono ?_ ?_)
  · rintro _ t ⟨sc, rfl⟩
    exact hok sc
  · rintro t ⟨sc, rfl⟩
    exact herr sc

/-- The rule for rolling back: what an `Err` of the body leaves is what the rollback starts
from. -/
theorem undo_meets {rollback : Call TypeRegistry Unit} {body : Call TypeRegistry α}
    {Q : α → TypeRegistry → Prop} {R' : TypeRegistry → Prop} (h : body.Meets s Q R')
    (hrollback : ∀ t, R' t → rollback.Meets t (fun _ u => R u) R) :
    (undo rollback body).Meets s Q R := by
  rcases h.run_eq with ⟨a, t, hrun, hq⟩ | ⟨msg, t, hrun, hr⟩
  · rw [Call.Meets]
    have : (undo rollback body).run s = (.ok a, t) := by
      simp [undo, hrun]
    rw [this]
    exact hq
  have hrun' : (undo rollback body).run s =
      (rollback >>= fun _ => bail msg).run t := by
    simp [undo, hrun]
  have hm : (rollback >>= fun _ => bail msg).Meets t Q R :=
    Meets.bind ((hrollback t hr).imp fun _ u hu => meets_bail hu)
  rw [Call.Meets] at hm ⊢
  rw [hrun']
  exact hm

/-- `debug_assert_registered` holds for the types of complete entries. -/
theorem assertRegistered_meets (hs : Shape s.inner w) (he : e ∈ s.inner.complete w)
    (hi : i ∈ s.inner.indices e) (h : Q () s) : (debugAssertRegistered i).Meets s Q R := by
  obtain ⟨ty, hty⟩ := hs.get?_of_complete he hi
  have htype : s.inner.type? i = some ty := by simp [type?, hty]
  rw [debugAssertRegistered]
  refine .bind (meets_get (.bind (meets_check (by simp [hty]) ?_)))
  refine .bind (meets_check (by simp [htype]) ?_)
  exact meets_check (by simp [hs.backlinks e he i hi]) h

theorem assertAllRegistered_meets (hs : Shape s.inner w)
    (he : e ∈ s.inner.complete w) (h : Q () s) : (debugAssertAllRegistered e).Meets s Q R := by
  rw [debugAssertAllRegistered]
  refine .bind (meets_get ?_)
  have hloop := meets_forM (R := R) (f := debugAssertRegistered)
    (fun rest t => t = s ∧ ∀ i ∈ rest, i ∈ s.inner.indices e) ?_ (s.inner.indices e)
    ⟨rfl, fun i hi => hi⟩
  · refine hloop.imp fun _ t ht => ?_
    rw [ht.1]
    exact h
  · rintro i rest t ⟨rfl, hall⟩
    refine assertRegistered_meets hs he (hall i (.head _)) ⟨rfl, ?_⟩
    exact fun j hj => hall j (.tail i hj)

/-- The type at an index is there. -/
theorem typeAt_meets {ty : WasmSubType} {Q : WasmSubType → TypeRegistry → Prop}
    (hi : s.inner.types.get? i = some (some ty)) (h : Q ty s) : (typeAt i).Meets s Q R := by
  rw [typeAt]
  refine .bind (meets_get (.bind (meets_lift (a := some ty) ?_ ?_)))
  · rw [hi]
    rfl
  · exact meets_lift rfl h

/-- The entry of an index is there. -/
theorem entryOf_meets {Q : EntryId → TypeRegistry → Prop}
    (hi : s.inner.typeToRecGroup i = some e) (h : Q e s) : (entryOf i).Meets s Q R := by
  rw [entryOf]
  refine .bind (meets_get (meets_lift ?_ h))
  rw [hi]
  rfl

end Rules

/-! ## Counting -/

section Counting

variable {s s' : TypeRegistry} {m' d' : List EntryId} {t : EntryId}

variable (hc : Counted s w m d)
include hc

/-- An entry that is held has registrations. -/
theorem Counted.registrations_pos (h : e ∈ s.held ++ m) : s.registrations e ≠ 0 := by
  have hcnt := hc.counts e (hc.heldMem e h)
  rcases mem_append.mp h with h | h
  · have := count_pos_iff.mpr h
    omega
  · have := count_pos_iff.mpr h
    omega

theorem Counted.known_cons (he : e < s.inner.entries.length) :
    ∀ t ∈ s.dropping ++ e :: d, t < s.inner.entries.length := by
  intro t ht
  rcases mem_append.mp ht with ht | ht
  · exact hc.droppingKnown t (mem_append_left _ ht)
  · rcases mem_cons.mp ht with rfl | ht
    · exact he
    · exact hc.droppingKnown t (mem_append_right _ ht)

/-- An entry that is held is not on the drop stack. -/
theorem Counted.not_mem_stack (h : e ∈ s.held ++ m) :
    e ∉ s.inner.dropStack := fun hs => hc.registrations_pos h (hc.stack e hs).2

/-- The registrations of one entry change, by as much on both sides of the account; if there
are none left, somebody is to remove the entry. -/
theorem Counted.recount {n : ℕ} {hs : List RegisteredType} {ds : List EntryId}
    (he : e ∈ s.inner.hashConsingMap) (hstk : e ∉ s.inner.dropStack)
    (hlast : n = 0 → e ∈ ds ∨ e ∈ d') (hdropping : s.dropping ⊆ ds) (hduty : d ⊆ d')
    (hknown : ∀ t ∈ ds ++ d', t < s.inner.entries.length)
    (hcnt : ∀ t, (held { s with handles := hs }).count t + m'.count t +
        (if t = e then s.registrations e else 0) =
      s.held.count t + m.count t + if t = e then n else 0) :
    Counted { s with registrations := update s.registrations e n, handles := hs, dropping := ds }
      w m' d' := by
  refine ⟨?_, ?_, ?_, ?_, hc.stackNodup, ?_, hc.flag, hc.removedIff, hc.removedNodup, hknown⟩
  · intro t ht
    have h := hc.counts t ht
    have h' := hcnt t
    change update s.registrations e n t = (held { s with handles := hs }).count t +
      m'.count t + ((s.inner.holders w).flatMap s.inner.refs).count t
    rw [update_apply]
    split at h'
    · rename_i hte
      rw [if_pos hte]
      subst hte
      omega
    · rename_i hte
      rw [if_neg hte]
      omega
  · intro t ht
    by_cases hte : t = e
    · exact hte ▸ he
    apply hc.heldMem t
    have hpos : 0 < (held { s with handles := hs } ++ m').count t := count_pos_iff.mpr ht
    have := hcnt t
    rw [count_append] at hpos
    rw [if_neg hte, if_neg hte] at this
    rw [← count_pos_iff, count_append]
    omega
  · intro t ht
    have hne : t ≠ e := fun h => ht (h ▸ he)
    exact (update_of_ne hne _ _).trans (hc.offMap t ht)
  · intro t ht hz
    change update s.registrations e n t = 0 at hz
    rw [update_apply] at hz
    split at hz
    · rename_i hte
      subst hte
      exact (hlast hz).imp_right .inr
    rcases hc.zero t ht hz with h | h | h
    · exact .inl (hdropping h)
    · exact .inr (.inl h)
    · exact .inr (.inr (hduty h))
  · intro t ht
    have hne : t ≠ e := fun h => hstk (h ▸ ht)
    exact ⟨(hc.stack t ht).1, (update_of_ne hne _ _).trans (hc.stack t ht).2⟩

end Counting

/-! ## Accesses to the counters -/

/-- What lock-free steps of other threads leave of the state. -/
structure Quiet (s t : TypeRegistry) : Prop where
  inner : t.inner = s.inner
  unregistered : t.unregistered = s.unregistered
  removed : t.removed = s.removed
  gcRuntime : t.gcRuntime = s.gcRuntime
  collections : t.collections = s.collections
  handles : t.handles ⊆ s.handles

namespace Quiet

variable {s t : TypeRegistry}

theorem refl (s : TypeRegistry) : Quiet s s :=
  ⟨rfl, rfl, rfl, rfl, rfl, .refl _⟩

theorem trans (h : Quiet s t) (h' : Quiet t u) : Quiet s u :=
  ⟨h'.inner.trans h.inner, h'.unregistered.trans h.unregistered, h'.removed.trans h.removed,
    h'.gcRuntime.trans h.gcRuntime, h'.collections.trans h.collections,
    List.Subset.trans h'.handles h.handles⟩

theorem toExtends (h : Quiet s t) : Extends s t :=
  ⟨h.inner ▸ prefix_rfl, h.gcRuntime, h.collections, fun hs => h.inner ▸ hs, h.handles⟩

end Quiet

/-- What dropping references leaves of the state: only the drop stack grows. -/
structure Pushed (s t : TypeRegistry) : Prop where
  inner : t.inner = { s.inner with dropStack := t.inner.dropStack }
  gcRuntime : t.gcRuntime = s.gcRuntime
  collections : t.collections = s.collections
  unregistered : t.unregistered = s.unregistered
  /-- Other threads clone and drop handles. -/
  handles : t.handles ⊆ s.handles

namespace Pushed

variable {s t : TypeRegistry}

theorem refl (s : TypeRegistry) : Pushed s s :=
  ⟨rfl, rfl, rfl, rfl, .refl _⟩

theorem trans (h : Pushed s t) (h' : Pushed t u) : Pushed s u :=
  ⟨h'.inner.trans (by rw [h.inner]), h'.gcRuntime.trans h.gcRuntime,
    h'.collections.trans h.collections, h'.unregistered.trans h.unregistered,
    List.Subset.trans h'.handles h.handles⟩

theorem toExtends (h : Pushed s t) : Extends s t := by
  have hents : t.inner.entries = s.inner.entries := by rw [h.inner]
  have hspc : t.inner.trampolineSpace = s.inner.trampolineSpace := by rw [h.inner]
  exact ⟨hents ▸ prefix_rfl, h.gcRuntime, h.collections, hspc.trans, h.handles⟩

end Pushed

theorem Quiet.toPushed {s t : TypeRegistry} (h : Quiet s t) : Pushed s t :=
  ⟨by rw [h.inner], h.gcRuntime, h.collections, h.unregistered, h.handles⟩

section Counters

variable {s : TypeRegistry}

/-- `fetch_sub` on a counter that is not zero. -/
theorem fetchSub_meets {Q : Bool → TypeRegistry → Prop} (hpos : s.registrations e ≠ 0)
    (h : Q (s.registrations e = 1) (s.setRegistrations e (s.registrations e - 1))) :
    (fetchSub e).Meets s Q R := by
  rw [fetchSub]
  refine .bind (meets_get (.bind (meets_check hpos ?_)))
  exact .bind (meets_set (meets_pure h))

/-- Dropping a handle takes one from the account. -/
theorem count_held_erase {h : RegisteredType} (hh : h ∈ s.handles) (t : EntryId) :
    s.held.count t = (held { s with handles := s.handles.erase h }).count t +
      if t = h.entry then 1 else 0 := by
  have hperm := ((perm_cons_erase hh).map RegisteredType.entry).count_eq t
  simp only [map_cons, count_cons, beq_iff_eq, eq_comm (a := h.entry)] at hperm
  simp only [held, count_append]
  omega

/-- Other threads keep the invariant, and an entry without registrations stays so: nobody
has a handle to clone. -/
theorem LockFree.run_meets (op : LockFree) (hs : Sound s w m d) :
    op.run.Meets s (fun _ t => Sound t w m d ∧ Quiet s t ∧
      ∀ e, s.registrations e = 0 → t.registrations e = 0) R := by
  rw [LockFree.run]
  refine .bind (meets_get ?_)
  cases op with
  | clone h =>
    by_cases hh : h ∈ s.handles
    · simp only [hh, if_true]
      have hheld : h.entry ∈ s.held ++ m :=
        mem_append_left _ (mem_append_left _ (mem_map_of_mem hh))
      refine meets_modify ⟨⟨hs.shape, ?_⟩, ⟨rfl, rfl, rfl, rfl, rfl, ?_⟩, ?_⟩
      · refine hs.counted.recount (hs.counted.heldMem _ hheld) (hs.counted.not_mem_stack hheld)
          nofun (.refl _) (.refl _) hs.counted.droppingKnown fun t => ?_
        simp only [held, map_cons, cons_append, count_cons, beq_iff_eq, eq_comm (a := h.entry)]
        split_ifs <;> omega
      · exact cons_subset.mpr ⟨hh, .refl _⟩
      · intro e he
        have hne : e ≠ h.entry := fun heq => hs.counted.registrations_pos hheld (heq ▸ he)
        simpa [setRegistrations, update_of_ne hne] using he
    · simp only [hh, if_false]
      exact meets_pure ⟨hs, .refl s, fun _ => id⟩
  | drop h =>
    by_cases hh : h ∈ s.handles
    · simp only [hh, if_true]
      have hheld : h.entry ∈ s.held ++ m :=
        mem_append_left _ (mem_append_left _ (mem_map_of_mem hh))
      have hmem := hs.counted.heldMem _ hheld
      have hpos := hs.counted.registrations_pos hheld
      have hstk := hs.counted.not_mem_stack hheld
      have hlt := hs.shape.known _ (s.inner.mem_allocated w hmem)
      have hzero : ∀ e, s.registrations e = 0 →
          update s.registrations h.entry (s.registrations h.entry - 1) e = 0 := by
        intro e he
        have hne : e ≠ h.entry := fun heq => hpos (heq ▸ he)
        rw [update_of_ne hne]
        exact he
      refine .bind (meets_modify (.bind (fetchSub_meets hpos ?_)))
      by_cases hone : s.registrations h.entry = 1
      · simp only [hone, decide_true, if_true]
        refine meets_modify ⟨⟨hs.shape, ?_⟩, ⟨rfl, rfl, rfl, rfl, rfl, erase_subset⟩, ?_⟩
        · refine hs.counted.recount hmem hstk (fun _ => .inl (.head _))
            (subset_cons_self _ _) (.refl _) ?_ fun t => ?_
          · exact forall_mem_cons.mpr ⟨hlt, hs.counted.droppingKnown⟩
          · have := count_held_erase hh t
            simp only [held, setRegistrations] at this ⊢
            split_ifs at this ⊢ <;> omega
        · simpa [setRegistrations, hone] using hzero
      simp only [hone, decide_false, Bool.false_eq_true, if_false]
      refine meets_pure ⟨⟨hs.shape, ?_⟩, ⟨rfl, rfl, rfl, rfl, rfl, erase_subset⟩, hzero⟩
      refine hs.counted.recount hmem hstk (fun h => by omega) (.refl _)
        (.refl _) hs.counted.droppingKnown fun t => ?_
      have := count_held_erase hh t
      simp only [held] at this ⊢
      split_ifs at this ⊢ <;> omega
    · simp only [hh, if_false]
      exact meets_pure ⟨hs, .refl s, fun _ => id⟩

section

variable (hs : Sound s w m d)
include hs

theorem Sound.schedule (sc : Schedule) : Sound { s with schedule := sc } w m d :=
  ⟨hs.shape, hs.counted.counts, hs.counted.heldMem, hs.counted.offMap, hs.counted.zero,
    hs.counted.stackNodup, hs.counted.stack, hs.counted.flag, hs.counted.removedIff,
    hs.counted.removedNodup, hs.counted.droppingKnown⟩

/-- Whatever other threads do before an access to a counter keeps the invariant. -/
theorem interfere_meets : interfere.Meets s (fun _ t => Sound t w m d ∧ Quiet s t ∧
      ∀ e, s.registrations e = 0 → t.registrations e = 0) R := by
  rw [interfere]
  refine .bind (meets_get ?_)
  cases s.schedule.others with
  | nil => exact meets_pure ⟨hs, .refl s, fun _ => id⟩
  | cons ops rest =>
    refine .bind (meets_set ?_)
    refine meets_forM (fun _ t => Sound t w m d ∧ Quiet s t ∧
      ∀ e, s.registrations e = 0 → t.registrations e = 0) ?_ ops
      ⟨hs.schedule _, ⟨rfl, rfl, rfl, rfl, rfl, .refl _⟩, fun _ => id⟩
    rintro op rest t ⟨ht, hq, hz⟩
    apply (op.run_meets ht).imp
    rintro _ u ⟨hu, hq', hz'⟩
    exact ⟨hu, hq.trans hq', fun e he => hz' e (hz e he)⟩

/-- The counter that is read is the one of that moment. -/
theorem loadRegistrations_meets :
    (loadRegistrations e).Meets s (fun n t => n = t.registrations e ∧ Sound t w m d ∧ Quiet s t ∧
      ∀ e, s.registrations e = 0 → t.registrations e = 0) R := by
  rw [loadRegistrations]
  refine .bind ((interfere_meets hs).imp ?_)
  intro _ t ht
  exact .bind (meets_get (meets_pure ⟨rfl, ht⟩))

/-- `incref` adds one to what the call holds. -/
theorem incref_meets (he : e ∈ s.inner.hashConsingMap) (hstk : e ∉ s.inner.dropStack) :
    (incref e).Meets s (fun _ t => Sound t w (e :: m) d ∧ Quiet s t) R := by
  rw [incref]
  refine .bind ((interfere_meets hs).imp ?_)
  rintro _ t ⟨ht, hq, -⟩
  refine meets_modify ⟨⟨ht.shape, ?_⟩, ?_⟩
  · refine ht.counted.recount (hq.inner ▸ he) (hq.inner ▸ hstk) nofun (.refl _)
      (.refl _) ht.counted.droppingKnown fun x => ?_
    simp only [held, count_cons, beq_iff_eq, eq_comm (a := e)]
    split_ifs <;> omega
  · exact { hq with }

end

/-- A registration given back; if it was the last one, the entry is to be removed. -/
theorem decref_meets (hs : Sound s w (e :: m) d) :
    (decref e).Meets s (fun zero t =>
      Sound t w m (if zero then e :: d else d) ∧ Quiet s t ∧
        (zero = true → t.registrations e = 0)) R := by
  rw [decref]
  refine .bind ((interfere_meets hs).imp ?_)
  rintro _ t ⟨ht, hq, -⟩
  have hmine : e ∈ t.held ++ (e :: m) := mem_append_right _ (.head _)
  have hmem := ht.counted.heldMem _ hmine
  have hpos := ht.counted.registrations_pos hmine
  have hlt := ht.shape.known _ (t.inner.mem_allocated _ hmem)
  refine fetchSub_meets hpos ⟨⟨ht.shape, ?_⟩, ?_, ?_⟩
  · refine ht.counted.recount hmem (ht.counted.not_mem_stack hmine) ?_ (.refl _) ?_ ?_
      fun x => ?_
    · intro hz
      right
      simp [show t.registrations e = 1 by omega]
    · intro x hx
      split
      · exact .tail e hx
      · exact hx
    · intro x hx
      split at hx
      · exact ht.counted.known_cons hlt x hx
      · exact ht.counted.droppingKnown x hx
    · simp only [held, count_cons, beq_iff_eq, eq_comm (a := e)]
      split_ifs <;> omega
  · exact { hq with }
  · intro hone
    have hone : t.registrations e = 1 := by simpa using hone
    simp [setRegistrations, hone]

/-- A duty is met if the entry is alive, on the stack or gone. -/
theorem Sound.dischargeDuty (hs : Sound s w m (e :: d))
    (h : s.registrations e ≠ 0 ∨ e ∈ s.inner.dropStack ∨ e ∉ s.inner.hashConsingMap) :
    Sound s w m d := by
  refine ⟨hs.shape, hs.counted.counts,
    hs.counted.heldMem, hs.counted.offMap, ?_, hs.counted.stackNodup, hs.counted.stack,
    hs.counted.flag, hs.counted.removedIff, hs.counted.removedNodup, ?_⟩
  · intro t ht hz
    rcases hs.counted.zero t ht hz with h' | h' | h'
    · exact .inl h'
    · exact .inr (.inl h')
    rcases mem_cons.mp h' with rfl | h'
    · rcases h with h | h | h
      · exact absurd hz h
      · exact .inr (.inl h)
      · exact absurd ht h
    · exact .inr (.inr h')
  · intro t ht
    apply hs.counted.droppingKnown t
    simp only [mem_append, mem_cons] at ht ⊢
    tauto

end Counters

end WasmDeps.Types
