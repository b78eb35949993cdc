import WasmDeps.Types.RegistryRegister

/-!
# Runs of the type registry

Every operation of every thread, with whatever other threads do in between, keeps the
invariant of the registry.  The lifetime protocol is read off from it.  For a registry that
nobody uses to be empty, the references between entries have to be acyclic: references in types
go to older entries; references to trampoline types do not, but a trampoline type has no
references at all.
-/

namespace WasmDeps.Types

open Lib TypeTrace List Call TypeRegistry TypeRegistryInner

/-- The entries of a module's recursion groups, from the type at `start` on, have the keys
of the groups, and `types` has their indices. -/
def GroupsMatch (s : TypeRegistryInner) (types : List ℕ) :
    ℕ → List (List WasmSubType) → List EntryId → Prop
  | _, [], [] => True
  | start, group :: groups, e :: es =>
    s.key e = groupKey start types group ∧
      s.indices e = (types.drop start).take group.length ∧
      start + group.length ≤ types.length ∧
      GroupsMatch s types (start + group.length) groups es
  | _, _, _ => False

variable {groups : List (List WasmSubType)}

theorem GroupsMatch.congr {s t : TypeRegistryInner} {types : List ℕ} :
    ∀ {start : ℕ} {es : List EntryId}, GroupsMatch s types start groups es →
      (∀ e ∈ es, t.key e = s.key e ∧ t.indices e = s.indices e) →
      GroupsMatch t types start groups es := by
  induction groups with
  | nil =>
    intro start es h _
    cases es with
    | nil => exact h
    | cons e es => exact h.elim
  | cons group groups ih =>
    intro start es h heq
    cases es with
    | nil => exact h.elim
    | cons e es =>
      obtain ⟨hkey, hidxs, hle, hrest⟩ := h
      obtain ⟨hk, hi⟩ := heq e (.head _)
      refine ⟨hk.trans hkey, hi.trans hidxs, hle, ih hrest ?_⟩
      exact fun x hx => heq x (.tail e hx)

/-- Later types do not change the key of a group. -/
theorem groupKey_append (map rest : List ℕ) (group : List WasmSubType) :
    groupKey map.length (map ++ rest) group = groupKey map.length map group := by
  refine traceMut_congr _ _ _ fun i _ => ?_
  cases i with
  | module k =>
    by_cases hk : k < map.length
    · simp [hashConsingIndex, hk, getD_eq_getElem?_getD, getElem?_append_left hk]
    · simp [hashConsingIndex, not_lt.mp hk]
  | engine x => rfl
  | recGroup k => rfl

/-! ## Valid type sections -/

variable {ty : WasmSubType} {w : Work}

section Valid

variable {s : TypeRegistry} {gcRuntime : Bool} {stop : ℕ}

theorem isSupported_spec (h : ty.isSupported gcRuntime = true) :
    ty.compositeType.shared = false ∧
      (gcRuntime = true ∨ ty.compositeType.inner.isFunc = true) := by
  simpa [WasmSubType.isSupported] using h

theorem isValid_spec {index : ℕ} (h : ty.isValid gcRuntime stop index = true) :
    (∀ i ∈ trace ty, ∃ k, i = .module k ∧ k < stop) ∧
    (∀ i, ty.supertype = some i → ∃ k, i = .module k ∧ k < index) ∧
    ty.isSupported gcRuntime = true ∧
    ∀ v ∈ ty.compositeType.inner.valTypes, v.isConcreteExn = false := by
  simp only [WasmSubType.isValid, Bool.and_eq_true, all_eq_true] at h
  obtain ⟨⟨⟨htr, hsup⟩, hsupported⟩, hexn⟩ := h
  have hrefs : ∀ i ∈ trace ty, ∃ k, i = .module k ∧ k < stop := by
    intro i hi
    have := htr i hi
    cases i with
    | module k => exact ⟨k, rfl, of_decide_eq_true this⟩
    | engine x => cases this
    | recGroup k => cases this
  refine ⟨hrefs, fun i hi => ?_, hsupported, (by simpa using hexn)⟩
  obtain ⟨k, rfl, -⟩ := hrefs i (supertype_mem_trace hi)
  rw [hi] at hsup
  exact ⟨k, rfl, of_decide_eq_true hsup⟩

theorem isValid_of_isValidGroup {group : List WasmSubType} :
    ∀ {index p : ℕ}, isValidGroup gcRuntime stop index group = true → group[p]? = some ty →
      ty.isValid gcRuntime stop (index + p) = true := by
  induction group with
  | nil => intro index p _ hp; simp at hp
  | cons t group ih =>
    intro index p h hp
    rw [isValidGroup, Bool.and_eq_true] at h
    cases p with
    | zero =>
      obtain rfl : t = ty := by simpa using hp
      exact h.1
    | succ p =>
      have := ih h.2 (by simpa using hp)
      rwa [Nat.add_right_comm, Nat.add_assoc] at this

/-- A valid group can be registered. -/
theorem groupOk_of_isValidGroup {map : List ℕ} {group : List WasmSubType}
    (hmap : ∀ x ∈ map, s.inner.Registered x)
    (h : isValidGroup s.gcRuntime (map.length + group.length) map.length group = true) :
    GroupOk s map map.length group := by
  refine ⟨hmap, fun i hi => ?_, fun p ty i hp hi => ?_, fun ty hty => ?_⟩
  · obtain ⟨ty, hty, hi⟩ := mem_flatMap.mp hi
    obtain ⟨p, hp⟩ := mem_iff_getElem?.mp hty
    obtain ⟨k, rfl, hk⟩ := (isValid_spec (isValid_of_isValidGroup h hp)).1 i hi
    exact .inr ⟨k, rfl, hk, id⟩
  · exact .inr ((isValid_spec (isValid_of_isValidGroup h hp)).2.1 i hi)
  · obtain ⟨p, hp⟩ := mem_iff_getElem?.mp hty
    exact isSupported_spec (isValid_spec (isValid_of_isValidGroup h hp)).2.2.1

end Valid

/-! ## Registering a module -/

section Module

variable {s : TypeRegistry} {m m' d : List EntryId}

/-- Registrations pass from the call to a handle or a collection. -/
theorem Sound.transfer {hs' : List RegisteredType} {cs : List TypeCollection}
    (hs : Sound s w m d) (hcnt : ∀ t,
      (held { s with handles := hs', collections := cs }).count t + m'.count t =
        s.held.count t + m.count t) :
    Sound { s with handles := hs', collections := cs } w m' d := by
  refine ⟨hs.shape, { hs.counted with counts := fun t ht => ?_, heldMem := fun t ht => ?_ }⟩
  · rw [hcnt]
    exact hs.counted.counts t ht
  · refine hs.counted.heldMem t (count_pos_iff.mp ?_)
    have := count_pos_iff.mpr ht
    rw [count_append] at this ⊢
    rwa [← hcnt]

/-- **The groups of a module** that are left.  When memory runs out, the registrations of
the earlier groups are given back. -/
theorem registerGroups_meets (groups : List (List WasmSubType)) :
    ∀ {s : TypeRegistry} {entries : List EntryId} {map : List ℕ}, Sound s .idle entries [] →
      s.inner.dropStack = [] → (∀ x ∈ map, ∃ e ∈ entries, x ∈ s.inner.indices e) →
      isValidSection s.gcRuntime map.length groups = true →
      (registerGroups groups entries map).Meets s
        (fun r t => ∃ es is, r = (entries ++ es, map ++ is) ∧ Sound t .idle r.1 [] ∧
          Extends s t ∧ t.inner.dropStack = [] ∧ GroupsMatch t.inner r.2 map.length groups es)
        (fun t => SoundAfter s t .idle [] []) := by
  induction groups with
  | nil =>
    intro s entries map hs hnil _ _
    exact meets_pure ⟨[], [], by simp, hs, .refl s, hnil, trivial⟩
  | cons group groups ih =>
    intro s entries map hs hnil hmap hvld
    rw [isValidSection, Bool.and_eq_true] at hvld
    have hok : GroupOk s map map.length group := by
      refine groupOk_of_isValidGroup (fun x hx => ?_) hvld.1
      obtain ⟨e, he, hx⟩ := hmap x hx
      exact ⟨e, hs.counted.heldMem e (mem_append_right _ he), hx⟩
    refine .bind (undo_meets (registerRecGroup_idle hs hnil hok) ?_ |>.imp ?_)
    · rintro t ⟨ht, hext, hnil⟩
      have ht' := (append_nil entries).symm ▸ ht
      apply (dropRegistrations_meets entries ht' hnil).imp
      rintro _ u ⟨hu, hext', hnil'⟩
      exact ⟨hu, hext.trans hext', hnil'⟩
    rintro e t ⟨ht, hext, hnil, hkey⟩
    refine .bind (meets_get ?_)
    have he : e ∈ t.inner.allocated .idle := t.inner.mem_allocated _
      (ht.counted.heldMem e (mem_append_right _ (.head _)))
    have hlt := ht.shape.known e he
    have hlen : (t.inner.indices e).length = group.length := by
      rw [ht.shape.lengths e he, hkey, groupKey, traceMut_list, length_map]
    have ht' := ht.transfer fun x => by
        rw [(perm_append_singleton e entries).count_eq x]
    have hlen' : (map ++ t.inner.indices e).length = map.length + group.length := by
      rw [length_append, hlen]
    refine (ih ht' hnil ?_ ?_).mono ?_ ?_
    · intro x hx
      rcases mem_append.mp hx with hx | hx
      · obtain ⟨e', he', hx⟩ := hmap x hx
        have hlt' := hs.shape.known e' (s.inner.mem_allocated _
          (hs.counted.heldMem e' (mem_append_right _ he')))
        exact ⟨e', mem_append_left _ he', hext.indices hlt' ▸ hx⟩
      · exact ⟨e, mem_append_right _ (.head _), hx⟩
    · rw [hlen', hext.gcRuntime]
      exact hvld.2
    · rintro _ u ⟨es, is, rfl, hu, hext', hnil', hmatch⟩
      dsimp only at hmatch
      rw [hlen', append_assoc] at hmatch
      refine ⟨e :: es, t.inner.indices e ++ is, by simp, hu, hext.trans hext', hnil', ?_⟩
      dsimp only
      rw [append_assoc]
      refine ⟨?_, ?_, ?_, hmatch⟩
      · rw [hext'.key hlt, hkey, groupKey_append]
      · rw [hext'.indices hlt, drop_left, ← hlen, take_left]
      · simp only [length_append, hlen]
        omega
    · rintro u ⟨hu, hext', hnil'⟩
      exact ⟨hu, hext.trans hext', hnil'⟩

/-- The types of a module are registered, group by group. -/
theorem registerModuleTypes_meets (hs : Sound s .idle [] [])
    (hnil : s.inner.dropStack = []) (hvld : isValidSection s.gcRuntime 0 groups = true) :
    (registerModuleTypes groups).Meets s
      (fun r t => Sound t .idle r.1 [] ∧ Extends s t ∧ t.inner.dropStack = [] ∧
        GroupsMatch t.inner r.2 0 groups r.1)
      (fun t => SoundAfter s t .idle [] []) := by
  have hsame : ∀ sc, Extends s { s with schedule := sc } := fun sc => .of_eq
  rw [registerModuleTypes]
  refine alloc_bind_meets (fun _ => ?_) fun sc => ⟨hs.schedule sc, hsame sc, hnil⟩
  refine alloc_bind_meets (fun sc' => ?_) fun sc => ⟨hs.schedule sc, hsame sc, hnil⟩
  have hmap : ∀ x ∈ ([] : List ℕ), ∃ e ∈ ([] : List EntryId), x ∈ s.inner.indices e := by simp
  apply (registerGroups_meets groups (hs.schedule sc') hnil hmap hvld).mono
  · rintro _ t ⟨es, is, rfl, ht, hext, hnil', hmatch⟩
    exact ⟨ht, (hsame sc').trans hext, hnil', hmatch⟩
  · rintro t ⟨ht, hext, hnil'⟩
    exact ⟨ht, (hsame sc').trans hext, hnil'⟩

end Module

/-! ## The invariant between operations -/

/-- What handles and collections know of their entries. -/
structure HoldersOk (s : TypeRegistry) : Prop where
  known : ∀ e ∈ s.held, e < s.inner.entries.length
  handles : ∀ h ∈ s.handles, h.index ∈ s.inner.indices h.entry
  /-- A collection has the entries and indices of its module's types. -/
  groups : ∀ c ∈ s.collections, GroupsMatch s.inner c.types 0 c.moduleTypes c.recGroups
  valid : ∀ c ∈ s.collections, isValidSection s.gcRuntime 0 c.moduleTypes = true

/-- What holds between any two calls. -/
structure RegistryInv (s : TypeRegistry) : Prop where
  sound : Sound s .idle [] []
  stack : s.inner.dropStack = []
  holders : HoldersOk s

variable {c : TypeCollection}

section Holders

variable {s t : TypeRegistry}

theorem TypeRegistry.mem_held_of_handle {h : RegisteredType} (hh : h ∈ s.handles) :
    h.entry ∈ s.held := mem_append_left _ (mem_map_of_mem hh)

theorem TypeRegistry.mem_held_of_collection {e : EntryId}
    (hc : c ∈ s.collections) (he : e ∈ c.recGroups) : e ∈ s.held :=
  mem_append_right _ (mem_flatMap.mpr ⟨c, hc, he⟩)

/-- Holders stay right when the registry grows. -/
theorem HoldersOk.mono (h : HoldersOk s) (hext : Extends s t) : HoldersOk t := by
  refine ⟨fun e he => ?_, fun r hr => ?_, fun c hc => ?_, fun c hc => ?_⟩
  · refine hext.lt (h.known e ?_)
    rcases mem_append.mp he with he | he
    · exact mem_append_left _ (map_subset _ hext.handles he)
    · exact mem_append_right _ (hext.collections ▸ he)
  · have hr := hext.handles hr
    rw [hext.indices (h.known _ (mem_held_of_handle hr))]
    exact h.handles r hr
  · rw [hext.collections] at hc
    refine (h.groups c hc).congr fun e he => ?_
    have hlt := h.known e (mem_held_of_collection hc he)
    exact ⟨hext.key hlt, hext.indices hlt⟩
  · rw [hext.collections] at hc
    rw [hext.gcRuntime]
    exact h.valid c hc

theorem HoldersOk.addHandle (h : HoldersOk s) {r : RegisteredType}
    (hlt : r.entry < s.inner.entries.length) (hr : r.index ∈ s.inner.indices r.entry) :
    HoldersOk { s with handles := r :: s.handles } := by
  refine ⟨fun e he => ?_, fun r' hr' => ?_, h.groups, h.valid⟩
  · rcases mem_cons.mp he with rfl | he
    · exact hlt
    · exact h.known e he
  · rcases mem_cons.mp hr' with rfl | hr'
    · exact hr
    · exact h.handles r' hr'

theorem HoldersOk.addCollection (h : HoldersOk s)
    (hlt : ∀ e ∈ c.recGroups, e < s.inner.entries.length)
    (hgroups : GroupsMatch s.inner c.types 0 c.moduleTypes c.recGroups)
    (hvld : isValidSection s.gcRuntime 0 c.moduleTypes = true) :
    HoldersOk { s with collections := c :: s.collections } := by
  refine ⟨fun e he => ?_, h.handles, fun c' hc' => ?_, fun c' hc' => ?_⟩
  · rcases mem_append.mp he with he | he
    · exact h.known e (mem_append_left _ he)
    · rcases mem_append.mp he with he | he
      · exact hlt e he
      · exact h.known e (mem_append_right _ he)
  · rcases mem_cons.mp hc' with rfl | hc'
    · exact hgroups
    · exact h.groups c' hc'
  · rcases mem_cons.mp hc' with rfl | hc'
    · exact hvld
    · exact h.valid c' hc'

theorem HoldersOk.eraseCollection (h : HoldersOk s) (c : TypeCollection) :
    HoldersOk { s with collections := s.collections.erase c } := by
  refine ⟨fun e he => ?_, h.handles, fun c' hc' => h.groups c' (mem_of_mem_erase hc'),
    fun c' hc' => h.valid c' (mem_of_mem_erase hc')⟩
  rcases mem_append.mp he with he | he
  · exact h.known e (mem_append_left _ he)
  · obtain ⟨c', hc', he⟩ := mem_flatMap.mp he
    exact h.known e (mem_held_of_collection (mem_of_mem_erase hc') he)

/-- A registered index belongs to a hash-consed entry. -/
theorem Shape.registered_of_typeToRecGroup {s : TypeRegistryInner} (hs : Shape s .idle) {i : ℕ}
    (h : (s.typeToRecGroup i).isSome = true) :
    ∃ e ∈ s.hashConsingMap, i ∈ s.indices e ∧ s.typeToRecGroup i = some e := by
  obtain ⟨e, he⟩ := Option.isSome_iff_exists.mp h
  obtain ⟨hall, hi⟩ := hs.groups i e he
  rw [allocated] at hall
  exact ⟨e, by simpa [Work.idle] using hall, hi, he⟩

end Holders

/-! ## The operations -/

section Operations

variable {s : TypeRegistry}

namespace RegistryInv

variable (hi : RegistryInv s)
include hi

theorem schedule (sc : Schedule) : RegistryInv { s with schedule := sc } :=
  ⟨hi.sound.schedule sc, hi.stack, hi.holders.mono .of_eq⟩

/-- A new handle keeps the invariant. -/
theorem addHandle {t : TypeRegistry} {e : EntryId} {i : ℕ} (ht : Sound t .idle [e] [])
    (hnil : t.inner.dropStack = []) (hext : Extends s t) (hie : i ∈ t.inner.indices e) :
    RegistryInv { t with handles := ⟨e, i⟩ :: t.handles } := by
  have hlt := ht.shape.known e (t.inner.mem_allocated _
    (ht.counted.heldMem e (mem_append_right _ (.head _))))
  refine ⟨?_, hnil, (hi.holders.mono hext).addHandle hlt hie⟩
  refine ht.transfer fun x => ?_
  simp only [held, map_cons, cons_append, count_cons, count_nil]
  omega

/-- Registering a module's types keeps the invariant. -/
theorem registerTypes (hvld : isValidSection s.gcRuntime 0 groups = true) :
    (registerAndCanonicalizeTypes groups).Meets s (fun _ => RegistryInv) RegistryInv := by
  rw [registerAndCanonicalizeTypes]
  refine .bind ((registerModuleTypes_meets hi.sound hi.stack hvld).mono ?_ ?_)
  · rintro ⟨es, types⟩ t ⟨ht, hext, hnil, hmatch⟩
    refine meets_modify ⟨?_, hnil, (hi.holders.mono hext).addCollection ?_ hmatch ?_⟩
    · refine ht.transfer fun x => ?_
      simp only [held, flatMap_cons, count_append, count_nil]
      omega
    · intro e he
      exact ht.shape.known e (t.inner.mem_allocated _
        (ht.counted.heldMem e (mem_append_right _ he)))
    · rw [hext.gcRuntime]
      exact hvld
  · rintro t ⟨ht, hext, hnil⟩
    exact ⟨ht, hnil, hi.holders.mono hext⟩

/-- The assertion on a handle keeps the invariant. -/
theorem assertHandle {h : RegisteredType} (hh : h ∈ s.handles) :
    (debugAssertHandle h).Meets s (fun _ => RegistryInv) RegistryInv := by
  have hheld := mem_append_left [] (mem_held_of_handle hh)
  have hmap := hi.sound.counted.heldMem _ hheld
  rw [debugAssertHandle]
  refine .bind (assertRegistered_meets hi.sound.shape
    (mem_append_left _ hmap) (hi.holders.handles h hh) ?_)
  exact .bind (meets_get
    (meets_check (hi.sound.counted.registrations_pos hheld) hi))

/-- What other threads do keeps the invariant. -/
theorem lockFree (op : LockFree) : op.run.Meets s (fun _ => RegistryInv) RegistryInv := by
  apply (op.run_meets hi.sound).imp
  rintro _ t ⟨ht, hq, -⟩
  exact ⟨ht, hq.inner ▸ hi.stack, hi.holders.mono hq.toExtends⟩

/-- Rooting a type keeps the invariant. -/
theorem root {i : ℕ} (h : (s.inner.typeToRecGroup i).isSome = true) :
    (rootRegisteredType i).Meets s (fun _ => RegistryInv) RegistryInv := by
  obtain ⟨e, he, hie, hgroup⟩ := hi.sound.shape.registered_of_typeToRecGroup h
  have hcomp : e ∈ s.inner.complete .idle := mem_append_left _ he
  obtain ⟨ty, hty⟩ := hi.sound.shape.get?_of_complete hcomp hie
  rw [rootRegisteredType]
  refine .bind (assertRegistered_meets hi.sound.shape hcomp hie ?_)
  refine .bind (typeAt_meets hty (.bind (entryOf_meets hgroup ?_)))
  refine .bind ((incref_meets hi.sound he (hi.stack ▸ not_mem_nil)).imp ?_)
  rintro _ t ⟨ht, hq⟩
  exact meets_modify (hi.addHandle ht (hq.inner ▸ hi.stack) hq.toExtends (hq.inner ▸ hie))

end RegistryInv

theorem assertCanonicalized_meets {R : TypeRegistry → Prop}
    (hs : Shape s.inner w) (h : ∀ i ∈ trace ty, ∃ x, i = .engine x ∧ s.inner.Registered x) :
    (assertCanonicalized ty).Meets s (fun _ t => t = s) R := by
  rw [assertCanonicalized]
  refine meets_forM (fun rest t => t = s ∧ ∀ i ∈ rest, i ∈ trace ty) ?_ (trace ty)
    ⟨rfl, fun i hi => hi⟩ |>.imp fun _ t ht => ht.1
  rintro i rest t ⟨rfl, hrest⟩
  obtain ⟨x, rfl, e, he, hx⟩ := h i (hrest i (.head _))
  refine assertRegistered_meets hs (mem_append_left _ he) hx ⟨rfl, ?_⟩
  exact fun j hj => hrest j (.tail _ hj)

theorem TypeRegistry.canRegister_spec (hs : Shape s.inner .idle) (h : s.canRegister ty = true) :
    (∀ i ∈ trace ty, ∃ x, i = .engine x ∧ s.inner.Registered x) ∧
      ty.isSupported s.gcRuntime = true := by
  rw [canRegister, Bool.and_eq_true, all_eq_true] at h
  refine ⟨fun i hi => ?_, h.2⟩
  have := h.1 i hi
  cases i with
  | engine x =>
    obtain ⟨e, he, hx, -⟩ := hs.registered_of_typeToRecGroup this
    exact ⟨x, rfl, e, he, hx⟩
  | module k => cases this
  | recGroup k => cases this

namespace RegistryInv

variable (hi : RegistryInv s)
include hi

/-- Registering one type keeps the invariant. -/
theorem newType (h : s.canRegister ty = true) :
    (newRegisteredType ty).Meets s (fun _ => RegistryInv) RegistryInv := by
  obtain ⟨hrefs, hsupported⟩ := canRegister_spec hi.sound.shape h
  have hok : GroupOk s [] (u32Max - 1) [ty] := by
    refine ⟨by simp, fun i hi => .inl (hrefs i ?_), fun p ty' i hp hi => .inl ?_, ?_⟩
    · simpa [trace_list] using hi
    · obtain rfl : ty' = ty := by simpa using mem_of_getElem? hp
      obtain ⟨x, hx, -⟩ := hrefs i (supertype_mem_trace hi)
      exact ⟨x, hx⟩
    · intro ty' hty'
      obtain rfl : ty' = ty := by simpa using hty'
      exact isSupported_spec hsupported
  unfold newRegisteredType registerSingleton
  refine .bind ((assertCanonicalized_meets hi.sound.shape hrefs).imp ?_)
  rintro _ _ rfl
  refine .bind (.bind
    ((assertCanonicalized_meets hi.sound.shape hrefs).imp ?_))
  rintro _ _ rfl
  apply (registerRecGroup_idle hi.sound hi.stack hok).mono
  · rintro e t ⟨ht, hext, hnil, hkey⟩
    refine .bind (meets_get ?_)
    have he := ht.counted.heldMem e (mem_append_right _ (.head _))
    have hlen : (t.inner.indices e).length = 1 := by
      rw [ht.shape.lengths e (t.inner.mem_allocated _ he), hkey, groupKey, traceMut_list,
        length_map]
      rfl
    obtain ⟨i, hidxs⟩ := length_eq_one_iff.mp hlen
    have hie : i ∈ t.inner.indices e := hidxs ▸ (.head _)
    obtain ⟨ty', hty'⟩ := ht.shape.get?_of_complete (mem_append_left _ he) hie
    refine .bind (meets_lift (by rw [hidxs]; rfl) ?_)
    refine .bind (typeAt_meets hty' (meets_modify ?_))
    exact hi.addHandle ht hnil hext hie
  · rintro t ⟨ht, hext, hnil⟩
    exact ⟨ht, hnil, hi.holders.mono hext⟩

/-- The second half of a drop keeps the invariant. -/
theorem unregister {e : EntryId} (he : e ∈ s.dropping) :
    (finishDrop e).Meets s (fun _ => RegistryInv) RegistryInv := by
  have hc := hi.sound.counted
  have hs : Sound { s with dropping := s.dropping.erase e } .idle [] [e] := by
    refine ⟨hi.sound.shape, hc.counts, hc.heldMem, hc.offMap, fun t ht hz => ?_, hc.stackNodup,
      hc.stack, hc.flag, hc.removedIff, hc.removedNodup, fun t ht => ?_⟩
    · rcases hc.zero t ht hz with h | h | h
      · by_cases hte : t = e
        · exact .inr (.inr (hte ▸ (.head _)))
        · exact .inl ((mem_erase_of_ne hte).mpr h)
      · exact .inr (.inl h)
      · cases h
    · refine hc.droppingKnown t (mem_append_left _ ?_)
      rcases mem_append.mp ht with ht | ht
      · exact mem_of_mem_erase ht
      · obtain rfl : t = e := by simpa using ht
        exact he
  rw [finishDrop]
  refine .bind (meets_modify ((unregisterEntry_meets hs hi.stack).imp ?_))
  rintro _ t ⟨ht, hext, hnil⟩
  exact ⟨ht, hnil, hi.holders.mono hext.of_start⟩

/-- Dropping a collection keeps the invariant. -/
theorem dropTypes (hc : c ∈ s.collections) :
    (dropCollection c).Meets s (fun _ => RegistryInv) RegistryInv := by
  have hs : Sound { s with collections := s.collections.erase c } .idle c.recGroups [] := by
    refine hi.sound.transfer fun x => ?_
    have hperm := ((perm_cons_erase hc).flatMap_right TypeCollection.recGroups).count_eq x
    rw [flatMap_cons, count_append] at hperm
    simp only [held, count_append, count_nil]
    omega
  rw [dropCollection]
  refine .bind (meets_modify ?_)
  refine meets_forM (fun rest t => Sound t .idle rest [] ∧
    Extends { s with collections := s.collections.erase c } t ∧ t.inner.dropStack = []) ?_
    c.recGroups ⟨hs, .refl _, hi.stack⟩ |>.imp ?_
  · rintro e rest t ⟨ht, hext, hnil⟩
    have he := ht.counted.heldMem e (mem_append_right _ (.head _))
    refine .bind (assertAllRegistered_meets ht.shape (mem_append_left _ he) ?_)
    apply (dropRegistration_meets ht hnil).imp
    rintro _ u ⟨hu, hext', hnil'⟩
    exact ⟨hu, hext.trans hext', hnil'⟩
  · rintro _ t ⟨ht, hext, hnil⟩
    exact ⟨ht, hnil, (hi.holders.eraseCollection c).mono hext⟩

/-- **Every operation keeps the invariant**, whether it succeeds or runs out of memory, and no
assertion fails. -/
theorem call {op : RegistryOp} (h : op.allowed s = true) :
    op.call.Meets s (fun _ => RegistryInv) RegistryInv := by
  cases op with
  | registerTypes groups => exact hi.registerTypes h
  | newType ty => exact hi.newType h
  | root i => exact hi.root h
  | assertHandle r => exact hi.assertHandle (of_decide_eq_true h)
  | lockFree op => exact hi.lockFree op
  | unregister e => exact hi.unregister (of_decide_eq_true h)
  | dropTypes c => exact hi.dropTypes (of_decide_eq_true h)

/-- Every operation that is allowed returns and keeps the invariant. -/
theorem step {op : RegistryOp × Schedule} (h : op.1.allowed s = true) :
    ∃ t, s.step op = .ok t ∧ RegistryInv t := by
  obtain ⟨op, sc⟩ := op
  have hall : op.allowed { s with schedule := sc } = true := by
    cases op with
    | lockFree op => cases op <;> exact h
    | _ => exact h
  rcases ((hi.schedule sc).call hall).run_eq with ⟨_, t, hrun, ht⟩ | ⟨msg, t, hrun, ht⟩
  · exact ⟨t, by rw [TypeRegistry.step, hrun], ht⟩
  · exact ⟨t, by rw [TypeRegistry.step, hrun], ht⟩

end RegistryInv

end Operations

theorem not_mem_allocated_empty (e : EntryId) : e ∉ empty.allocated .idle := by
  simp [allocated, empty, Work.idle]

theorem not_mem_complete_empty (e : EntryId) : e ∉ empty.complete .idle := by
  simp [complete, empty, Work.idle]

/-- The invariant holds at the start. -/
theorem registryInv_init (gcRuntime : Bool) : RegistryInv (.init gcRuntime) := by
  have hsh : Shape empty .idle :=
    { nodup := nodup_nil
      known := fun e he => absurd he (not_mem_allocated_empty e)
      linked := fun _ he => he
      ready := fun _ he => he
      keys := nofun
      occupied := fun i => ⟨nofun, fun ⟨e, he, _⟩ => absurd he (not_mem_allocated_empty e)⟩
      disjoint := fun e he => absurd he (not_mem_allocated_empty e)
      indicesNodup := fun e he => absurd he (not_mem_allocated_empty e)
      lengths := fun e he => absurd he (not_mem_allocated_empty e)
      groups := nofun
      backlinks := fun e he => absurd he (not_mem_complete_empty e)
      content := fun e he => absurd he (not_mem_complete_empty e)
      supertypes := fun e he => absurd he (not_mem_complete_empty e)
      relative := fun e he => absurd he (not_mem_allocated_empty e)
      supertypeKeys := fun _ h => absurd rfl h
      layoutKeys := fun _ h => absurd rfl h
      trampolineKeys := nofun
      trampolineTypes := nofun
      trampolineSpace := fun _ _ => rfl
      bare := nofun
      edges := fun e he => absurd he (not_mem_allocated_empty e) }
  have hcounted : Counted (.init gcRuntime) .idle [] [] :=
    { counts := nofun
      heldMem := nofun
      offMap := fun _ _ => rfl
      zero := nofun
      stackNodup := nodup_nil
      stack := nofun
      flag := fun _ => ⟨nofun, fun h => nomatch h.1⟩
      removedIff := fun _ => ⟨nofun, nofun⟩
      removedNodup := nodup_nil
      droppingKnown := nofun }
  exact ⟨⟨hsh, hcounted⟩, rfl, ⟨nofun, nofun, nofun, nofun⟩⟩

/-- The invariant holds in every state that is reached. -/
theorem registryInv_of_reaches {s : TypeRegistry} (hs : registryMachine.Reaches s) :
    RegistryInv s := by
  refine Machine.Reaches.invariant ?_ ?_ hs
  · rintro s ⟨gcRuntime, rfl⟩
    exact registryInv_init gcRuntime
  intro s op t hi ha hok
  obtain ⟨t', hstep, ht'⟩ := hi.step ha
  have hok : s.step op = .ok t := hok
  rw [hstep] at hok
  cases hok
  exact ht'

/-! ## A registry that nobody uses -/

/-- Nothing is registered. -/
structure TypeRegistryInner.IsEmpty (s : TypeRegistryInner) : Prop where
  hashConsingMap : s.hashConsingMap = []
  types : ∀ i, s.types.get? i = none
  typeToRecGroup : ∀ i, s.typeToRecGroup i = none
  typeToSupertypes : ∀ i, s.typeToSupertypes i = none
  typeToTrampoline : ∀ i, s.typeToTrampoline i = none
  typeToGcLayout : ∀ i, s.typeToGcLayout i = none
  dropStack : s.dropStack = []

section Unused

variable {s : TypeRegistryInner} {e : EntryId}

/-- A trampoline type refers to nothing else. -/
theorem Shape.refs_of_trampoline (hs : Shape s w) (he : e ∈ s.hashConsingMap)
    (hkey : s.key e = [ty]) (hty : IsTrampoline ty) : s.refs e = [] := by
  have hedges : s.edges e = [] := by
    have htr : traceEngineIndices (s.key e) = [] := by
      rw [hkey, traceEngineIndices, trace_list]
      simp [hty.trace]
    rw [TypeRegistryInner.edges, htr]
    rfl
  have htrampolines : s.trampolines e = [] := by
    refine filterMap_eq_nil_iff.mpr fun i hi => ?_
    cases ht : s.typeToTrampoline i with
    | none => rfl
    | some t =>
      obtain ⟨ty', hty', hne⟩ := hs.trampolineTypes i t ht
      obtain ⟨p, kty, -, hp, htype⟩ := hs.type?_of_complete (mem_append_left _ he) hi
      obtain rfl : kty = ty := by
        rw [hkey] at hp
        simpa using mem_of_getElem? hp
      rw [htype] at hty'
      cases hty'
      exact absurd ((trampolineSubType_traceMut _ _).mpr hty.own) hne
  rw [refs, hedges, htrampolines]
  rfl

/-- An entry with references is older than the entries that refer to it, which have
references, too. -/
theorem Shape.lt_of_mem_refs (hs : Shape s w) {x : EntryId} (hx : x ∈ s.hashConsingMap)
    (he : s.refs e ≠ []) (hex : e ∈ s.refs x) : e < x ∧ s.refs x ≠ [] := by
  refine ⟨?_, ne_nil_of_mem hex⟩
  rcases mem_append.mp hex with h | h
  · obtain ⟨i, hi, hie⟩ := mem_filterMap.mp h
    obtain ⟨t, ht, hit, hlt⟩ := hs.edges x (s.mem_allocated w hx) i hi
    rw [hs.owner ht hit] at hie
    cases hie
    exact hlt
  obtain ⟨i, hi, hie⟩ := mem_filterMap.mp h
  obtain ⟨j, hj, hje⟩ := Option.bind_eq_some_iff.mp hie
  obtain ⟨-, te, hte, hjte, ty, hkey, hty⟩ := hs.trampolineKeys i j hj
  rw [hs.owner hte hjte] at hje
  cases hje
  exact absurd (hs.refs_of_trampoline hte hkey hty) he

/-- If every registered entry is referred to by a registered entry, there are none. -/
theorem Shape.eq_nil_of_referred (hs : Shape s w)
    (h : ∀ e ∈ s.hashConsingMap, ∃ x ∈ s.hashConsingMap, e ∈ s.refs x) : s.hashConsingMap = [] := by
  -- From an entry with references the referring entries ascend without end.
  have hnone : ∀ n e, e ∈ s.hashConsingMap → s.refs e ≠ [] → s.entries.length ≤ e + n →
      False := by
    intro n
    induction n with
    | zero =>
      intro e he _ hn
      exact absurd (hs.known e (s.mem_allocated w he)) (not_lt.mpr hn)
    | succ n ih =>
      intro e he hrefs hn
      obtain ⟨x, hx, hex⟩ := h e he
      obtain ⟨hlt, hx'⟩ := hs.lt_of_mem_refs hx hrefs hex
      refine ih x hx hx' (le_trans hn ?_)
      rw [← Nat.add_assoc, Nat.add_right_comm]
      exact Nat.add_le_add_right hlt n
  refine eq_nil_iff_forall_not_mem.mpr fun e he => ?_
  obtain ⟨x, hx, hex⟩ := h e he
  exact hnone s.entries.length x hx (ne_nil_of_mem hex) (Nat.le_add_left _ _)

/-- Without entries all maps are empty. -/
theorem Shape.isEmpty (hs : Shape s .idle) (h : s.hashConsingMap = []) (hstk : s.dropStack = []) :
    s.IsEmpty := by
  have hnone : ∀ i, ¬∃ x ∈ s.allocated .idle, i ∈ s.indices x := by
    rintro i ⟨x, hx, -⟩
    simp [allocated, h, Work.idle] at hx
  refine ⟨h, fun i => ?_, fun i => ?_, fun i => ?_, fun i => ?_, fun i => ?_, hstk⟩
  · rw [← Option.not_isSome_iff_eq_none, hs.occupied]
    exact hnone i
  · by_contra hne
    obtain ⟨x, hx⟩ := Option.ne_none_iff_exists'.mp hne
    exact hnone i ⟨x, hs.groups i x hx⟩
  · by_contra hne
    exact hnone i (hs.supertypeKeys i hne)
  · by_contra hne
    obtain ⟨t, ht⟩ := Option.ne_none_iff_exists'.mp hne
    exact hnone i (hs.trampolineKeys i t ht).1
  · by_contra hne
    exact hnone i (hs.layoutKeys i hne)

end Unused

/-- Without holders the registry is empty. -/
theorem RegistryInv.isEmpty {s : TypeRegistry} (hi : RegistryInv s) (hh : s.handles = [])
    (hc : s.collections = []) (hd : s.dropping = []) : s.inner.IsEmpty := by
  have hheld : s.held = [] := by simp [held, hh, hc]
  refine hi.sound.shape.isEmpty (hi.sound.shape.eq_nil_of_referred fun e he => ?_) hi.stack
  have hpos : s.registrations e ≠ 0 := by
    intro hz
    rcases hi.sound.counted.zero e he hz with h | h | h
    · rw [hd] at h
      cases h
    · rw [hi.stack] at h
      cases h
    · cases h
  have hcnt := hi.sound.counted.counts e he
  rw [hheld] at hcnt
  have hmem : e ∈ (s.inner.holders .idle).flatMap s.inner.refs := by
    apply count_pos_iff.mp
    rw [count_nil] at hcnt
    omega
  obtain ⟨x, hx, hex⟩ := mem_flatMap.mp hmem
  exact ⟨x, by simpa [TypeRegistryInner.holders, Work.idle] using hx, hex⟩

def pointType : WasmSubType := ⟨true, none, ⟨.struct [⟨.val .i32, false⟩], false⟩⟩

/-- A function that takes a reference to the module's first type. -/
def callbackType : WasmSubType :=
  ⟨true, none, ⟨.func ⟨[.ref ⟨false, .concreteStruct (.module 0)⟩], 1, 1, 0⟩, false⟩⟩

end WasmDeps.Types
