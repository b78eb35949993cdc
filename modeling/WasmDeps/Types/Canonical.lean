import WasmDeps.Types.RegistryRuns

/-!
# Canonical type indices

What the shared type indices mean.  The specification is in the terms of the modules: the
iso-recursive form of a recursion group has every reference replaced, inside of the group by
the position in it and out of it by the shared index of the target.

The constant-time subtype check compares a position in the list of supertypes.  It agrees
with the reflexive and transitive closure of the declared supertypes, because the list of a
type is the list of its declared supertype and then that type.
-/

namespace WasmDeps.Types

open Lib TypeTrace List

/-! ## Iso-recursive types -/

/-- The heap type with all of its references mapped. -/
def WasmHeapType.mapRefs (g : TypeIndex → TypeIndex) : WasmHeapType → WasmHeapType
  | concreteFunc i => concreteFunc (g i)
  | concreteExn i => concreteExn (g i)
  | concreteCont i => concreteCont (g i)
  | concreteArray i => concreteArray (g i)
  | concreteStruct i => concreteStruct (g i)
  | h => h

def WasmValType.mapRefs (g : TypeIndex → TypeIndex) : WasmValType → WasmValType
  | ref r => ref ⟨r.nullable, r.heapType.mapRefs g⟩
  | v => v

def WasmFieldType.mapRefs (g : TypeIndex → TypeIndex) (f : WasmFieldType) : WasmFieldType :=
  match f.elementType with
  | .val v => ⟨.val (v.mapRefs g), f.isMutable⟩
  | _ => f

def WasmCompositeInnerType.mapRefs (g : TypeIndex → TypeIndex) :
    WasmCompositeInnerType → WasmCompositeInnerType
  | array a => array (a.mapRefs g)
  | func f => func { f with paramsResults := f.paramsResults.map (WasmValType.mapRefs g) }
  | struct fields => struct (fields.map (WasmFieldType.mapRefs g))
  | cont i => cont (g i)
  | exn i fields => exn (g i) (fields.map (WasmFieldType.mapRefs g))

/-- The type with every one of its references mapped. -/
def WasmSubType.mapRefs (g : TypeIndex → TypeIndex) (ty : WasmSubType) : WasmSubType :=
  ⟨ty.isFinal, ty.supertype.map g, ⟨ty.compositeType.inner.mapRefs g, ty.compositeType.shared⟩⟩

/-- A reference of a module's type in iso-recursive form: inside of the group, which starts at
`start`, a position, and out of it the shared index of the target. -/
def isoIndex (start : ℕ) (types : List ℕ) : TypeIndex → TypeIndex
  | .module k => if k < start then .engine (types.getD k 0) else .recGroup (k - start)
  | i => i

/-- The iso-recursive form of a module's recursion group that starts at `start`; `types` are
the shared indices of the module's types. -/
def isoGroup (start : ℕ) (types : List ℕ) (group : List WasmSubType) : List WasmSubType :=
  group.map (WasmSubType.mapRefs (isoIndex start types))

variable {ty : WasmSubType}

section MapRefs

variable {g : TypeIndex → TypeIndex}

theorem WasmValType.mapRefs_eq {v : WasmValType} (h : v.isConcreteExn = false) :
    v.mapRefs g = TypeTrace.traceMut g v := by
  cases v with
  | ref r =>
    obtain ⟨nullable, heapType⟩ := r
    cases heapType with
    | concreteExn i => cases h
    | _ => rfl
  | _ => rfl

theorem WasmFieldType.mapRefs_eq {f : WasmFieldType}
    (h : ∀ v ∈ f.valTypes, v.isConcreteExn = false) : f.mapRefs g = TypeTrace.traceMut g f := by
  obtain ⟨elementType, isMutable⟩ := f
  cases elementType with
  | val v =>
    have hv := WasmValType.mapRefs_eq (g := g) (h v (.head _))
    change (⟨.val (v.mapRefs g), isMutable⟩ : WasmFieldType) = _
    rw [hv]
    rfl
  | _ => rfl

theorem mapRefs_fields {fields : List WasmFieldType}
    (h : ∀ v ∈ fields.flatMap WasmFieldType.valTypes, v.isConcreteExn = false) :
    fields.map (WasmFieldType.mapRefs g) = traceMut g fields :=
  map_congr_left fun f hf => WasmFieldType.mapRefs_eq fun v hv =>
    h v (mem_flatMap.mpr ⟨f, hf, hv⟩)

/-- In a definition without concrete exception types, the runtime finds all references. -/
theorem WasmCompositeInnerType.mapRefs_eq {t : WasmCompositeInnerType}
    (h : ∀ v ∈ t.valTypes, v.isConcreteExn = false) : t.mapRefs g = TypeTrace.traceMut g t := by
  cases t with
  | array a => exact congrArg array (WasmFieldType.mapRefs_eq h)
  | func f =>
    have hvals : f.paramsResults.map (.mapRefs g) =
        TypeTrace.traceMut g f.paramsResults :=
      map_congr_left fun v hv => WasmValType.mapRefs_eq (h v hv)
    exact congrArg (fun vs => func { f with paramsResults := vs }) hvals
  | struct fields => exact congrArg struct (mapRefs_fields h)
  | cont i => rfl
  | exn i fields => exact congrArg (exn (g i)) (mapRefs_fields h)

/-- Without exception references, `trace_mut` maps every reference. -/
theorem WasmSubType.mapRefs_eq
    (h : ∀ v ∈ ty.compositeType.inner.valTypes, v.isConcreteExn = false) :
    ty.mapRefs g = traceMut g ty := by
  rw [WasmSubType.mapRefs, WasmCompositeInnerType.mapRefs_eq h]
  rfl

end MapRefs

variable {group : List WasmSubType}

variable {gcRuntime : Bool} {types : List ℕ} {s : TypeRegistryInner}
  {groups : List (List WasmSubType)}

/-- **The hash-consing key is the iso-recursive form.** -/
theorem groupKey_eq_isoGroup {stop start index : ℕ}
    (h : isValidGroup gcRuntime stop index group = true) :
    groupKey start types group = isoGroup start types group := by
  refine map_congr_left fun ty hty => ?_
  obtain ⟨p, hp⟩ := mem_iff_getElem?.mp hty
  rw [WasmSubType.mapRefs_eq (isValid_spec (isValid_of_isValidGroup h hp)).2.2.2]
  refine traceMut_congr _ _ _ fun i _ => ?_
  cases i with
  | module k =>
    by_cases hk : k < start
    · simp [hashConsingIndex, isoIndex, hk, not_le.mpr hk]
    · simp [hashConsingIndex, isoIndex, hk, not_lt.mp hk]
  | engine x => rfl
  | recGroup k => rfl

/-! ## The types of a module -/

/-- The index of the first type of a module's `n`th recursion group. -/
def groupStart (groups : List (List WasmSubType)) (n : ℕ) : ℕ :=
  ((groups.take n).map List.length).sum

theorem groupStart_succ (group : List WasmSubType) (groups : List (List WasmSubType)) (n : ℕ) :
    groupStart (group :: groups) (n + 1) = group.length + groupStart groups n := by
  simp [groupStart]

/-- The entry of the `n`-th group. -/
theorem GroupsMatch.nth :
    ∀ {start n : ℕ} {es : List EntryId}, GroupsMatch s types start groups es →
      groups[n]? = some group → ∃ e ∈ es, s.key e =
          groupKey (start + groupStart groups n) types group ∧
        s.indices e = (types.drop (start + groupStart groups n)).take group.length ∧
        start + groupStart groups n + group.length ≤ types.length := by
  induction groups with
  | nil =>
    intro start n es _ hn
    simp at hn
  | cons g groups ih =>
    intro start n es h hn
    cases es with
    | nil => exact h.elim
    | cons e es =>
      obtain ⟨hkey, hidxs, hle, hrest⟩ := h
      cases n with
      | zero =>
        obtain rfl : g = group := by simpa using hn
        exact ⟨e, .head _, hkey, hidxs, hle⟩
      | succ n =>
        obtain ⟨e', he', hk, hi, hl⟩ := ih hrest (by simpa using hn)
        rw [Nat.add_assoc] at hk hi hl
        rw [groupStart_succ]
        exact ⟨e', .tail e he', hk, hi, by omega⟩

/-- Each group of a valid section is valid. -/
theorem isValidGroup_of_isValidSection :
    ∀ {start n : ℕ}, isValidSection gcRuntime start groups = true → groups[n]? = some group →
      isValidGroup gcRuntime (start + groupStart groups n + group.length)
        (start + groupStart groups n) group = true := by
  induction groups with
  | nil =>
    intro start n _ hn
    simp at hn
  | cons g groups ih =>
    intro start n h hn
    rw [isValidSection, Bool.and_eq_true] at h
    cases n with
    | zero =>
      obtain rfl : g = group := by simpa using hn
      exact h.1
    | succ n =>
      have := ih h.2 (by simpa using hn)
      rw [Nat.add_assoc start] at this
      exact this

/-- A type of a live module: where it is in the module, and where its entry has it. -/
structure TypeCollection.Has (c : TypeCollection) (s : TypeRegistryInner)
    (n p : ℕ) (group : List WasmSubType) (e : EntryId) (i : ℕ) : Prop where
  mem : e ∈ s.hashConsingMap
  /-- The entry's key is the group's form. -/
  key : s.key e = isoGroup (groupStart c.moduleTypes n) c.types group
  /-- The shared index is at the type's place in the module. -/
  type : c.types[groupStart c.moduleTypes n + p]? = some i
  /-- The shared index is at the type's place in the entry. -/
  index : (s.indices e)[p]? = some i
  indices : s.indices e = (c.types.drop (groupStart c.moduleTypes n)).take group.length
  /-- The module has shared indices for the whole group. -/
  le : groupStart c.moduleTypes n + group.length ≤ c.types.length

namespace RegistryInv

variable {s : TypeRegistry} {c : TypeCollection} {n p : ℕ}

theorem isValidGroup (hi : RegistryInv s) (hc : c ∈ s.collections)
    (hn : c.moduleTypes[n]? = some group) :
    isValidGroup s.gcRuntime (groupStart c.moduleTypes n + group.length)
      (groupStart c.moduleTypes n) group = true := by
  have := isValidGroup_of_isValidSection (hi.holders.valid c hc) hn
  rwa [Nat.zero_add] at this

/-- Every type of a module has an entry and an index. -/
theorem has (hi : RegistryInv s) (hc : c ∈ s.collections) (hn : c.moduleTypes[n]? = some group)
    (hp : p < group.length) : ∃ e i, c.Has s.inner n p group e i := by
  obtain ⟨e, he, hkey, hidxs, hle⟩ := (hi.holders.groups c hc).nth hn
  rw [Nat.zero_add] at hkey hidxs hle
  have hheld := TypeRegistry.mem_held_of_collection hc he
  have hlt : groupStart c.moduleTypes n + p < c.types.length := by omega
  refine ⟨e, c.types.get ⟨groupStart c.moduleTypes n + p, hlt⟩,
    hi.sound.counted.heldMem e (mem_append_left _ hheld), ?_, ?_, ?_, hidxs, hle⟩
  · rw [hkey, groupKey_eq_isoGroup (hi.isValidGroup hc hn)]
  · exact getElem?_eq_getElem hlt
  · rw [hidxs, getElem?_take_of_lt hp, getElem?_drop]
    exact getElem?_eq_getElem hlt

end RegistryInv

/-- **Canonical indices.**  Two types of live modules have the same index exactly if they are
at the same position of groups with the same form. -/
theorem TypeCollection.Has.index_eq_iff {w : Work} (hs : Shape s w)
    {c c' : TypeCollection} {n p n' p' : ℕ} {group group' : List WasmSubType} {e e' : EntryId}
    {i i' : ℕ} (h : c.Has s n p group e i) (h' : c'.Has s n' p' group' e' i') :
    i = i' ↔ p = p' ∧ isoGroup (groupStart c.moduleTypes n) c.types group =
      isoGroup (groupStart c'.moduleTypes n') c'.types group' := by
  have hall := s.mem_allocated w h.mem
  constructor
  · rintro rfl
    obtain rfl := hs.disjoint e hall e' (s.mem_allocated w h'.mem) i
      (mem_of_getElem? h.index) (mem_of_getElem? h'.index)
    refine ⟨?_, h.key.symm.trans h'.key⟩
    obtain ⟨hp, hpi⟩ := List.getElem?_eq_some_iff.mp h.index
    obtain ⟨hp', hpi'⟩ := List.getElem?_eq_some_iff.mp h'.index
    exact (hs.indicesNodup e hall).getElem_inj_iff.mp (hpi.trans hpi'.symm)
  · rintro ⟨rfl, hform⟩
    have hkey : s.key e = s.key e' := by rw [h.key, h'.key, hform]
    obtain rfl := hs.keys e (mem_append_left _ h.mem) e' (mem_append_left _ h'.mem) hkey
    exact Option.some.inj (h.index.symm.trans h'.index)

/-! ## Subtyping -/

/-- Type `a` declares `b` as its supertype. -/
def DeclaredSupertype (s : TypeRegistryInner) (a b : ℕ) : Prop :=
  ∃ ty, s.type? a = some ty ∧ ty.supertype = some (.engine b)

section Subtyping

variable {s : TypeRegistryInner} {a b : ℕ}

section

variable (hs : Shape s .idle)
include hs

theorem Shape.registered_of_get? (h : (s.types.get? a).isSome = true) : s.Registered a := by
  obtain ⟨e, he, ha⟩ := (hs.occupied a).mp h
  rw [TypeRegistryInner.allocated] at he
  exact ⟨e, by simpa [Work.idle] using he, ha⟩

theorem Shape.registered_of_type? (h : s.type? a = some ty) : s.Registered a := by
  refine hs.registered_of_get? ?_
  cases hget : s.types.get? a with
  | none => simp [TypeRegistryInner.type?, hget] at h
  | some x => rfl

/-- The supertypes of a type are those of its declared supertype, and that one. -/
theorem DeclaredSupertype.supertypes (h : DeclaredSupertype s a b) :
    s.supertypes a = s.supertypes b ++ [b] ∧ s.Registered b := by
  obtain ⟨ty, hty, hsup⟩ := h
  obtain ⟨e, he, ha⟩ := hs.registered_of_type? hty
  have hcomp : e ∈ s.complete .idle := mem_append_left _ he
  have hof := hs.supertypes e hcomp a ha ty hty
  obtain ⟨x, hx, e', he', hxe⟩ := hs.supertype_complete hcomp ha hty hsup
  cases hx
  rw [SupertypesOf, hsup] at hof
  obtain ⟨x, hx, hlist⟩ := hof
  cases hx
  refine ⟨by rw [TypeRegistryInner.supertypes, hlist]; rfl, e', ?_, hxe⟩
  simpa [TypeRegistryInner.complete, Work.idle] using he'

theorem Shape.declared_of_supertypes (ha : s.Registered a)
    (h : s.supertypes a ≠ []) : ∃ b, DeclaredSupertype s a b := by
  obtain ⟨e, he, ha⟩ := ha
  have hcomp : e ∈ s.complete .idle := mem_append_left _ he
  obtain ⟨ty, hty⟩ : ∃ ty, s.type? a = some ty := by
    obtain ⟨_, _, _, _, hty⟩ := hs.type?_of_complete hcomp ha
    exact ⟨_, hty⟩
  have hof := hs.supertypes e hcomp a ha ty hty
  rw [SupertypesOf] at hof
  cases hsup : ty.supertype with
  | none =>
    rw [hsup] at hof
    simp [TypeRegistryInner.supertypes, hof] at h
  | some j =>
    rw [hsup] at hof
    obtain ⟨x, rfl, -⟩ := hof
    exact ⟨x, ty, hty, hsup⟩

/-- A chain of declared supertypes shows in the list. -/
theorem Shape.supertypes_of_chain (h : Relation.ReflTransGen (DeclaredSupertype s) a b) :
    a = b ∨ (s.supertypes a)[(s.supertypes b).length]? = some b := by
  induction h using Relation.ReflTransGen.head_induction_on with
  | refl => exact .inl rfl
  | head hstep _ ih =>
    right
    rw [(hstep.supertypes hs).1]
    rcases ih with rfl | ih
    · simp
    · obtain ⟨hlt, -⟩ := List.getElem?_eq_some_iff.mp ih
      rw [getElem?_append_left hlt]
      exact ih

/-- The list shows a chain of declared supertypes. -/
theorem Shape.chain_of_supertypes :
    ∀ k a, (s.supertypes a).length = k → s.Registered a →
      (s.supertypes a)[(s.supertypes b).length]? = some b →
      Relation.ReflTransGen (DeclaredSupertype s) a b := by
  intro k
  induction k with
  | zero =>
    intro a hlen _ hb
    simp [length_eq_zero_iff.mp hlen] at hb
  | succ k ih =>
    intro a hlen ha hb
    obtain ⟨x, hx⟩ := hs.declared_of_supertypes ha (ne_nil_of_length_eq_add_one hlen)
    obtain ⟨hlist, hxreg⟩ := hx.supertypes hs
    rw [hlist] at hb hlen
    have hlen : (s.supertypes x).length = k := by simpa using hlen
    rw [getElem?_concat] at hb
    split at hb
    · rw [← Option.some.inj hb]
      exact .single hx
    · exact .head hx (ih x hlen hxreg hb)

end

/-- **The subtype check** decides whether a type is reached by declared supertypes. -/
theorem isSubtype_meets {s : TypeRegistry} {R : TypeRegistry → Prop}
    (hs : Shape s.inner .idle) (ha : s.inner.Registered a) (hb : s.inner.Registered b) :
    (isSubtype a b).Meets s (fun r t => t = s ∧
      (r = true ↔ Relation.ReflTransGen (DeclaredSupertype s.inner) a b)) R := by
  obtain ⟨e, he, hae⟩ := ha
  obtain ⟨e', he', hbe⟩ := hb
  rw [isSubtype]
  refine .bind (assertRegistered_meets hs (mem_append_left _ he) hae ?_)
  refine .bind (assertRegistered_meets hs (mem_append_left _ he') hbe ?_)
  by_cases hab : a = b
  · subst hab
    rw [if_pos rfl]
    exact Call.meets_pure ⟨rfl, fun _ => .refl, fun _ => rfl⟩
  rw [if_neg hab]
  rw [isSubtypeSlow]
  refine .bind (Call.meets_get (Call.meets_pure ⟨rfl, ?_⟩))
  rw [decide_eq_true_iff]
  constructor
  · exact hs.chain_of_supertypes _ a rfl ⟨e, he, hae⟩
  · intro h
    exact (hs.supertypes_of_chain h).resolve_left hab

end Subtyping

/-- The declared supertype is the one of the module's type. -/
theorem TypeCollection.Has.declared_iff {s : TypeRegistry} {c : TypeCollection} {n p : ℕ}
    {e : EntryId} {i : ℕ}
    (h : c.Has s.inner n p group e i) (hi : RegistryInv s) (hc : c ∈ s.collections)
    (hn : c.moduleTypes[n]? = some group) (hp : group[p]? = some ty) (j : ℕ) :
    DeclaredSupertype s.inner i j ↔
      ∃ k, ty.supertype = some (.module k) ∧ c.types[k]? = some j := by
  have hvld := isValid_spec (isValid_of_isValidGroup (hi.isValidGroup hc hn) hp)
  have hkey : (s.inner.key e)[p]? =
      some (ty.mapRefs (isoIndex (groupStart c.moduleTypes n) c.types)) := by
    rw [h.key, isoGroup, getElem?_map, hp]
    rfl
  have htype := hi.sound.shape.content e (mem_append_left _ h.mem) p i _ h.index hkey
  obtain ⟨hlt, -⟩ := List.getElem?_eq_some_iff.mp hp
  -- Both kinds of references come back to the module's own numbering.
  have hidx : ∀ k, k < groupStart c.moduleTypes n + p →
      absoluteIndex (s.inner.indices e) (isoIndex (groupStart c.moduleTypes n) c.types (.module k))
        = .engine (c.types.getD k 0) := by
    intro k hk
    by_cases hst : k < groupStart c.moduleTypes n
    · simp [isoIndex, hst, absoluteIndex]
    have hsub : groupStart c.moduleTypes n + (k - groupStart c.moduleTypes n) = k := by omega
    have hlt' : k - groupStart c.moduleTypes n < group.length := by omega
    simp [isoIndex, hst, absoluteIndex, h.indices, getD_eq_getElem?_getD,
      getElem?_take_of_lt hlt', getElem?_drop, hsub]
  have hsup : ∀ k, ty.supertype = some (.module k) → (traceMut (absoluteIndex (s.inner.indices e))
        (ty.mapRefs (isoIndex (groupStart c.moduleTypes n) c.types))).supertype =
          some (.engine (c.types.getD k 0)) ∧ k < c.types.length := by
    intro k hk
    obtain ⟨k', hk', hlt'⟩ := hvld.2.1 _ hk
    cases hk'
    have hle := h.le
    refine ⟨?_, by omega⟩
    rw [WasmSubType.mapRefs, hk]
    exact congrArg some (hidx k hlt')
  constructor
  · rintro ⟨ty', hty', hj⟩
    rw [htype] at hty'
    cases hty'
    cases hk : ty.supertype with
    | none =>
      rw [WasmSubType.mapRefs, hk] at hj
      cases hj
    | some i' =>
      obtain ⟨k, rfl, -⟩ := hvld.2.1 i' hk
      obtain ⟨heq, hklt⟩ := hsup k hk
      rw [heq] at hj
      cases hj
      refine ⟨k, rfl, ?_⟩
      rw [getD_eq_getElem?_getD, getElem?_eq_getElem hklt]
      rfl
  · rintro ⟨k, hk, hj⟩
    refine ⟨_, htype, ?_⟩
    rw [(hsup k hk).1, getD_eq_getElem?_getD, hj]
    rfl

/-- **Type canonicalisation.**  In every state that the threads of an engine can reach: two
types of registered modules have the same shared index exactly if their recursion groups have
the same length, the types are at the same position, and the iso-recursive forms of the
groups are equal.  The supertype that a module declares is the one declared by the shared
type, and the subtype check on registered types holds exactly if the second is reached from
the first by declared supertypes. -/
theorem types_canonical {s : TypeRegistry} (hs : registryMachine.Reaches s) :
    (∀ c ∈ s.collections, ∀ c' ∈ s.collections, ∀ n p group n' p' group',
      c.moduleTypes[n]? = some group → p < group.length →
      c'.moduleTypes[n']? = some group' → p' < group'.length →
      ∃ i i', c.types[groupStart c.moduleTypes n + p]? = some i ∧
        c'.types[groupStart c'.moduleTypes n' + p']? = some i' ∧
        (i = i' ↔ group.length = group'.length ∧ p = p' ∧
          isoGroup (groupStart c.moduleTypes n) c.types group =
            isoGroup (groupStart c'.moduleTypes n') c'.types group')) ∧
    (∀ c ∈ s.collections, ∀ n p group ty i, c.moduleTypes[n]? = some group →
      group[p]? = some ty → c.types[groupStart c.moduleTypes n + p]? = some i →
      s.inner.Registered i ∧ ∀ j, DeclaredSupertype s.inner i j ↔
        ∃ k, ty.supertype = some (.module k) ∧ c.types[k]? = some j) ∧
    ∀ a b, s.inner.Registered a → s.inner.Registered b →
      ∃ r, (isSubtype a b).run s = (.ok r, s) ∧
        (r = true ↔ Relation.ReflTransGen (DeclaredSupertype s.inner) a b) := by
  have hi := registryInv_of_reaches hs
  refine ⟨?_, ?_, ?_⟩
  · intro c hc c' hc' n p group n' p' group' hn hp hn' hp'
    obtain ⟨e, i, h⟩ := hi.has hc hn hp
    obtain ⟨e', i', h'⟩ := hi.has hc' hn' hp'
    refine ⟨i, i', h.type, h'.type, ?_⟩
    rw [h.index_eq_iff hi.sound.shape h']
    constructor
    · rintro ⟨hpos, hform⟩
      have hlen := congrArg length hform
      simp only [isoGroup, length_map] at hlen
      exact ⟨hlen, hpos, hform⟩
    · exact fun h => h.2
  · intro c hc n p group ty i hn hp hi'
    obtain ⟨hlt, -⟩ := List.getElem?_eq_some_iff.mp hp
    obtain ⟨e, i', h⟩ := hi.has hc hn hlt
    obtain rfl : i' = i := Option.some.inj (h.type.symm.trans hi')
    exact ⟨⟨e, h.mem, mem_of_getElem? h.index⟩, h.declared_iff hi hc hn hp⟩
  · intro a b ha hb
    rcases (isSubtype_meets (R := fun _ => False) hi.sound.shape ha hb).run_eq with
      ⟨r, t, hrun, rfl, hr⟩ | ⟨_, _, -, hfalse⟩
    · exact ⟨r, hrun, hr⟩
    · exact hfalse.elim

/-- A structure that may have subtypes, and maybe has a supertype. -/
def openType (supertype : Option TypeIndex) : WasmSubType :=
  ⟨false, supertype, ⟨.struct [⟨.val .i64, false⟩], false⟩⟩

/-- A module with a type and a subtype of it. -/
def baseModule : TypeCollection :=
  ⟨[0, 1], [0, 1], [[openType none], [openType (some (.module 0))]]⟩

/-- A module with the same two types after another one. -/
def otherModule : TypeCollection :=
  ⟨[2, 0, 1], [2, 0, 1], [[pointType], [openType none], [openType (some (.module 1))]]⟩

/-- Two modules number the same types differently. -/
theorem types_canonical_renumbered : ∃ s, registryMachine.Reaches s ∧
    s.collections = [otherModule, baseModule] ∧
    isoGroup 1 baseModule.types [openType (some (.module 0))] =
      isoGroup 2 otherModule.types [openType (some (.module 1))] ∧
    Relation.ReflTransGen (DeclaredSupertype s.inner) 1 0 := by
  obtain ⟨s, hs, h⟩ := Machine.reaches_of_run? (M := registryMachine)
    [(.registerTypes baseModule.moduleTypes, ⟨[], []⟩),
      (.registerTypes otherModule.moduleTypes, ⟨[], []⟩)]
    (p := fun s => decide (s.collections = [otherModule, baseModule])) ⟨true, rfl⟩
    (by decide +kernel)
  have hc := of_decide_eq_true h
  have hbase : baseModule ∈ s.collections := hc ▸ .tail _ (.head _)
  have hother : otherModule ∈ s.collections := hc ▸ (.head _)
  obtain ⟨hcanon, hdeclared, -⟩ := types_canonical hs
  obtain ⟨i, i', hi, hi', hiff⟩ := hcanon baseModule hbase otherModule hother 1 0
    [openType (some (.module 0))] 2 0 [openType (some (.module 1))] rfl Nat.one_pos rfl Nat.one_pos
  obtain rfl : i = 1 := (Option.some.inj hi).symm
  obtain rfl : i' = 1 := (Option.some.inj hi').symm
  have hsup := (hdeclared baseModule hbase 1 0 _ _ 1 rfl rfl rfl).2 0
  exact ⟨s, hs, hc, (hiff.mp rfl).2.2, .single (hsup.mpr ⟨0, rfl, rfl⟩)⟩

end WasmDeps.Types
