import WasmDeps.Types.RegistryRemoval

/-!
# Registering recursion groups

A new group is given an entry and type indices first.  Then its references are counted, its
types, backlinks and supertypes are put in place, its trampoline types are registered, and at
last it becomes visible in the hash-consing map.  An allocation that fails on the way rolls
all of this back.
-/

namespace WasmDeps.Types

open Lib TypeTrace List Call Function TypeRegistryInner

/-! ## New entries -/

/-- The new indices are distinct and were free. -/
theorem assignSharedTypeIndices_spec (n : ℕ) (T : Slab (Option WasmSubType)) :
    (assignSharedTypeIndices n T).1.length = n ∧ (assignSharedTypeIndices n T).1.Nodup ∧
      (∀ i ∈ (assignSharedTypeIndices n T).1, T.get? i = none) ∧
      ∀ j, (assignSharedTypeIndices n T).2.get? j =
        if j ∈ (assignSharedTypeIndices n T).1 then some none else T.get? j := by
  induction n generalizing T with
  | zero => simp [assignSharedTypeIndices]
  | succ n ih =>
    obtain ⟨hlen, hnd, hfr, hget⟩ := ih (T.alloc none)
    rw [assignSharedTypeIndices]
    have hnew : ∀ i ∈ (assignSharedTypeIndices n (T.alloc none)).1,
        i ≠ T.nextId ∧ T.get? i = none := by
      intro i hi
      have := hfr i hi
      rw [Slab.get?_alloc] at this
      split at this
      · cases this
      · exact ⟨‹_›, this⟩
    refine ⟨by simp [hlen], nodup_cons.mpr ⟨fun h => (hnew _ h).1 rfl, hnd⟩, ?_, ?_⟩
    · intro i hi
      rcases mem_cons.mp hi with rfl | hi
      · exact T.get?_fresh
      · exact (hnew i hi).2
    intro j
    rw [hget, Slab.get?_alloc]
    by_cases hj : j ∈ (assignSharedTypeIndices n (T.alloc none)).1
    · simp [hj]
    · by_cases hn : j = T.nextId
      · simp [hn]
      · simp [hj, hn]

variable {s : TypeRegistry} {w : Work} {m d b r rem : List EntryId} {e : EntryId}
  {R : TypeRegistry → Prop} {bare map : List ℕ} {start : ℕ} {types : List WasmSubType}

section Create

variable {key : List WasmSubType} {is : List ℕ} {T : Slab (Option WasmSubType)}

/-- One more entry in the making, with its type indices. -/
def Work.adding (w : Work) (e : EntryId) (is : List ℕ) : Work :=
  { w with building := e :: w.building, bare := is ++ w.bare }

/-- The state with one more entry, which is not in the hash-consing map yet. -/
def TypeRegistry.withEntry (s : TypeRegistry) (key : List WasmSubType) (is : List ℕ)
    (T : Slab (Option WasmSubType)) : TypeRegistry :=
  { s with inner := { s.inner with entries := s.inner.entries ++ [⟨key, is⟩], types := T } }

section

variable (s key is T)

theorem extends_withEntry : Extends s (s.withEntry key is T) :=
  ⟨prefix_append _ _, rfl, rfl, id, .refl _⟩

@[simp] theorem key_withEntry : (s.withEntry key is T).inner.key s.inner.entries.length = key := by
  simp [TypeRegistry.withEntry, TypeRegistryInner.key]

@[simp] theorem indices_withEntry :
    (s.withEntry key is T).inner.indices s.inner.entries.length = is := by
  simp [TypeRegistry.withEntry, indices]

end

/-- What a key has to satisfy for a group to be created. -/
structure KeyOk (s : TypeRegistryInner) (key : List WasmSubType) : Prop where
  relative : ∀ j ∈ trace key, (∃ x, j = .engine x) ∨ ∃ k, j = .recGroup k ∧ k < key.length
  edges : ∀ x ∈ traceEngineIndices key, s.Registered x

theorem Shape.not_mem_fresh {s : TypeRegistryInner} {x : EntryId} (h : Shape s w)
    (hfr : ∀ i ∈ is, s.types.get? i = none) (hx : x ∈ s.allocated w) :
    ∀ i ∈ s.indices x, i ∉ is := by
  intro i hi hnew
  have hocc := (h.occupied i).mpr ⟨x, hx, hi⟩
  rw [hfr i hnew] at hocc
  cases hocc

/-- A new entry is not counted: it holds no reference yet, and nobody refers to it. -/
theorem Counted.create (h : Shape s.inner w) (hc : Counted s w m d) :
    Counted (s.withEntry key is T) (w.adding s.inner.entries.length is) m d := by
  have hext := extends_withEntry s key is T
  refine { hc with
    counts := ?_, flag := ?_, droppingKnown := fun x hx => hext.lt (hc.droppingKnown x hx) }
  · intro t ht
    have hrefs : ∀ x ∈ s.inner.holders w, (s.withEntry key is T).inner.refs x = s.inner.refs x := by
      intro x hx
      have hlt := h.known x (h.mem_allocated_of_holders hx)
      rw [refs, edges, trampolines, hext.key hlt, hext.indices hlt]
      rfl
    have := hc.counts t ht
    rw [← flatMap_congr hrefs] at this
    exact this
  intro x
  have hflag := hc.flag x
  change s.unregistered x = true ↔ x < (s.inner.entries ++ [_]).length ∧
    x ∉ s.inner.hashConsingMap ++ s.inner.entries.length :: w.building
  rw [hflag, length_append]
  simp only [mem_append, mem_cons]
  constructor
  · rintro ⟨hlt, hno⟩
    refine ⟨Nat.lt_succ_of_lt hlt, ?_⟩
    rintro (hx | rfl | hx)
    · exact hno (.inl hx)
    · exact lt_irrefl _ hlt
    · exact hno (.inr hx)
  · rintro ⟨hlt, hno⟩
    have hne : x ≠ s.inner.entries.length := fun hx => hno (.inr (.inl hx))
    exact ⟨lt_of_le_of_ne (Nat.le_of_lt_succ hlt) hne, fun hx => hno (hx.imp_right .inr)⟩

/-- A new entry, with its indices reserved. -/
theorem Sound.create (hs : Sound s w m d) (hkey : KeyOk s.inner key)
    (hnew : ∀ x ∈ s.inner.hashConsingMap ++ w.building, s.inner.key x ≠ key)
    (hlen : is.length = key.length) (hnd : is.Nodup)
    (hfr : ∀ i ∈ is, s.inner.types.get? i = none)
    (hT : ∀ j, T.get? j = if j ∈ is then some none else s.inner.types.get? j) :
    Sound (s.withEntry key is T) (w.adding s.inner.entries.length is) m d := by
  obtain ⟨h, hc⟩ := hs
  set e := s.inner.entries.length
  set t := s.withEntry key is T
  have hext := extends_withEntry s key is T
  have hknew := key_withEntry s key is T
  have hinew := indices_withEntry s key is T
  have hperm : (t.inner.allocated (w.adding e is)).Perm (e :: s.inner.allocated w) := perm_middle
  have hall : ∀ x, x ∈ t.inner.allocated (w.adding e is) ↔
      x = e ∨ x ∈ s.inner.allocated w := fun x => by
    rw [hperm.mem_iff, mem_cons]
  -- Old entries keep their keys and indices.
  have hkold : ∀ x ∈ s.inner.allocated w,
      t.inner.key x = s.inner.key x := fun x hx => hext.key (h.known x hx)
  have hiold : ∀ x ∈ s.inner.allocated w, t.inner.indices x = s.inner.indices x :=
    fun x hx => hext.indices (h.known x hx)
  have hnotnew : ∀ x ∈ s.inner.allocated w, ∀ i ∈ s.inner.indices x, i ∉ is :=
    fun x hx => h.not_mem_fresh hfr hx
  have hmapall : ∀ x ∈ s.inner.hashConsingMap, x ∈ s.inner.allocated w :=
    fun x hx => mem_append_left _ hx
  have hcompall : ∀ x ∈ s.inner.complete w,
      x ∈ s.inner.allocated w := fun x hx => h.mem_allocated_of_complete hx
  have hbuildall : ∀ x ∈ w.building ++ w.removing, x ∈ s.inner.allocated w :=
    fun x hx => mem_append_right _ hx
  -- An index that belongs to an old entry belongs to one of the entries.
  have hlift : ∀ i, (∃ x ∈ s.inner.allocated w, i ∈ s.inner.indices x) →
      ∃ x ∈ t.inner.allocated (w.adding e is), i ∈ t.inner.indices x := by
    rintro i ⟨x, hx, hxi⟩
    exact ⟨x, (hall x).mpr (.inr hx), (hiold x hx).symm ▸ hxi⟩
  have hnone : ∀ i ∈ is, ¬∃ x ∈ s.inner.allocated w, i ∈ s.inner.indices x :=
    fun i hi ⟨x, hx, hxi⟩ => hnotnew x hx i hxi hi
  have htype : ∀ i, i ∉ is → (T.get? i).join = s.inner.type? i := by
    intro i hi
    rw [hT, if_neg hi]
    rfl
  have hkeysIff : ∀ x ∈ s.inner.hashConsingMap ++ e :: w.building,
      x = e ∨ x ∈ s.inner.hashConsingMap ++ w.building := by
    intro x hx
    simp only [mem_append, mem_cons] at hx ⊢
    tauto
  have hmb : ∀ x ∈ s.inner.hashConsingMap ++ w.building, x ∈ s.inner.allocated w := by
    intro x hx
    rcases mem_append.mp hx with hx | hx
    · exact hmapall x hx
    · exact hbuildall x (mem_append_left _ hx)
  refine ⟨⟨?_, ?_, ?_, ?_, ?_, ?_, ?_, ?_, ?_, ?_, ?_, ?_, ?_, ?_, ?_, ?_, ?_, ?_,
    h.trampolineSpace, ?_, ?_⟩, hc.create h⟩
  · exact hperm.nodup_iff.mpr (nodup_cons.mpr ⟨fun hmem => lt_irrefl _ (h.known _ hmem), h.nodup⟩)
  · intro x hx
    rcases (hall x).mp hx with rfl | hx
    · simp [t, e, TypeRegistry.withEntry]
    · exact hext.lt (h.known x hx)
  · exact fun x hx => .tail _ (h.linked x hx)
  · exact fun x hx => .tail _ (h.ready x hx)
  · intro x hx y hy hxy
    rcases hkeysIff x hx with rfl | hx <;> rcases hkeysIff y hy with rfl | hy
    · rfl
    · rw [hknew, hkold y (hmb y hy)] at hxy
      exact absurd hxy.symm (hnew y hy)
    · rw [hknew, hkold x (hmb x hx)] at hxy
      exact absurd hxy (hnew x hx)
    · rw [hkold x (hmb x hx), hkold y (hmb y hy)] at hxy
      exact h.keys x hx y hy hxy
  · intro i
    change (T.get? i).isSome = true ↔ _
    rw [hT]
    constructor
    · intro hi
      split at hi
      · rename_i hmem
        exact ⟨_, (hall _).mpr (.inl rfl), hinew.symm ▸ hmem⟩
      · exact hlift i ((h.occupied i).mp hi)
    rintro ⟨x, hx, hxi⟩
    split
    · rfl
    rename_i hmem
    rcases (hall x).mp hx with rfl | hx
    · rw [hinew] at hxi
      exact absurd hxi hmem
    · exact (h.occupied i).mpr ⟨x, hx, hiold x hx ▸ hxi⟩
  · intro x hx y hy i hxi hyi
    rcases (hall x).mp hx with rfl | hx <;> rcases (hall y).mp hy with rfl | hy
    · rfl
    · rw [hinew] at hxi
      rw [hiold y hy] at hyi
      exact absurd hxi (hnotnew y hy i hyi)
    · rw [hinew] at hyi
      rw [hiold x hx] at hxi
      exact absurd hyi (hnotnew x hx i hxi)
    · rw [hiold x hx] at hxi
      rw [hiold y hy] at hyi
      exact h.disjoint x hx y hy i hxi hyi
  · intro x hx
    rcases (hall x).mp hx with rfl | hx
    · rw [hinew]
      exact hnd
    · rw [hiold x hx]
      exact h.indicesNodup x hx
  · intro x hx
    rcases (hall x).mp hx with rfl | hx
    · rw [hinew, hknew, hlen]
    · rw [hiold x hx, hkold x hx]
      exact h.lengths x hx
  · intro i x hx
    obtain ⟨hxa, hxi⟩ := h.groups i x hx
    exact ⟨(hall x).mpr (.inr hxa), (hiold x hxa).symm ▸ hxi⟩
  · intro x hx i hi
    rw [hiold x (hcompall x hx)] at hi
    exact h.backlinks x hx i hi
  · intro x hx p i ty hip hkp
    have hxa := hcompall x hx
    rw [hiold x hxa] at hip ⊢
    rw [hkold x hxa] at hkp
    have hi := hnotnew x hxa i (mem_of_getElem? hip)
    exact (htype i hi).trans (h.content x hx p i ty hip hkp)
  · intro x hx i hi ty hty
    have hxa := hcompall x hx
    rw [hiold x hxa] at hi
    exact h.supertypes x hx i hi ty ((htype i (hnotnew x hxa i hi)) ▸ hty)
  · intro x hx
    rcases (hall x).mp hx with rfl | hx
    · rw [hknew]
      exact hkey.relative
    · rw [hkold x hx]
      exact h.relative x hx
  · exact fun i hi => hlift i (h.supertypeKeys i hi)
  · exact fun i hi => hlift i (h.layoutKeys i hi)
  · intro i t ht
    obtain ⟨hi, te, hte, hjte, ty, hty, htr⟩ := h.trampolineKeys i t ht
    refine ⟨hlift i hi, te, hte, ?_, ty, ?_, htr⟩
    · rw [hiold te (hmapall te hte)]
      exact hjte
    · rw [hkold te (hmapall te hte)]
      exact hty
  · intro i t ht
    obtain ⟨ty, hty, hsome⟩ := h.trampolineTypes i t ht
    have hi : i ∉ is := fun hi => hnone i hi (h.trampolineKeys i t ht).1
    exact ⟨ty, (htype i hi).trans hty, hsome⟩
  · intro i hi
    rcases mem_append.mp hi with hi | hi
    · refine ⟨?_, ?_, _, mem_append_left _ (.head _), hinew.symm ▸ hi⟩
      · by_contra hne
        obtain ⟨t, ht⟩ := Option.ne_none_iff_exists'.mp hne
        exact hnone i hi (h.trampolineKeys i t ht).1
      · by_contra hne
        exact hnone i hi (h.layoutKeys i hne)
    · obtain ⟨htramp, hlay, x, hx, hxi⟩ := h.bare i hi
      exact ⟨htramp, hlay, x, .tail _ hx, (hiold x (hbuildall x hx)).symm ▸ hxi⟩
  · intro x hx y hy
    rcases (hall x).mp hx with rfl | hx
    · rw [hknew] at hy
      obtain ⟨t, ht, hyt⟩ := hkey.edges y hy
      exact ⟨t, ht, (hiold t (hmapall t ht)).symm ▸ hyt, h.known t (hmapall t ht)⟩
    · rw [hkold x hx] at hy
      obtain ⟨t, ht, hyt, hlt⟩ := h.edges x hx y hy
      exact ⟨t, ht, (hiold t (hmapall t ht)).symm ▸ hyt, hlt⟩

end Create

/-! ## Filling in an entry -/

theorem mem_allocated_head {s : TypeRegistryInner} {l : List EntryId} :
    e ∈ s.allocated ⟨e :: b, l, r, rem, bare⟩ :=
  mem_append_right _ (.head _)

theorem Shape.not_mem_map_of_building {s : TypeRegistryInner} (hs : Shape s w)
    (he : e ∈ w.building) : e ∉ s.hashConsingMap :=
  fun h => (nodup_append.mp hs.nodup).2.2 e h e (mem_append_left _ he) rfl

/-- The indices of a new entry are no other's. -/
theorem Shape.not_mem_indices {s : TypeRegistryInner} (hs : Shape s w) (he : e ∈ w.building)
    (hr : e ∉ w.ready) {x : EntryId} (hx : x ∈ s.complete w) {i : ℕ} (hi : i ∈ s.indices x) :
    i ∉ s.indices e := by
  intro hie
  have hxe := hs.disjoint x (hs.mem_allocated_of_complete hx) e
    (mem_append_right _ (mem_append_left _ he)) i hi hie
  rcases mem_append.mp hx with hx | hx
  · exact hs.not_mem_map_of_building he (hxe ▸ hx)
  · exact hr (hxe ▸ hx)

/-- The state with other types, backlinks and supertypes. -/
def TypeRegistry.fill (s : TypeRegistry) (T : Slab (Option WasmSubType)) (G : ℕ → Option EntryId)
    (S : ℕ → Option (List ℕ)) (sc : Schedule) : TypeRegistry :=
  { s with
    inner := { s.inner with types := T, typeToRecGroup := G, typeToSupertypes := S }
    schedule := sc }

/-- Only what is stored for the entry's own indices differs. -/
structure FillsOnly (s : TypeRegistryInner) (e : EntryId) (T : Slab (Option WasmSubType))
    (G : ℕ → Option EntryId) (S : ℕ → Option (List ℕ)) : Prop where
  types : ∀ j, j ∉ s.indices e → T.get? j = s.types.get? j
  occupied : ∀ j ∈ s.indices e, (T.get? j).isSome
  groups : ∀ j, j ∉ s.indices e → G j = s.typeToRecGroup j
  own : ∀ j ∈ s.indices e, ∀ x, G j = some x → x = e
  supertypes : ∀ j, j ∉ s.indices e → S j = s.typeToSupertypes j

/-- **Filling in an entry** that nobody can see yet. -/
theorem Sound.fill (hs : Sound s w m d) (he : e ∈ w.building) (hr : e ∉ w.ready)
    (htramp : ∀ i ∈ s.inner.indices e, s.inner.typeToTrampoline i = none)
    {T : Slab (Option WasmSubType)} {G : ℕ → Option EntryId} {S : ℕ → Option (List ℕ)}
    (hf : FillsOnly s.inner e T G S) (sc : Schedule) : Sound (s.fill T G S sc) w m d := by
  obtain ⟨h, hc⟩ := hs
  have heall : e ∈ s.inner.allocated w := mem_append_right _ (mem_append_left _ he)
  have hother : ∀ x ∈ s.inner.complete w, ∀ i ∈ s.inner.indices x, i ∉ s.inner.indices e :=
    fun x hx i hi => h.not_mem_indices he hr hx hi
  have hmap : ∀ t ∈ s.inner.hashConsingMap, ∀ i ∈ s.inner.indices t, i ∉ s.inner.indices e :=
    fun t ht => hother t (mem_append_left _ ht)
  have hsame : SameOff s.inner
      { s.inner with types := T, typeToRecGroup := G, typeToSupertypes := S } (s.inner.indices e) :=
    ⟨hf.types, hf.groups, hf.supertypes⟩
  refine .schedule (s := { s with
    inner := { s.inner with types := T, typeToRecGroup := G, typeToSupertypes := S } }) ?_ sc
  refine ⟨{ h with
      occupied := ?_, groups := ?_, backlinks := ?_, content := ?_, supertypes := ?_,
      supertypeKeys := ?_, trampolineTypes := ?_ }, ?_⟩
  · intro i
    by_cases hi : i ∈ s.inner.indices e
    · exact ⟨fun _ => ⟨e, heall, hi⟩, fun _ => hf.occupied i hi⟩
    · change (T.get? i).isSome = true ↔ _
      rw [hf.types i hi]
      exact h.occupied i
  · intro i x hx
    by_cases hi : i ∈ s.inner.indices e
    · rw [hf.own i hi x hx]
      exact ⟨heall, hi⟩
    · exact h.groups i x (hf.groups i hi ▸ hx)
  · intro x hx i hi
    exact (hf.groups i (hother x hx i hi)).trans (h.backlinks x hx i hi)
  · intro x hx p i ty hip hkp
    have hi := hother x hx i (mem_of_getElem? hip)
    exact (hsame.type?_eq hi).trans (h.content x hx p i ty hip hkp)
  · exact fun x hx i hi ty hty => hsame.supertypesOf h hother hx hi hty
  · intro i hi
    by_cases hie : i ∈ s.inner.indices e
    · exact ⟨e, heall, hie⟩
    · exact h.supertypeKeys i (hf.supertypes i hie ▸ hi)
  · intro i t ht
    have hie : i ∉ s.inner.indices e := by
      intro hie
      rw [htramp i hie] at ht
      cases ht
    obtain ⟨ty, hty, hsome⟩ := h.trampolineTypes i t ht
    exact ⟨ty, (hsame.type?_eq hie).trans hty, hsome⟩
  refine hc.ofInner rfl rfl rfl rfl
    (fun t ht => hc.heldMem t (mem_append_right _ ht)) fun t _ => ?_
  have hrefs : ∀ x ∈ s.inner.holders w, refs
      { s.inner with types := T, typeToRecGroup := G, typeToSupertypes := S } x =
      s.inner.refs x :=
    fun x hx => hsame.refs_eq h hmap (h.mem_allocated_of_holders hx) rfl rfl
  exact congrArg (fun l => m.count t + l.count t) (flatMap_congr hrefs)

/-- The types of the new entry are filled in. -/
theorem insertTypes_meets (is : List ℕ) (tys : List WasmSubType) (hnd : is.Nodup)
    (hlen : is.length = tys.length) (hcanon : ∀ ty ∈ tys, isCanonicalizedForRuntimeUsage ty = true)
    (hnone : ∀ i ∈ is, s.inner.types.get? i = some none) :
    ((is.zip tys).forM fun p => insertType p.1 p.2).Meets s
      (fun _ t => ∃ T sc, t = { s with inner := { s.inner with types := T }, schedule := sc } ∧
        (∀ j, j ∉ is → T.get? j = s.inner.types.get? j) ∧
        ∀ (p i : ℕ) ty, is[p]? = some i → tys[p]? = some ty →
          T.get? i = some (some ty))
      (fun t => ∃ T sc, t = { s with inner := { s.inner with types := T }, schedule := sc } ∧
        (∀ j, j ∉ is → T.get? j = s.inner.types.get? j) ∧ ∀ j ∈ is, (T.get? j).isSome) := by
  induction is generalizing tys s with
  | nil =>
    exact meets_pure ⟨s.inner.types, s.schedule, rfl, fun _ _ => rfl, by simp⟩
  | cons i is ih =>
    cases tys with
    | nil => cases hlen
    | cons ty tys =>
      obtain ⟨hi, hnd⟩ := nodup_cons.mp hnd
      have hget := hnone i (.head _)
      refine .bind ?_
      unfold insertType
      refine .bind (meets_check (hcanon ty (.head _)) ?_)
      refine .bind (meets_get (.bind (meets_check hget ?_)))
      refine alloc_bind_meets (fun sc => ?_) fun sc => ?_
      · obtain ⟨T, hT, hTget⟩ := Slab.put_of hget
        refine .bind (meets_get (.bind ?_))
        refine meets_lift hT (meets_modify ?_)
        have hne : ∀ j ∈ is, j ≠ i := fun j hj h => hi (h ▸ hj)
        have hold : ∀ T' : Slab (Option WasmSubType), (∀ j, j ∉ is → T'.get? j = T.get? j) →
            ∀ j, j ∉ i :: is → T'.get? j = s.inner.types.get? j := by
          intro T' hout j hj
          rw [mem_cons, not_or] at hj
          rw [hout j hj.2, hTget, if_neg hj.1]
        refine (ih tys hnd (by simpa using hlen) (fun t ht => hcanon t (.tail ty ht))
          ?_).mono ?_ ?_
        · intro j hj
          rw [hTget, if_neg (hne j hj)]
          exact hnone j (.tail i hj)
        · rintro _ u ⟨T', sc', rfl, hout, hin⟩
          refine ⟨T', sc', rfl, hold T' hout, fun p j t hp ht => ?_⟩
          cases p with
          | zero =>
            rw [getElem?_cons_zero, Option.some.injEq] at hp ht
            subst hp ht
            rw [hout i hi]
            exact (hTget i).trans (if_pos rfl)
          | succ p => exact hin p j t (by simpa using hp) (by simpa using ht)
        rintro u ⟨T', sc', rfl, hout, hin⟩
        refine ⟨T', sc', rfl, hold T' hout, fun j hj => ?_⟩
        rcases mem_cons.mp hj with rfl | hj
        · rw [hout j hi]
          exact ((hTget j).trans (if_pos rfl)) ▸ rfl
        · exact hin j hj
      · refine ⟨s.inner.types, sc, rfl, fun _ _ => rfl, fun j hj => ?_⟩
        rw [hnone j hj]
        rfl

/-- The indices of the new entry lead to it. -/
theorem insertRecGroups_meets (is : List ℕ) (hnd : is.Nodup)
    (hnone : ∀ i ∈ is, s.inner.typeToRecGroup i = none) :
    (is.forM (insertRecGroup e)).Meets s (fun _ t => ∃ G,
      t = { s with inner := { s.inner with typeToRecGroup := G } } ∧
        ∀ j, G j = if j ∈ is then some e else s.inner.typeToRecGroup j) R := by
  induction is generalizing s with
  | nil => exact meets_pure ⟨s.inner.typeToRecGroup, rfl, fun j => by simp⟩
  | cons i is ih =>
    obtain ⟨hi, hnd⟩ := nodup_cons.mp hnd
    refine .bind ?_
    rw [insertRecGroup]
    refine .bind (meets_get (.bind ?_))
    refine meets_check (hnone i (.head _)) (meets_modify ?_)
    refine (ih hnd ?_).imp ?_
    · intro j hj
      have hne : j ≠ i := fun h => hi (h ▸ hj)
      exact (update_of_ne hne _ _).trans (hnone j (.tail i hj))
    rintro _ t ⟨G, rfl, hG⟩
    refine ⟨G, rfl, fun j => ?_⟩
    rw [hG]
    change (if j ∈ is then some e
      else update s.inner.typeToRecGroup i (some e) j) = _
    by_cases hji : j = i
    · simp [hji]
    · simp [hji]

/-- The supertypes of one type are recorded. -/
theorem insertSupertypes_meets {i : ℕ} {ty : WasmSubType}
    (hty : s.inner.types.get? i = some (some ty)) (hnone : s.inner.typeToSupertypes i = none)
    (hsup : ∀ j, ty.supertype = some j → ∃ x, j = .engine x ∧ x ≠ i) :
    (insertSupertypes i).Meets s
      (fun _ t => ∃ S sc,
        t = { s with inner := { s.inner with typeToSupertypes := S }, schedule := sc } ∧
        (∀ j, j ≠ i → S j = s.inner.typeToSupertypes j) ∧
        SupertypesOf { s.inner with typeToSupertypes := S } i ty)
      (fun t => ∃ sc, t = { s with schedule := sc }) := by
  unfold insertSupertypes SupertypesOf
  refine .bind (typeAt_meets hty ?_)
  cases hj : ty.supertype with
  | none => exact meets_pure ⟨_, s.schedule, rfl, fun _ _ => rfl, hnone⟩
  | some j =>
    obtain ⟨x, rfl, hxi⟩ := hsup j hj
    refine alloc_bind_meets (fun sc => ?_) fun sc => ⟨sc, rfl⟩
    refine .bind (meets_lift rfl ?_)
    refine alloc_bind_meets (fun sc' => ?_) fun sc' => ⟨sc', rfl⟩
    refine meets_modify ⟨_, sc', rfl, fun j hj => update_of_ne hj _ _, x, rfl,
      (update_self _ _ _).trans ?_⟩
    simp [supertypes, update_of_ne hxi]

/-- Insert the supertypes of an entry's types.  A declared supertype is registered, or one
of the entry's types whose supertypes are in place already. -/
theorem insertAllSupertypes_meets (is : List ℕ) (tys : List WasmSubType) (hnd : is.Nodup)
    (hlen : is.length = tys.length)
    (htys : ∀ (p i : ℕ) ty, is[p]? = some i → tys[p]? = some ty →
      s.inner.types.get? i = some (some ty))
    (hsup : ∀ (p : ℕ) ty j, tys[p]? = some ty →
      ty.supertype = some j → ∃ x, j = .engine x ∧ (x ∉ is ∨ ∃ q < p, is[q]? = some x))
    (hnone : ∀ i ∈ is, s.inner.typeToSupertypes i = none) :
    (is.forM insertSupertypes).Meets s
      (fun _ t => ∃ S sc,
        t = { s with inner := { s.inner with typeToSupertypes := S }, schedule := sc } ∧
        (∀ j, j ∉ is → S j = s.inner.typeToSupertypes j) ∧
        ∀ (p i : ℕ) ty, is[p]? = some i → tys[p]? = some ty →
          SupertypesOf { s.inner with typeToSupertypes := S } i ty)
      (fun t => ∃ S sc,
        t = { s with inner := { s.inner with typeToSupertypes := S }, schedule := sc } ∧
        ∀ j, j ∉ is → S j = s.inner.typeToSupertypes j) := by
  induction is generalizing tys s with
  | nil => exact meets_pure ⟨s.inner.typeToSupertypes, s.schedule, rfl, fun _ _ => rfl, by simp⟩
  | cons i is ih =>
    cases tys with
    | nil => cases hlen
    | cons ty tys =>
      obtain ⟨hi, hnd⟩ := nodup_cons.mp hnd
      -- The supertype of the first type is none of the types.
      have hfst : ∀ j, ty.supertype = some j → ∃ x, j = .engine x ∧ x ≠ i ∧ x ∉ is := by
        intro j hj
        obtain ⟨x, rfl, hx | ⟨q, hq, -⟩⟩ := hsup 0 ty j rfl hj
        · exact ⟨x, rfl, not_or.mp fun h => hx (mem_cons.mpr h)⟩
        · exact absurd hq (Nat.not_lt_zero q)
      refine .bind ((insertSupertypes_meets (htys 0 i ty rfl rfl)
        (hnone i (.head _)) fun j hj => ?_).mono ?_ ?_)
      · obtain ⟨x, hx, hne, -⟩ := hfst j hj
        exact ⟨x, hx, hne⟩
      · rintro _ t ⟨S, sc, rfl, hS, hof⟩
        have hold : ∀ S' : ℕ → Option (List ℕ), (∀ j, j ∉ is → S' j = S j) →
            ∀ j, j ∉ i :: is → S' j = s.inner.typeToSupertypes j := by
          intro S' hout j hj
          rw [mem_cons, not_or] at hj
          exact (hout j hj.2).trans (hS j hj.1)
        refine (ih tys hnd (by simpa using hlen)
          (s := { s with inner := { s.inner with typeToSupertypes := S }, schedule := sc })
          (fun p => htys (p + 1)) (fun p t j hp ht => ?_) fun j hj => ?_).mono ?_ ?_
        · obtain ⟨x, rfl, hx | ⟨_ | q, hq, hqx⟩⟩ := hsup (p + 1) t j hp ht
          · exact ⟨x, rfl, .inl fun h => hx (.tail i h)⟩
          · exact ⟨x, rfl, .inl (Option.some.inj hqx ▸ hi)⟩
          · exact ⟨x, rfl, .inr ⟨q, by omega, hqx⟩⟩
        · have hne : j ≠ i := fun h => hi (h ▸ hj)
          exact (hS j hne).trans (hnone j (.tail i hj))
        · rintro _ u ⟨S', sc', rfl, hout, hin⟩
          refine ⟨S', sc', rfl, hold S' hout, fun p j t hp ht => ?_⟩
          cases p with
          | succ p => exact hin p j t hp ht
          | zero =>
            obtain ⟨rfl, rfl⟩ : i = j ∧ ty = t := ⟨Option.some.inj hp, Option.some.inj ht⟩
            rw [SupertypesOf] at hof ⊢
            cases hj : ty.supertype with
            | none =>
              rw [hj] at hof
              exact (hout i hi).trans hof
            | some j =>
              rw [hj] at hof
              obtain ⟨x, rfl, hx⟩ := hof
              obtain ⟨_, ⟨rfl⟩, -, hxis⟩ := hfst _ hj
              refine ⟨x, rfl, (hout i hi).trans (hx.trans ?_)⟩
              simp [supertypes, hout x hxis]
        · rintro u ⟨S', sc', rfl, hout⟩
          exact ⟨S', sc', rfl, hold S' hout⟩
      · rintro t ⟨sc, rfl⟩
        exact ⟨s.inner.typeToSupertypes, sc, rfl, fun _ _ => rfl⟩

/-! ## From a new entry to a registered one -/

/-- Each edge of the new entry gets its registration. -/
theorem increfEdges_meets (xs : List ℕ) (hxs : ∀ x ∈ xs, s.inner.Registered x)
    (hs : Sound s w m d) (hnil : s.inner.dropStack = []) :
    (xs.forM increfEdge).Meets s (fun _ t =>
      Sound t w ((xs.filterMap s.inner.typeToRecGroup).reverse ++ m) d ∧ Quiet s t) R := by
  induction xs generalizing s m with
  | nil => exact meets_pure ⟨hs, .refl s⟩
  | cons x xs ih =>
    obtain ⟨te, hte, hxte⟩ := hxs x (.head _)
    have howner := hs.shape.owner hte hxte
    refine .bind ?_
    rw [increfEdge]
    refine .bind ?_
    apply assertRegistered_meets hs.shape (mem_append_left _ hte) hxte
    refine .bind (entryOf_meets howner ?_)
    refine .bind (meets_get (.bind ?_))
    apply meets_check (hs.unregistered_eq_false hte)
    apply (incref_meets hs hte (hnil ▸ not_mem_nil)).imp
    rintro _ t ⟨ht, hq⟩
    refine (ih (fun y hy => ?_) ht (hq.inner ▸ hnil)).imp ?_
    · rw [hq.inner]
      exact hxs y (.tail x hy)
    rintro _ u ⟨hu, hq'⟩
    refine ⟨?_, hq.trans hq'⟩
    rw [hq.inner] at hu
    rw [filterMap_cons_some howner, reverse_cons, append_assoc]
    exact hu

/-- The entry takes over the registrations of its edges. -/
theorem Sound.link {l : List EntryId} (hs : Sound s ⟨e :: b, b, r, rem, bare⟩ (l ++ m) d)
    (hl : l.Perm (s.inner.edges e))
    (htramp : ∀ i ∈ s.inner.indices e, s.inner.typeToTrampoline i = none) :
    Sound s ⟨e :: b, e :: b, r, rem, bare⟩ m d := by
  obtain ⟨h, hc⟩ := hs
  have hemp : s.inner.trampolines e = [] :=
    filterMap_eq_nil_iff.mpr fun i hi => by rw [htramp i hi]; rfl
  refine ⟨{ h with linked := fun x hx => hx }, ?_⟩
  refine hc.ofInner rfl rfl rfl rfl (fun t ht =>
    hc.heldMem t (mem_append_right _ (mem_append_right _ ht))) fun t _ => ?_
  have hperm : (s.inner.holders ⟨e :: b, e :: b, r, rem, bare⟩).Perm
      (e :: s.inner.holders ⟨e :: b, b, r, rem, bare⟩) := perm_middle
  have hre : s.inner.refs e = s.inner.edges e := by
    rw [refs, hemp, append_nil]
  rw [(hperm.flatMap_right s.inner.refs).count_eq, flatMap_cons, count_append,
    count_append, hre, hl.count_eq]
  omega

/-- The entry is ready once its types are filled in. -/
theorem Sound.makeReady (hs : Sound s ⟨e :: b, e :: b, r, rem, bare⟩ m d)
    (hback : ∀ i ∈ s.inner.indices e, s.inner.typeToRecGroup i = some e)
    (hcontent : ∀ (p i : ℕ) ty, (s.inner.indices e)[p]? = some i →
      (s.inner.key e)[p]? = some ty →
      s.inner.type? i = some (traceMut (absoluteIndex (s.inner.indices e)) ty))
    (hsup : ∀ i ∈ s.inner.indices e, ∀ ty, s.inner.type? i = some ty →
      SupertypesOf s.inner i ty) : Sound s ⟨e :: b, e :: b, e :: r, rem, bare⟩ m d := by
  obtain ⟨h, hc⟩ := hs
  have hcomp : ∀ x ∈ s.inner.complete ⟨e :: b, e :: b, e :: r, rem, bare⟩,
      x = e ∨ x ∈ s.inner.complete ⟨e :: b, e :: b, r, rem, bare⟩ := by
    intro x hx
    simp only [complete, mem_append, mem_cons] at hx ⊢
    tauto
  refine ⟨{ h with ready := ?_, backlinks := ?_, content := ?_, supertypes := ?_ }, { hc with }⟩
  · intro x hx
    rcases mem_cons.mp hx with rfl | hx
    · exact .head _
    · exact h.ready x hx
  · intro x hx
    rcases hcomp x hx with rfl | hx
    · exact hback
    · exact h.backlinks x hx
  · intro x hx
    rcases hcomp x hx with rfl | hx
    · exact hcontent
    · exact h.content x hx
  · intro x hx
    rcases hcomp x hx with rfl | hx
    · exact hsup
    · exact h.supertypes x hx

/-- A ready entry goes back to being filled. -/
theorem Sound.unready (hs : Sound s ⟨e :: b, e :: b, e :: r, rem, bare⟩ m d) (hr : ∀ x ∈ r, x ∈ b) :
    Sound s ⟨e :: b, e :: b, r, rem, bare⟩ m d := by
  obtain ⟨h, hc⟩ := hs
  have hcomp : ∀ x ∈ s.inner.complete ⟨e :: b, e :: b, r, rem, bare⟩,
      x ∈ s.inner.complete ⟨e :: b, e :: b, e :: r, rem, bare⟩ := by
    intro x hx
    simp only [complete, mem_append, mem_cons] at hx ⊢
    tauto
  exact ⟨{ h with
      ready := fun x hx => .tail e (hr x hx),
      backlinks := fun x hx => h.backlinks x (hcomp x hx),
      content := fun x hx => h.content x (hcomp x hx),
      supertypes := fun x hx => h.supertypes x (hcomp x hx) }, { hc with }⟩

theorem Sound.dropBare {bare' : List ℕ} (hs : Sound s w m d) (hsub : ∀ i ∈ bare', i ∈ w.bare) :
    Sound s { w with bare := bare' } m d := by
  obtain ⟨h, hc⟩ := hs
  exact ⟨{ h with bare := fun i hi => h.bare i (hsub i hi) }, { hc with }⟩

/-- The entry becomes visible: it moves into the hash-consing map, without registrations. -/
theorem Sound.commit (hs : Sound s ⟨e :: b, e :: b, e :: r, rem, bare⟩ m d)
    (hr : ∀ x ∈ r, x ∈ b) (hbare : ∀ i ∈ bare, i ∉ s.inner.indices e) :
    Sound { s with inner := { s.inner with hashConsingMap := e :: s.inner.hashConsingMap } }
      ⟨b, b, r, rem, bare⟩ m (e :: d) := by
  obtain ⟨h, hc⟩ := hs
  have hemap := h.not_mem_map_of_building (.head _)
  have hperm : ((e :: s.inner.hashConsingMap) ++ (b ++ rem)).Perm
      (s.inner.allocated ⟨e :: b, e :: b, e :: r, rem, bare⟩) := perm_middle.symm
  refine ⟨h.redistribute hperm (fun x hx => hx) hr ?_ ?_ ?_ fun t ht _ _ _ => .tail e ht, ?_⟩
  · intro x hx
    rw [mem_append, mem_cons] at hx ⊢
    tauto
  · intro x hx
    simp only [complete, mem_append, mem_cons] at hx ⊢
    tauto
  · intro i hi
    obtain ⟨-, -, x, hx, hxi⟩ := h.bare i hi
    refine ⟨hi, x, (mem_cons.mp hx).resolve_left ?_, hxi⟩
    rintro rfl
    exact hbare i hi hxi
  have hz := hc.offMap e hemap
  have hunheld : e ∉ s.held ++ m := fun hmem => hemap (hc.heldMem e hmem)
  have hholders : ((e :: s.inner.hashConsingMap) ++ (b ++ rem)).Perm
      (s.inner.holders ⟨e :: b, e :: b, e :: r, rem, bare⟩) := perm_middle.symm
  refine ⟨?_, fun t ht => .tail e (hc.heldMem t ht),
    fun t ht => hc.offMap t fun hmem => ht (.tail e hmem), ?_, hc.stackNodup, ?_,
    ?_, hc.removedIff, hc.removedNodup, hc.known_cons (h.known e mem_allocated_head)⟩
  · intro t ht
    change s.registrations t = s.held.count t + m.count t +
      (((e :: s.inner.hashConsingMap) ++ (b ++ rem)).flatMap s.inner.refs).count t
    rw [(hholders.flatMap_right s.inner.refs).count_eq]
    rcases mem_cons.mp ht with rfl | ht
    · -- Nothing refers to the entry yet.
      have h1 := count_eq_zero.mpr fun hmem => hunheld (mem_append_left _ hmem)
      have h2 := count_eq_zero.mpr fun hmem => hunheld (mem_append_right _ hmem)
      have h3 : ((s.inner.holders ⟨t :: b, t :: b, t :: r, rem, bare⟩).flatMap
          s.inner.refs).count t = 0 := by
        refine count_eq_zero.mpr fun hmem => ?_
        obtain ⟨x, hx, hxt⟩ := mem_flatMap.mp hmem
        exact hemap (h.refs_mem (h.mem_allocated_of_holders hx) hxt)
      rw [hz, h1, h2, h3]
    · exact hc.counts t ht
  · intro t ht hzt
    rcases mem_cons.mp ht with rfl | ht
    · exact .inr (.inr (.head _))
    · exact (hc.zero t ht hzt).imp_right fun h => h.imp_right (.tail e)
  · intro t ht
    obtain ⟨hmem, hzt⟩ := hc.stack t ht
    exact ⟨.tail e hmem, hzt⟩
  · intro x
    rw [hc.flag x]
    refine and_congr_right fun _ => not_congr ?_
    simp only [mem_append, mem_cons]
    tauto

/-! ## Trampoline types and layouts -/

/-- What registering a group with the given key is to do, in a registry where all groups that
the key refers to are registered. -/
def Registers (register : Call TypeRegistry EntryId) (key : List WasmSubType)
    (s : TypeRegistry) : Prop :=
  ∀ (w : Work) (m d : List EntryId), Sound s w m d → w.linked = w.building →
    (∀ x ∈ w.ready, x ∈ w.building) → s.inner.dropStack = [] →
    (∀ x ∈ w.building, s.inner.key x ≠ key) →
      register.Meets s
        (fun e t => Sound t w (e :: m) d ∧ Extends s t ∧ t.inner.dropStack = [] ∧
          t.inner.key e = key)
        (fun t => Sound t w m d ∧ Extends s t ∧ t.inner.dropStack = [])

variable {single : WasmSubType → Call TypeRegistry EntryId}

/-- No type needs a trampoline type, or `single` registers it when nothing else is built. -/
abbrev Supplies (single : WasmSubType → Call TypeRegistry EntryId) (building : List EntryId)
    (types : List WasmSubType) : Prop :=
  (∀ ty ∈ types, ty.trampolineSubType = none) ∨
    (building = [] ∧ ∀ t ty, IsTrampoline ty → Registers (single ty) [ty] t)

theorem Sound.trampolineSpace (hs : Sound s w m d) :
    Sound { s with inner := { s.inner with trampolineSpace := true } } w m d := by
  obtain ⟨h, hc⟩ := hs
  exact ⟨{ h with trampolineSpace := (fun hf => by cases hf) }, { hc with }⟩

/-- A trampoline type is recorded, with its registration. -/
theorem Sound.putTrampoline {i j : ℕ} {te : EntryId} {ty t : WasmSubType}
    (hs : Sound s ⟨e :: b, e :: b, e :: r, rem, bare⟩ (te :: m) d)
    (hi : i ∈ s.inner.indices e) (hnone : s.inner.typeToTrampoline i = none)
    (hj : j ∈ s.inner.indices te) (hkey : s.inner.key te = [t]) (ht : IsTrampoline t)
    (hty : s.inner.type? i = some ty) (htr : ty.trampolineSubType ≠ none)
    (hspc : s.inner.trampolineSpace = true) (hbare : i ∉ bare) :
    Sound { s with inner := { s.inner with
        typeToTrampoline := update s.inner.typeToTrampoline i (some j) } }
      ⟨e :: b, e :: b, e :: r, rem, bare⟩ m d := by
  obtain ⟨h, hc⟩ := hs
  have hte := hc.heldMem te (mem_append_right _ (.head _))
  have hcs : ∀ x y, update s.inner.typeToTrampoline i (some j) x = some y →
      (x = i ∧ y = j) ∨ s.inner.typeToTrampoline x = some y := by
    intro x y hxy
    rw [update_apply] at hxy
    split at hxy
    · exact .inl ⟨‹_›, (Option.some.inj hxy).symm⟩
    · exact .inr hxy
  refine ⟨{ h with
      trampolineKeys := ?_, trampolineTypes := ?_, trampolineSpace := ?_, bare := ?_ }, ?_⟩
  · intro x y hxy
    rcases hcs x y hxy with ⟨rfl, rfl⟩ | hxy
    · exact ⟨⟨e, mem_allocated_head, hi⟩, te, hte, hj, t, hkey, ht⟩
    · exact h.trampolineKeys x y hxy
  · intro x y hxy
    rcases hcs x y hxy with ⟨rfl, rfl⟩ | hxy
    · exact ⟨ty, hty, htr⟩
    · exact h.trampolineTypes x y hxy
  · intro hf
    exact absurd (hf.symm.trans hspc) (by decide)
  · intro x hx
    obtain ⟨htramp, hrest⟩ := h.bare x hx
    have hne : x ≠ i := fun hxi => hbare (hxi ▸ hx)
    exact ⟨(update_of_ne hne _ _).trans htramp, hrest⟩
  refine hc.ofInner rfl rfl rfl rfl (fun x hx =>
    hc.heldMem x (mem_append_right _ (.tail te hx))) fun x _ => ?_
  have hmem : e ∈ s.inner.holders ⟨e :: b, e :: b, e :: r, rem, bare⟩ :=
    mem_append_right _ (.head _)
  have hcnt := count_refs_trampoline h hmem (h.holders_nodup rfl) hi (h.owner hte hj)
    (fun x hx => update_of_ne hx _ _) (update_self _ _ _) hnone x
  change m.count x + ((s.inner.holders _).flatMap (refs { s.inner with
      typeToTrampoline := update s.inner.typeToTrampoline i (some j) })).count x =
    (te :: m).count x + ((s.inner.holders _).flatMap s.inner.refs).count x
  rw [hcnt, count_cons]
  simp only [beq_iff_eq, eq_comm (a := te)]
  change m.count x + (((s.inner.holders _).flatMap s.inner.refs).count x + _) = _
  omega

theorem Sound.singleton_index {te : EntryId} {ty : WasmSubType} {l : List EntryId}
    (hs : Sound s ⟨e :: b, l, r, rem, bare⟩ (te :: m) d) (hkey : s.inner.key te = [ty]) :
    te ∈ s.inner.hashConsingMap ∧ ∃ ti, s.inner.indices te = [ti] ∧ ti ∉ s.inner.indices e := by
  obtain ⟨h, hc⟩ := hs
  have hte := hc.heldMem te (mem_append_right _ (.head _))
  have hteall := s.inner.mem_allocated ⟨e :: b, l, r, rem, bare⟩ hte
  have hlen : (s.inner.indices te).length = 1 := by
    rw [h.lengths te hteall, hkey]
    rfl
  obtain ⟨ti, hti⟩ := length_eq_one_iff.mp hlen
  refine ⟨hte, ti, hti, fun hie => ?_⟩
  have hee := h.disjoint te hteall e (mem_append_right _ (.head _)) ti
    (hti ▸ mem_singleton_self ti) hie
  exact h.not_mem_map_of_building (.head _) (hee ▸ hte)

/-- The trampoline types of an entry are recorded. -/
theorem insertTrampolines_meets
    (hs : Sound s ⟨e :: b, e :: b, e :: r, rem, s.inner.indices e ++ bare⟩ m d)
    (hr : ∀ x ∈ r, x ∈ b) (hnil : s.inner.dropStack = [])
    (hbare : ∀ i ∈ bare, i ∉ s.inner.indices e)
    (hsingle : Supplies single b (s.inner.key e)) :
    ((s.inner.indices e).forM (insertTrampoline single)).Meets s
      (fun _ t => SoundAfter s t ⟨e :: b, e :: b, e :: r, rem, bare⟩ m d)
      (fun t => SoundAfter s t ⟨e :: b, e :: b, e :: r, rem, bare⟩ m d) := by
  have hlt := hs.shape.known e mem_allocated_head
  have hnodup := hs.shape.indicesNodup e mem_allocated_head
  refine meets_forM (fun rest t => rest.Nodup ∧ (∀ i ∈ rest, i ∈ s.inner.indices e) ∧
    SoundAfter s t ⟨e :: b, e :: b, e :: r, rem, rest ++ bare⟩ m d) ?_ (s.inner.indices e)
    ⟨hnodup, fun i hi => hi, hs, .refl s, hnil⟩ |>.imp ?_
  · rintro i rest t ⟨hnd, hrest, ht, hext, hnil⟩
    obtain ⟨hirest, hnd⟩ := nodup_cons.mp hnd
    have hie : i ∈ t.inner.indices e := by
      rw [hext.indices hlt]
      exact hrest i (.head _)
    have hibare : i ∉ rest ++ bare := by
      rw [mem_append]
      rintro (h | h)
      · exact hirest h
      · exact hbare i h (hrest i (.head _))
    have hrest' : ∀ j ∈ rest, j ∈ s.inner.indices e := fun j hj => hrest j (.tail i hj)
    have htdrop := ht.dropBare fun j hj => .tail i hj
    have hcomp : e ∈ t.inner.complete ⟨e :: b, e :: b, e :: r, rem, rest ++ bare⟩ :=
      mem_append_right _ (.head _)
    obtain ⟨ty, hty⟩ := htdrop.shape.get?_of_complete hcomp hie
    have htype : t.inner.type? i = some ty := by simp [type?, hty]
    -- The failure of any allocation leaves the invariant.
    have hfail : ∀ {u : TypeRegistry},
        Sound u ⟨e :: b, e :: b, e :: r, rem, i :: rest ++ bare⟩ m d → Extends t u →
        u.inner.dropStack = [] →
        SoundAfter s u ⟨e :: b, e :: b, e :: r, rem, bare⟩ m d :=
      fun hu hext' hnil' => ⟨hu.dropBare fun j hj => mem_append_right _ hj, hext.trans hext', hnil'⟩
    rw [insertTrampoline]
    refine .bind (typeAt_meets hty ?_)
    cases hsub : ty.trampolineSubType with
    | none => exact meets_pure ⟨hnd, hrest', htdrop, hext, hnil⟩
    | some tt =>
      have htt := isTrampoline_of_trampolineSubType hsub
      obtain ⟨p, kty, hip, hkp, hkty⟩ := htdrop.shape.type?_of_complete hcomp hie
      have hktysub : kty.trampolineSubType ≠ none := by
        intro hnone
        rw [htype, Option.some.injEq] at hkty
        rw [hkty, (trampolineSubType_traceMut _ kty).mpr hnone] at hsub
        cases hsub
      have hkmem := hext.key hlt ▸ mem_of_getElem? hkp
      obtain ⟨rfl, hreg⟩ := hsingle.resolve_left fun h => hktysub (h kty hkmem)
      refine alloc_bind_meets (fun sc => ?_) fun sc => hfail (ht.schedule sc) .of_eq hnil
      refine alloc_bind_meets (fun sc' => ?_)
        fun sc' => hfail ((ht.schedule sc).schedule sc') .of_eq hnil
      have hu := ((ht.schedule sc).schedule sc').trampolineSpace
      refine .bind (meets_modify (.bind ?_))
      refine (hreg _ tt htt _ m d hu rfl ?_ hnil ?_).mono ?_ ?_
      · intro x hx
        rcases mem_cons.mp hx with rfl | hx
        · exact .head _
        · exact .tail e (hr x hx)
      · intro x hx hxkey
        obtain rfl : x = e := by simpa using hx
        have hxkey : t.inner.key x = [tt] := hxkey
        rw [hxkey] at hkp
        have : kty = tt := by
          have hmem := mem_of_getElem? hkp
          simpa using hmem
        exact hktysub (this ▸ htt.own)
      · rintro te v ⟨hv, hextv, hnil', hkey⟩
        have hext' : Extends t v := ⟨hextv.entries, hextv.gcRuntime, hextv.collections,
          fun _ => hextv.space rfl, hextv.handles⟩
        obtain ⟨hte, ti, hti, hnot⟩ := hv.singleton_index hkey
        have hlen : (v.inner.indices te).length = 1 := by rw [hti]; rfl
        have htimem := hti ▸ mem_singleton_self ti
        have hie' : i ∈ v.inner.indices e := by
          rw [hext'.indices (hext.lt hlt)]
          exact hie
        have hne : i ≠ ti := fun h => hnot (h ▸ hie')
        refine .bind (meets_get (.bind (meets_check hlen ?_)))
        refine .bind (meets_lift (by rw [hti]; rfl) ?_)
        refine .bind (assertRegistered_meets hv.shape (mem_append_left _ hte) htimem ?_)
        refine .bind (meets_check hne (meets_modify ?_))
        refine ⟨hnd, hrest', ?_, (hext.trans hext').trans .of_eq, hnil'⟩
        have hvdrop := hv.dropBare fun j hj => .tail i hj
        have htype' : v.inner.type? i = some ty := by
          rw [← htype, hkty, ← hext'.indices (hext.lt hlt)]
          apply hv.shape.content e (mem_append_right _ (.head _)) p i kty
          · rw [hext'.indices (hext.lt hlt)]
            exact hip
          · rw [hext'.key (hext.lt hlt)]
            exact hkp
        exact hvdrop.putTrampoline hie' (hv.shape.bare i (.head _)).1 htimem hkey
          htt htype' (by rw [hsub]; exact Option.some_ne_none tt) (hextv.space rfl) hibare
      · rintro v ⟨hv, hext', hnil'⟩
        exact hfail hv ⟨hext'.entries, hext'.gcRuntime, hext'.collections,
          fun _ => hext'.space rfl, hext'.handles⟩ hnil'
  · rintro _ t ⟨-, -, ht, hext, hnil⟩
    exact ⟨ht, hext, hnil⟩

/-- The layouts of an entry are recorded. -/
theorem insertGcLayouts_meets (hs : Sound s w m d) (he : e ∈ w.ready)
    (hnil : s.inner.dropStack = []) (hbare : ∀ i ∈ w.bare, i ∉ s.inner.indices e)
    (hok : ∀ i ∈ s.inner.indices e, ∀ ty, s.inner.type? i = some ty →
      ty.compositeType.shared = false ∧
        (s.gcRuntime = true ∨ ty.compositeType.inner.isFunc = true)) :
    ((s.inner.indices e).forM insertGcLayout).Meets s
      (fun _ t => Sound t w m d ∧ Extends s t ∧ t.inner.dropStack = [] ∧
        t.inner.hashConsingMap = s.inner.hashConsingMap)
      (fun t => SoundAfter s t w m d) := by
  have hcomp : e ∈ s.inner.complete w := mem_append_right _ he
  have heall := hs.shape.mem_allocated_of_complete hcomp
  have hsound : ∀ L sc, (∀ j, j ∉ s.inner.indices e → L j = s.inner.typeToGcLayout j) →
      Sound { s with inner := { s.inner with typeToGcLayout := L }, schedule := sc } w m d := by
    intro L sc hL
    refine .schedule (s := { s with inner := { s.inner with typeToGcLayout := L } }) ?_ sc
    refine hs.layouts (fun i hi => ?_) fun i hi => ?_
    · by_cases hie : i ∈ s.inner.indices e
      · exact ⟨e, heall, hie⟩
      · exact hs.shape.layoutKeys i (hL i hie ▸ hi)
    · rw [hL i (hbare i hi)]
      exact (hs.shape.bare i hi).2.1
  have hext : ∀ L sc, Extends s
      { s with inner := { s.inner with typeToGcLayout := L }, schedule := sc } :=
    fun L sc => .of_eq
  refine meets_forM (fun rest t => (∀ i ∈ rest, i ∈ s.inner.indices e) ∧ ∃ L sc,
    t = { s with inner := { s.inner with typeToGcLayout := L }, schedule := sc } ∧
    ∀ j, j ∉ s.inner.indices e → L j = s.inner.typeToGcLayout j) ?_ (s.inner.indices e)
    ⟨fun i hi => hi, s.inner.typeToGcLayout, s.schedule, rfl, fun _ _ => rfl⟩ |>.imp ?_
  · rintro i rest t ⟨hrest, L, sc, rfl, hL⟩
    have hie := hrest i (.head _)
    have hrest' : ∀ j ∈ rest, j ∈ s.inner.indices e := fun j hj => hrest j (.tail i hj)
    obtain ⟨ty, hty⟩ := hs.shape.get?_of_complete hcomp hie
    have htype : s.inner.type? i = some ty := by simp [type?, hty]
    obtain ⟨hshd, hgc⟩ := hok i hie ty htype
    rw [insertGcLayout]
    refine .bind (meets_get (.bind (typeAt_meets hty ?_)))
    refine .bind (meets_check hshd ?_)
    by_cases hrt : s.gcRuntime = true
    · rw [if_pos hrt]
      by_cases hlay : ty.compositeType.inner.hasGcLayout = true
      · rw [if_pos hlay]
        refine alloc_bind_meets (fun sc' => ?_) fun sc' => ⟨hsound L sc' hL, hext L sc', hnil⟩
        refine alloc_bind_meets (fun sc'' => ?_) fun sc'' => ⟨hsound L sc'' hL, hext L sc'', hnil⟩
        refine meets_modify ⟨hrest', _, sc'', rfl, fun j hj => ?_⟩
        have hne : j ≠ i := fun h => hj (h ▸ hie)
        exact (update_of_ne hne _ _).trans (hL j hj)
      · rw [if_neg hlay]
        exact meets_pure ⟨hrest', L, sc, rfl, hL⟩
    · rw [if_neg hrt]
      exact meets_check (hgc.resolve_left hrt) ⟨hrest', L, sc, rfl, hL⟩
  · rintro _ t ⟨-, L, sc, rfl, hL⟩
    exact ⟨hsound L sc hL, hext L sc, hnil, rfl⟩

/-! ## The whole insertion -/

/-- What a new entry and its runtime types have to satisfy before the insertions. -/
structure Prepared (s : TypeRegistry) (e : EntryId) (tys : List WasmSubType) : Prop where
  length : (s.inner.indices e).length = tys.length
  canonical : ∀ ty ∈ tys, isCanonicalizedForRuntimeUsage ty = true
  content : tys = traceMut (absoluteIndex (s.inner.indices e)) (s.inner.key e)
  supertypes : ∀ (p : ℕ) (ty : WasmSubType) (j : TypeIndex), tys[p]? = some ty →
    ty.supertype = some j →
    ∃ x, j = .engine x ∧ (x ∉ s.inner.indices e ∨ ∃ q < p, (s.inner.indices e)[q]? = some x)
  unfilled : ∀ i ∈ s.inner.indices e, s.inner.types.get? i = some none ∧
    s.inner.typeToRecGroup i = none ∧ s.inner.typeToSupertypes i = none
  layouts : ∀ ty ∈ tys, ty.compositeType.shared = false ∧
    (s.gcRuntime = true ∨ ty.compositeType.inner.isFunc = true)

section Insert

variable {tys : List WasmSubType}

/-- The entry is filled in and ready, or it is not and the state is sound. -/
theorem fillEntry_meets (hs : Sound s ⟨e :: b, e :: b, r, rem, s.inner.indices e ++ bare⟩ m d)
    (hr : e ∉ r) (hprep : Prepared s e tys) :
    (do insertEntryTypes e tys; insertEntryRecGroups e; insertEntrySupertypes e :
      Call TypeRegistry Unit).Meets s
      (fun _ t => Sound t ⟨e :: b, e :: b, e :: r, rem, s.inner.indices e ++ bare⟩ m d ∧
        Extends s t ∧ t.inner.dropStack = s.inner.dropStack ∧
        ∀ (p i : ℕ) ty, (s.inner.indices e)[p]? = some i → tys[p]? = some ty →
          t.inner.type? i = some ty)
      (fun t => Sound t ⟨e :: b, e :: b, r, rem, s.inner.indices e ++ bare⟩ m d ∧
        Extends s t ∧ t.inner.dropStack = s.inner.dropStack) := by
  have hbuild : e ∈ e :: b := .head _
  have hnd := hs.shape.indicesNodup e mem_allocated_head
  have htramp : ∀ i ∈ s.inner.indices e, s.inner.typeToTrampoline i = none :=
    fun i hi => (hs.shape.bare i (mem_append_left _ hi)).1
  have hfill : ∀ T G S sc, FillsOnly s.inner e T G S →
      Sound (s.fill T G S sc) ⟨e :: b, e :: b, r, rem, s.inner.indices e ++ bare⟩ m d :=
    fun T G S sc hf => hs.fill hbuild hr htramp hf sc
  have hext : ∀ T G S sc, Extends s (s.fill T G S sc) := fun T G S sc => .of_eq
  have hown : ∀ j ∈ s.inner.indices e, ∀ x, s.inner.typeToRecGroup j = some x → x = e := by
    intro j hj x hx
    rw [(hprep.unfilled j hj).2.1] at hx
    cases hx
  -- The types.
  rw [insertEntryTypes]
  refine .bind (.bind (meets_get (.bind (meets_check hprep.length ?_))))
  refine (insertTypes_meets (s.inner.indices e) tys hnd hprep.length hprep.canonical
    fun i hi => (hprep.unfilled i hi).1).mono ?_ ?_
  · rintro _ t ⟨T, sc, rfl, hout, hin⟩
    have hocc : ∀ j ∈ s.inner.indices e, (T.get? j).isSome := by
      intro j hj
      obtain ⟨p, hp, hpj⟩ := getElem_of_mem hj
      have hpt := hprep.length ▸ hp
      rw [hin p j (tys.get ⟨p, hpt⟩) (List.getElem?_eq_some_iff.mpr ⟨hp, hpj⟩)
        (List.getElem?_eq_some_iff.mpr ⟨hpt, rfl⟩)]
      rfl
    -- The backlinks.
    refine .bind ?_
    rw [insertEntryRecGroups]
    refine .bind (meets_get ?_)
    refine (insertRecGroups_meets
      (s := { s with inner := { s.inner with types := T }, schedule := sc })
      (s.inner.indices e) hnd fun i hi => (hprep.unfilled i hi).2.1).imp ?_
    rintro _ t ⟨G, rfl, hG⟩
    have hfills : ∀ S, (∀ j, j ∉ s.inner.indices e → S j = s.inner.typeToSupertypes j) →
        FillsOnly s.inner e T G S := by
      refine fun S hS => ⟨hout, hocc, fun j hj => (hG j).trans (if_neg hj), fun j hj x hx => ?_, hS⟩
      rw [hG, if_pos hj] at hx
      exact (Option.some.inj hx).symm
    -- The supertypes.
    rw [insertEntrySupertypes]
    refine .bind (meets_get ?_)
    refine (insertAllSupertypes_meets (s := { s with
        inner := { s.inner with types := T, typeToRecGroup := G }, schedule := sc })
      (s.inner.indices e) tys hnd hprep.length hin hprep.supertypes
      fun i hi => (hprep.unfilled i hi).2.2).mono ?_ ?_
    · rintro _ t ⟨S, sc', rfl, hSout, hSin⟩
      have htys : ∀ (p i : ℕ) ty, (s.inner.indices e)[p]? = some i →
          tys[p]? = some ty → (T.get? i).join = some ty := by
        intro p i ty hp hty
        rw [hin p i ty hp hty]
        rfl
      refine ⟨?_, hext T G S sc', rfl, htys⟩
      apply (hfill T G S sc' (hfills S hSout)).makeReady
      · exact fun i hi => (hG i).trans (if_pos hi)
      · intro p i kty hp hkty
        apply htys p i _ hp
        rw [hprep.content, traceMut_list, getElem?_map]
        exact congrArg (Option.map _) hkty
      intro i hi ty hty
      obtain ⟨p, hp, hpi⟩ := getElem_of_mem hi
      have hpi := getElem?_eq_some_iff.mpr ⟨hp, hpi⟩
      have hpt := hprep.length ▸ hp
      have hpty := List.getElem?_eq_some_iff.mpr ⟨hpt, rfl⟩
      obtain rfl : tys.get ⟨p, hpt⟩ = ty :=
        Option.some.inj ((htys p i _ hpi hpty).symm.trans hty)
      exact hSin p i _ hpi hpty
    · rintro t ⟨S, sc', rfl, hSout⟩
      exact ⟨hfill T G S sc' (hfills S hSout), hext T G S sc', rfl⟩
  · rintro t ⟨T, sc, rfl, hout, hocc⟩
    exact ⟨hfill T s.inner.typeToRecGroup s.inner.typeToSupertypes sc
      ⟨hout, hocc, fun _ _ => rfl, hown, fun _ _ => rfl⟩, hext _ _ _ _, rfl⟩

/-- **The insertions** of a new entry: it ends in the hash-consing map, and a failure leaves
an entry that can be rolled back. -/
theorem insertEntry_meets (hs : Sound s ⟨e :: b, e :: b, r, rem, s.inner.indices e ++ bare⟩ m d)
    (hr : ∀ x ∈ r, x ∈ b) (hnil : s.inner.dropStack = [])
    (hbare : ∀ i ∈ bare, i ∉ s.inner.indices e) (hprep : Prepared s e tys)
    (hsingle : Supplies single b (s.inner.key e)) :
    (insertEntry single e tys).Meets s
      (fun _ t => Sound t ⟨b, b, r, rem, bare⟩ m (e :: d) ∧ e ∈ t.inner.hashConsingMap ∧
        Extends s t ∧ t.inner.dropStack = [])
      (fun t => SoundAfter s t ⟨e :: b, e :: b, r, rem, bare⟩ m d) := by
  have hlt := hs.shape.known e mem_allocated_head
  have heb : e ∉ b := by
    have := (nodup_append.mp (nodup_append.mp hs.shape.nodup).2.1).1
    exact (nodup_cons.mp this).1
  have her : e ∉ r := fun h => heb (hr e h)
  -- A failure forgets what is known of the entry.
  have hforget : ∀ {t : TypeRegistry}, Sound t ⟨e :: b, e :: b, e :: r, rem, bare⟩ m d →
      Sound t ⟨e :: b, e :: b, r, rem, bare⟩ m d := fun ht => ht.unready hr
  have hassoc : insertEntry single e tys =
      ((do insertEntryTypes e tys; insertEntryRecGroups e; insertEntrySupertypes e) >>= fun _ =>
        insertEntryTrampolines single e >>= fun _ => insertEntryGcLayouts e >>= fun _ =>
        alloc >>= fun _ => get >>= fun s =>
        check (s.inner.lookup (s.inner.key e) = none) "is_new_entry" >>= fun _ =>
        (modifyInner fun s => { s with hashConsingMap := e :: s.hashConsingMap }) >>= fun _ =>
        debugAssertAllRegistered e) := by
    rw [bind_assoc]
    exact congrArg _ (funext fun _ => (bind_assoc _ _ _).symm)
  rw [hassoc]
  refine .bind ((fillEntry_meets hs her hprep).mono ?_ ?_)
  · rintro _ t ⟨ht, hext, hstk, htys⟩
    have hidxs := hext.indices hlt
    rw [← hidxs] at ht hbare
    -- The trampoline types.
    refine .bind ?_
    rw [insertEntryTrampolines]
    refine .bind (meets_get ?_)
    refine (insertTrampolines_meets ht hr (hstk.trans hnil) hbare ?_).mono ?_ ?_
    · rw [hext.key hlt]
      exact hsingle
    · rintro _ u ⟨hu, hext', hnil'⟩
      have hsu := hext.trans hext'
      have hidxs' := hsu.indices hlt
      have hcomp : e ∈ u.inner.complete ⟨e :: b, e :: b, e :: r, rem, bare⟩ :=
        mem_append_right _ (.head _)
      rw [hidxs] at hbare
      -- The layouts.
      refine .bind ?_
      rw [insertEntryGcLayouts]
      refine .bind (meets_get ?_)
      refine (insertGcLayouts_meets hu (.head _) hnil'
        (by rw [hidxs']; exact hbare) ?_).mono ?_ ?_
      · intro i hi ty hty
        obtain ⟨p, kty, hip, hkp, hkty⟩ := hu.shape.type?_of_complete hcomp hi
        have hmem : ty ∈ tys := by
          rw [hty, Option.some.injEq] at hkty
          rw [hprep.content, hkty, traceMut_list, ← hidxs', ← hsu.key hlt]
          exact mem_map_of_mem (mem_of_getElem? hkp)
        obtain ⟨hshd, hgc⟩ := hprep.layouts ty hmem
        exact ⟨hshd, hgc.imp_left hsu.gcRuntime.trans⟩
      · rintro _ v ⟨hv, hext'', hnil'', -⟩
        have hsv := hsu.trans hext''
        have hidxs'' := hsv.indices hlt
        refine alloc_bind_meets (fun sc => ?_) fun sc =>
          ⟨hforget (hv.schedule sc), hsv.trans .of_eq, hnil''⟩
        have hx := hv.schedule sc
        refine .bind (meets_get (.bind (meets_check ?_ ?_)))
        · refine find?_eq_none.mpr fun y hy => ?_
          have hyb := mem_append_left (e :: b) hy
          have heb := mem_append_right v.inner.hashConsingMap ((.head _) : e ∈ e :: b)
          rw [decide_eq_true_eq]
          intro hkey
          have hye := hx.shape.keys y hyb e heb hkey
          exact hx.shape.not_mem_map_of_building (.head _) (hye ▸ hy)
        have hcommit := hx.commit hr (by
          rw [hidxs'']
          exact hbare)
        refine .bind (meets_modify ?_)
        apply assertAllRegistered_meets hcommit.shape (mem_append_left _ (.head _))
        exact ⟨hcommit, .head _, hsv.trans .of_eq, hnil''⟩
      · rintro v ⟨hv, hext'', hnil''⟩
        exact ⟨hforget hv, hsu.trans hext'', hnil''⟩
    · rintro u ⟨hu, hext', hnil'⟩
      exact ⟨hforget hu, hext.trans hext', hnil'⟩
  · rintro t ⟨ht, hext, hstk⟩
    exact ⟨ht.dropBare fun i hi => mem_append_right _ hi, hext, hstk.trans hnil⟩

end Insert

/-! ## Canonicalising a group -/

/-- What the caller of `register_rec_group` promises: every reference is to a registered
type, to a module type that has an engine index, or inside of the group; a supertype comes
before its subtypes; and the engine can lay out the types. -/
structure GroupOk (s : TypeRegistry) (map : List ℕ) (start : ℕ) (types : List WasmSubType) :
    Prop where
  mapped : ∀ x ∈ map, s.inner.Registered x
  refs : ∀ i ∈ trace types, (∃ x, i = .engine x ∧ s.inner.Registered x) ∨
    ∃ k, i = .module k ∧ k < start + types.length ∧ (k < start → k < map.length)
  supertypes : ∀ (p : ℕ) (ty : WasmSubType) (i : TypeIndex), types[p]? = some ty →
    ty.supertype = some i → (∃ x, i = .engine x) ∨ ∃ k, i = .module k ∧ k < start + p
  layouts : ∀ ty ∈ types, ty.compositeType.shared = false ∧
    (s.gcRuntime = true ∨ ty.compositeType.inner.isFunc = true)

/-- The hash-consing key of a group of module types that starts at `start`. -/
def groupKey (start : ℕ) (map : List ℕ) (types : List WasmSubType) : List WasmSubType :=
  traceMut (hashConsingIndex start map) types

theorem forM_eq_ok {α : Type} {f : α → Exec Unit} {l : List α} (h : ∀ x ∈ l, f x = .ok ()) :
    l.forM f = .ok () := by
  induction l with
  | nil => rfl
  | cons x l ih =>
    change (f x >>= fun _ => l.forM f) = .ok ()
    rw [h x mem_cons_self]
    exact ih fun y hy => h y (.tail x hy)

theorem mapM_eq_ok {α β : Type} {f : α → Exec β} {g : α → β} {l : List α}
    (h : ∀ x ∈ l, f x = .ok (g x)) : l.mapM f = .ok (l.map g) := by
  induction l with
  | nil => rfl
  | cons x l ih =>
    rw [mapM_cons, h x mem_cons_self, ih fun y hy => h y (.tail x hy)]
    rfl

/-- Canonicalizing the group for hash consing gives its key. -/
theorem GroupOk.mapM_canonicalize (hok : GroupOk s map start types) :
    types.mapM (canonicalizeForHashConsing start (start + types.length) map) =
      .ok (groupKey start map types) := by
  refine mapM_eq_ok fun ty hty => ?_
  rw [canonicalizeForHashConsing]
  rw [forM_eq_ok fun i hi => ?_]
  · rfl
  rcases hok.refs i (mem_flatMap.mpr ⟨ty, hty, hi⟩) with ⟨x, rfl, -⟩ | ⟨k, rfl, hk, hmap⟩
  · rfl
  rw [checkForHashConsing]
  by_cases hin : start ≤ k
  · rw [if_pos hin]
    exact ensure_of hk _
  · rw [if_neg hin]
    exact ensure_of (hmap (by omega)) _

theorem getD_mem {l : List ℕ} {k : ℕ} (h : k < l.length) : l.getD k 0 ∈ l := by
  have hget : l.getD k 0 = l.get ⟨k, h⟩ := by
    simp [getD_eq_getElem?_getD, getElem?_eq_getElem h]
  rw [hget]
  exact get_mem l _

/-- The key of a valid group is well formed. -/
theorem GroupOk.keyOk (hok : GroupOk s map start types) :
    KeyOk s.inner (groupKey start map types) := by
  have hcs : ∀ j ∈ trace (groupKey start map types),
      (∃ x, j = .engine x ∧ s.inner.Registered x) ∨
        ∃ k, j = .recGroup k ∧ k < (groupKey start map types).length := by
    intro j hj
    rw [groupKey, trace_traceMut] at hj
    obtain ⟨i, hi, rfl⟩ := mem_map.mp hj
    rcases hok.refs i hi with ⟨x, rfl, hx⟩ | ⟨k, rfl, hk, hmap⟩
    · exact .inl ⟨x, rfl, hx⟩
    rw [hashConsingIndex]
    by_cases hin : start ≤ k
    · rw [if_pos hin]
      refine .inr ⟨k - start, rfl, ?_⟩
      rw [groupKey, traceMut_list, length_map]
      omega
    · rw [if_neg hin]
      exact .inl ⟨_, rfl, hok.mapped _ (getD_mem (hmap (by omega)))⟩
  refine ⟨fun j hj => (hcs j hj).imp_left fun ⟨x, hx, _⟩ => ⟨x, hx⟩, fun x hx => ?_⟩
  rcases hcs _ (mem_traceEngineIndices.mp hx) with ⟨y, hy, hreg⟩ | ⟨k, hk, -⟩
  · cases hy
    exact hreg
  · cases hk

/-- References at run time are those of the key, made absolute. -/
theorem GroupOk.runtime_eq (hok : GroupOk s map start types) (is : List ℕ) :
    traceMut (runtimeIndex start map is) types =
      traceMut (absoluteIndex is) (groupKey start map types) := by
  rw [groupKey, traceMut_traceMut]
  refine traceMut_congr _ _ _ fun i hi => ?_
  rcases hok.refs i hi with ⟨x, rfl, -⟩ | ⟨k, rfl, -, -⟩
  · rfl
  rw [comp_apply, hashConsingIndex, runtimeIndex]
  by_cases hk : start ≤ k
  · rw [if_pos hk, if_neg (by omega)]
    rfl
  · rw [if_neg hk, if_pos (by omega)]
    rfl

/-! ## Registering a group -/

theorem GroupOk.congr {t : TypeRegistry} (hok : GroupOk s map start types)
    (hreg : ∀ x, s.inner.Registered x → t.inner.Registered x) (hgc : t.gcRuntime = s.gcRuntime) :
    GroupOk t map start types := by
  refine ⟨fun x hx => hreg x (hok.mapped x hx), fun i hi => ?_, hok.supertypes, ?_⟩
  · rcases hok.refs i hi with ⟨x, hx, h⟩ | h
    · exact .inl ⟨x, hx, hreg x h⟩
    · exact .inr h
  · rw [hgc]
    exact hok.layouts

/-- Reserving capacity changes only the schedule. -/
theorem reserveCapacityForRecGroup_meets (hnil : s.inner.dropStack = []) :
    reserveCapacityForRecGroup.Meets s (fun _ t => ∃ sc, t = { s with schedule := sc })
      (fun t => ∃ sc, t = { s with schedule := sc }) := by
  rw [reserveCapacityForRecGroup]
  refine alloc_bind_meets (fun _ => ?_) fun sc => ⟨sc, rfl⟩
  refine alloc_bind_meets (fun _ => ?_) fun sc => ⟨sc, rfl⟩
  refine alloc_bind_meets (fun _ => ?_) fun sc => ⟨sc, rfl⟩
  exact .bind (meets_get (.bind (meets_check hnil (alloc_meets _))))

theorem canonicalizeEntryTypes_meets {Q : List WasmSubType → TypeRegistry → Prop}
    (hs : Sound s w m d) (he : e ∈ s.inner.allocated w) (hok : GroupOk s map start types)
    (hlen : types.length = (s.inner.indices e).length)
    (h : Q (traceMut (runtimeIndex start map (s.inner.indices e)) types) s) :
    (canonicalizeEntryTypes start (start + types.length) map e types).Meets s Q R := by
  rw [canonicalizeEntryTypes]
  refine .bind (meets_get (.bind (meets_check hlen ?_)))
  refine .bind ?_
  refine meets_forM (fun rest t => t = s ∧ ∀ i ∈ rest, i ∈ trace types) ?_ (trace types)
    ⟨rfl, fun i hi => hi⟩ |>.imp ?_
  · rintro i rest t ⟨rfl, hrest⟩
    have hrest' : ∀ j ∈ rest, j ∈ trace types := fun j hj => hrest j (.tail i hj)
    rcases hok.refs i (hrest i (.head _)) with ⟨x, rfl, -⟩ | ⟨k, rfl, hk, hmap⟩
    · exact meets_pure ⟨rfl, hrest'⟩
    refine .bind (meets_get ?_)
    by_cases hin : k < start
    · rw [if_pos hin]
      have hkm := List.getElem?_eq_some_iff.mpr ⟨hmap hin, rfl⟩
      obtain ⟨te, hte, hxte⟩ := hok.mapped _ (mem_of_getElem? hkm)
      refine .bind (meets_lift (by rw [hkm]; rfl) ?_)
      exact assertRegistered_meets hs.shape (mem_append_left _ hte) hxte ⟨rfl, hrest'⟩
    rw [if_neg hin]
    have hki : k - start < (t.inner.indices e).length := by omega
    have hkm := List.getElem?_eq_some_iff.mpr ⟨hki, rfl⟩
    refine .bind (meets_check hk (.bind ?_))
    refine meets_lift (by rw [hkm]; rfl) (meets_check ?_ ⟨rfl, hrest'⟩)
    exact (hs.shape.occupied _).mpr ⟨e, he, mem_of_getElem? hkm⟩
  · rintro _ t ⟨rfl, -⟩
    exact meets_pure h

/-- The group can be filled in. -/
theorem GroupOk.prepared (hok : GroupOk s map start types) (hs : Sound s w m d)
    (he : e ∈ w.building) (hkey : s.inner.key e = groupKey start map types)
    (hunfilled : ∀ i ∈ s.inner.indices e, s.inner.types.get? i = some none ∧
      s.inner.typeToRecGroup i = none ∧ s.inner.typeToSupertypes i = none) :
    Prepared s e (traceMut (runtimeIndex start map (s.inner.indices e)) types) := by
  have heall : e ∈ s.inner.allocated w := mem_append_right _ (mem_append_left _ he)
  have hlen : (s.inner.indices e).length = types.length := by
    rw [hs.shape.lengths e heall, hkey, groupKey, traceMut_list, length_map]
  have hnotin : ∀ x, s.inner.Registered x → x ∉ s.inner.indices e := by
    rintro x ⟨t, ht, hxt⟩ hxe
    have := hs.shape.disjoint t (s.inner.mem_allocated w ht) e heall x hxt hxe
    exact hs.shape.not_mem_map_of_building he (this ▸ ht)
  refine ⟨?_, ?_, ?_, ?_, hunfilled, ?_⟩
  · rw [traceMut_list, length_map, hlen]
  · intro ty hty
    obtain ⟨ty0, hty0, rfl⟩ := mem_map.mp hty
    rw [isCanonicalizedForRuntimeUsage]
    rw [all_eq_true, trace_traceMut]
    intro j hj
    obtain ⟨i, hi, rfl⟩ := mem_map.mp hj
    rcases hok.refs i (mem_flatMap.mpr ⟨ty0, hty0, hi⟩) with ⟨x, rfl, -⟩ | ⟨k, rfl, -, -⟩
    · rfl
    · rw [runtimeIndex]
      split <;> rfl
  · rw [hok.runtime_eq, hkey]
  · intro p ty j hty hj
    rw [traceMut_list, getElem?_map, Option.map_eq_some_iff] at hty
    obtain ⟨ty0, hty0, rfl⟩ := hty
    rw [supertype_traceMut, Option.map_eq_some_iff] at hj
    obtain ⟨i, hi, rfl⟩ := hj
    have hmem := mem_flatMap.mpr ⟨ty0, mem_of_getElem? hty0, supertype_mem_trace hi⟩
    rcases hok.refs i hmem with ⟨x, rfl, hx⟩ | ⟨k, rfl, hk, hmap⟩
    · exact ⟨x, rfl, .inl (hnotin x hx)⟩
    have hkp : k < start + p := by
      rcases hok.supertypes p ty0 _ hty0 hi with ⟨x, hx⟩ | ⟨k', hk', hlt⟩
      · cases hx
      · cases hk'
        exact hlt
    rw [runtimeIndex]
    by_cases hin : k < start
    · rw [if_pos hin]
      exact ⟨_, rfl, .inl (hnotin _ (hok.mapped _ (getD_mem (hmap hin))))⟩
    rw [if_neg hin]
    have hki : k - start < (s.inner.indices e).length := by omega
    refine ⟨_, rfl, .inr ⟨k - start, by omega, ?_⟩⟩
    simp [getD_eq_getElem?_getD, getElem?_eq_getElem hki]
  · intro ty hty
    obtain ⟨ty0, hty0, rfl⟩ := mem_map.mp hty
    obtain ⟨hshd, hgc⟩ := hok.layouts ty0 hty0
    refine ⟨hshd, hgc.imp_right fun hf => ?_⟩
    change WasmCompositeInnerType.isFunc (WasmCompositeInnerType.traceMut _ _) = true
    cases hin : ty0.compositeType.inner <;> simp_all [WasmCompositeInnerType.isFunc,
      WasmCompositeInnerType.traceMut]

/-- A new entry is made. -/
theorem newEntry_meets {key : List WasmSubType} (hs : Sound s ⟨b, b, r, rem, bare⟩ m d)
    (hkey : KeyOk s.inner key) (hnew : ∀ x ∈ s.inner.hashConsingMap ++ b, s.inner.key x ≠ key) :
    (newEntry key).Meets s (fun e t =>
      Sound t ⟨e :: b, b, r, rem, t.inner.indices e ++ bare⟩ m d ∧ Extends s t ∧
      t.inner.key e = key ∧ t.inner.hashConsingMap = s.inner.hashConsingMap ∧
      t.inner.dropStack = s.inner.dropStack ∧ (∀ i ∈ bare, i ∉ t.inner.indices e) ∧
      ∀ i ∈ t.inner.indices e, t.inner.types.get? i = some none ∧
        t.inner.typeToRecGroup i = none ∧ t.inner.typeToSupertypes i = none) R := by
  obtain ⟨hlen, hnd, hfr, hget⟩ := assignSharedTypeIndices_spec key.length s.inner.types
  have hcreate := hs.create hkey hnew hlen hnd hfr hget
  rw [newEntry]
  refine .bind (meets_get (.bind (meets_modify (meets_pure ?_))))
  change Sound (s.withEntry key _ _) ⟨_, _, _, _,
    (s.withEntry key _ _).inner.indices s.inner.entries.length ++ bare⟩ m d ∧
    Extends s (s.withEntry key _ _) ∧ _
  rw [indices_withEntry]
  have hun : ∀ i ∈ (assignSharedTypeIndices key.length s.inner.types).1,
      ¬∃ x ∈ s.inner.allocated ⟨b, b, r, rem, bare⟩, i ∈ s.inner.indices x := by
    intro i hi hex
    have hocc := (hs.shape.occupied i).mpr hex
    rw [hfr i hi] at hocc
    cases hocc
  refine ⟨hcreate, extends_withEntry s _ _ _, key_withEntry s _ _ _, rfl, rfl, ?_, ?_⟩
  · intro i hi hie
    have hie : i ∈ (s.withEntry key _ _).inner.indices s.inner.entries.length := hie
    rw [indices_withEntry] at hie
    obtain ⟨-, -, x, hx, hxi⟩ := hs.shape.bare i hi
    exact hun i hie ⟨x, mem_append_right _ hx, hxi⟩
  intro i hie
  have hie : i ∈ (s.withEntry key _ _).inner.indices s.inner.entries.length := hie
  rw [indices_withEntry] at hie
  refine ⟨(hget i).trans (if_pos hie), ?_, ?_⟩
  · by_contra hne
    obtain ⟨x, hx⟩ := Option.ne_none_iff_exists'.mp hne
    exact hun i hie ⟨x, hs.shape.groups i x hx⟩
  · by_contra hne
    exact hun i hie (hs.shape.supertypeKeys i hne)

/-- What was registered stays registered. -/
theorem registered_of_extends {t : TypeRegistry} (hs : Shape s.inner ⟨b, b, r, rem, bare⟩)
    (hext : Extends s t) (hmap : t.inner.hashConsingMap = s.inner.hashConsingMap) (x : ℕ)
    (hx : s.inner.Registered x) : t.inner.Registered x := by
  obtain ⟨te, hte, hxte⟩ := hx
  refine ⟨te, hmap.symm ▸ hte, ?_⟩
  rw [hext.indices (hs.known te (s.inner.mem_allocated _ hte))]
  exact hxte

/-- Canonicalising the types of a new entry and counting its references cannot fail. -/
theorem linkEntry_meets (hs : Sound s ⟨e :: b, b, r, rem, s.inner.indices e ++ bare⟩ m d)
    (hok : GroupOk s map start types) (hlen : types.length = (s.inner.indices e).length)
    (hnil : s.inner.dropStack = []) :
    (do
      let tys ← canonicalizeEntryTypes start (start + types.length) map e types
      increfOutgoingEdges e
      pure tys : Call TypeRegistry (List WasmSubType)).Meets s
      (fun tys t => tys = traceMut (runtimeIndex start map (s.inner.indices e)) types ∧
        Sound t ⟨e :: b, e :: b, r, rem, s.inner.indices e ++ bare⟩ m d ∧ Quiet s t)
      (fun _ => False) := by
  refine .bind (canonicalizeEntryTypes_meets hs mem_allocated_head hok hlen ?_)
  refine .bind ?_
  rw [increfOutgoingEdges]
  refine .bind (meets_get ?_)
  refine (increfEdges_meets (traceEngineIndices (s.inner.key e)) ?_ hs hnil).imp ?_
  · intro x hx
    obtain ⟨te, hte, hxte, -⟩ := hs.shape.edges e mem_allocated_head x hx
    exact ⟨te, hte, hxte⟩
  rintro _ t ⟨ht, hq⟩
  refine meets_pure ⟨rfl, ?_, hq⟩
  refine ht.link ?_ fun i hi => ?_
  · rw [hq.inner]
    exact reverse_perm _
  · rw [hq.inner] at hi
    exact (ht.shape.bare i (mem_append_left _ hi)).1

/-- A group that is not hash-consed yet is registered, or the state is sound without it. -/
theorem registerNewRecGroup_meets (hs : Sound s ⟨b, b, r, rem, bare⟩ m d) (hr : ∀ x ∈ r, x ∈ b)
    (hnil : s.inner.dropStack = []) (hok : GroupOk s map start types)
    (hnew : ∀ x ∈ s.inner.hashConsingMap ++ b, s.inner.key x ≠ groupKey start map types)
    (hsingle : Supplies single b types) :
    (registerNewRecGroup single map start (groupKey start map types) types).Meets s
      (fun e t => Sound t ⟨b, b, r, rem, bare⟩ (e :: m) d ∧ Extends s t ∧
        t.inner.dropStack = [] ∧ t.inner.key e = groupKey start map types)
      (fun t => SoundAfter s t ⟨b, b, r, rem, bare⟩ m d) := by
  have hfail : ∀ t, (∃ sc, t = { s with schedule := sc }) →
      SoundAfter s t ⟨b, b, r, rem, bare⟩ m d := by
    rintro t ⟨sc, rfl⟩
    exact ⟨hs.schedule sc, .of_eq, hnil⟩
  rw [registerNewRecGroup]
  refine .bind ((reserveCapacityForRecGroup_meets hnil).mono ?_ hfail)
  rintro _ t ⟨sc1, rfl⟩
  refine alloc_bind_meets (fun sc2 => ?_) fun sc => hfail _ ⟨sc, rfl⟩
  refine alloc_bind_meets (fun sc3 => ?_) fun sc => hfail _ ⟨sc, rfl⟩
  -- The entry and its indices.
  refine .bind ((newEntry_meets (hs.schedule sc3) hok.keyOk hnew).imp ?_)
  rintro e t ⟨ht, hext, hkey, hmap, hstk, hbare, hunfilled⟩
  have hext : Extends s t := hext.of_start
  have hnil1 := hstk.trans hnil
  have hok1 := hok.congr (registered_of_extends hs.shape hext hmap) hext.gcRuntime
  have hlen : types.length = (t.inner.indices e).length := by
    rw [ht.shape.lengths e mem_allocated_head, hkey, groupKey, traceMut_list, length_map]
  have hprep := hok1.prepared ht (.head _) hkey hunfilled
  -- The references to other groups; nothing fails here.
  refine .bind (Meets.imp (undo_meets (linkEntry_meets ht hok1 hlen hnil1) fun _ h => h.elim) ?_)
  rintro _ u ⟨rfl, hu, hq⟩
  have hprep2 : Prepared u e (traceMut (runtimeIndex start map (t.inner.indices e)) types) := by
    refine ⟨hq.inner ▸ hprep.length, hprep.canonical, hq.inner ▸ hprep.content,
      hq.inner ▸ hprep.supertypes, hq.inner ▸ hprep.unfilled, ?_⟩
    rw [hq.gcRuntime]
    exact hprep.layouts
  have hlt := ht.shape.known e mem_allocated_head
  have hidxs : u.inner.indices e = t.inner.indices e := by rw [hq.inner]
  have hkey2 : u.inner.key e = groupKey start map types := by
    rw [hq.inner]
    exact hkey
  have hltu := hq.inner ▸ hlt
  rw [← hidxs] at hu hbare
  have hsingle2 : Supplies single b (u.inner.key e) := by
    refine hsingle.imp_left fun h ty hty => ?_
    rw [hkey2, groupKey, traceMut_list] at hty
    obtain ⟨ty0, hty0, rfl⟩ := mem_map.mp hty
    exact (trampolineSubType_traceMut _ ty0).mpr (h ty0 hty0)
  have hextu := hext.trans hq.toExtends
  -- The insertions, and their rollback.
  refine .bind (undo_meets (insertEntry_meets hu hr (hq.inner ▸ hnil1) hbare hprep2
    hsingle2) ?_ |>.imp ?_)
  · rintro v ⟨hv, hext', hnil'⟩
    have heb : e ∉ b := by
      have := (nodup_append.mp (nodup_append.mp hv.shape.nodup).2.1).1
      exact (nodup_cons.mp this).1
    refine (rollbackEntry_meets hv (fun h => heb (hr e h)) ?_).imp ?_
    · rw [hext'.indices hltu]
      exact hbare
    · rintro _ x ⟨hx, hext'', hnil''⟩
      exact ⟨hx, (hextu.trans hext').trans hext'', hnil''⟩
  rintro _ v ⟨hv, hmem, hext', hnil'⟩
  refine .bind ((incref_meets hv hmem (hnil' ▸ not_mem_nil)).imp ?_)
  rintro _ x ⟨hx, hq'⟩
  have hpos := hx.counted.registrations_pos (mem_append_right _ ((.head _) : e ∈ e :: m))
  have hextx := (hextu.trans hext').trans hq'.toExtends
  refine meets_pure ⟨hx.dischargeDuty (.inl hpos), hextx, hq'.inner ▸ hnil', ?_⟩
  rw [(hext'.trans hq'.toExtends).key hltu]
  exact hkey2

/-- **Registering a group**, new or seen before.  One level of recursion is enough for a
group whose types are all their own trampoline types, and two for any group. -/
theorem registerRecGroup_meets (fuel : ℕ) (hs : Sound s w m d)
    (hw : w.linked = w.building) (hr : ∀ x ∈ w.ready, x ∈ w.building)
    (hnil : s.inner.dropStack = []) (hok : GroupOk s map start types)
    (hkeys : ∀ x ∈ w.building, s.inner.key x ≠ groupKey start map types)
    (hsingle : Supplies (registerSingleton (registerRecGroup fuel)) w.building types) :
    (registerRecGroup (fuel + 1) map start types).Meets s
      (fun e t => Sound t w (e :: m) d ∧ Extends s t ∧ t.inner.dropStack = [] ∧
        t.inner.key e = groupKey start map types)
      (fun t => SoundAfter s t w m d) := by
  obtain ⟨b, l, r, rem, bare⟩ := w
  obtain rfl : l = b := hw
  rw [registerRecGroup]
  refine alloc_bind_meets (fun sc => ?_) fun sc => ⟨hs.schedule sc, .of_eq, hnil⟩
  have ht := hs.schedule sc
  refine .bind (meets_lift hok.mapM_canonicalize (.bind ?_))
  -- The groups that the key refers to are registered.
  refine meets_forM (fun rest t => t = { s with schedule := sc } ∧
    ∀ x ∈ rest, s.inner.Registered x) ?_ (traceEngineIndices (groupKey start map types))
    ⟨rfl, hok.keyOk.edges⟩ |>.imp ?_
  · rintro x rest t ⟨rfl, hrest⟩
    obtain ⟨te, hte, hxte⟩ := hrest x (.head _)
    exact assertRegistered_meets ht.shape (mem_append_left _ hte) hxte
      ⟨rfl, fun y hy => hrest y (.tail x hy)⟩
  rintro _ t ⟨rfl, -⟩
  refine .bind (meets_get ?_)
  cases hlook : lookup s.inner (groupKey start map types) with
  | some e =>
    have hmem := mem_of_find?_eq_some hlook
    have hkey : s.inner.key e = groupKey start map types := by
      simpa using find?_some hlook
    refine .bind (meets_check (ht.unregistered_eq_false hmem) ?_)
    refine .bind ?_
    apply assertAllRegistered_meets ht.shape (mem_append_left _ hmem)
    refine .bind ((incref_meets ht hmem (hnil.symm ▸ not_mem_nil)).imp ?_)
    rintro _ u ⟨hu, hq⟩
    have hext := hq.toExtends
    refine meets_pure ⟨hu, hext.of_start, hq.inner ▸ hnil, ?_⟩
    rw [hq.inner]
    exact hkey
  | none =>
    have hnew : ∀ x ∈ s.inner.hashConsingMap ++ l, s.inner.key x ≠ groupKey start map types := by
      intro x hx
      rcases mem_append.mp hx with hx | hx
      · simpa using find?_eq_none.mp hlook x hx
      · exact hkeys x hx
    refine (registerNewRecGroup_meets ht hr hnil (hok.congr (fun _ h => h) rfl) hnew
      hsingle).mono ?_ ?_
    · rintro e u ⟨hu, hext, hrest⟩
      exact ⟨hu, hext.of_start, hrest⟩
    · rintro u ⟨hu, hext, hrest⟩
      exact ⟨hu, hext.of_start, hrest⟩

/-- Trampoline types can be registered at any time. -/
theorem IsTrampoline.registers {ty : WasmSubType} (hty : IsTrampoline ty) (t : TypeRegistry) :
    Registers (registerSingleton (registerRecGroup 1) ty) [ty] t := by
  intro w m d hs hw hr hnil hkeys
  have htr : TypeTrace.trace [ty] = [] := by
    rw [trace_list]
    simp [hty.trace]
  have hkey : groupKey (u32Max - 1) [] [ty] = [ty] := traceMut_eq_self htr _
  have hok : GroupOk t [] (u32Max - 1) [ty] := by
    refine ⟨by simp, fun i hi => ?_, fun p ty' i hp hi => ?_, fun ty' hty' => ?_⟩
    · rw [htr] at hi
      cases hi
    · have hmem : ty' ∈ [ty] := mem_of_getElem? hp
      obtain rfl : ty' = ty := by simpa using hmem
      have := supertype_mem_trace hi
      rw [hty.trace] at this
      cases this
    · obtain rfl : ty' = ty := by simpa using hty'
      exact ⟨hty.unshared, .inr hty.func⟩
  rw [registerSingleton]
  refine .bind ?_
  have hass : assertCanonicalized ty = pure () := by
    rw [assertCanonicalized]
    rw [hty.trace]
    rfl
  rw [hass]
  apply meets_pure
  have := registerRecGroup_meets 0 hs hw hr hnil hok (by rw [hkey]; exact hkeys)
    (.inl fun ty' hty' => by
      obtain rfl : ty' = ty := by simpa using hty'
      exact hty.own)
  rw [hkey] at this
  exact this

/-- **Registering a group** from outside of any other registration. -/
theorem registerRecGroup_idle (hs : Sound s .idle m d) (hnil : s.inner.dropStack = [])
    (hok : GroupOk s map start types) :
    (registerRecGroup 2 map start types).Meets s
      (fun e t => Sound t .idle (e :: m) d ∧ Extends s t ∧ t.inner.dropStack = [] ∧
        t.inner.key e = groupKey start map types)
      (fun t => SoundAfter s t .idle m d) :=
  registerRecGroup_meets 1 hs rfl (fun _ h => h) hnil hok (fun x hx => by cases hx)
    (.inr ⟨rfl, fun t _ hty => hty.registers t⟩)

end WasmDeps.Types
