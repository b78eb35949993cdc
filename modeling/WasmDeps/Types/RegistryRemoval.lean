import WasmDeps.Types.RegistrySound
import Mathlib.Data.List.Perm.Subperm

/-!
# Removing entries from the type registry

Removing an entry takes it out of the hash-consing map, forgets everything stored for its
types and drops its references, which may bring other entries to zero.  Those go to the drop
stack, which is drained in the middle of the removal and again at its end.
-/

namespace WasmDeps.Types

open Lib TypeTrace List Function Call TypeRegistryInner Extends

/-! ## Lists of references -/

variable {β : Type} {s : TypeRegistry} {w : Work} {m d : List EntryId} {e : EntryId}
  {R : TypeRegistry → Prop}

section Lists

variable {α : Type} [DecidableEq β]

theorem count_flatMap_change [DecidableEq α] {l : List α} (hl : l.Nodup) {a : α} (ha : a ∈ l)
    {f g : α → List β} (hfg : ∀ x ∈ l, x ≠ a → f x = g x) {b : β} {n : ℕ}
    (hcnt : (f a).count b = (g a).count b + n) :
    (l.flatMap f).count b = (l.flatMap g).count b + n := by
  induction l with
  | nil => cases ha
  | cons x l ih =>
    obtain ⟨hx, hl⟩ := nodup_cons.mp hl
    simp only [flatMap_cons, count_append]
    rcases mem_cons.mp ha with rfl | ha
    · have hrest := flatMap_congr fun y hy =>
          hfg y (.tail _ hy) fun h => hx (h ▸ hy)
      rw [hrest]
      omega
    · have hne : x ≠ a := fun h => hx (h ▸ ha)
      rw [hfg x mem_cons_self hne, ih hl ha fun y hy => hfg y (.tail _ hy)]
      omega

theorem count_filterMap_change [DecidableEq α] {l : List α} (hl : l.Nodup) {a : α} (ha : a ∈ l)
    {f g : α → Option β} (hfg : ∀ x ∈ l, x ≠ a → f x = g x) {c : β} (hf : f a = some c)
    (hg : g a = none) (b : β) :
    (l.filterMap f).count b = (l.filterMap g).count b + if b = c then 1 else 0 := by
  rw [filterMap_eq_flatMap_toList, filterMap_eq_flatMap_toList]
  apply count_flatMap_change hl ha (fun x hx hne => congrArg Option.toList (hfg x hx hne))
  simp [hf, hg, count_cons, eq_comm (a := c)]

end Lists

/-! ## Keeping one half of the invariant -/

theorem Shape.dropStack {s : TypeRegistryInner} (hs : Shape s w) (l : List EntryId) :
    Shape { s with dropStack := l } w :=
  { hs with }

/-- The account is kept by changes behind the lock that move references into the hands of
the operation, or out of them. -/
theorem Counted.ofInner {i : TypeRegistryInner} {w' : Work} {m' : List EntryId}
    (hc : Counted s w m d) (hmap : i.hashConsingMap = s.inner.hashConsingMap)
    (hstk : i.dropStack = s.inner.dropStack) (hents : i.entries = s.inner.entries)
    (hbuild : w'.building = w.building) (hmine : ∀ t ∈ m', t ∈ s.inner.hashConsingMap)
    (hrefs : ∀ t ∈ s.inner.hashConsingMap,
      m'.count t + ((i.holders w').flatMap i.refs).count t =
        m.count t + ((s.inner.holders w).flatMap s.inner.refs).count t) :
    Counted { s with inner := i } w' m' d := by
  refine ⟨?_, ?_, ?_, ?_, ?_, ?_, ?_, hc.removedIff, hc.removedNodup, ?_⟩
  · intro t ht
    have ht := hmap ▸ ht
    have h := hrefs t ht
    have h' := hc.counts t ht
    change s.registrations t = s.held.count t + m'.count t + ((i.holders w').flatMap i.refs).count t
    omega
  · intro t ht
    rw [hmap]
    rcases mem_append.mp ht with ht | ht
    · exact hc.heldMem t (mem_append_left _ ht)
    · exact hmine t ht
  · rw [hmap]
    exact hc.offMap
  · rw [hmap, hstk]
    exact hc.zero
  · rw [hstk]
    exact hc.stackNodup
  · rw [hmap, hstk]
    exact hc.stack
  · rw [hmap, hents, hbuild]
    exact hc.flag
  · rw [hents]
    exact hc.droppingKnown

/-- Nothing refers to an entry without registrations. -/
theorem Counted.not_mem_refs (hc : Counted s w m d) (he : e ∈ s.inner.hashConsingMap)
    (hz : s.registrations e = 0) {x : EntryId} (hx : x ∈ s.inner.holders w) :
    e ∉ s.inner.refs x := by
  intro hmem
  have hcnt := hc.counts e he
  have := count_pos_iff.mpr (mem_flatMap.mpr ⟨x, hx, hmem⟩)
  omega

/-- The entries may be distributed differently, as long as those that are referred to stay
registered. -/
theorem Shape.redistribute {s : TypeRegistryInner} {map : List EntryId} {w' : Work}
    (h : Shape s w) (hperm : (allocated { s with hashConsingMap := map } w').Perm (s.allocated w))
    (hlink : ∀ x ∈ w'.linked, x ∈ w'.building) (hrdy : ∀ x ∈ w'.ready, x ∈ w'.building)
    (hkeys : ∀ x ∈ map ++ w'.building, x ∈ s.hashConsingMap ++ w.building)
    (hcomp : ∀ x ∈ map ++ w'.ready, x ∈ s.complete w)
    (hbare : ∀ i ∈ w'.bare, i ∈ w.bare ∧ ∃ x ∈ w'.building ++ w'.removing, i ∈ s.indices x)
    (hmap : ∀ t ∈ s.hashConsingMap, ∀ x ∈ s.allocated w, t ∈ s.refs x → t ∈ map) :
    Shape { s with hashConsingMap := map } w' := by
  have hall : ∀ x, x ∈ allocated { s with hashConsingMap := map } w' ↔ x ∈ s.allocated w :=
    fun x => hperm.mem_iff
  have hlift : ∀ i, (∃ x ∈ s.allocated w, i ∈ s.indices x) →
      ∃ x ∈ allocated { s with hashConsingMap := map } w', i ∈ s.indices x :=
    fun i ⟨x, hx, hxi⟩ => ⟨x, (hall x).mpr hx, hxi⟩
  refine ⟨hperm.nodup_iff.mpr h.nodup, fun x hx => h.known x ((hall x).mp hx), hlink, hrdy,
    fun x hx y hy => h.keys x (hkeys x hx) y (hkeys y hy), ?_,
    fun x hx y hy => h.disjoint x ((hall x).mp hx) y ((hall y).mp hy),
    fun x hx => h.indicesNodup x ((hall x).mp hx), fun x hx => h.lengths x ((hall x).mp hx), ?_,
    fun x hx => h.backlinks x (hcomp x hx), fun x hx => h.content x (hcomp x hx),
    fun x hx => h.supertypes x (hcomp x hx), fun x hx => h.relative x ((hall x).mp hx),
    fun i hi => hlift i (h.supertypeKeys i hi), fun i hi => hlift i (h.layoutKeys i hi), ?_,
    h.trampolineTypes, h.trampolineSpace, ?_, ?_⟩
  · intro i
    exact (h.occupied i).trans (exists_congr fun x => and_congr_left fun _ => (hall x).symm)
  · intro i x hx
    obtain ⟨hxa, hxi⟩ := h.groups i x hx
    exact ⟨(hall x).mpr hxa, hxi⟩
  · intro i j hj
    obtain ⟨⟨x, hx, hxi⟩, te, hte, hjte, hrest⟩ := h.trampolineKeys i j hj
    have href : te ∈ s.trampolines x :=
      mem_filterMap.mpr ⟨i, hxi, by rw [hj]; exact h.owner hte hjte⟩
    exact ⟨hlift i ⟨x, hx, hxi⟩, te, hmap te hte x hx (mem_append_right _ href), hjte, hrest⟩
  · intro i hi
    obtain ⟨hi, hex⟩ := hbare i hi
    exact ⟨(h.bare i hi).1, (h.bare i hi).2.1, hex⟩
  · intro x hx y hy
    have hx := (hall x).mp hx
    obtain ⟨t, ht, hyt, hlt⟩ := h.edges x hx y hy
    have href := mem_filterMap.mpr ⟨y, hy, h.owner ht hyt⟩
    exact ⟨t, hmap t ht x hx (mem_append_left _ href), hyt, hlt⟩

/-! ## Dropping references -/

/-- An entry that is to be removed goes on the drop stack. -/
theorem Sound.push (hs : Sound s w m (e :: d)) (he : e ∈ s.inner.hashConsingMap)
    (hz : s.registrations e = 0) (hstk : e ∉ s.inner.dropStack) :
    Sound { s with inner := { s.inner with dropStack := e :: s.inner.dropStack } } w m d := by
  have hc := hs.counted
  refine ⟨hs.shape.dropStack _, hc.counts, hc.heldMem, hc.offMap, ?_,
    nodup_cons.mpr ⟨hstk, hc.stackNodup⟩, ?_, hc.flag, hc.removedIff, hc.removedNodup, ?_⟩
  · intro t ht hzt
    rcases hc.zero t ht hzt with h | h | h
    · exact .inl h
    · exact .inr (.inl (.tail e h))
    · rcases mem_cons.mp h with rfl | h
      · exact .inr (.inl (.head _))
      · exact .inr (.inr h)
  · intro t ht
    rcases mem_cons.mp ht with rfl | ht
    · exact ⟨he, hz⟩
    · exact hc.stack t ht
  · intro t ht
    apply hc.droppingKnown t
    simp only [mem_append, mem_cons] at ht ⊢
    tauto

/-- Drop a registration, and put the entry on the drop stack if it was the last. -/
theorem decref_push_meets (hs : Sound s w (e :: m) d) :
    (decref e >>= fun zero => if zero then pushToDropStack e else pure ()).Meets s
      (fun _ t => Sound t w m d ∧ Pushed s t) R := by
  have hmine : e ∈ s.held ++ (e :: m) := mem_append_right _ (.head _)
  have hmem := hs.counted.heldMem e hmine
  have hstk := hs.counted.not_mem_stack hmine
  refine .bind ((decref_meets hs).imp ?_)
  rintro zero t ⟨ht, hq, hzero⟩
  cases zero with
  | false => exact meets_pure ⟨ht, hq.toPushed⟩
  | true =>
    refine meets_modify ⟨?_, ?_⟩
    · exact ht.push (hq.inner ▸ hmem) (hzero rfl) (hq.inner ▸ hstk)
    · exact ⟨by rw [hq.inner], hq.gcRuntime, hq.collections, hq.unregistered, hq.handles⟩

/-! ## Taking an entry out of the hash-consing map -/

/-- The first effects of a removal: the flag is set and the entry leaves the map. -/
def TypeRegistry.unlink (s : TypeRegistry) (e : EntryId) : TypeRegistry :=
  { s with
    unregistered := update s.unregistered e true
    removed := e :: s.removed
    inner :=
      { s.inner with
        hashConsingMap := s.inner.hashConsingMap.filter fun e' => s.inner.key e' ≠ s.inner.key e } }

section Unlink

variable {w' : Work}

/-- What unlinking needs of the entry, whether it is registered or still being built: it
moves to `removing`, and nothing refers to it. -/
structure Unlinkable (s : TypeRegistry) (w w' : Work) (e : EntryId) : Prop where
  removing : w'.removing = e :: w.removing
  bare : w'.bare = w.bare
  linkedEq : w'.linked = w'.building
  readySub : ∀ x ∈ w'.ready, x ∈ w.ready ∧ x ∈ w'.building
  buildingSub : ∀ x, x ∈ w'.building ↔ x ∈ w.building ∧ x ≠ e
  mapIff : ∀ x, x ∈ (s.unlink e).inner.hashConsingMap ↔ x ∈ s.inner.hashConsingMap ∧ x ≠ e
  perm : ((s.unlink e).inner.allocated w').Perm (s.inner.allocated w)
  unreferenced : ∀ x ∈ s.inner.allocated w, e ∉ s.inner.refs x

/-- Unlinking an entry keeps the shape. -/
theorem Unlinkable.shape (hu : Unlinkable s w w' e) (hs : Shape s.inner w) :
    Shape (s.unlink e).inner w' := by
  refine hs.redistribute hu.perm (fun x hx => hu.linkedEq ▸ hx)
    (fun x hx => (hu.readySub x hx).2) ?_ ?_ ?_ ?_
  · intro x hx
    rcases mem_append.mp hx with hx | hx
    · exact mem_append_left _ ((hu.mapIff x).mp hx).1
    · exact mem_append_right _ ((hu.buildingSub x).mp hx).1
  · intro x hx
    rcases mem_append.mp hx with hx | hx
    · exact mem_append_left _ ((hu.mapIff x).mp hx).1
    · exact mem_append_right _ (hu.readySub x hx).1
  · intro i hi
    rw [hu.bare] at hi
    obtain ⟨-, -, x, hx, hxi⟩ := hs.bare i hi
    refine ⟨hi, x, ?_, hxi⟩
    rw [mem_append, hu.removing]
    by_cases hxe : x = e
    · exact .inr (hxe ▸ (.head _))
    · rcases mem_append.mp hx with hx | hx
      · exact .inl ((hu.buildingSub x).mpr ⟨hx, hxe⟩)
      · exact .inr (.tail e hx)
  · intro t ht x hx htx
    refine (hu.mapIff t).mpr ⟨ht, ?_⟩
    rintro rfl
    exact hu.unreferenced x hx htx

/-- Unlinking an entry keeps the account. -/
theorem Unlinkable.counted (hu : Unlinkable s w w' e) (hc : Counted s w m (e :: d))
    (hw : w.linked = w.building) (hz : s.registrations e = 0) (hflag : s.unregistered e = false)
    (hlt : e < s.inner.entries.length) (hstk : e ∉ s.inner.dropStack) :
    Counted (s.unlink e) w' m d := by
  have hholders : ((s.unlink e).inner.holders w').Perm (s.inner.holders w) := by
    have h := hu.perm
    simp only [holders, hu.linkedEq, hw]
    exact h
  refine ⟨?_, ?_, ?_, ?_, hc.stackNodup, ?_, ?_, ?_, ?_, ?_⟩
  · intro t ht
    have h := hc.counts t ((hu.mapIff t).mp ht).1
    rw [(hholders.flatMap_right _).count_eq]
    exact h
  · intro t ht
    refine (hu.mapIff t).mpr ⟨hc.heldMem t ht, ?_⟩
    rintro rfl
    exact hc.registrations_pos ht hz
  · intro t ht
    by_cases hte : t = e
    · exact hte ▸ hz
    · exact hc.offMap t fun h => ht ((hu.mapIff t).mpr ⟨h, hte⟩)
  · intro t ht hzt
    obtain ⟨ht, hne⟩ := (hu.mapIff t).mp ht
    rcases hc.zero t ht hzt with h | h | h
    · exact .inl h
    · exact .inr (.inl h)
    · exact .inr (.inr ((mem_cons.mp h).resolve_left hne))
  · intro t ht
    obtain ⟨hmem, hzt⟩ := hc.stack t ht
    exact ⟨(hu.mapIff t).mpr ⟨hmem, fun h => hstk (h ▸ ht)⟩, hzt⟩
  · intro x
    change update s.unregistered e true x = true ↔ x < s.inner.entries.length ∧ _
    rw [mem_append, hu.mapIff, hu.buildingSub]
    by_cases hxe : x = e
    · simp [hxe, hlt]
    · have := hc.flag x
      simp [hxe, this]
  · intro x
    change x ∈ e :: s.removed ↔ update s.unregistered e true x = true
    rw [mem_cons, hc.removedIff]
    by_cases hxe : x = e
    · simp [hxe]
    · simp [hxe]
  · refine nodup_cons.mpr ⟨fun h => ?_, hc.removedNodup⟩
    rw [hc.removedIff, hflag] at h
    cases h
  · intro t ht
    apply hc.droppingKnown t
    simp only [mem_append, mem_cons] at ht ⊢
    exact ht.elim .inl fun h => .inr (.inr h)

theorem mem_unlink_of_mem (hs : Shape s.inner w) (he : e ∈ s.inner.hashConsingMap ++ w.building)
    (x : EntryId) : x ∈ (s.unlink e).inner.hashConsingMap ↔ x ∈ s.inner.hashConsingMap ∧ x ≠ e := by
  change x ∈ s.inner.hashConsingMap.filter _ ↔ _
  rw [mem_filter, decide_eq_true_eq]
  refine and_congr_right fun hx => not_congr
    ⟨hs.keys x (mem_append_left _ hx) e he, fun h => h ▸ rfl⟩

/-- **Unlinking a registered entry** without registrations. -/
theorem Sound.unlink (hs : Sound s w m (e :: d)) (hw : w.linked = w.building)
    (he : e ∈ s.inner.hashConsingMap) (hz : s.registrations e = 0)
    (hstk : e ∉ s.inner.dropStack) :
    Sound (s.unlink e) { w with removing := e :: w.removing } m d := by
  have hbuild : e ∉ w.building := by
    intro h
    have := hs.shape.nodup
    rw [allocated, nodup_append] at this
    exact this.2.2 e he e (mem_append_left _ h) rfl
  have hmap := mem_unlink_of_mem hs.shape (mem_append_left w.building he)
  have hflag : s.unregistered e = false := by
    rw [← Bool.not_eq_true, hs.counted.flag]
    exact fun h => h.2 (mem_append_left _ he)
  have hu : Unlinkable s w { w with removing := e :: w.removing } e := by
    refine ⟨rfl, rfl, hw, fun x hx => ⟨hx, hs.shape.ready x hx⟩, ?_, hmap, ?_, ?_⟩
    · exact fun x => ⟨fun hx => ⟨hx, fun h => hbuild (h ▸ hx)⟩, And.left⟩
    · have hnd := (nodup_append.mp hs.shape.nodup).1
      have herase : ((s.unlink e).inner.hashConsingMap).Perm (s.inner.hashConsingMap.erase e) := by
        refine (perm_ext_iff_of_nodup (hnd.filter _) (hnd.erase e)).mpr fun x => ?_
        rw [hnd.mem_erase_iff, and_comm]
        exact hmap x
      apply (herase.append_right _).trans
      refine .trans ?_ ((perm_cons_erase he).append_right _).symm
      apply (List.Perm.append_left _ perm_middle).trans
      exact perm_middle
    · intro x hx
      apply hs.counted.not_mem_refs he hz
      rw [holders, hw]
      exact hx
  exact ⟨hu.shape hs.shape, hu.counted hs.counted hw hz hflag
    (hs.shape.known e (s.inner.mem_allocated w he)) hstk⟩

/-- A known entry can be put down for removal. -/
theorem Sound.takeDuty (hs : Sound s w m d) (hlt : e < s.inner.entries.length) :
    Sound s w m (e :: d) := by
  have hc := hs.counted
  refine ⟨hs.shape, hc.counts, hc.heldMem, hc.offMap, ?_, hc.stackNodup, hc.stack, hc.flag,
    hc.removedIff, hc.removedNodup, hc.known_cons hlt⟩
  intro t ht hz
  exact (hc.zero t ht hz).imp_right fun h => h.imp_right (.tail e)

/-- **Unlinking an entry that is being built.** -/
theorem Sound.unlinkBuilding (hs : Sound s w m d) (hw : w.linked = w.building)
    (hb : w.building = e :: w'.building) (hw' : w'.linked = w'.building)
    (hrdy : w'.ready = w.ready) (hr : e ∉ w.ready) (hbare : w'.bare = w.bare)
    (hrem : w'.removing = e :: w.removing) : Sound (s.unlink e) w' m d := by
  have heb : e ∈ w.building := hb ▸ (.head _)
  have heall : e ∈ s.inner.allocated w := mem_append_right _ (mem_append_left _ heb)
  have hlt := hs.shape.known e heall
  obtain ⟨-, hnd, hdisj⟩ := nodup_append.mp hs.shape.nodup
  have hemap : e ∉ s.inner.hashConsingMap := fun h => hdisj e h e (mem_append_left _ heb) rfl
  have hmap := mem_unlink_of_mem hs.shape (mem_append_right s.inner.hashConsingMap heb)
  have hflag : s.unregistered e = false := by
    rw [← Bool.not_eq_true, hs.counted.flag]
    exact fun h => h.2 (mem_append_right _ heb)
  have heb' : e ∉ w'.building := by
    have := (nodup_append.mp hnd).1
    rw [hb] at this
    exact (nodup_cons.mp this).1
  have hbuild : ∀ x, x ∈ w'.building ↔ x ∈ w.building ∧ x ≠ e := by
    intro x
    rw [hb, mem_cons]
    constructor
    · exact fun hx => ⟨.inr hx, fun h => heb' (h ▸ hx)⟩
    · exact fun ⟨hx, hne⟩ => hx.resolve_left hne
  have hu : Unlinkable s w w' e := by
    refine ⟨hrem, hbare, hw', ?_, hbuild, hmap, ?_, ?_⟩
    · intro x hx
      rw [hrdy] at hx
      exact ⟨hx, (hbuild x).mpr ⟨hs.shape.ready x hx, fun h => hr (h ▸ hx)⟩⟩
    · have hfilter : (s.unlink e).inner.hashConsingMap = s.inner.hashConsingMap := by
        refine filter_eq_self.mpr fun x hx => ?_
        have := (hmap x).mpr ⟨hx, fun h => hemap (h ▸ hx)⟩
        exact (mem_filter.mp this).2
      rw [allocated, allocated, hfilter, hb, hrem]
      exact .append_left _ perm_middle
    · exact fun x hx h => hemap (hs.shape.refs_mem hx h)
  refine ⟨hu.shape hs.shape, hu.counted (hs.takeDuty hlt).counted hw (hs.counted.offMap e hemap)
    hflag hlt fun h => hemap (hs.counted.stack e h).1⟩

end Unlink

/-! ## Forgetting what is stored for an entry's types -/

variable {is : List ℕ}

variable {f : ℕ → Option β}

theorem clearKeys_ne_none {i : ℕ} (h : clearKeys f is i ≠ none) : i ∉ is ∧ f i ≠ none := by
  rw [clearKeys] at h
  split at h
  · exact absurd rfl h
  · exact ⟨‹_›, h⟩

theorem clearKeys_of_not_mem {i : ℕ} (h : i ∉ is) : clearKeys f is i = f i := if_neg h

/-- Layouts can be forgotten. -/
theorem Sound.layouts (hs : Sound s w m d) {g : ℕ → Option GcLayout}
    (hg : ∀ i, g i ≠ none → ∃ e ∈ s.inner.allocated w, i ∈ s.inner.indices e)
    (hbare : ∀ i ∈ w.bare, g i = none) :
    Sound { s with inner := { s.inner with typeToGcLayout := g } } w m d := by
  obtain ⟨h, hc⟩ := hs
  refine ⟨{ h with
      layoutKeys := hg, bare := fun i hi => ⟨(h.bare i hi).1, hbare i hi, (h.bare i hi).2.2⟩ }, ?_⟩
  refine hc.ofInner rfl rfl rfl rfl ?_ fun _ _ => rfl
  exact fun t ht => hc.heldMem t (mem_append_right _ ht)

theorem count_refs_trampoline (h : Shape s.inner w) (he : e ∈ s.inner.holders w)
    (hw : (s.inner.holders w).Nodup) {i j : ℕ} {te : EntryId} (hi : i ∈ s.inner.indices e)
    (hte : s.inner.typeToRecGroup j = some te) {f g : ℕ → Option ℕ}
    (hfg : ∀ x, x ≠ i → f x = g x) (hf : f i = some j) (hg : g i = none) (t : EntryId) :
    ((s.inner.holders w).flatMap
        (TypeRegistryInner.refs { s.inner with typeToTrampoline := f })).count t =
      ((s.inner.holders w).flatMap
        (TypeRegistryInner.refs { s.inner with typeToTrampoline := g })).count t +
        if t = te then 1 else 0 := by
  apply count_flatMap_change hw he
  · intro x hx hne
    have hix : i ∉ s.inner.indices x := fun hix => hne
      (h.disjoint x (h.mem_allocated_of_holders hx) e (h.mem_allocated_of_holders he) i hix hi)
    refine congrArg (s.inner.edges x ++ ·) (filterMap_congr fun y hy => ?_)
    have hyi : y ≠ i := fun heq => hix (heq ▸ hy)
    change (f y).bind _ = (g y).bind _
    rw [hfg y hyi]
  have hcnt := count_filterMap_change (f := fun x => (f x).bind s.inner.typeToRecGroup)
    (h.indicesNodup e (h.mem_allocated_of_holders he)) hi
    (fun x _ hx => by rw [hfg x hx]) (by rw [hf]; exact hte) (by rw [hg]; rfl) t
  change (s.inner.edges e ++
      (s.inner.indices e).filterMap fun x => (f x).bind s.inner.typeToRecGroup).count t =
    (s.inner.edges e ++
      (s.inner.indices e).filterMap fun x => (g x).bind s.inner.typeToRecGroup).count t + _
  rw [count_append, count_append]
  omega

theorem Shape.holders_nodup (h : Shape s.inner w) (hw : w.linked = w.building) :
    (s.inner.holders w).Nodup := by
  have := h.nodup
  rw [holders, hw]
  exact this

/-- A trampoline type is forgotten, and its registration is held by the call. -/
theorem Sound.takeTrampoline (hs : Sound s w m d) (hw : w.linked = w.building) (he : e ∈ w.removing)
    {i j : ℕ} {te : EntryId} (hi : i ∈ s.inner.indices e) (hj : s.inner.typeToTrampoline i = some j)
    (hte : te ∈ s.inner.hashConsingMap) (hjte : j ∈ s.inner.indices te) :
    Sound { s with
      inner := { s.inner with
        typeToTrampoline := update s.inner.typeToTrampoline i none } } w (te :: m) d := by
  obtain ⟨h, hc⟩ := hs
  have hupd : ∀ x y, update s.inner.typeToTrampoline i none x = some y →
      s.inner.typeToTrampoline x = some y := by
    intro x y hxy
    rw [update_apply] at hxy
    split at hxy
    · cases hxy
    · exact hxy
  have hupd' : ∀ x, s.inner.typeToTrampoline x = none →
      update s.inner.typeToTrampoline i none x = none := by
    intro x hx
    rw [update_apply]
    split
    · rfl
    · exact hx
  refine ⟨{ h with
      trampolineKeys := fun x y hxy => h.trampolineKeys x y (hupd x y hxy),
      trampolineTypes := fun x y hxy => h.trampolineTypes x y (hupd x y hxy),
      trampolineSpace := ?_, bare := ?_ }, ?_⟩
  · exact fun hspc x => hupd' x (h.trampolineSpace hspc x)
  · intro x hx
    obtain ⟨hnone, hrest⟩ := h.bare x hx
    exact ⟨hupd' x hnone, hrest⟩
  refine hc.ofInner rfl rfl rfl rfl ?_ fun t ht => ?_
  · intro t ht
    rcases mem_cons.mp ht with rfl | ht
    · exact hte
    · exact hc.heldMem t (mem_append_right _ ht)
  have hmem : e ∈ s.inner.holders w := mem_append_right _ (mem_append_right _ he)
  have hcnt := count_refs_trampoline h hmem (h.holders_nodup hw) hi (h.owner hte hjte)
    (g := update s.inner.typeToTrampoline i none)
    (fun x hx => (update_of_ne hx _ _).symm) hj (update_self _ _ _) t
  change (te :: m).count t + ((s.inner.holders w).flatMap (refs { s.inner with
      typeToTrampoline := update s.inner.typeToTrampoline i none })).count t =
    m.count t + ((s.inner.holders w).flatMap s.inner.refs).count t
  rw [hcnt, count_cons]
  simp only [beq_iff_eq, eq_comm (a := te)]
  omega

/-- The indices are freed. -/
theorem removeTypes_meets (is : List ℕ) (hnd : is.Nodup)
    (his : ∀ i ∈ is, (s.inner.types.get? i).isSome) :
    (is.forM removeType).Meets s (fun _ t => ∃ T,
      t = { s with inner := { s.inner with types := T } } ∧
      ∀ j, T.get? j = if j ∈ is then none else s.inner.types.get? j) R := by
  induction is generalizing s with
  | nil => exact meets_pure ⟨s.inner.types, rfl, fun j => by simp⟩
  | cons i is ih =>
    obtain ⟨hi, hnd⟩ := nodup_cons.mp hnd
    have hsome := his i (.head _)
    obtain ⟨x, hx⟩ := Option.isSome_iff_exists.mp hsome
    obtain ⟨T, hT, hget⟩ := Slab.dealloc_of hx
    refine .bind ?_
    rw [removeType]
    refine .bind (meets_get (.bind (meets_check hsome ?_)))
    refine .bind (meets_lift hT (meets_modify ?_))
    refine (ih hnd ?_).imp ?_
    · intro j hj
      have hne : j ≠ i := fun h => hi (h ▸ hj)
      simp only [hget, hne, if_false]
      exact his j (.tail i hj)
    rintro _ t ⟨T', rfl, hget'⟩
    refine ⟨T', rfl, fun j => ?_⟩
    rw [hget']
    simp only [hget, mem_cons]
    by_cases hji : j = i
    · simp [hji]
    · simp [hji]

/-- **The end of an entry.**  With its trampoline types gone, an entry gives back its type
indices; its references to other groups go into the hands of the operation. -/
theorem Sound.release (w' : Work) {T : Slab (Option WasmSubType)} (hs : Sound s w m d)
    (hr : w.removing = e :: w'.removing) (hb : w'.building = w.building) (hl : w'.linked = w.linked)
    (hrdy : w'.ready = w.ready) (hclear : ∀ i ∈ s.inner.indices e,
      s.inner.typeToTrampoline i = none ∧ s.inner.typeToGcLayout i = none)
    (hbare : ∀ i ∈ w'.bare, i ∈ w.bare ∧ i ∉ s.inner.indices e)
    (hT : ∀ j, T.get? j = if j ∈ s.inner.indices e then none else s.inner.types.get? j) :
    Sound { s with
      inner := { s.inner with
        typeToSupertypes := clearKeys s.inner.typeToSupertypes (s.inner.indices e)
        typeToRecGroup := clearKeys s.inner.typeToRecGroup (s.inner.indices e)
        types := T } } w' (s.inner.edges e ++ m) d := by
  obtain ⟨h, hc⟩ := hs
  have hperm : (s.inner.allocated w).Perm (e :: s.inner.allocated w') := by
    simp only [allocated, hr, hb]
    refine (List.Perm.append_left _ perm_middle).trans perm_middle
  have hnd := hperm.nodup_iff.mp h.nodup
  have hne : ∀ x ∈ s.inner.allocated w', x ≠ e :=
    fun x hx hxe => (nodup_cons.mp hnd).1 (hxe ▸ hx)
  have hall : ∀ x ∈ s.inner.allocated w', x ∈ s.inner.allocated w :=
    fun x hx => hperm.mem_iff.mpr (.tail e hx)
  have hall' : ∀ x ∈ s.inner.allocated w, x ≠ e → x ∈ s.inner.allocated w' :=
    fun x hx hxe => (mem_cons.mp (hperm.mem_iff.mp hx)).resolve_left hxe
  have heall := hperm.mem_iff.mpr (.head _)
  -- Indices of the other entries are not touched.
  have hother : ∀ x ∈ s.inner.allocated w', ∀ i ∈ s.inner.indices x, i ∉ s.inner.indices e :=
    fun x hx i hi hie => hne x hx (h.disjoint x (hall x hx) e heall i hi hie)
  -- An index of another entry still belongs to one of the entries.
  have hkeep : ∀ i, i ∉ s.inner.indices e → (∃ x ∈ s.inner.allocated w, i ∈ s.inner.indices x) →
      ∃ x ∈ s.inner.allocated w', i ∈ s.inner.indices x :=
    fun i hie ⟨x, hx, hxi⟩ => ⟨x, hall' x hx fun hxe => hie (hxe ▸ hxi), hxi⟩
  have hmap' : ∀ x ∈ s.inner.hashConsingMap, x ∈ s.inner.allocated w' :=
    fun x hx => mem_append_left _ hx
  have hcomp : s.inner.complete w' = s.inner.complete w := by
    rw [complete, complete, hrdy]
  have hcomp' : ∀ x ∈ s.inner.complete w, x ∈ s.inner.allocated w' := by
    intro x hx
    rcases mem_append.mp hx with hx | hx
    · exact hmap' x hx
    · exact mem_append_right _ (mem_append_left _ (hb ▸ h.ready x hx))
  have hsame : SameOff s.inner { s.inner with
      typeToSupertypes := clearKeys s.inner.typeToSupertypes (s.inner.indices e)
      typeToRecGroup := clearKeys s.inner.typeToRecGroup (s.inner.indices e)
      types := T } (s.inner.indices e) :=
    ⟨fun i hi => (hT i).trans (if_neg hi), fun _ => clearKeys_of_not_mem,
      fun _ => clearKeys_of_not_mem⟩
  have htramp : ∀ i j, s.inner.typeToTrampoline i = some j → i ∉ s.inner.indices e := by
    intro i j hj hie
    rw [(hclear i hie).1] at hj
    cases hj
  refine ⟨⟨(nodup_cons.mp hnd).2, fun x hx => h.known x (hall x hx), ?_, ?_, ?_, ?_,
    fun x hx y hy => h.disjoint x (hall x hx) y (hall y hy),
    fun x hx => h.indicesNodup x (hall x hx), fun x hx => h.lengths x (hall x hx), ?_, ?_, ?_, ?_,
    fun x hx => h.relative x (hall x hx), ?_, ?_, ?_, ?_, h.trampolineSpace, ?_,
    fun x hx => h.edges x (hall x hx)⟩, ?_⟩
  · rw [hl, hb]
    exact h.linked
  · rw [hrdy, hb]
    exact h.ready
  · rw [hb]
    exact h.keys
  · intro i
    rw [hT]
    constructor
    · intro hi
      split at hi
      · cases hi
      · rename_i hie
        exact hkeep i hie ((h.occupied i).mp hi)
    · rintro ⟨x, hx, hxi⟩
      rw [if_neg (hother x hx i hxi)]
      exact (h.occupied i).mpr ⟨x, hall x hx, hxi⟩
  · intro i x hx
    have hi := (clearKeys_ne_none (hx ▸ Option.some_ne_none x)).1
    obtain ⟨hxa, hxi⟩ := h.groups i x (hsame.groups i hi ▸ hx)
    exact ⟨hall' x hxa fun hxe => hi (hxe ▸ hxi), hxi⟩
  · intro x hx i hi
    have hx := hcomp ▸ hx
    exact (hsame.groups i (hother x (hcomp' x hx) i hi)).trans (h.backlinks x hx i hi)
  · intro x hx p i ty hip hkp
    have hx := hcomp ▸ hx
    have hi := hother x (hcomp' x hx) i (mem_of_getElem? hip)
    exact (hsame.type?_eq hi).trans (h.content x hx p i ty hip hkp)
  · intro x hx i hi ty hty
    exact hsame.supertypesOf h (fun y hy => hother y (hcomp' y hy)) (hcomp ▸ hx) hi hty
  · intro i hi
    obtain ⟨hie, hi⟩ := clearKeys_ne_none hi
    exact hkeep i hie (h.supertypeKeys i hi)
  · intro i hi
    exact hkeep i (fun hie => hi (hclear i hie).2) (h.layoutKeys i hi)
  · intro i j hj
    exact (h.trampolineKeys i j hj).imp_left (hkeep i (htramp i j hj))
  · intro i j hj
    have hie := htramp i j hj
    obtain ⟨ty, hty, hsome⟩ := h.trampolineTypes i j hj
    exact ⟨ty, (hsame.type?_eq hie).trans hty, hsome⟩
  · intro i hi
    obtain ⟨hi, hie⟩ := hbare i hi
    obtain ⟨hnone, hlay, x, hx, hxi⟩ := h.bare i hi
    refine ⟨hnone, hlay, x, ?_, hxi⟩
    rw [hr] at hx
    rw [hb]
    simp only [mem_append, mem_cons] at hx ⊢
    rcases hx with hx | rfl | hx
    · exact .inl hx
    · exact absurd hxi hie
    · exact .inr hx
  · have hin : ∀ x ∈ s.inner.holders w', x ∈ s.inner.allocated w := by
      intro x hx
      apply h.mem_allocated_of_holders
      rw [holders, hl] at hx
      rw [holders, hr]
      simp only [mem_append, mem_cons] at hx ⊢
      tauto
    have hrefs := fun x hx =>
      hsame.refs_eq h (fun t ht => hother t (hmap' t ht)) (hin x hx) rfl rfl
    have hemp : s.inner.trampolines e = [] :=
      filterMap_eq_nil_iff.mpr fun i hi => by rw [(hclear i hi).1]; rfl
    have hholders : (s.inner.holders w).Perm (e :: s.inner.holders w') := by
      simp only [holders, hr, hl]
      exact (List.Perm.append_left _ perm_middle).trans perm_middle
    refine hc.ofInner rfl rfl rfl hb ?_ fun t _ => ?_
    · intro t ht
      rcases mem_append.mp ht with ht | ht
      · exact h.refs_mem heall (mem_append_left _ ht)
      · exact hc.heldMem t (mem_append_right _ ht)
    have hsame := flatMap_congr hrefs
    rw [(hholders.flatMap_right s.inner.refs).count_eq, flatMap_cons, count_append, count_append]
    change _ + count t (flatMap _ (s.inner.holders w')) = _
    rw [hsame]
    have hre : s.inner.refs e = s.inner.edges e := by
      rw [refs, hemp, append_nil]
    rw [hre]
    omega

/-- Types without trampoline and layout are noted. -/
theorem Sound.addBare (hs : Sound s w m d)
    (his : ∀ i ∈ is, s.inner.typeToTrampoline i = none ∧ s.inner.typeToGcLayout i = none ∧
      ∃ e ∈ w.building ++ w.removing, i ∈ s.inner.indices e) :
    Sound s { w with bare := is ++ w.bare } m d := by
  obtain ⟨h, hc⟩ := hs
  refine ⟨{ h with bare := ?_ }, { hc with }⟩
  intro i hi
  rcases mem_append.mp hi with hi | hi
  · exact his i hi
  · exact h.bare i hi

/-! ## The cascade -/

section Cascade

/-- What a drain of the drop stack is to do, in a registry of at most `n` entries. -/
def Drains (drain : Call TypeRegistry Unit) (n : ℕ) : Prop :=
  ∀ (s : TypeRegistry) (w : Work) (m d : List EntryId) (R : TypeRegistry → Prop),
    Sound s w m d → w.linked = w.building → s.inner.hashConsingMap.length ≤ n →
      drain.Meets s (fun _ t => Sound t w m d ∧ Extends s t ∧ t.inner.dropStack = [] ∧
        t.inner.hashConsingMap.length ≤ s.inner.hashConsingMap.length) R

variable (hs : Sound s w m d)
include hs

theorem Sound.unregistered_eq_false (he : e ∈ s.inner.hashConsingMap) :
    s.unregistered e = false := by
  rw [← Bool.not_eq_true, hs.counted.flag]
  exact fun h => h.2 (mem_append_left _ he)

theorem Sound.of_isHeld (h : s.IsHeld e) : e ∈ s.inner.hashConsingMap ∧ s.registrations e ≠ 0 := by
  rcases h with h | ⟨x, hx, h⟩
  · have hheld := mem_append_left m h
    exact ⟨hs.counted.heldMem e hheld, hs.counted.registrations_pos hheld⟩
  · have he := hs.shape.refs_mem (s.inner.mem_allocated w hx) h
    exact ⟨he, fun hz => hs.counted.not_mem_refs he hz (mem_append_left _ hx) h⟩

/-- `remove_trampoline` keeps the state sound. -/
theorem removeTrampoline_meets (hw : w.linked = w.building)
    (he : e ∈ w.removing) {i : ℕ} (hi : i ∈ s.inner.indices e) :
    (removeTrampoline i).Meets s (fun _ t => Sound t w m d ∧ Extends s t ∧
      t.inner.hashConsingMap = s.inner.hashConsingMap ∧
      t.inner.typeToGcLayout = s.inner.typeToGcLayout ∧
      t.inner.typeToTrampoline = update s.inner.typeToTrampoline i none) R := by
  rw [removeTrampoline]
  refine .bind (meets_get ?_)
  cases hj : s.inner.typeToTrampoline i with
  | none =>
    refine meets_pure ⟨hs, refl s, rfl, rfl, ?_⟩
    rw [← hj, update_eq_self]
  | some j =>
    obtain ⟨-, te, hte, hjte, -⟩ := hs.shape.trampolineKeys i j hj
    have htake := hs.takeTrampoline hw he hi hj hte hjte
    refine .bind (meets_modify (.bind ?_))
    apply assertRegistered_meets htake.shape (mem_append_left _ hte) hjte
    refine .bind (entryOf_meets (htake.shape.owner hte hjte) ?_)
    apply (decref_push_meets htake).imp
    rintro _ t ⟨ht, hp⟩
    have hinner := hp.inner
    have hext := hp.toExtends
    refine ⟨ht, hext.of_start, ?_, ?_, ?_⟩
    · rw [hinner]
    · rw [hinner]
    · rw [hinner]

theorem removeTrampolines_meets (hw : w.linked = w.building) (he : e ∈ w.removing) :
    ((s.inner.indices e).forM removeTrampoline).Meets s (fun _ t => Sound t w m d ∧ Extends s t ∧
      t.inner.hashConsingMap = s.inner.hashConsingMap ∧
      t.inner.typeToGcLayout = s.inner.typeToGcLayout ∧
      ∀ i ∈ s.inner.indices e, t.inner.typeToTrampoline i = none) R := by
  have hlt := hs.shape.known e (mem_append_right _ (mem_append_right _ he))
  have hloop := meets_forM (R := R) (f := removeTrampoline)
    (fun rest t => (∀ i ∈ rest, i ∈ s.inner.indices e) ∧ Sound t w m d ∧ Extends s t ∧
      t.inner.hashConsingMap = s.inner.hashConsingMap ∧
      t.inner.typeToGcLayout = s.inner.typeToGcLayout ∧
      ∀ i ∈ s.inner.indices e, i ∉ rest → t.inner.typeToTrampoline i = none)
    ?_ (s.inner.indices e)
    ⟨fun i hi => hi, hs, refl s, rfl, rfl, fun i hi hni => absurd hi hni⟩
  · apply hloop.imp
    rintro _ t ⟨-, ht, hext, hmap, hlay, hnone⟩
    exact ⟨ht, hext, hmap, hlay, fun i hi => hnone i hi not_mem_nil⟩
  rintro i rest t ⟨hrest, ht, hext, hmap, hlay, hnone⟩
  have hi : i ∈ t.inner.indices e := by
    rw [hext.indices hlt]
    exact hrest i (.head _)
  apply (removeTrampoline_meets ht hw he hi).imp
  rintro _ u ⟨hu, hext', hmap', hlay', htramp⟩
  refine ⟨fun j hj => hrest j (.tail i hj), hu, hext.trans hext',
    hmap'.trans hmap, hlay'.trans hlay, fun j hj hjr => ?_⟩
  rw [htramp, update_apply]
  split
  · rfl
  · rename_i hne
    exact hnone j hj fun hmem => (mem_cons.mp hmem).elim hne hjr

omit hs

variable {drain : Call TypeRegistry Unit}

/-- The trampoline types of an entry are given up. -/
theorem removeEntryTrampolines_meets {n : ℕ} (hdrain : Drains drain n) (hs : Sound s w m d)
    (hw : w.linked = w.building) (he : e ∈ w.removing) (hn : s.inner.hashConsingMap.length ≤ n)
    (hlayout : ∀ i ∈ s.inner.indices e, s.inner.typeToGcLayout i = none) :
    (removeEntryTrampolines drain e).Meets s (fun _ t =>
      Sound t { w with bare := s.inner.indices e ++ w.bare } m d ∧ Extends s t ∧
        t.inner.hashConsingMap.length ≤ s.inner.hashConsingMap.length) R := by
  have hlt := hs.shape.known e (mem_append_right _ (mem_append_right _ he))
  have hmem : ∀ i ∈ s.inner.indices e, ∃ x ∈ w.building ++ w.removing, i ∈ s.inner.indices x :=
    fun i hi => ⟨e, mem_append_right _ he, hi⟩
  rw [removeEntryTrampolines]
  refine .bind (meets_get ?_)
  cases hspc : s.inner.trampolineSpace with
  | false =>
    refine meets_pure ⟨hs.addBare fun i hi => ?_, refl s, le_rfl⟩
    exact ⟨hs.shape.trampolineSpace hspc i, hlayout i hi, hmem i hi⟩
  | true =>
    refine .bind ((removeTrampolines_meets hs hw he).imp ?_)
    rintro _ t ⟨ht, hext, hmap, hlay, htramp⟩
    have htbare : Sound t { w with bare := s.inner.indices e ++ w.bare } m d := by
      refine ht.addBare fun i hi => ⟨htramp i hi, hlay ▸ hlayout i hi, ?_⟩
      exact ⟨e, mem_append_right _ he, (hext.indices hlt) ▸ hi⟩
    apply (hdrain t _ m d R htbare hw (hmap ▸ hn)).imp
    rintro _ u ⟨hu, hext', -, hle⟩
    exact ⟨hu, hext.trans hext', hmap ▸ hle⟩

/-- The edges of an entry are given up. -/
theorem decrefEdges_meets (xs : List ℕ) (hxs : ∀ x ∈ xs, s.inner.Registered x)
    (hs : Sound s w (xs.filterMap s.inner.typeToRecGroup ++ m) d) :
    (xs.forM decrefEdge).Meets s (fun _ t => Sound t w m d ∧ Pushed s t) R := by
  refine meets_forM (fun rest t => (∀ x ∈ rest, s.inner.Registered x) ∧
    Sound t w (rest.filterMap s.inner.typeToRecGroup ++ m) d ∧ Pushed s t) ?_ xs
    ⟨hxs, hs, .refl s⟩ |>.imp fun _ t ht => ht.2
  rintro x rest t ⟨hrest, ht, hp⟩
  obtain ⟨te, hte, hxte⟩ := hrest x (.head _)
  have hte' : te ∈ t.inner.hashConsingMap := by
    rw [hp.inner]
    exact hte
  have hxte' : x ∈ t.inner.indices te := by
    rw [hp.inner]
    exact hxte
  have howner := ht.shape.owner hte' hxte'
  have howner' : s.inner.typeToRecGroup x = some te := by
    rw [hp.inner] at howner
    exact howner
  rw [decrefEdge]
  refine .bind ?_
  apply assertRegistered_meets ht.shape (mem_append_left _ hte') hxte'
  refine .bind (entryOf_meets howner ?_)
  refine .bind (meets_get (.bind ?_))
  apply meets_check (ht.unregistered_eq_false hte')
  rw [filterMap_cons_some howner'] at ht
  apply (decref_push_meets ht).imp
  rintro _ u ⟨hu, hp'⟩
  exact ⟨fun y hy => hrest y (.tail x hy), hu, hp.trans hp'⟩

/-- What is left of a removal once the entry is out of the hash-consing map. -/
def finishRemoval (drain : Call TypeRegistry Unit) (e : EntryId) (shouldDecref : Bool) :
    Call TypeRegistry Unit := do
  removeEntryGcLayouts e
  removeEntryTrampolines drain e
  removeEntrySupertypes e
  removeEntryRecGroups e
  removeEntryTypes e
  if shouldDecref then decrefOutgoingEdges drain e else pure ()

/-- An entry that was unlinked is removed. -/
theorem finishRemoval_meets {n : ℕ} (hdrain : Drains drain n)
    (hs : Sound s { w with removing := e :: w.removing } m d) (hw : w.linked = w.building)
    (hbare : ∀ i ∈ w.bare, i ∉ s.inner.indices e) (hn : s.inner.hashConsingMap.length ≤ n) :
    (finishRemoval drain e true).Meets s (fun _ t => Sound t w m d ∧ Extends s t ∧
      t.inner.dropStack = [] ∧
      t.inner.hashConsingMap.length ≤ s.inner.hashConsingMap.length) R := by
  have hrem : e ∈ e :: w.removing := .head _
  have hlt := hs.shape.known e (mem_append_right _ (mem_append_right _ hrem))
  rw [finishRemoval]
  -- The layouts.
  have hlay := hs.layouts (g := clearKeys s.inner.typeToGcLayout (s.inner.indices e))
    (fun i hi => hs.shape.layoutKeys i (clearKeys_ne_none hi).2) (fun i hi => by
      rw [clearKeys]
      split
      · rfl
      · exact (hs.shape.bare i hi).2.1)
  refine .bind (meets_modify (.bind ?_))
  -- The trampoline types.
  refine (removeEntryTrampolines_meets hdrain hlay hw hrem hn
    (fun i hi => if_pos hi)).imp ?_
  rintro _ t ⟨ht, hext, hle⟩
  have hext : Extends s t := hext.of_start
  have hidxs := hext.indices hlt
  -- The supertypes, backlinks and types.
  have hall : e ∈ t.inner.allocated
      { w with removing := e :: w.removing, bare := s.inner.indices e ++ w.bare } :=
    mem_append_right _ (mem_append_right _ hrem)
  have hoccupied : ∀ i ∈ t.inner.indices e, (t.inner.types.get? i).isSome :=
    fun i hi => (ht.shape.occupied i).mpr ⟨e, hall, hi⟩
  refine .bind (meets_modify (.bind (meets_modify (.bind ?_))))
  rw [removeEntryTypes]
  refine .bind (meets_get ?_)
  refine (removeTypes_meets (s := { t with inner := { t.inner with
      typeToSupertypes := clearKeys t.inner.typeToSupertypes (t.inner.indices e)
      typeToRecGroup := clearKeys t.inner.typeToRecGroup (t.inner.indices e) } })
    (t.inner.indices e) (ht.shape.indicesNodup e hall) hoccupied).imp ?_
  rintro _ u ⟨T, rfl, hT⟩
  have hrelease := ht.release w rfl rfl rfl rfl (fun i hi => by
      have := ht.shape.bare i (mem_append_left _ (hidxs ▸ hi))
      exact ⟨this.1, this.2.1⟩)
    (fun i hi => ⟨mem_append_right _ hi, fun h => hbare i hi (hidxs ▸ h)⟩) hT
  -- The references to other groups.
  have hother : ∀ x ∈ traceEngineIndices (t.inner.key e), x ∉ t.inner.indices e := by
    intro x hx hxe
    obtain ⟨te, hte, hxte, hlt'⟩ := ht.shape.edges e hall x hx
    have := ht.shape.disjoint te (t.inner.mem_allocated _ hte) e hall x hxte hxe
    exact absurd this (ne_of_lt hlt')
  have hedges : t.inner.edges e = (traceEngineIndices (t.inner.key e)).filterMap
      (clearKeys t.inner.typeToRecGroup (t.inner.indices e)) :=
    filterMap_congr fun x hx => (clearKeys_of_not_mem (hother x hx)).symm
  rw [hedges] at hrelease
  rw [decrefOutgoingEdges]
  refine .bind (meets_get (.bind ?_))
  refine (decrefEdges_meets (traceEngineIndices (t.inner.key e)) ?_ hrelease).imp ?_
  · intro x hx
    obtain ⟨te, hte, hxte, -⟩ := ht.shape.edges e hall x hx
    exact ⟨te, hte, hxte⟩
  rintro _ v ⟨hv, hp⟩
  have hmap : v.inner.hashConsingMap = t.inner.hashConsingMap := by rw [hp.inner]
  apply (hdrain v w m d R hv hw (hmap ▸ le_trans hle hn)).imp
  rintro _ u ⟨hu, hext', hstk, hle'⟩
  refine ⟨hu, hext.trans (trans ?_ hext'), hstk, le_trans (hmap ▸ hle') hle⟩
  have hpushed := hp.toExtends
  exact hpushed.of_start

/-- **Removing a registered entry** that has no registrations left. -/
theorem removeEntryImpl_meets {n : ℕ} (hdrain : Drains drain n) (hs : Sound s w m (e :: d))
    (hw : w.linked = w.building) (he : e ∈ s.inner.hashConsingMap) (hz : s.registrations e = 0)
    (hstk : e ∉ s.inner.dropStack) (hn : s.inner.hashConsingMap.length ≤ n + 1) :
    (removeEntryImpl drain e true).Meets s (fun _ t => Sound t w m d ∧ Extends s t ∧
      t.inner.dropStack = [] ∧
      t.inner.hashConsingMap.length < s.inner.hashConsingMap.length) R := by
  rw [removeEntryImpl]
  refine .bind ((loadRegistrations_meets hs).imp ?_)
  rintro _ t ⟨rfl, ht, hq, hzero⟩
  have he' := hq.inner ▸ he
  have hz' := hzero e hz
  refine .bind (meets_check hz' (.bind (meets_get ?_)))
  refine .bind (meets_check (ht.unregistered_eq_false he') ?_)
  refine .bind (meets_check (fun h => (ht.of_isHeld h).2 hz') ?_)
  refine .bind (meets_modify (.bind (meets_modify ?_)))
  have hunlink := ht.unlink hw he' hz' (hq.inner ▸ hstk)
  have hlen : (t.unlink e).inner.hashConsingMap.length < s.inner.hashConsingMap.length := by
    rw [← hq.inner]
    exact length_filter_lt_length_iff_exists.mpr ⟨e, he', by simp⟩
  have hbare : ∀ i ∈ w.bare, i ∉ t.inner.indices e := by
    intro i hi hie
    obtain ⟨-, -, x, hx, hxi⟩ := ht.shape.bare i hi
    have hxe := ht.shape.disjoint x (mem_append_right _ hx) e
      (t.inner.mem_allocated w he') i hxi hie
    exact (nodup_append.mp ht.shape.nodup).2.2 e he' x hx hxe.symm
  apply (finishRemoval_meets hdrain hunlink hw hbare (by omega)).imp
  rintro _ u ⟨hu, hext, hnil, hle⟩
  refine ⟨hu, hq.toExtends.trans hext.of_start, hnil, ?_⟩
  omega

/-- **The cascade.**  With as much fuel as there are registered entries, draining the drop
stack keeps the invariant and leaves the stack empty. -/
theorem drainWith_meets (n : ℕ) : Drains (drainWith n) n := by
  induction n with
  | zero =>
    intro s w m d R hs hw hn
    have hmap : s.inner.hashConsingMap = [] := length_eq_zero_iff.mp (by omega)
    have hnil : s.inner.dropStack = [] := by
      refine eq_nil_iff_forall_not_mem.mpr fun t ht => ?_
      have := (hs.counted.stack t ht).1
      rw [hmap] at this
      cases this
    rw [drainWith]
    refine .bind (meets_get ?_)
    rw [if_pos hnil]
    exact meets_pure ⟨hs, refl s, hnil, le_rfl⟩
  | succ n ih =>
    intro s w m d R hs hw hn
    rw [drainWith]
    refine .bind (meets_get ?_)
    cases hstk : s.inner.dropStack with
    | nil => exact meets_pure ⟨hs, refl s, hstk, le_rfl⟩
    | cons e rest =>
      have hc := hs.counted
      obtain ⟨hmem, hz⟩ := hc.stack e (hstk ▸ (.head _))
      have hnd := hc.stackNodup
      rw [hstk] at hnd
      obtain ⟨hrest, hnd⟩ := nodup_cons.mp hnd
      have hpop : Sound { s with inner := { s.inner with dropStack := rest } } w m (e :: d) := by
        refine ⟨hs.shape.dropStack rest, hc.counts, hc.heldMem, hc.offMap, ?_, hnd, ?_,
          hc.flag, hc.removedIff, hc.removedNodup, ?_⟩
        · intro t ht hzt
          have := hc.zero t ht hzt
          rw [hstk] at this
          rw [mem_cons] at this ⊢
          tauto
        · exact fun t ht => hc.stack t (hstk ▸ .tail e ht)
        · exact (hs.takeDuty (hs.shape.known e
            (s.inner.mem_allocated w hmem))).counted.droppingKnown
      refine .bind (meets_modify (.bind ?_))
      apply assertAllRegistered_meets hpop.shape (mem_append_left _ hmem)
      refine .bind ((removeEntryImpl_meets ih hpop hw hmem hz hrest hn).imp ?_)
      rintro _ t ⟨ht, hext, -, hlt⟩
      have hlt : t.inner.hashConsingMap.length < s.inner.hashConsingMap.length := hlt
      apply (ih t w m d R ht hw (by omega)).imp
      rintro _ u ⟨hu, hext', hnil, hle⟩
      refine ⟨hu, trans ?_ hext', hnil, by omega⟩
      exact hext.of_start

theorem Shape.length_le (hs : Shape s.inner w) :
    s.inner.hashConsingMap.length ≤ s.inner.entries.length := by
  have hnd := (nodup_append.mp hs.nodup).1
  have hsub : s.inner.hashConsingMap ⊆ range s.inner.entries.length := fun e he =>
    mem_range.mpr (hs.known e (s.inner.mem_allocated w he))
  simpa using (subperm_of_subset hnd hsub).length_le

/-- The drop stack is emptied, with enough fuel for the entries there are. -/
theorem drainDropStack_meets (n : ℕ) : Drains drainDropStack n := by
  intro s w m d R hs hw _
  rw [drainDropStack]
  exact .bind (meets_get (drainWith_meets _ s w m d R hs hw hs.shape.length_le))

/-- **Rolling back** an entry that is being built. -/
theorem rollbackEntry_meets {b r rem : List EntryId} {bare : List ℕ}
    (hs : Sound s ⟨e :: b, e :: b, r, rem, bare⟩ m d) (hr : e ∉ r)
    (hbare : ∀ i ∈ bare, i ∉ s.inner.indices e) :
    (rollbackEntry e true).Meets s (fun _ t => SoundAfter s t ⟨b, b, r, rem, bare⟩ m d) R := by
  rw [rollbackEntry]
  refine .bind ?_
  rw [removeEntryImpl]
  refine .bind ((loadRegistrations_meets hs).imp ?_)
  rintro _ t ⟨rfl, ht, hq, -⟩
  have hbuild : e ∈ (e :: b) ++ rem := mem_append_left _ (.head _)
  have hmap : e ∉ t.inner.hashConsingMap :=
    fun h => (nodup_append.mp ht.shape.nodup).2.2 e h e hbuild rfl
  have hflag : t.unregistered e = false := by
    rw [← Bool.not_eq_true, ht.counted.flag]
    exact fun h => h.2 (mem_append_right _ (.head _))
  refine .bind (meets_check (ht.counted.offMap e hmap) ?_)
  refine .bind (meets_get (.bind (meets_check hflag ?_)))
  refine .bind (meets_check (fun h => hmap (ht.of_isHeld h).1) ?_)
  refine .bind (meets_modify (.bind (meets_modify ?_)))
  have hunlink : Sound (t.unlink e) ⟨b, b, r, e :: rem, bare⟩ m d :=
    ht.unlinkBuilding rfl rfl rfl rfl hr rfl rfl
  refine (finishRemoval_meets (w := ⟨b, b, r, rem, bare⟩) (drainDropStack_meets _) hunlink rfl
    (fun i hi => by rw [← hq.inner] at hbare; exact hbare i hi) le_rfl).imp ?_
  rintro _ u ⟨hu, hext, -, -⟩
  apply (drainDropStack_meets _ u _ m d R hu rfl le_rfl).imp
  rintro _ v ⟨hv, hext', hnil, -⟩
  refine ⟨hv, (hq.toExtends.trans ?_).trans hext', hnil⟩
  exact hext.of_start

/-- **Unregistering an entry** that reached zero: it may have been resurrected since, or
resurrected, dropped again and removed by somebody else. -/
theorem unregisterEntry_meets (hs : Sound s .idle m (e :: d)) (hnil : s.inner.dropStack = []) :
    (unregisterEntry e).Meets s (fun _ t => SoundAfter s t .idle m d) R := by
  rw [unregisterEntry]
  refine .bind (meets_get (.bind (meets_check hnil ?_)))
  refine .bind ((loadRegistrations_meets hs).imp ?_)
  rintro _ t ⟨rfl, ht, hq, -⟩
  have hnil' := hq.inner ▸ hnil
  by_cases hreg : t.registrations e ≠ 0
  · rw [if_pos hreg]
    have hmem : e ∈ t.inner.hashConsingMap := by
      by_contra hmem
      exact hreg (ht.counted.offMap e hmem)
    refine .bind (meets_get (meets_check (ht.unregistered_eq_false hmem) ?_))
    exact ⟨ht.dischargeDuty (.inl hreg), hq.toExtends, hnil'⟩
  rw [if_neg hreg]
  have hz := not_not.mp hreg
  refine .bind (meets_get ?_)
  cases hflag : t.unregistered e with
  | true =>
    have hmem : e ∉ t.inner.hashConsingMap := fun h =>
      ((ht.counted.flag e).mp hflag).2 (mem_append_left _ h)
    exact meets_pure ⟨ht.dischargeDuty (.inr (.inr hmem)), hq.toExtends, hnil'⟩
  | false =>
    have hlt := ht.counted.droppingKnown e (mem_append_right _ (.head _))
    have hmem : e ∈ t.inner.hashConsingMap := by
      by_contra hmem
      have := (ht.counted.flag e).mpr ⟨hlt, by simpa [Work.idle] using hmem⟩
      rw [hflag] at this
      cases this
    have hpush := ht.push hmem hz (hnil' ▸ not_mem_nil)
    refine .bind (meets_modify ?_)
    apply (drainDropStack_meets _ _ _ m d R hpush rfl le_rfl).imp
    rintro _ u ⟨hu, hext, hnil'', -⟩
    exact ⟨hu, hq.toExtends.trans hext.of_start, hnil''⟩

/-- **Giving back a registration** under the lock. -/
theorem dropRegistration_meets (hs : Sound s .idle (e :: m) d) (hnil : s.inner.dropStack = []) :
    (dropRegistration e).Meets s (fun _ t => SoundAfter s t .idle m d) R := by
  rw [dropRegistration]
  refine .bind ((decref_meets hs).imp ?_)
  rintro zero t ⟨ht, hq, -⟩
  have hnil' := hq.inner ▸ hnil
  cases zero with
  | false => exact meets_pure ⟨ht, hq.toExtends, hnil'⟩
  | true =>
    apply (unregisterEntry_meets ht hnil').imp
    rintro _ u ⟨hu, hext, hnil''⟩
    exact ⟨hu, hq.toExtends.trans hext, hnil''⟩

/-- Registrations are given up one after the other. -/
theorem dropRegistrations_meets (es : List EntryId) (hs : Sound s .idle (es ++ m) d)
    (hnil : s.inner.dropStack = []) :
    (es.forM dropRegistration).Meets s (fun _ t => SoundAfter s t .idle m d) R := by
  refine meets_forM (fun rest t => SoundAfter s t .idle (rest ++ m) d) ?_ es ⟨hs, refl s, hnil⟩
  rintro e rest t ⟨ht, hext, hnil⟩
  apply (dropRegistration_meets ht hnil).imp
  rintro _ u ⟨hu, hext', hnil'⟩
  exact ⟨hu, hext.trans hext', hnil'⟩

end Cascade

end WasmDeps.Types
