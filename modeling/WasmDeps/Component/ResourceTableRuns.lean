import WasmDeps.Component.ResourceTable
import WasmDeps.Lib.LinkedList

/-!
# The host's resource table along a run

The table is consistent when the free list runs through the vacant entries, each once, and
parents and children agree: an entry records `p` as its parent exactly when `p` is live and
lists it as a child.  Every operation keeps the table consistent, whether it returns, fails
or panics, with one exception: `addChild` records the parent in the child before it looks
the parent up, so naming a parent that is not in the table leaves a child of nobody behind.
-/

namespace WasmDeps.Component

open WasmDeps.Lib List Call TableEntry ResourceTable Function

/-! ## Parents and children -/

section Mutual

variable {ι : Type} [DecidableEq ι] {parent : ι → Option ι} {children : ι → Finset ι} {c p : ι}

/-- `p` is the parent of `c` exactly when `c` is a child of `p`. -/
def Mutual (parent : ι → Option ι) (children : ι → Finset ι) : Prop :=
  ∀ c p, parent c = some p ↔ c ∈ children p

theorem Mutual.link (h : Mutual parent children) (hc : parent c = none) (p : ι) :
    Mutual (update parent c (some p))
      (update children p (insert c (children p))) := by
  intro d q
  have hnone : c ∉ children q := by
    rw [← h, hc]
    simp
  by_cases hd : d = c <;> by_cases hq : q = p
  · subst hd hq
    simp
  · subst hd
    simp [hq, hnone, Ne.symm hq]
  · subst hq
    simp [hd, h d q]
  · simp [hd, hq, h d q]

theorem Mutual.unlink (h : Mutual parent children) (hc : parent c = some p) :
    Mutual (update parent c none)
      (update children p ((children p).erase c)) := by
  intro d q
  by_cases hd : d = c <;> by_cases hq : q = p
  · subst hd hq
    simp
  · subst hd
    simp [hq, ← h d q, hc, Ne.symm hq]
  · subst hq
    simp [hd, h d q]
  · simp [hd, hq, h d q]

end Mutual

namespace ResourceTable

variable {t t' t'' : ResourceTable} {k j c p : ℕ} {e pe : TableEntry}

/-! ## What the table says -/

/-- The parent that an entry names. -/
def parentOf (t : ResourceTable) (c : ℕ) : Option ℕ := (t.live? c).bind TableEntry.parent

/-- The children that an entry names. -/
def childrenOf (t : ResourceTable) (p : ℕ) : Finset ℕ :=
  ((t.live? p).map TableEntry.children).getD ∅

/-- The link of the free list at entry `i`. -/
def nextFree (t : ResourceTable) (i : ℕ) : Option ℕ :=
  match t.entries[i]? with
  | some (.free next) => next
  | _ => none

/-- The entry is vacant. -/
def IsVacant (t : ResourceTable) (i : ℕ) : Prop := ∃ next, t.entries[i]? = some (.free next)

/-- The free list visits exactly the vacant entries, each once. -/
def FreeListOk (t : ResourceTable) : Prop :=
  ∃ xs, Path t.nextFree t.freeHead xs none ∧ xs.Nodup ∧ ∀ i, i ∈ xs ↔ t.IsVacant i

/-- The invariant: a sound free list, and parents and children that agree. -/
structure Consistent (t : ResourceTable) : Prop where
  free : t.FreeListOk
  links : Mutual t.parentOf t.childrenOf
  length_le : t.entries.length ≤ u32Max + 1

/-- The two tables differ in the entry of one key, which becomes `x`. -/
def Updates (t t' : ResourceTable) (k : ℕ) (x : Option TableEntry) : Prop :=
  ∀ j, t'.live? j = if j = k then x else t.live? j

theorem live?_eq_some : t.live? k = some e ↔ t.entries[k]? = some (.occupied e) := by
  rw [live?]
  split
  · simp_all
  · rename_i hne
    exact ⟨nofun, fun h => absurd h (hne e)⟩

theorem parentOf_eq (h : t.live? k = some e) : t.parentOf k = e.parent := by
  simp [parentOf, h]

theorem childrenOf_eq (h : t.live? k = some e) : t.childrenOf k = e.children := by
  simp [childrenOf, h]

theorem exists_live_of_mem (h : c ∈ t.childrenOf p) : ∃ pe, t.live? p = some pe := by
  cases he : t.live? p with
  | none => simp [childrenOf, he] at h
  | some pe => exact ⟨pe, rfl⟩

section Updates

variable {x : Option TableEntry} (h : Updates t t' k x)
include h

theorem Updates.parentOf : t'.parentOf = update t.parentOf k (x.bind parent) := by
  funext j
  by_cases hj : j = k
  · subst hj
    simp [parentOf, h j]
  · simp [ResourceTable.parentOf, h j, hj]

theorem Updates.childrenOf :
    t'.childrenOf = update t.childrenOf k ((x.map children).getD ∅) := by
  funext j
  by_cases hj : j = k
  · subst hj
    simp [childrenOf, h j]
  · simp [ResourceTable.childrenOf, h j, hj]

theorem Updates.parentOf_eq (hx : x.bind parent = t.parentOf k) : t'.parentOf = t.parentOf := by
  rw [h.parentOf, hx, update_eq_self]

theorem Updates.childrenOf_eq (hx : (x.map children).getD ∅ = t.childrenOf k) :
    t'.childrenOf = t.childrenOf := by
  rw [h.childrenOf, hx, update_eq_self]

end Updates

/-! ## The primitives -/

theorem getElem?_write (hlt : k < t.entries.length) (x : Entry) (i : ℕ) :
    (t.write k x).entries[i]? = if i = k then some x else t.entries[i]? :=
  getElem?_set_of_lt hlt x i

theorem updates_write (hlt : k < t.entries.length) (e' : TableEntry) :
    Updates t (t.write k (.occupied e')) k (some e') := by
  intro j
  by_cases hj : j = k <;> simp [live?, getElem?_write hlt, hj]

theorem store_spec (hfree : t.FreeListOk) (he : t.live? k = some e) (e' : TableEntry) :
    ∃ t', (store k e').run t = (.ok ⟨⟩, t') ∧ t'.FreeListOk ∧
      t'.entries.length = t.entries.length ∧ Updates t t' k (some e') ∧
      ∀ j, (t'.live? j).isSome = (t.live? j).isSome := by
  have hk := live?_eq_some.mp he
  have hlt := lt_of_getElem? hk
  have hup := updates_write hlt e'
  refine ⟨t.write k (.occupied e'), rfl, ?_, by simp [write], hup, fun j => ?_⟩
  swap
  · rw [hup j]
    split
    · rename_i hj
      simp [hj, he]
    · rfl
  obtain ⟨xs, hpath, hnd, hmem⟩ := hfree
  have hne : ∀ {i}, t.IsVacant i → i ≠ k := by
    rintro i ⟨next, hi⟩ rfl
    rw [hk] at hi
    cases hi
  refine ⟨xs, hpath.congr fun i hi => ?_, hnd, fun i => (hmem i).trans ?_⟩
  · simp [nextFree, getElem?_write hlt, hne ((hmem i).mp hi)]
  constructor
  · rintro ⟨next, hi⟩
    exact ⟨next, by rw [getElem?_write hlt, if_neg (hne ⟨next, hi⟩), hi]⟩
  · rintro ⟨next, hi⟩
    rw [getElem?_write hlt] at hi
    split at hi
    · cases hi
    · exact ⟨next, hi⟩

theorem freeEntry_spec (hfree : t.FreeListOk) (he : t.live? k = some e) :
    ∃ t', (freeEntry k false).run t = (.ok e, t') ∧ t'.FreeListOk ∧
      t'.entries.length = t.entries.length ∧ Updates t t' k none := by
  have hk := live?_eq_some.mp he
  have hlt := lt_of_getElem? hk
  have hget := getElem?_write hlt (.free t.freeHead)
  refine ⟨{ t.write k (.free t.freeHead) with freeHead := some k }, ?_, ?_, by simp [write], ?_⟩
  · simp [freeEntry, run_bind, hk]
  · obtain ⟨xs, hpath, hnd, hmem⟩ := hfree
    have hnot : k ∉ xs := by
      intro hx
      obtain ⟨next, hn⟩ := (hmem k).mp hx
      rw [hk] at hn
      cases hn
    refine ⟨k :: xs, ⟨rfl, ?_⟩, nodup_cons.mpr ⟨hnot, hnd⟩, fun i => ?_⟩
    · have hnext : nextFree { t.write k (.free t.freeHead) with freeHead := some k } k =
          t.freeHead := by simp [nextFree, hget]
      rw [hnext]
      refine hpath.congr fun i hi => ?_
      have hik : i ≠ k := fun heq => hnot (heq ▸ hi)
      simp [nextFree, hget, hik]
    · by_cases hik : i = k
      · simp [IsVacant, hget, hik]
      · simp [IsVacant, hget, hik, hmem i]
  · intro j
    by_cases hj : j = k <;> simp [live?, hget, hj]

theorem pushEntry_spec (hfree : t.FreeListOk) (hlen : t.entries.length ≤ u32Max + 1)
    (e : TableEntry) :
    (pushEntry e).run t = (.error (.error ResourceTableError.full.text), t) ∨
      ∃ k t', (pushEntry e).run t = (.ok k, t') ∧ t.live? k = none ∧ t'.FreeListOk ∧
        t'.entries.length ≤ u32Max + 1 ∧ Updates t t' k (some e) := by
  obtain ⟨xs, hpath, hnd, hmem⟩ := hfree
  cases xs with
  | nil =>
    have hhead : t.freeHead = none := hpath
    by_cases hfull : t.maxCapacity ≤ t.entries.length
    · exact .inl (by simp [pushEntry, popFreeList, run_bind, hhead, hfull])
    by_cases hlg : u32Max < t.entries.length
    · exact .inl (by simp [pushEntry, popFreeList, run_bind, hhead, hfull, hlg])
    refine .inr ⟨t.entries.length, { t with entries := t.entries ++ [.occupied e] }, ?_, ?_, ?_,
      ?_, fun j => ?_⟩
    · simp [pushEntry, popFreeList, run_bind, hhead, hfull, hlg]
    · simp [live?]
    · refine ⟨[], hhead, nodup_nil, fun i => (hmem i).trans ?_⟩
      by_cases hi : i = t.entries.length <;> simp [IsVacant, getElem?_concat, hi]
    · rw [length_append, length_singleton]
      omega
    · by_cases hj : j = t.entries.length <;> simp [live?, getElem?_concat, hj]
  | cons k rest =>
    obtain ⟨hhead, hpath⟩ := hpath
    obtain ⟨hnot, hnd⟩ := nodup_cons.mp hnd
    obtain ⟨next, hk⟩ := (hmem k).mp (.head _)
    have hlt := lt_of_getElem? hk
    have hget := getElem?_write hlt (.occupied e)
    have hnext : t.nextFree k = next := by simp [nextFree, hk]
    have hmax : k ≤ u32Max := by omega
    refine .inr ⟨k, { t.write k (.occupied e) with freeHead := next }, ?_, ?_, ?_, ?_, ?_⟩
    · simp [pushEntry, popFreeList, run_bind, hhead, hk, hmax, write]
    · simp [live?, hk]
    · refine ⟨rest, ?_, hnd, fun i => ?_⟩
      · rw [hnext] at hpath
        refine hpath.congr fun i hi => ?_
        have hik : i ≠ k := fun heq => hnot (heq ▸ hi)
        simp [nextFree, hget, hik]
      · by_cases hik : i = k
        · simp [IsVacant, hget, hik, hnot]
        · have hi := hmem i
          simp only [mem_cons, hik, false_or] at hi
          simp [IsVacant, hget, hik, hi]
    · simpa [write] using hlen
    · exact updates_write hlt e

theorem run_occupied (he : t.live? k = some e) : (occupied k).run t = (.ok e, t) := by
  simp [occupied, run_bind, he]

theorem run_occupied_none (he : t.live? k = none) :
    (occupied k).run t = (.error (.error ResourceTableError.notPresent.text), t) := by
  simp [occupied, run_bind, he]

theorem store_children (hfree : t.FreeListOk) (hp : t.live? p = some pe) (cs : Finset ℕ) :
    ∃ t', (store p { pe with children := cs }).run t = (.ok ⟨⟩, t') ∧ t'.FreeListOk ∧
      t'.entries.length = t.entries.length ∧ t'.parentOf = t.parentOf ∧
      t'.childrenOf = update t.childrenOf p cs ∧
      ∀ j, (t'.live? j).isSome = (t.live? j).isSome := by
  obtain ⟨t', hrun, hfree', hlen, hup, hsome⟩ := store_spec hfree hp { pe with children := cs }
  refine ⟨t', hrun, hfree', hlen, hup.parentOf_eq ?_, hup.childrenOf, hsome⟩
  simp [parentOf, hp]

/-! ## The operations -/

/-- The table is consistent, and the entries that had children are still there. -/
structure Kept (t t' : ResourceTable) : Prop where
  consistent : t'.Consistent
  parents : ∀ k, t.childrenOf k ≠ ∅ → (t'.live? k).isSome

theorem Kept.of_isSome (h : t'.Consistent) (hlive : ∀ k, (t.live? k).isSome → (t'.live? k).isSome) :
    Kept t t' := by
  refine ⟨h, fun k hk => hlive k ?_⟩
  obtain ⟨c, hc⟩ := Finset.nonempty_iff_ne_empty.mpr hk
  obtain ⟨pe, hpe⟩ := exists_live_of_mem hc
  simp [hpe]

theorem Kept.same (h : t.Consistent) : Kept t t := .of_isSome h fun _ => id

section Keeps

variable {α : Type} {m : Call ResourceTable α}

/-- The call keeps the table, and leaves it as it was if it returns an error. -/
structure Keeps (m : Call ResourceTable α) (t : ResourceTable) : Prop where
  kept : Kept t (m.run t).2
  clean : m.Clean t

theorem Keeps.of_ok (a : α) (h : Kept t t') (hrun : m.run t = (.ok a, t')) : Keeps m t := by
  constructor
  · rw [hrun]
    exact h
  · exact clean_of_ok (by rw [hrun])

theorem Keeps.of_error {f : Fault} (h : t.Consistent) (hrun : m.run t = (.error f, t)) :
    Keeps m t := by
  constructor
  · rw [hrun]
    exact .same h
  · intro _ _
    rw [hrun]

end Keeps

section Consistent

variable (h : t.Consistent)
include h

theorem Consistent.push (b : BoxedAny) : Keeps (push b) t := by
  rcases pushEntry_spec h.free h.length_le (.new b none) with
    hrun | ⟨k, t', hrun, hnone, hfree, hlen, hup⟩
  · exact .of_error h hrun
  have hpar := hup.parentOf_eq (by
    simp [parentOf, hnone, TableEntry.new])
  have hch := hup.childrenOf_eq (by
    simp [childrenOf, hnone, TableEntry.new])
  refine .of_ok k (.of_isSome ⟨hfree, ?_, hlen⟩ fun j hj => ?_) hrun
  · rw [hpar, hch]
    exact h.links
  · rw [hup j]
    split
    · rfl
    · exact hj

theorem Consistent.pushChild (b : BoxedAny) (p : ℕ) : Keeps (pushChild b p) t := by
  cases hp : t.live? p with
  | none => exact .of_error h (run_bind_error (run_occupied_none hp) _)
  | some pe =>
    rcases pushEntry_spec h.free h.length_le (.new b (some p)) with
      hrun | ⟨k, t1, hrun, hnone, hfree, hlen, hup⟩
    · exact .of_error h ((run_bind_ok (run_occupied hp) _).trans (run_bind_error hrun _))
    have hne : p ≠ k := fun heq => by simp [heq, hnone] at hp
    have hp1 : t1.live? p = some pe := by rw [hup p, if_neg hne, hp]
    have hkparent : t.parentOf k = none := by simp [parentOf, hnone]
    have hch := hup.childrenOf_eq (by
      simp [childrenOf, hnone, TableEntry.new])
    have hnot : k ∉ pe.children := by
      rw [← childrenOf_eq hp, ← h.links k p, hkparent]
      simp
    obtain ⟨t2, hsto, hfree2, hlen2, hpar2, hch2, hsome⟩ :=
      store_children hfree hp1 (insert k pe.children)
    refine .of_ok k (.of_isSome ⟨hfree2, ?_, hlen2 ▸ hlen⟩ fun j hj => ?_) (by
      simp [ResourceTable.pushChild, run_bind, run_occupied hp, hrun, run_occupied hp1,
        linkChild, hnot, hsto])
    · rw [hpar2, hup.parentOf, hch2, hch, ← childrenOf_eq hp]
      exact h.links.link hkparent p
    · rw [hsome, hup j]
      split
      · rfl
      · exact hj

theorem Consistent.relink (hc : t.live? c = some e) (hp : (t.live? p).isSome)
    (q : Option ℕ) (f : Finset ℕ → Finset ℕ) (hm : Mutual (update t.parentOf c q)
      (update t.childrenOf p (f (t.childrenOf p)))) :
    ∃ t1 pe t2, (store c { e with parent := q }).run t = (.ok ⟨⟩, t1) ∧
      t1.live? p = some pe ∧ pe.children = t.childrenOf p ∧
      (store p { pe with children := f pe.children }).run t1 = (.ok ⟨⟩, t2) ∧ Kept t t2 := by
  obtain ⟨t1, hsto1, hfree1, hlen1, hup, hsome1⟩ := store_spec h.free hc { e with parent := q }
  have hch1 := hup.childrenOf_eq (by
    simp [childrenOf, hc])
  obtain ⟨pe, hp1⟩ := Option.isSome_iff_exists.mp ((hsome1 p).trans hp)
  have hpe : pe.children = t.childrenOf p := by rw [← hch1, childrenOf_eq hp1]
  obtain ⟨t2, hsto2, hfree2, hlen2, hpar2, hch2, hsome2⟩ :=
    store_children hfree1 hp1 (f pe.children)
  refine ⟨t1, pe, t2, hsto1, hp1, hpe, hsto2,
    .of_isSome ⟨hfree2, ?_, hlen2 ▸ hlen1 ▸ h.length_le⟩ fun j hj => ?_⟩
  · rw [hpar2, hup.parentOf, hch2, hpe, hch1]
    exact hm
  · rw [hsome2, hsome1]
    exact hj

theorem Consistent.addChild (c : ℕ) (hp : (t.live? p).isSome) : Keeps (addChild c p) t := by
  cases hc : t.live? c with
  | none => exact .of_error h (run_bind_error (run_occupied_none hc) _)
  | some e =>
    by_cases hnone : e.parent = none
    · have hcparent : t.parentOf c = none := (parentOf_eq hc).trans hnone
      obtain ⟨t1, pe, t2, hsto1, hp1, hpe, hsto2, hkept⟩ :=
        h.relink hc hp (some p) (insert c) (h.links.link hcparent p)
      have hnot : c ∉ pe.children := by
        rw [hpe, ← h.links c p, hcparent]
        simp
      exact .of_ok ⟨⟩ hkept (by
        simp [ResourceTable.addChild, run_bind, run_occupied hc, hnone, hsto1,
          run_occupied hp1, linkChild, hnot, hsto2])
    · exact .of_error h (by
        rw [ResourceTable.addChild, run_bind_ok (run_occupied hc), ensure_of_not hnone]
        rfl)

theorem Consistent.removeChild (c p : ℕ) : Keeps (removeChild c p) t := by
  cases hc : t.live? c with
  | none => exact .of_error h (run_bind_error (run_occupied_none hc) _)
  | some e =>
    by_cases hpar : e.parent = some p
    · have hcparent : t.parentOf c = some p := (parentOf_eq hc).trans hpar
      have hmem := (h.links c p).mp hcparent
      obtain ⟨_, hp⟩ := exists_live_of_mem hmem
      obtain ⟨t1, pe, t2, hsto1, hp1, hpe, hsto2, hkept⟩ :=
        h.relink hc (Option.isSome_of_eq_some hp) none (.erase · c) (h.links.unlink hcparent)
      rw [← hpe] at hmem
      exact .of_ok ⟨⟩ hkept (by
        simp [ResourceTable.removeChild, run_bind, run_occupied hc, hpar, hsto1,
          run_occupied hp1, unlinkChild, hmem, hsto2])
    · exact .of_error h (by
        rw [ResourceTable.removeChild, run_bind_ok (run_occupied hc), ensure_of_not hpar]
        rfl)

/-- Deleting returns the entry or fails with an error, and does not panic. -/
theorem Consistent.deleteEntry (k : ℕ) :
    (∃ e t', t.live? k = some e ∧ Kept t t' ∧
      (deleteEntry k deleteWithTombstone).run t = (.ok e, t')) ∨
    ∃ msg, (deleteEntry k deleteWithTombstone).run t = (.error (.error msg), t) := by
  cases hk : t.live? k with
  | none => exact .inr ⟨_, run_bind_error (run_occupied_none hk) _⟩
  | some e =>
    by_cases hnone : e.children = ∅
    · obtain ⟨t1, hfreed, hfree1, hlen1, hup⟩ := freeEntry_spec h.free hk
      have hch := hup.childrenOf_eq (by
        simp [childrenOf, hk, hnone])
      -- The entries with children are other entries.
      have hothers : ∀ j, t.childrenOf j ≠ ∅ → (t1.live? j).isSome := by
        intro j hj
        have hne : j ≠ k := fun heq => hj (by rw [heq, childrenOf_eq hk, hnone])
        obtain ⟨c, hc⟩ := Finset.nonempty_iff_ne_empty.mpr hj
        obtain ⟨pe, hpe⟩ := exists_live_of_mem hc
        simp [hup j, hne, hpe]
      cases hpar : e.parent with
      | none =>
        refine .inl ⟨e, t1, rfl, ⟨⟨hfree1, ?_, hlen1 ▸ h.length_le⟩, hothers⟩, ?_⟩
        · rw [hch, hup.parentOf_eq (by simp [parentOf, hk, hpar])]
          exact h.links
        · simp [ResourceTable.deleteEntry, run_bind, run_occupied hk, hnone, hfreed, hpar]
      | some p =>
        have hkparent := (parentOf_eq hk).trans hpar
        have hmem := (h.links k p).mp hkparent
        obtain ⟨pe, hp1⟩ := exists_live_of_mem (hch ▸ hmem)
        rw [← hch, childrenOf_eq hp1] at hmem
        obtain ⟨t2, hsto, hfree2, hlen2, hpar2, hch2, hsome⟩ :=
          store_children hfree1 hp1 (pe.children.erase k)
        refine .inl ⟨e, t2, rfl, ⟨⟨hfree2, ?_, hlen2 ▸ hlen1 ▸ h.length_le⟩, fun j hj => ?_⟩, ?_⟩
        · rw [hpar2, hup.parentOf, hch2, ← childrenOf_eq hp1, hch]
          exact h.links.unlink hkparent
        · rw [hsome]
          exact hothers j hj
        · simp [ResourceTable.deleteEntry, run_bind, run_occupied hk, hnone, hfreed, hpar,
            hp1, unlinkChild, hmem, hsto]
    · exact .inr ⟨_, by
        rw [ResourceTable.deleteEntry, run_bind_ok (run_occupied hk), if_pos hnone]
        rfl⟩

/-- Only at the type of the entry is the type checked before anything is done. -/
theorem Consistent.delete (typeId k : ℕ) :
    Kept t ((delete typeId k).run t).2 ∧
      (∀ msg, ((delete typeId k).run t).1 ≠ .error (.panic msg)) ∧
      ((∀ e, t.live? k = some e → e.entry.typeId = typeId) → (delete typeId k).Clean t) := by
  rw [Call.Clean]
  rcases h.deleteEntry k with ⟨e, t', hk, hkept, hrun⟩ | ⟨msg, hrun⟩
  · simp only [ResourceTable.delete, deleteMaybeDebug, run_bind, hrun]
    split
    · exact ⟨hkept, nofun, nofun⟩
    · rename_i hdown
      exact ⟨hkept, nofun, fun hty => by simp [BoxedAny.downcast, hty e hk] at hdown⟩
  · simp only [ResourceTable.delete, deleteMaybeDebug, run_bind, hrun]
    exact ⟨.same h, nofun, fun _ _ _ => trivial⟩

theorem Consistent.get (typeId k : ℕ) : Kept t ((get typeId k).run t).2 := by
  cases hk : t.live? k with
  | none =>
    rw [ResourceTable.get, run_bind, run_occupied_none hk]
    exact .same h
  | some e =>
    simp only [ResourceTable.get, run_bind, run_occupied hk]
    split
    · exact .same h
    · exact .same h

end Consistent

/-! ## Runs -/

/-- The operations of the table. -/
inductive Op
  | push (entry : BoxedAny)
  | pushChild (entry : BoxedAny) (parent : ℕ)
  | addChild (child parent : ℕ)
  | removeChild (child parent : ℕ)
  | get (typeId key : ℕ)
  | delete (typeId key : ℕ)
  | setMaxCapacity (max : ℕ)

/-- The table after an operation, whatever its outcome. -/
def apply (t : ResourceTable) : Op → ResourceTable
  | .push entry => ((push entry).run t).2
  | .pushChild entry parent => ((pushChild entry parent).run t).2
  | .addChild child parent => ((addChild child parent).run t).2
  | .removeChild child parent => ((removeChild child parent).run t).2
  | .get typeId key => ((get typeId key).run t).2
  | .delete typeId key => ((delete typeId key).run t).2
  | .setMaxCapacity max => ((setMaxCapacity max).run t).2

/-- A parent that is given to an entry is in the table. -/
def ParentLive (t : ResourceTable) : Op → Prop
  | .addChild _ parent => (t.live? parent).isSome
  | _ => True

instance (t : ResourceTable) (op : Op) : Decidable (t.ParentLive op) :=
  match op with
  | .addChild _ parent => inferInstanceAs (Decidable ((t.live? parent).isSome = true))
  | .push _ | .pushChild _ _ | .removeChild _ _ | .get _ _ | .delete _ _ | .setMaxCapacity _ =>
    .isTrue trivial

theorem Consistent.apply (h : t.Consistent) {op : Op} (hop : t.ParentLive op) :
    Kept t (t.apply op) := by
  cases op with
  | push entry => exact (h.push entry).kept
  | pushChild entry parent => exact (h.pushChild entry parent).kept
  | addChild child parent => exact (h.addChild child hop).kept
  | removeChild child parent => exact (h.removeChild child parent).kept
  | get typeId key => exact h.get typeId key
  | delete typeId key => exact (h.delete typeId key).1
  | setMaxCapacity max => exact .of_isSome ⟨h.free, h.links, h.length_le⟩ fun _ => id

theorem consistent_new : new.Consistent where
  free := ⟨[], rfl, nodup_nil, by simp [IsVacant, new]⟩
  links := by simp [Mutual, parentOf, childrenOf, live?, new]
  length_le := Nat.zero_le _

end ResourceTable

/-- Runs of operations on a new table.  An operation that fails or panics leaves what it has
done so far. -/
def resourceTableMachine : Machine ResourceTable ResourceTable.Op where
  start := fun t => t = .new
  allowed := fun _ _ => True
  step := fun t op => .ok (t.apply op)

instance (t : ResourceTable) (op : ResourceTable.Op) :
    Decidable (resourceTableMachine.allowed t op) := .isTrue trivial

theorem consistent_of_reaches {t : ResourceTable}
    (ht : (resourceTableMachine.onlyWhen ResourceTable.ParentLive).Reaches t) : t.Consistent := by
  apply ht.invariant
  · rintro _ rfl
    exact consistent_new
  · rintro t op _ h ⟨-, hop⟩ hok
    cases hok
    exact (h.apply hop).consistent

/-- **The resource table stays consistent.**  In every run in which `addChild` is given
parents that are in the table: the free list visits exactly the vacant entries, each once;
an entry records a parent exactly when that lists it as a child; no such operation removes an
entry that has children; and `delete` does not panic. -/
theorem resource_table_consistent {t : ResourceTable}
    (ht : (resourceTableMachine.onlyWhen ResourceTable.ParentLive).Reaches t) :
    t.FreeListOk ∧ (∀ c p, t.parentOf c = some p ↔ c ∈ t.childrenOf p) ∧
      (∀ op, t.ParentLive op → ∀ k, t.childrenOf k ≠ ∅ → ((t.apply op).live? k).isSome) ∧
      ∀ typeId k msg, ((ResourceTable.delete typeId k).run t).1 ≠ .error (.panic msg) := by
  have h := consistent_of_reaches ht
  exact ⟨h.free, h.links, fun op hop => (h.apply hop).parents,
    fun typeId k => (h.delete typeId k).2.1⟩

/-- A parent with a child that was added and one that was pushed. -/
theorem resource_table_consistent_family :
    ∃ t, (resourceTableMachine.onlyWhen ResourceTable.ParentLive).Reaches t ∧
      t.childrenOf 0 = {1, 2} ∧ t.parentOf 2 = some 0 ∧
      ((t.apply (.delete 1 0)).live? 0).isSome := by
  obtain ⟨t, ht, hp⟩ := Machine.reaches_of_run?
    (M := resourceTableMachine.onlyWhen ParentLive)
    (p := fun t => t.childrenOf 0 = {1, 2})
    [.push ⟨1, 0⟩, .push ⟨1, 0⟩, .addChild 1 0, .pushChild ⟨2, 0⟩ 0] rfl (by decide +kernel)
  have hc := of_decide_eq_true hp
  obtain ⟨-, hlinks, hkeep, -⟩ := resource_table_consistent ht
  refine ⟨t, ht, hc, (hlinks 2 0).mpr ?_, hkeep (.delete 1 0) trivial 0 ?_⟩ <;> rw [hc] <;> decide

/-- **Deleting a child of nobody.**  `addChild` fails because the parent is not in the table,
and the next `delete` of the child panics. -/
theorem resource_table_missing_parent :
    ∃ t, resourceTableMachine.Reaches t ∧
      ((ResourceTable.addChild 0 5).run t).1 =
        .error (.error ResourceTableError.notPresent.text) ∧
      ((ResourceTable.delete 1 0).run (t.apply (.addChild 0 5))).1 =
        .error (.panic "missing parent") := by
  refine ⟨new.apply (.push ⟨1, 0⟩), .step (.start rfl) trivial rfl, rfl, rfl⟩

end WasmDeps.Component
