import WasmDeps.Gc.DrcStore

/-!
# The over-approximated-stack-roots list

The list is threaded through the headers of the objects, each of which also has an
in-list bit and a mark.  A collection marks the objects that are on the Wasm stack, and
then takes the others off the list, which drops the list's references to them: this may
free objects while the sweep is under way, but none of those that are still on the list.
-/

namespace WasmDeps.Gc

open WasmDeps.Lib FreeList DrcObject List SortedMap Option VMGcRef DrcHeap

/-! ## The roots list -/

variable {h h' : DrcHeap} {host host' : ExternRefHostDataTable} {r : VMGcRef} {o o' : DrcObject}
  {xs kept todo : List ℕ} {x : ℕ}

namespace DrcHeap

/-- The object after `x` on the roots list. -/
def nextRoot (h : DrcHeap) (x : ℕ) : Option ℕ :=
  ((h.objects.get? x).bind fun o => o.nextOverApproximatedStackRoot).map VMGcRef.raw

/-- The first object on the list of stack roots. -/
def headRoot (h : DrcHeap) : Option ℕ := h.overApproximatedStackRoots.map VMGcRef.raw

/-- The object is on the list of stack roots. -/
def InList (h : DrcHeap) (x : ℕ) : Prop :=
  ∃ o, h.objects.get? x = some o ∧ o.inOverApproximatedStackRoots = true

/-- **The roots list is `xs`**: it is linked up in this order, these are the objects with the
in-list bit, none occurs twice, and its length is recorded. -/
structure Rooted (h : DrcHeap) (xs : List ℕ) : Prop where
  path : Path h.nextRoot h.headRoot xs none
  inList_iff : ∀ x, h.InList x ↔ x ∈ xs
  nodup : xs.Nodup
  len : h.currentOverApproximatedStackRootsLen = xs.length

theorem Rooted.get? (R : h.Rooted xs) (hx : x ∈ xs) :
    ∃ o, h.objects.get? x = some o ∧ o.inOverApproximatedStackRoots = true :=
  (R.inList_iff x).mpr hx

/-- The list depends on its links only. -/
theorem Rooted.congr (R : h.Rooted xs)
    (hhead : h'.overApproximatedStackRoots = h.overApproximatedStackRoots)
    (hlen : h'.currentOverApproximatedStackRootsLen = h.currentOverApproximatedStackRootsLen)
    (hkept : ∀ x ∈ xs, ∀ o, h.objects.get? x = some o → ∃ o', h'.objects.get? x = some o' ∧
      o'.inOverApproximatedStackRoots = o.inOverApproximatedStackRoots ∧
      o'.nextOverApproximatedStackRoot = o.nextOverApproximatedStackRoot)
    (hnew : ∀ x o', h'.objects.get? x = some o' → o'.inOverApproximatedStackRoots = true →
      h.InList x) : h'.Rooted xs where
  path := by
    have hhead' : h'.headRoot = h.headRoot := by rw [headRoot, headRoot, hhead]
    rw [hhead']
    refine R.path.congr fun x hx => ?_
    obtain ⟨o, ho, -⟩ := R.get? hx
    obtain ⟨o', ho', -, hnext⟩ := hkept x hx o ho
    rw [nextRoot, nextRoot, ho, ho', bind_some, bind_some, hnext]
  inList_iff x := by
    constructor
    · intro ⟨o', ho', hin⟩
      exact (R.inList_iff x).mp (hnew x o' ho' hin)
    · intro hx
      obtain ⟨o, ho, hin⟩ := R.get? hx
      obtain ⟨o', ho', hin', -⟩ := hkept x hx o ho
      exact ⟨o', ho', hin'.trans hin⟩
  nodup := R.nodup
  len := hlen.trans R.len

theorem Rooted.of_keepsRoots (R : h.Rooted xs) (K : h'.KeepsRoots h)
    (hmem : ∀ x ∈ xs, x ∈ h'.objects.keys) : h'.Rooted xs := by
  refine R.congr K.frame.roots K.frame.len (fun x hx o ho => ?_) fun x o' ho' hin => ?_
  · obtain ⟨o', ho'⟩ := mem_keys.mp (hmem x hx)
    obtain ⟨p, hp, -, hin, hnext⟩ := K.get?_eq x o' ho'
    obtain rfl : o = p := some.inj (ho.symm.trans hp)
    exact ⟨o', ho', hin, hnext⟩
  · obtain ⟨o, ho, -, hin', -⟩ := K.get?_eq x o' ho'
    exact ⟨o, ho, hin'.symm.trans hin⟩

/-- An object becomes the head of the list. -/
theorem Rooted.push (R : h.Rooted xs) (hnot : x ∉ xs) (hhead : h'.headRoot = some x)
    (hlen : h'.currentOverApproximatedStackRootsLen = h.currentOverApproximatedStackRootsLen + 1)
    (hin : o'.inOverApproximatedStackRoots = true)
    (hnext : o'.nextOverApproximatedStackRoot = h.overApproximatedStackRoots)
    (hget : ∀ y, h'.objects.get? y = if y = x then some o' else h.objects.get? y) :
    h'.Rooted (x :: xs) := by
  refine ⟨⟨hhead, ?_⟩, fun y => ?_, nodup_cons.mpr ⟨hnot, R.nodup⟩, ?_⟩
  · have hfst : h'.nextRoot x = h.headRoot := by
      rw [nextRoot, hget, if_pos rfl, bind_some, hnext, headRoot]
    rw [hfst]
    refine R.path.congr fun y hy => ?_
    have hne : y ≠ x := fun heq => hnot (heq ▸ hy)
    rw [nextRoot, nextRoot, hget, if_neg hne]
  · have hiff := R.inList_iff y
    rw [InList] at hiff ⊢
    rw [hget]
    by_cases hy : y = x
    · simp [hy, hin]
    · simpa [hy] using hiff
  · rw [hlen, R.len, length_cons]

/-- The object is marked. -/
def isMarked (h : DrcHeap) (x : ℕ) : Bool := (h.objects.get? x).any fun o => o.marked

theorem KeepsRoots.isMarked_eq (K : h'.KeepsRoots h) (hx : x ∈ h'.objects.keys) :
    h'.isMarked x = h.isMarked x := by
  obtain ⟨o', ho'⟩ := mem_keys.mp hx
  obtain ⟨o, ho, hm, -⟩ := K.get?_eq x o' ho'
  rw [isMarked, isMarked, ho', ho, any_some, any_some, hm]

theorem get?_of_not_mem (hx : x ∉ h.objects.keys) : h.objects.get? x = none := by
  rw [SortedMap.mem_keys] at hx
  exact eq_none_iff_forall_ne_some.mpr fun p hp => hx ⟨p, hp⟩

theorem isMarked_of_not_mem (hx : x ∉ h.objects.keys) : h.isMarked x = false := by
  rw [isMarked, get?_of_not_mem hx, any_none]

theorem refCount_of_not_mem (hx : x ∉ h.objects.keys) : h.refCount x = 0 := by
  rw [refCount, get?_of_not_mem hx]
  rfl

theorem length_le_size (hnd : xs.Nodup) (hmem : ∀ x ∈ xs, x ∈ h.objects.keys) :
    xs.length ≤ h.objects.size := by
  have hsub : xs ⊆ h.objects.entries.map Prod.fst := by
    intro x hx
    obtain ⟨o, ho⟩ := mem_keys.mp (hmem x hx)
    exact mem_map.mpr ⟨(x, o), get?_eq_some.mp ho, rfl⟩
  have := (hnd.subperm hsub).length_le
  simpa [size] using this

theorem Rooted.length_le (R : h.Rooted xs) : xs.length ≤ h.objects.size :=
  length_le_size R.nodup fun _ hx => by
    obtain ⟨o, ho, -⟩ := R.get? hx
    exact mem_keys_of_get? ho

/-! ## Tracing -/

/-- The iterator gives the list. -/
theorem iterFrom_spec (S : h.Sound host) {fuel : ℕ} {next : Option VMGcRef}
    (hpath : Path h.nextRoot (next.map raw) xs none) (hin : ∀ x ∈ xs, h.InList x)
    (hfuel : xs.length < fuel) : ∃ rs, h.iterFrom fuel next = .ok rs ∧ rs.map raw = xs := by
  induction xs generalizing fuel next with
  | nil =>
    obtain rfl : next = none := map_eq_none_iff.mp hpath
    obtain ⟨fuel, rfl⟩ := Nat.exists_eq_succ_of_ne_zero (Nat.ne_zero_of_lt hfuel)
    exact ⟨[], rfl, rfl⟩
  | cons x xs ih =>
    obtain ⟨fuel, rfl⟩ := Nat.exists_eq_succ_of_ne_zero (Nat.ne_zero_of_lt hfuel)
    obtain ⟨r, rfl, rfl⟩ := map_eq_some_iff.mp hpath.1
    obtain ⟨o, ho, hbit⟩ := hin _ (.head _)
    have hlink : h.nextRoot r.raw = o.nextOverApproximatedStackRoot.map raw := by
      rw [nextRoot, ho, bind_some]
    obtain ⟨rs, hrs, hmap⟩ := ih (hlink ▸ hpath.2)
      (fun y hy => hin y (.tail _ hy)) (Nat.lt_of_succ_lt_succ hfuel)
    refine ⟨r :: rs, ?_, by rw [map_cons, hmap]⟩
    simp [iterFrom, index_eq (S.stored.two_dvd ho) ho, getNext, hbit, hrs]

theorem Rooted.iter_eq (R : h.Rooted xs) (S : h.Sound host) :
    ∃ rs, h.iterOverApproximatedStackRoots = .ok rs ∧ rs.map raw = xs :=
  iterFrom_spec S R.path (fun x hx => (R.inList_iff x).mpr hx) (Nat.lt_succ_of_le R.length_le)

end DrcHeap

/-- The objects that the stack refers to. -/
def stackRefs (roots : List GcRoot) : List ℕ :=
  (roots.filter fun r => r.isOnWasmStack && !r.gcRef.isI31).map fun r => r.gcRef.raw

namespace DrcHeap

variable {h'' : DrcHeap} {held : ℕ → ℕ}

/-- A heap with the roots list `xs`, which holds a reference to each of its objects besides
those that are held elsewhere. -/
structure Listed (h : DrcHeap) (host : ExternRefHostDataTable) (held : ℕ → ℕ) (xs : List ℕ) :
    Prop where
  sound : h.Sound host
  rooted : h.Rooted xs
  counted : h.Counted fun x => held x + xs.count x

theorem Listed.mem_keys (L : h.Listed host held xs) (hx : x ∈ xs) : x ∈ h.objects.keys :=
  L.counted.held_mem x (by have := count_pos_iff.mpr hx; omega)

theorem Listed.setMarked (L : h.Listed host held xs) (hr : h.objects.get? r.raw = some o)
    (m : Bool) : (h.put r { o with marked := m }).Listed host held xs := by
  have B : SameBody { o with marked := m } o := ⟨rfl, rfl, rfl, rfl⟩
  have hpos : 0 < o.refCount := by
    simpa [refCount, hr] using L.counted.count_pos _ (mem_keys_of_get? hr)
  refine ⟨L.sound.put hr B, L.rooted.congr rfl rfl (fun x _ p hp => ?_) fun x p hp hin => ?_,
    L.counted.put hr B hpos (fun _ _ => rfl) rfl⟩
  · rw [put, get?_insert]
    by_cases hx : x = r.raw
    · obtain rfl : p = o := some.inj (hp.symm.trans (hx ▸ hr))
      exact ⟨{ p with marked := m }, if_pos hx, rfl, rfl⟩
    · exact ⟨p, (if_neg hx).trans hp, rfl, rfl⟩
  rw [put, get?_insert] at hp
  split at hp
  · rename_i hx
    obtain rfl := some.inj hp
    exact ⟨o, hx ▸ hr, hin⟩
  · exact ⟨p, hp, hin⟩

/-- The heaps differ in the marks only: those of `ms` are new. -/
structure Marks (h h' : DrcHeap) (ms : List ℕ) : Prop where
  frame : h'.SameFrame h
  get?_eq : ∀ x, h'.objects.get? x =
    (h.objects.get? x).map fun o => { o with marked := o.marked || decide (x ∈ ms) }

theorem marks_nil : h.Marks h [] := ⟨.rfl, fun x => by simp⟩

theorem Marks.trans {ms ns : List ℕ} (a : h.Marks h' ms) (b : h'.Marks h'' ns) :
    h.Marks h'' (ms ++ ns) where
  frame := b.frame.trans a.frame
  get?_eq x := by
    rw [b.get?_eq, a.get?_eq, Option.map_map]
    refine congrArg (fun f => (h.objects.get? x).map f) (funext fun o => ?_)
    simp [Bool.or_assoc]

theorem marks_put (hr : h.objects.get? r.raw = some o) :
    h.Marks (h.put r { o with marked := true }) [r.raw] where
  frame := ⟨rfl, rfl, rfl, rfl, rfl⟩
  get?_eq x := by
    rw [put]
    by_cases hx : x = r.raw
    · simp [hx, hr]
    · simp [hx]

/-- Tracing a root marks it. -/
theorem traceRoot_spec (L : h.Listed host held xs) {rs : List VMGcRef}
    (hrs : rs.map raw = xs) {root : GcRoot} (hroot : stackRefs [root] ⊆ xs) :
    ∃ h', h.traceRoot rs root = .ok h' ∧ h'.Listed host held xs ∧
      h.Marks h' (stackRefs [root]) := by
  cases hstk : root.isOnWasmStack && !root.gcRef.isI31 with
  | false =>
    have hskip : (!root.isOnWasmStack || root.gcRef.isI31) = true := by
      simpa [Decidable.imp_iff_not_or] using hstk
    refine ⟨h, ?_, L, ?_⟩
    · rw [traceRoot, if_pos hskip]
      rfl
    · simpa [stackRefs, hstk] using marks_nil
  | true =>
    have hskip : (!root.isOnWasmStack || root.gcRef.isI31) = false := by
      simpa using hstk
    have hrefs : stackRefs [root] = [root.gcRef.raw] := by simp [stackRefs, hstk]
    have hmem := hroot (hrefs ▸ mem_singleton_self _)
    obtain ⟨o, ho, hin⟩ := L.rooted.get? hmem
    have hpos : o.refCount ≠ 0 := by
      have := L.counted.count_pos _ (mem_keys_of_get? ho)
      rw [refCount, ho, map_some, getD_some] at this
      omega
    have hset : root.gcRef ∈ rs := by
      obtain ⟨r, hr, heq⟩ := mem_map.mp (hrs ▸ hmem)
      rwa [← VMGcRef.ext heq]
    refine ⟨_, ?_, L.setMarked ho true, hrefs ▸ marks_put ho⟩
    simp [traceRoot, hskip, index_eq (L.sound.stored.two_dvd ho) ho, hin, hpos, hset]

variable {roots : List GcRoot} {prev : Option VMGcRef}

/-- **Tracing** marks the objects that are on the Wasm stack. -/
theorem trace_spec (L : h.Listed host held xs) (hrts : stackRefs roots ⊆ xs) :
    ∃ h', h.trace roots = .ok h' ∧ h'.Listed host held xs ∧ h.Marks h' (stackRefs roots) := by
  obtain ⟨rs, hiter, hrs⟩ := L.rooted.iter_eq L.sound
  have hloop : ∃ h', roots.foldlM (traceRoot rs) h = .ok h' ∧ h'.Listed host held xs ∧
      h.Marks h' (stackRefs roots) := by
    clear hiter
    induction roots generalizing h with
    | nil => exact ⟨h, rfl, L, marks_nil⟩
    | cons root roots ih =>
      have hcons : stackRefs (root :: roots) = stackRefs [root] ++ stackRefs roots := by
        simp [stackRefs, ← map_append, ← filter_append]
      rw [hcons, append_subset] at hrts
      obtain ⟨h1, hok1, L1, M1⟩ := traceRoot_spec L hrs hrts.1
      obtain ⟨h2, hok2, L2, M2⟩ := ih L1 hrts.2
      refine ⟨h2, ?_, L2, hcons ▸ M1.trans M2⟩
      rw [foldlM_cons, hok1]
      exact hok2
  obtain ⟨h', hok, L', M⟩ := hloop
  refine ⟨h', ?_, L', M⟩
  rw [trace, hiter]
  exact hok

/-! ## Sweeping -/

theorem Sound.congr (S : h.Sound host) (hobj : h'.objects = h.objects)
    (hinfos : h'.traceInfos = h.traceInfos) (hstd : h'.Stored)
    (hallocs : h'.tracingAllocs = h.tracingAllocs) : h'.Sound host where
  typed x o ho := by
    have W := S.typed x o (hobj ▸ ho)
    exact ⟨W.size_le, W.data_le, W.externref, fun ty hty => hinfos ▸ W.fits ty hty⟩
  host_live x id hid := S.host_live x id (by rwa [hostDataAt, hobj] at hid)
  host_inj x y id hx hy := by
    rw [hostDataAt, hobj] at hx hy
    exact S.host_inj x y id hx hy
  stored := hstd
  allocs := hallocs.trans S.allocs

theorem children_congr (hinfos : h'.traceInfos = h.traceInfos) : h'.children = h.children := by
  funext o
  simp [children, refOffsets, hinfos]

theorem Counted.congr {ext : ℕ → ℕ} (C : h.Counted ext) (hobj : h'.objects = h.objects)
    (hinfos : h'.traceInfos = h.traceInfos) : h'.Counted ext := by
  have hfld : h'.fields = h.fields := by
    funext x
    rw [fields, fields, hobj, children_congr hinfos]
  have hcnt : h'.refCount = h.refCount := by
    funext x
    rw [refCount, refCount, hobj]
  have hgraph : h'.graph = h.graph := by rw [graph, graph, hobj, hfld]
  refine ⟨?_, ?_, ?_, ?_⟩
  · rw [hobj, hfld]
    exact C.closed
  · rw [hobj]
    exact C.held_mem
  · rw [hobj, hcnt]
    exact C.count_pos
  · rw [hobj, hcnt, hgraph]
    exact C.count_eq

/-- The objects of `h'` are objects of `h` with the same bodies. -/
structure Within (h' h : DrcHeap) : Prop where
  traceInfos : h'.traceInfos = h.traceInfos
  noGcCount : h'.noGcCount = h.noGcCount
  get?_eq : ∀ x o', h'.objects.get? x = some o' → ∃ o, h.objects.get? x = some o ∧ o'.SameBody o

namespace Within

protected theorem rfl : h.Within h := ⟨rfl, rfl, fun _ o ho => ⟨o, ho, rfl, rfl, rfl, rfl⟩⟩

theorem trans (a : h''.Within h') (b : h'.Within h) : h''.Within h where
  traceInfos := a.traceInfos.trans b.traceInfos
  noGcCount := a.noGcCount.trans b.noGcCount
  get?_eq x o'' ho'' := by
    obtain ⟨o', ho', B'⟩ := a.get?_eq x o'' ho''
    obtain ⟨o, ho, B⟩ := b.get?_eq x o' ho'
    exact ⟨o, ho, B'.kind.trans B.kind, B'.ty.trans B.ty, B'.objectSize.trans B.objectSize,
      B'.data.trans B.data⟩

theorem put (hr : h.objects.get? r.raw = some o) (B : o'.SameBody o) :
    (h.put r o').Within h where
  traceInfos := rfl
  noGcCount := rfl
  get?_eq x p hp := by
    rw [DrcHeap.put, get?_insert] at hp
    split at hp
    · rename_i hx
      obtain rfl := some.inj hp
      exact ⟨o, hx ▸ hr, B⟩
    · exact ⟨p, hp, rfl, rfl, rfl, rfl⟩

theorem of_shrinks (H : h'.Shrinks h) : h'.Within h where
  traceInfos := H.frame.traceInfos
  noGcCount := H.frame.noGcCount
  get?_eq x o' ho' := by
    obtain ⟨o, ho, heq⟩ := H.get?_eq x o' ho'
    refine ⟨o, ho, ?_⟩
    rw [heq]
    exact ⟨rfl, rfl, rfl, rfl⟩

theorem of_marks {ms : List ℕ} (M : h.Marks h' ms) : h'.Within h where
  traceInfos := M.frame.traceInfos
  noGcCount := M.frame.noGcCount
  get?_eq x o' ho' := by
    rw [M.get?_eq] at ho'
    obtain ⟨o, ho, rfl⟩ := map_eq_some_iff.mp ho'
    exact ⟨o, ho, rfl, rfl, rfl, rfl⟩

theorem keys_subset (W : h'.Within h) : h'.objects.keys ⊆ h.objects.keys := by
  intro x hx
  obtain ⟨o', ho'⟩ := mem_keys.mp hx
  obtain ⟨o, ho, -⟩ := W.get?_eq x o' ho'
  exact mem_keys_of_get? ho

theorem fields_eq (W : h'.Within h) (hx : x ∈ h'.objects.keys) : h'.fields x = h.fields x := by
  obtain ⟨o', ho'⟩ := mem_keys.mp hx
  obtain ⟨o, ho, B⟩ := W.get?_eq x o' ho'
  simp [fields, ho, ho', map_some, getD_some, children_congr W.traceInfos, B.children_eq]

end Within

/-- **The sweep has come this far**: the objects `kept` stay on the list, `todo` are still to
be looked at, and only those may be marked. -/
structure Sweeping (h : DrcHeap) (host : ExternRefHostDataTable) (held : ℕ → ℕ)
    (kept todo : List ℕ) : Prop where
  listed : h.Listed host held (kept ++ todo)
  unmarked : ∀ x, x ∉ todo → h.isMarked x = false

/-- A marked object stays on the list. -/
theorem Sweeping.keep (W : h.Sweeping host held kept (r.raw :: todo))
    (hr : h.objects.get? r.raw = some o) :
    (h.put r { o with marked := false }).Sweeping host held (kept ++ [r.raw]) todo where
  listed := by
    rw [append_assoc]
    exact W.listed.setMarked hr false
  unmarked x hx := by
    rw [isMarked, put, get?_insert]
    split
    · rfl
    · rename_i hne
      exact W.unmarked x fun hmem => (mem_cons.mp hmem).elim hne hx

/-- An unmarked object is taken off the list. -/
theorem unlink_spec (L : h.Listed host held (kept ++ r.raw :: todo))
    (hr : h.objects.get? r.raw = some o) (hprev : prev.map raw = kept.getLast?) :
    ∃ h', (h.put r { o with inOverApproximatedStackRoots := false }).unlink prev
        o.nextOverApproximatedStackRoot = .ok h' ∧
      h'.Sound host ∧ h'.Within h ∧
      (h'.Counted fun x => held x + (kept ++ r.raw :: todo).count x) ∧
      h'.currentOverApproximatedStackRootsLen = h.currentOverApproximatedStackRootsLen ∧
      h'.headRoot = (if kept = [] then h.nextRoot r.raw else h.headRoot) ∧
      ∀ x, h'.objects.get? x =
        if x = r.raw then some { o with inOverApproximatedStackRoots := false }
        else if kept.getLast? = some x then (h.objects.get? x).map fun p =>
          { p with nextOverApproximatedStackRoot := o.nextOverApproximatedStackRoot }
        else h.objects.get? x := by
  obtain ⟨o', ho'⟩ : ∃ o', o' = { o with inOverApproximatedStackRoots := false } :=
    ⟨_, rfl⟩
  have B : o'.SameBody o := ho' ▸ ⟨rfl, rfl, rfl, rfl⟩
  have hcnt : o'.refCount = o.refCount := ho' ▸ rfl
  have hpos : ∀ {x p}, h.objects.get? x = some p → 0 < p.refCount := by
    intro x p hp
    simpa [refCount, hp] using L.counted.count_pos _ (mem_keys_of_get? hp)
  have S1 := L.sound.put hr B
  have C1 := L.counted.put hr B (hcnt ▸ hpos hr) (fun _ _ => rfl) (by rw [hcnt])
  have hnext : h.nextRoot r.raw = o.nextOverApproximatedStackRoot.map raw := by
    rw [nextRoot, hr, bind_some]
  rw [← ho']
  cases prev with
  | none =>
    obtain rfl : kept = [] := getLast?_eq_none_iff.mp hprev.symm
    refine ⟨_, rfl, S1.congr rfl rfl (S1.stored.congr rfl rfl fun _ => rfl) rfl,
      ⟨rfl, rfl, (Within.put hr B).get?_eq⟩, C1.congr rfl rfl, rfl, hnext.symm, fun x => ?_⟩
    simp [put]
  | some p =>
    -- The link of the previous object is rewritten.
    have hlast := hprev.symm
    have hmem := mem_of_getLast? hlast
    have hne : p.raw ≠ r.raw := fun heq =>
      (nodup_append.mp L.rooted.nodup).2.2 _ hmem r.raw (.head _) heq
    obtain ⟨q, hq, hin⟩ := L.rooted.get? (mem_append_left _ hmem)
    have hq' : (h.put r o').objects.get? p.raw = some q := by
      rw [put, get?_insert, if_neg hne, hq]
    obtain ⟨q', hq''⟩ : ∃ q', q' = { q with
      nextOverApproximatedStackRoot := o.nextOverApproximatedStackRoot } := ⟨_, rfl⟩
    have B' : q'.SameBody q := hq'' ▸ ⟨rfl, rfl, rfl, rfl⟩
    have hcnt' : q'.refCount = q.refCount := hq'' ▸ rfl
    refine ⟨(h.put r o').put p q', ?_, S1.put hq' B', (Within.put hq' B').trans (.put hr B),
      C1.put hq' B' (hcnt' ▸ hpos hq) (fun _ _ => rfl) (by rw [hcnt']), rfl, ?_,
      fun x => ?_⟩
    · simp [unlink, index_eq (L.sound.stored.two_dvd hq) hq', setNext, hin, hq'']
    · rw [if_neg (ne_nil_of_mem hmem)]
      rfl
    · simp only [put, get?_insert, hlast]
      by_cases hxp : x = p.raw
      · subst hxp
        simp [hne, hq, hq'']
      · simp [hxp, Ne.symm hxp]

theorem Rooted.unlink (R : h.Rooted (kept ++ r.raw :: todo)) (hr : h.objects.get? r.raw = some o)
    (hlen : h'.currentOverApproximatedStackRootsLen + 1 = h.currentOverApproximatedStackRootsLen)
    (hhead : h'.headRoot = (if kept = [] then h.nextRoot r.raw else h.headRoot))
    (hget : ∀ x, h'.objects.get? x =
        if x = r.raw then some { o with inOverApproximatedStackRoots := false }
        else if kept.getLast? = some x then (h.objects.get? x).map fun p =>
          { p with nextOverApproximatedStackRoot := o.nextOverApproximatedStackRoot }
        else h.objects.get? x) : h'.Rooted (kept ++ todo) := by
  have hnd := (nodup_middle.mp R.nodup)
  have hnot := (nodup_cons.mp hnd).1
  refine ⟨?_, fun x => ?_, (nodup_cons.mp hnd).2, ?_⟩
  · rw [hhead]
    refine R.path.remove R.nodup fun x hx => ?_
    have hxr : x ≠ r.raw := fun heq => hnot (heq ▸ hx)
    have hx' : x ∈ kept ++ r.raw :: todo := by
      simp only [mem_append, mem_cons] at hx ⊢
      tauto
    obtain ⟨p, hp, -⟩ := R.get? hx'
    rw [nextRoot, nextRoot, nextRoot, hget, if_neg hxr, hr]
    split <;> simp [hp]
  · have hiff := R.inList_iff x
    by_cases hxr : x = r.raw
    · subst hxr
      simpa [InList, hget] using hnot
    have hsame : h'.InList x ↔ h.InList x := by
      rw [InList, InList, hget, if_neg hxr]
      split
      · cases h.objects.get? x <;> simp
      · rfl
    rw [hsame, hiff]
    simp [hxr]
  · have := R.len
    simp only [length_append, length_cons] at this ⊢
    omega

/-- Without `x` the list has one reference less to it. -/
theorem dropOne_count (held : ℕ → ℕ) (kept todo : List ℕ) (x : ℕ) :
    dropOne (fun y => held y + (kept ++ x :: todo).count y) x =
      fun y => held y + (kept ++ todo).count y := by
  funext y
  by_cases hy : y = x
  · subst hy
    simp only [dropOne, Function.update_self, count_append, count_cons_self]
    omega
  · simp [dropOne, hy, count_append, Ne.symm hy]

/-- An unmarked object leaves the list, and whatever only the list kept alive is freed. -/
theorem Sweeping.drop (W : h.Sweeping host held kept (r.raw :: todo))
    (hr : h.objects.get? r.raw = some o) (hmark : o.marked = false)
    (hprev : prev.map raw = kept.getLast?) :
    ∃ h' host', h.sweepUnmarked host r o prev o.nextOverApproximatedStackRoot = .ok (h', host') ∧
      h'.Sweeping host' held kept todo ∧ h'.Within h ∧ ∀ x ∈ todo, h'.isMarked x = h.isMarked x :=
        by
  obtain ⟨h1, hok, S1, W1, C1, hlen, hhead, hget⟩ := unlink_spec W.listed hr hprev
  have hpos : 0 < h1.currentOverApproximatedStackRootsLen := by
    rw [hlen, W.listed.rooted.len]
    simp
  obtain ⟨h2, hh2⟩ : ∃ h2, h2 = { h1 with currentOverApproximatedStackRootsLen :=
    h1.currentOverApproximatedStackRootsLen - 1 } := ⟨_, rfl⟩
  have hobj : h2.objects = h1.objects := hh2 ▸ rfl
  have hinfos : h2.traceInfos = h1.traceInfos := hh2 ▸ rfl
  have S2 := S1.congr hobj hinfos (S1.stored.congr (hh2 ▸ rfl) (hh2 ▸ rfl) (hh2 ▸ fun _ => rfl))
      (hh2 ▸ rfl)
  have C2 := C1.congr hobj hinfos
  have R2 : h2.Rooted (kept ++ todo) := by
    refine W.listed.rooted.unlink hr ?_ (hh2 ▸ hhead) (hobj ▸ hget)
    rw [hh2, ← hlen]
    exact Nat.succ_pred_eq_of_pos hpos
  have hmarks : ∀ x, h2.isMarked x = h.isMarked x := by
    intro x
    rw [isMarked, isMarked, hobj, hget]
    by_cases hx : x = r.raw
    · simp [hx, hr]
    rw [if_neg hx]
    split
    · cases h.objects.get? x <;> rfl
    · rfl
  have hheld : 0 < held r.raw + (kept ++ r.raw :: todo).count r.raw := by simp
  obtain ⟨h3, host3, freed, hok3, D, S3, C3⟩ := C2.drop S2 hheld
  rw [dropOne_count] at C3
  have hshr := shrinks_of_dropped D
  have hkeys : ∀ x ∈ kept ++ todo, x ∈ h3.objects.keys := fun x hx =>
    C3.held_mem x (Nat.lt_add_left _ (count_pos_iff.mpr hx))
  have hmarks3 : ∀ x ∈ h3.objects.keys, h3.isMarked x = h.isMarked x := fun x hx =>
    (hshr.keepsRoots.isMarked_eq hx).trans (hmarks x)
  refine ⟨h3, host3, ?_, ⟨⟨S3, R2.of_keepsRoots hshr.keepsRoots hkeys, C3⟩, fun x hx => ?_⟩,
    (Within.of_shrinks hshr).trans ⟨hinfos.trans W1.traceInfos, ?_, hobj ▸ W1.get?_eq⟩,
    fun x hx => hmarks3 x (hkeys x (mem_append_right kept hx))⟩
  · rw [sweepUnmarked, hok, Exec.ok_bind, ensure_of hpos]
    rw [hh2] at hok3
    exact hok3
  · by_cases hkey : x ∈ h3.objects.keys
    · rw [hmarks3 x hkey]
      by_cases hxr : x = r.raw
      · simp [isMarked, hxr, hr, hmark]
      · exact W.unmarked x fun hmem => (mem_cons.mp hmem).elim hxr hx
    · exact isMarked_of_not_mem hkey
  · rw [hh2]
    exact W1.noGcCount

/-- **The loop of the sweep**: what is left on the list are the marked objects. -/
theorem sweepFrom_spec (W : h.Sweeping host held kept todo) {fuel : ℕ}
    {next : Option VMGcRef} (hprev : prev.map raw = kept.getLast?)
    (hnext : next.map raw = todo.head?) (hfuel : todo.length < fuel) :
    ∃ h' host', sweepFrom fuel h host prev next = .ok (h', host') ∧ h'.Within h ∧
      h'.Sweeping host' held (kept ++ todo.filter h.isMarked) [] := by
  induction todo generalizing h host kept fuel prev next with
  | nil =>
    obtain rfl : next = none := map_eq_none_iff.mp hnext
    obtain ⟨fuel, rfl⟩ := Nat.exists_eq_succ_of_ne_zero (Nat.ne_zero_of_lt hfuel)
    exact ⟨h, host, rfl, .rfl, by simpa using W⟩
  | cons x todo ih =>
    obtain ⟨fuel, rfl⟩ := Nat.exists_eq_succ_of_ne_zero (Nat.ne_zero_of_lt hfuel)
    obtain ⟨r, rfl, rfl⟩ := map_eq_some_iff.mp hnext
    have hfuel' := Nat.lt_of_succ_lt_succ hfuel
    obtain ⟨o, ho, hin⟩ := W.listed.rooted.get? (mem_append_right kept (.head _))
    have hnot := (nodup_cons.mp (nodup_append.mp W.listed.rooted.nodup).2.1).1
    -- The link of the object leads to the rest of the list.
    have hlink : o.nextOverApproximatedStackRoot.map raw = todo.head? := by
      obtain ⟨l, -, -, hpath⟩ := Path.append.mp W.listed.rooted.path
      rw [nextRoot, ho] at hpath
      cases todo with
      | nil => exact hpath
      | cons y todo => exact hpath.1
    have hst : h.sweepFrom (fuel + 1) host prev (some r) =
        if o.marked then sweepFrom fuel (h.put r { o with marked := false }) host (some r)
          o.nextOverApproximatedStackRoot
        else h.sweepUnmarked host r o prev o.nextOverApproximatedStackRoot >>= fun p =>
          sweepFrom fuel p.1 p.2 prev o.nextOverApproximatedStackRoot := by
      simp only [sweepFrom, index_eq (W.listed.sound.stored.two_dvd ho) ho, Exec.ok_bind,
        ensure_of hin, getNext]
      rfl
    cases hmark : o.marked with
    | true =>
      have hsame : todo.filter (h.put r { o with marked := false }).isMarked =
          todo.filter h.isMarked := by
        refine filter_congr fun y hy => ?_
        have hne : y ≠ r.raw := fun heq => hnot (heq ▸ hy)
        rw [isMarked, isMarked, put, get?_insert, if_neg hne]
      have hlast : (some r).map raw = (kept ++ [r.raw]).getLast? := by simp
      obtain ⟨h', host', hok, Wi, W'⟩ := ih (W.keep ho) hlast hlink hfuel'
      refine ⟨h', host', ?_, Wi.trans (.put ho ⟨rfl, rfl, rfl, rfl⟩), ?_⟩
      · rw [hst, hmark]
        exact hok
      · have hr : h.isMarked r.raw = true := by simp [isMarked, ho, hmark]
        rw [hsame, append_assoc] at W'
        rwa [filter_cons_of_pos hr]
    | false =>
      obtain ⟨h1, host1, hok1, W1, Wi1, hmarks⟩ := W.drop ho hmark hprev
      obtain ⟨h', host', hok, Wi, W'⟩ := ih W1 hprev hlink hfuel'
      refine ⟨h', host', ?_, Wi.trans Wi1, ?_⟩
      · rw [hst, hmark, hok1]
        exact hok
      · have hr : ¬h.isMarked r.raw = true := by simp [isMarked, ho, hmark]
        rw [filter_congr hmarks] at W'
        rwa [filter_cons_of_neg hr]

theorem Marks.isMarked_eq {ms : List ℕ} (M : h.Marks h' ms) (hmem : ∀ x ∈ ms, x ∈ h.objects.keys)
    (x : ℕ) : h'.isMarked x = (h.isMarked x || decide (x ∈ ms)) := by
  rw [isMarked, isMarked, M.get?_eq]
  cases ho : h.objects.get? x with
  | none =>
    have hx : x ∉ ms := fun hx => by
      obtain ⟨o, ho'⟩ := mem_keys.mp (hmem x hx)
      simp [ho] at ho'
    simp [hx]
  | some o => rfl

/-- **A collection** leaves the objects on the list that are on the Wasm stack. -/
theorem gc_spec (L : h.Listed host held xs) (hmarks : ∀ x, h.isMarked x = false)
    (hno : h.noGcCount = 0) (hrts : stackRefs roots ⊆ xs) :
    ∃ h1 h2 host2, h.trace roots = .ok h1 ∧ h1.sweep host = .ok (h2, host2) ∧
      h.gc host roots = .ok (h2, host2) ∧
      (∀ x, h1.isMarked x = decide (x ∈ stackRefs roots)) ∧ h2.Within h ∧
      h2.Listed host2 held (xs.filter fun x => x ∈ stackRefs roots) ∧
      ∀ x, h2.isMarked x = false := by
  obtain ⟨h1, htr, L1, M⟩ := trace_spec L hrts
  have hmarks1 : ∀ x, h1.isMarked x = decide (x ∈ stackRefs roots) := by
    intro x
    rw [M.isMarked_eq (fun y hy => L.mem_keys (hrts hy)), hmarks, Bool.false_or]
  have W : h1.Sweeping host held [] xs :=
    ⟨L1, fun x hx => by rw [hmarks1, decide_eq_false fun hmem => hx (hrts hmem)]⟩
  have hhead : h1.overApproximatedStackRoots.map raw = xs.head? := by
    have hpath := L1.rooted.path
    cases xs with
    | nil => exact hpath
    | cons x xs => exact hpath.1
  have hprev : (none : Option VMGcRef).map raw = ([] : List ℕ).getLast? := rfl
  obtain ⟨h2, host2, hloop, Wi, W2⟩ :=
    sweepFrom_spec W hprev hhead (Nat.lt_succ_of_le L1.rooted.length_le)
  have hkept : [] ++ xs.filter h1.isMarked ++ [] = xs.filter fun x => x ∈ stackRefs roots := by
    rw [append_nil, nil_append, filter_congr fun x _ => hmarks1 x]
  have L2 := W2.listed
  rw [hkept] at L2
  obtain ⟨h3, hh3⟩ : ∃ h3, h3 = { h2 with overApproximatedStackRootsLenAfterLastGc :=
    h2.currentOverApproximatedStackRootsLen } := ⟨_, rfl⟩
  have hsw : h1.sweep host = .ok (h3, host2) := by
    rw [sweep, hloop, hh3]
    rfl
  have hobj : h3.objects = h2.objects := hh3 ▸ rfl
  have S3 := L2.sound.congr hobj (hh3 ▸ rfl)
    (L2.sound.stored.congr (hh3 ▸ rfl) (hh3 ▸ rfl) (hh3 ▸ fun _ => rfl)) (hh3 ▸ rfl)
  have R3 : h3.Rooted (xs.filter fun x => x ∈ stackRefs roots) :=
    hh3 ▸ ⟨L2.rooted.path, L2.rooted.inList_iff, L2.rooted.nodup, L2.rooted.len⟩
  have Wi3 : h3.Within h2 := hh3 ▸ ⟨rfl, rfl, Within.rfl.get?_eq⟩
  refine ⟨h1, h3, host2, htr, hsw, ?_, hmarks1, Wi3.trans (Wi.trans (.of_marks M)),
    ⟨S3, R3, L2.counted.congr hobj (hh3 ▸ rfl)⟩, fun x => ?_⟩
  · rw [gc, ensure_of hno, htr]
    exact hsw
  · rw [isMarked, hobj]
    exact W2.unmarked x not_mem_nil

/-- What an object has lost, or all it had if it is freed: a reference from each field of a
freed object, and the reference of the list. -/
theorem Listed.count_eq {ys : List ℕ} (L : h.Listed host held xs) (L' : h'.Listed host' held ys)
    (W : h'.Within h) (hx : x ∈ h.objects.keys) :
    h.refCount x + ys.count x = h'.refCount x + xs.count x +
      ∑ a ∈ h.objects.keys \ h'.objects.keys, (h.fields a).count x := by
  have hcnt := L.counted.count_eq x hx
  have hsum := Finset.sum_sdiff (f := fun a => (h.fields a).count x) W.keys_subset
  have hleft : ∑ a ∈ h'.objects.keys, (h'.fields a).count x =
      ∑ a ∈ h'.objects.keys, (h.fields a).count x :=
    Finset.sum_congr rfl fun a ha => by rw [W.fields_eq ha]
  have hcnt' : h'.refCount x =
      ∑ a ∈ h'.objects.keys, (h'.fields a).count x + (held x + ys.count x) := by
    by_cases hx' : x ∈ h'.objects.keys
    · simpa [RefGraph.refsTo, graph] using L'.counted.count_eq x hx'
    -- Nothing that is left refers to a freed object.
    have hzero : ∀ a ∈ h'.objects.keys, (h'.fields a).count x = 0 := fun a ha =>
      Multiset.count_eq_zero.mpr fun hmem => hx' (L'.counted.closed a ha x hmem)
    have hheld : ¬0 < held x + ys.count x := fun hpos => hx' (L'.counted.held_mem x hpos)
    rw [Finset.sum_eq_zero hzero, refCount_of_not_mem hx']
    omega
  simp only [RefGraph.refsTo, graph, Finset.sdiff_empty] at hcnt
  omega

end DrcHeap

end WasmDeps.Gc
