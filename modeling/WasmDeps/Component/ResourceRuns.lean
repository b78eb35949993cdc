import WasmDeps.Component.Resources
import WasmDeps.Component.HandleTableRuns
import Mathlib.Algebra.BigOperators.Group.List.Basic
import Mathlib.Tactic.Ring

/-!
# Borrow accounting of resource operations

The number of borrows of a scope stands in its call context, while the borrows are in the
tables; the number of lends of a handle stands in its slot, while the lends are listed in
the contexts.  `Accounted rt lent counted` says that the two sides agree up to what an
operation has done on one side only: `lent` are the lends not yet listed in a context,
`counted` the scopes of borrows that are counted but in no table.  Between operations both
lists are empty, unless an operation failed halfway.
-/

namespace WasmDeps.Component

open WasmDeps.Lib List Exec Call Option HandleTable ComponentTaskState ResourceTables Except

private theorem countP_set_add {α : Type} (p : α → Bool) {l : List α} {i : ℕ} {a : α}
    (h : l[i]? = some a) (b : α) :
    (l.set i b).countP p + (if p a then 1 else 0) = l.countP p + if p b then 1 else 0 := by
  obtain ⟨hi, rfl⟩ := List.getElem?_eq_some_iff.mp h
  have hle := boole_getElem_le_countP (p := p) hi
  rw [countP_set hi]
  omega

/-! ## What is counted in one table -/

/-- The slot is a borrow of the call `scope`. -/
def Slot.isBorrowOf (scope : ℕ) : Slot → Bool
  | resourceBorrow _ scope' => scope' = scope
  | _ => false

/-- How often the slot is lent out. -/
def Slot.lends : Slot → ℕ
  | resourceOwn _ lendCount => lendCount
  | _ => 0

variable {t t' : HandleTable} {free counted : List ℕ} {id : ℕ} {cx : CallContext}
  {rt : ResourceTables} {ref : TableRef} {index : TypedResourceIndex}
  {lent : List TypedResourceIndex}

namespace HandleTable

variable {slot slot' : Slot} {h : ℕ}

/-- The borrows of the call `scope` in a table. -/
def borrows (t : HandleTable) (scope : ℕ) : ℕ := t.slots.countP (Slot.isBorrowOf scope)

/-- How often the handle `h` is lent out. -/
def lendCountAt (t : HandleTable) (h : ℕ) : ℕ := (t.lookup? h).elim 0 Slot.lends

theorem Inserted.borrows (hi : Inserted t free slot t') (scope : ℕ) :
    t'.borrows scope = t.borrows scope + if slot.isBorrowOf scope then 1 else 0 :=
  hi.count _ fun _ => rfl

theorem Inserted.lendCountAt (hi : Inserted t free slot t') (hc : Chained t free)
    (hslot : slot.lends = 0) (h : ℕ) : t'.lendCountAt h = t.lendCountAt h := by
  rw [HandleTable.lendCountAt, hi.lookup]
  split
  · rename_i heq
    rw [heq, HandleTable.lendCountAt, hc.lookup?_next]
    exact hslot
  · rfl

variable (hl : t.lookup? h = some slot)
include hl

theorem borrows_release (n m scope : ℕ) :
    borrows ⟨n, t.slots.set (h - 1) (.free m)⟩ scope +
      (if slot.isBorrowOf scope then 1 else 0) = t.borrows scope := by
  obtain ⟨i, rfl, hi, -⟩ := lookup?_eq_some.mp hl
  exact countP_set_add (Slot.isBorrowOf scope) hi (.free m)

theorem lendCountAt_release (hslot : slot.lends = 0) (n m k : ℕ) :
    lendCountAt ⟨n, t.slots.set (h - 1) (.free m)⟩ k = t.lendCountAt k := by
  have hpos := pos_of_lookup? hl
  rw [lendCountAt, lookup?_set_free, Nat.sub_add_cancel hpos]
  split
  · rename_i heq
    rw [heq, lendCountAt, hl]
    exact hslot.symm
  · rfl

theorem borrows_store {scope : ℕ} (hslot : slot'.isBorrowOf scope = slot.isBorrowOf scope) :
    borrows { t with slots := t.slots.set (h - 1) slot' } scope = t.borrows scope := by
  obtain ⟨i, rfl, hi, -⟩ := lookup?_eq_some.mp hl
  have := countP_set_add (Slot.isBorrowOf scope) hi slot'
  rw [hslot] at this
  simp only [borrows, Nat.add_sub_cancel]
  omega

theorem lendCountAt_store (hslot : slot'.freeNext = none) (k : ℕ) :
    lendCountAt { t with slots := t.slots.set (h - 1) slot' } k =
      if k = h then slot'.lends else t.lendCountAt k := by
  obtain ⟨i, rfl, hi, -⟩ := lookup?_eq_some.mp hl
  rw [lendCountAt, Nat.add_sub_cancel, lookup?_set (lt_of_getElem? hi) _ _ _ hslot]
  split <;> rfl

end HandleTable

/-! ## The resource operations of one table -/

variable {r : TypedResource}

namespace HandleTable

/-- Removing a resource fails without a trace, or frees a handle that is not lent, or
frees a borrow. -/
theorem removeResource_cases (t : HandleTable) (idx : TypedResourceIndex) :
    (∃ e, (removeResource idx).run t = (.error e, t)) ∨
      ∃ slot ret, t.lookup? idx.rawIndex = some slot ∧
        (removeResource idx).run t =
          (.ok ret, ⟨idx.rawIndex - 1, t.slots.set (idx.rawIndex - 1) (.free t.next)⟩) ∧
        ((∃ r rep, slot = .resourceOwn r 0 ∧ ret = .own rep) ∨
          ∃ r scope, slot = .resourceBorrow r scope ∧ ret = .borrow scope) := by
  rw [removeResource, run_take]
  cases hl : t.lookup? idx.rawIndex with
  | none => exact .inl ⟨_, rfl⟩
  | some slot =>
    rw [okOr_some, ok_bind]
    cases hv : removedResource idx slot with
    | error e => exact .inl ⟨e, rfl⟩
    | ok ret =>
      refine .inr ⟨slot, ret, rfl, rfl, ?_⟩
      cases slot with
      | resourceOwn r n =>
        rw [removedResource] at hv
        split at hv
        · cases hv
        rename_i hn
        obtain rfl : n = 0 := not_not.mp hn
        obtain ⟨rep, -, hv⟩ := bind_eq_ok.mp hv
        exact .inl ⟨r, rep, rfl, (ok.inj hv).symm⟩
      | resourceBorrow r scope =>
        obtain ⟨rep, -, hv⟩ := bind_eq_ok.mp hv
        exact .inr ⟨r, scope, rfl, (ok.inj hv).symm⟩
      | _ => cases hv

/-- Lending a resource fails without a trace, or counts a lend of an owned handle, or
only reads a borrow. -/
theorem resourceLend_cases (t : HandleTable) (idx : TypedResourceIndex) :
    (∃ e, (resourceLend idx).run t = (.error e, t)) ∨
      ∃ slot rep, t.lookup? idx.rawIndex = some slot ∧
        ((∃ r n, slot = .resourceOwn r n ∧ (resourceLend idx).run t = (.ok (rep, true),
            { t with slots := t.slots.set (idx.rawIndex - 1) (.resourceOwn r (n + 1)) })) ∨
          ∃ r scope, slot = .resourceBorrow r scope ∧
            (resourceLend idx).run t = (.ok (rep, false), t)) := by
  rw [resourceLend, run_update]
  cases hl : t.lookup? idx.rawIndex with
  | none => exact .inl ⟨_, rfl⟩
  | some slot =>
    rw [okOr_some, ok_bind]
    cases slot with
    | resourceOwn r n =>
      simp only []
      cases hr : r.rep idx with
      | error e => exact .inl ⟨e, rfl⟩
      | ok rep =>
        cases hn : addU32 n 1 with
        | error e => exact .inl ⟨e, rfl⟩
        | ok m =>
          obtain ⟨-, rfl⟩ := addU32_eq_ok.mp hn
          exact .inr ⟨_, rep, rfl, .inl ⟨r, n, rfl, rfl⟩⟩
    | resourceBorrow r scope =>
      simp only []
      cases hr : r.rep idx with
      | error e => exact .inl ⟨e, rfl⟩
      | ok rep =>
        refine .inr ⟨_, rep, rfl, .inr ⟨r, scope, rfl, ?_⟩⟩
        obtain ⟨i, hi, hget, -⟩ := lookup?_eq_some.mp hl
        obtain ⟨hlt, hget⟩ := List.getElem?_eq_some_iff.mp hget
        rw [hi, ← hget]
        simp
    | _ => exact .inl ⟨_, rfl⟩

theorem run_resourceUndoLend {idx : TypedResourceIndex} {n : ℕ}
    (hl : t.lookup? idx.rawIndex = some (.resourceOwn r (n + 1))) :
    (resourceUndoLend idx).run t =
      (.ok ⟨⟩, { t with slots := t.slots.set (idx.rawIndex - 1) (.resourceOwn r n) }) := by
  rw [resourceUndoLend, run_update, hl]
  simp [subU32_of_le]

end HandleTable

/-! ## What is counted in the contexts -/

namespace ComponentTaskState

variable {s : ComponentTaskState}

/-- The sum of `f` over all calls. -/
def total (f : CallContext → ℕ) : ComponentTaskState → ℕ
  | notConcurrent scopes => (scopes.map f).sum
  | concurrent state => (state.table.map fun task => task.elim 0 fun t => f t.callContext).sum

/-- The borrows that a call has counted. -/
def borrowCountOf (s : ComponentTaskState) (id : ℕ) : ℕ :=
  match s.callContext id with
  | .ok cx => cx.borrowCount
  | .error _ => 0

/-- A call is running whose context is there. -/
def inScope (s : ComponentTaskState) : Bool :=
  match s.currentCallContextScopeId >>= s.callContext with
  | .ok _ => true
  | .error _ => false

theorem borrowCountOf_eq (h : s.callContext id = .ok cx) : s.borrowCountOf id = cx.borrowCount := by
  rw [borrowCountOf, h]

theorem callContext_eq_ok :
    s.callContext id = .ok cx ↔
      match s with
      | notConcurrent scopes => scopes[id]? = some cx
      | concurrent state => state.table[id / 2]? = some (some ⟨decide (id % 2 = 1), cx⟩) := by
  cases s with
  | notConcurrent scopes => cases h : scopes[id]? <;> simp [callContext, h, unwrap]
  | concurrent state =>
    simp only [callContext, ConcurrentState.callContext]
    rcases h : state.table[id / 2]? with _ | _ | ⟨isHost, cx'⟩
    · simp
    · simp
    · by_cases hh : isHost = decide (id % 2 = 1) <;> simp [hh]

theorem total_setCallContext (h : s.callContext id = .ok cx) (f : CallContext → ℕ)
    (cx' : CallContext) : total f (s.setCallContext id cx') + f cx = total f s + f cx' := by
  have h := callContext_eq_ok.mp h
  cases s with
  | notConcurrent scopes => exact sum_map_set f h cx'
  | concurrent state =>
    exact sum_map_set (fun task : Option Task => task.elim 0 fun t => f t.callContext) h
      (some ⟨decide (id % 2 = 1), cx'⟩)

theorem callContext_setCallContext (h : s.callContext id = .ok cx) (cx' : CallContext) (id' : ℕ) :
    (s.setCallContext id cx').callContext id' =
      if id' = id then .ok cx' else s.callContext id' := by
  have h := callContext_eq_ok.mp h
  cases s with
  | notConcurrent scopes =>
    have hlt := lt_of_getElem? h
    rw [setCallContext, callContext, getElem?_set_of_lt hlt]
    split <;> rfl
  | concurrent state =>
    have hlt := lt_of_getElem? h
    simp only [setCallContext, callContext, ConcurrentState.setCallContext,
      ConcurrentState.callContext]
    by_cases hpos : id' / 2 = id / 2
    · rw [hpos, getElem?_set_self hlt, h]
      by_cases hid : id' = id
      · simp [hid]
      -- The other scope at the same position is of the other kind.
      have hodd : ¬(decide (id % 2 = 1) = decide (id' % 2 = 1)) := by
        rw [decide_eq_decide]
        omega
      simp [hid, hodd]
    · have hid : id' ≠ id := fun heq => hpos (by rw [heq])
      rw [getElem?_set_ne (.symm hpos), if_neg hid]

end ComponentTaskState

/-! ## Entering and leaving scopes -/

namespace ComponentTaskState

/-- The change of a step that enters or leaves a scope with an empty context. -/
structure SameCounts (s s' : ComponentTaskState) : Prop where
  borrows : ∀ scope, s'.borrowCountOf scope = s.borrowCountOf scope
  /-- So is every sum that an empty context does not add to. -/
  total : ∀ f : CallContext → ℕ, f .default = 0 → s'.total f = s.total f
  /-- A context that was not there before has no lenders. -/
  context : ∀ id cx, s'.callContext id = .ok cx → cx.lenders = [] ∨ s.callContext id = .ok cx

/-- A context that is not empty is there before and after. -/
theorem SameCounts.of_context {s s' : ComponentTaskState} (h : ∀ id cx, cx ≠ .default →
      (s'.callContext id = .ok cx ↔ s.callContext id = .ok cx))
    (total : ∀ f, f .default = 0 → s'.total f = s.total f) :
    SameCounts s s' where
  borrows := by
    intro scope
    by_cases hcx : ∃ cx, cx ≠ .default ∧ s.callContext scope = .ok cx
    · obtain ⟨cx, hne, hcx⟩ := hcx
      rw [borrowCountOf_eq hcx, borrowCountOf_eq ((h scope cx hne).mpr hcx)]
    -- a scope without such a context counts no borrows
    have hzero : ∀ s : ComponentTaskState, (∀ cx, cx ≠ .default → s.callContext scope ≠ .ok cx) →
        s.borrowCountOf scope = 0 := by
      intro s hs
      cases hok : s.callContext scope with
      | error e => rw [borrowCountOf, hok]
      | ok cx =>
        rw [borrowCountOf_eq hok, not_not.mp fun hne => hs cx hne hok]
        rfl
    rw [hzero s fun cx hne hs => hcx ⟨cx, hne, hs⟩,
      hzero s' fun cx hne hs => hcx ⟨cx, hne, (h scope cx hne).mp hs⟩]
  total := total
  context := by
    intro id cx hid
    by_cases hne : cx = .default
    · exact .inl (hne ▸ rfl)
    · exact .inr ((h id cx hne).mp hid)

private theorem getElem?_concat_of_ne {α : Type} {l : List α} {a b : α} (hne : b ≠ a) (i : ℕ) :
    (l ++ [a])[i]? = some b ↔ l[i]? = some b := by
  rw [getElem?_concat]
  split
  · rename_i hi
    simp [hi, Ne.symm hne]
  · rfl

theorem sameCounts_push (scopes : List CallContext) :
    SameCounts (notConcurrent scopes) (notConcurrent (scopes ++ [.default])) := by
  refine .of_context (fun id cx hne => ?_) (fun f hf => by simp [total, hf])
  rw [callContext_eq_ok, callContext_eq_ok]
  exact getElem?_concat_of_ne hne id

theorem sameCounts_pop (scopes : List CallContext) :
    SameCounts (notConcurrent (scopes ++ [.default])) (notConcurrent scopes) := by
  refine .of_context (fun id cx hne => ?_) fun f hf => ((sameCounts_push scopes).total f hf).symm
  rw [callContext_eq_ok, callContext_eq_ok]
  exact (getElem?_concat_of_ne hne id).symm

theorem sameCounts_pushTask (state : ConcurrentState) (isHost : Bool) :
    SameCounts (concurrent state)
      (concurrent { state with table := state.table ++ [some ⟨isHost, .default⟩] }) := by
  refine .of_context (fun id cx hne => ?_) (fun f hf => by simp [total, hf])
  rw [callContext_eq_ok, callContext_eq_ok]
  exact getElem?_concat_of_ne (by simp [hne]) (id / 2)

/-- A task table whose entry at one position has no context or an empty one, before and
after. -/
theorem sameCounts_setTask {state : ConcurrentState} {rep : ℕ} {old new : Option Task}
    (hget : state.table[rep]? = some old) (hold : ∀ t ∈ old, t.callContext = .default)
    (hnew : ∀ t ∈ new, t.callContext = .default) :
    SameCounts (concurrent state)
      (concurrent { state with table := state.table.set rep new }) := by
  refine .of_context (fun id cx hne => ?_) (fun f hf => ?_)
  · rw [callContext_eq_ok, callContext_eq_ok]
    simp only []
    by_cases hpos : id / 2 = rep
    · rw [hpos, getElem?_set_self (lt_of_getElem? hget), hget]
      exact iff_of_false (fun h => hne (hnew _ (some.inj h))) fun h => hne (hold _ (some.inj h))
    · rw [getElem?_set_ne (.symm hpos)]
  have hzero : ∀ task : Option Task, (∀ t ∈ task, t.callContext = .default) →
      task.elim 0 (fun t => f t.callContext) = 0 := by
    intro task h
    cases task with
    | none => rfl
    | some t => exact (congrArg f (h t rfl)).trans hf
  have := sum_map_set (fun task : Option Task => task.elim 0 fun t => f t.callContext) hget new
  rw [hzero old hold, hzero new hnew] at this
  exact this

end ComponentTaskState

namespace ResourceTables

variable {ty : Option ℕ}

/-- The number of live borrows of a scope, in all tables. -/
def borrowsOf (rt : ResourceTables) (scope : ℕ) : ℕ :=
  rt.hostTable.borrows scope +
    (rt.guest.elim [] GuestTables.states |>.map fun t => t.borrows scope).sum

/-- The index is that of handle `h` in the table `ref`. -/
def isLender (rt : ResourceTables) (ref : TableRef) (h : ℕ) (index : TypedResourceIndex) : Bool :=
  match rt.locate index.ty? with
  | .ok ref' => ref' = ref ∧ index.rawIndex = h
  | .error _ => false

/-- The number of entries for a handle in the lists of lenders of the live contexts. -/
def lendersOf (rt : ResourceTables) (ref : TableRef) (h : ℕ) : ℕ :=
  rt.taskState.total fun cx => cx.lenders.countP (rt.isLender ref h)

/-- The table exists. -/
def HasTable (rt : ResourceTables) : TableRef → Prop
  | .host => True
  | .guest i => ∃ g, rt.guest = some g ∧ i < g.states.length

theorem hasTable_of_locate (h : rt.locate ty = .ok ref) : rt.HasTable ref := by
  cases ty with
  | none =>
    obtain rfl : TableRef.host = ref := ok.inj h
    trivial
  | some ty =>
    obtain ⟨g, hg, h⟩ := bind_eq_ok.mp h
    obtain ⟨resource, -, h⟩ := bind_eq_ok.mp h
    obtain ⟨i, -, h⟩ := bind_eq_ok.mp h
    obtain ⟨_, hi, h⟩ := bind_eq_ok.mp h
    obtain rfl : TableRef.guest i = ref := ok.inj h
    refine ⟨g, ?_, ?_⟩
    · cases hguest : rt.guest with
      | none => rw [hguest] at hg; cases hg
      | some g' => rw [hguest] at hg; rw [ok.inj hg]
    · by_contra hlt
      rw [ensure_of_not hlt] at hi
      cases hi

theorem table_setTable (h : rt.HasTable ref) (t' : HandleTable) (ref' : TableRef) :
    (rt.setTable ref t').table ref' = if ref' = ref then t' else rt.table ref' := by
  cases ref with
  | host => cases ref' <;> simp [setTable, table]
  | guest i =>
    obtain ⟨g, hg, hi⟩ := h
    cases ref' with
    | host => simp [setTable, table]
    | guest j =>
      by_cases hj : j = i <;> simp [setTable, table, hg, hj, getElem?_set_of_lt hi]

theorem locate_setTable (rt : ResourceTables) (ref : TableRef) (t' : HandleTable) (ty : Option ℕ) :
    (rt.setTable ref t').locate ty = rt.locate ty := by
  cases ref with
  | host => cases ty <;> rfl
  | guest i =>
    cases ty with
    | none => rfl
    | some ty => cases hg : rt.guest <;> simp [locate, setTable, hg, unwrap]

theorem locate_taskState (rt : ResourceTables) (task : ComponentTaskState) (ty : Option ℕ) :
    locate { rt with taskState := task } ty = rt.locate ty := by
  cases ty <;> rfl

theorem isLender_setTable (rt : ResourceTables) (ref : TableRef) (t' : HandleTable) :
    (rt.setTable ref t').isLender = rt.isLender := by
  funext ref' h index
  rw [isLender, isLender, locate_setTable]

theorem taskState_setTable (rt : ResourceTables) (ref : TableRef) (t' : HandleTable) :
    (rt.setTable ref t').taskState = rt.taskState := by
  cases ref <;> rfl

theorem borrowsOf_setTable (h : rt.HasTable ref) (t' : HandleTable) (scope : ℕ) :
    (rt.setTable ref t').borrowsOf scope + (rt.table ref).borrows scope =
      rt.borrowsOf scope + t'.borrows scope := by
  cases ref with
  | host =>
    simp only [setTable, borrowsOf, table]
    omega
  | guest i =>
    obtain ⟨g, hg, hi⟩ := h
    have := sum_map_set (fun t : HandleTable => t.borrows scope) (getElem?_eq_getElem hi) t'
    simp only [setTable, borrowsOf, table, hg, map_some, elim_some,
      bind_some, getElem?_eq_getElem hi, getD_some]
    omega

theorem setTable_table (h : rt.HasTable ref) :
    rt.setTable ref (rt.table ref) = rt := by
  cases ref with
  | host => rfl
  | guest i =>
    obtain ⟨g, hg, hi⟩ := h
    obtain ⟨guest, hostTable, taskState⟩ := rt
    obtain rfl : guest = some g := hg
    simp [setTable, table, hi]

theorem run_tableForResource (resource : TypedResource) (rt : ResourceTables) :
    (tableForResource resource).run rt = (rt.locate resource.ty?, rt) := rfl

theorem run_tableForIndex (index : TypedResourceIndex) (rt : ResourceTables) :
    (tableForIndex index).run rt = (rt.locate index.ty?, rt) := rfl

/-- The index is that of a borrow. -/
def isBorrow (rt : ResourceTables) (index : TypedResourceIndex) : Bool :=
  match rt.locate index.ty? with
  | .ok ref =>
    match (rt.table ref).lookup? index.rawIndex with
    | some (.resourceBorrow _ _) => true
    | _ => false
  | .error _ => false

/-- The table of the resource has room for one more handle. -/
def hasRoomFor (rt : ResourceTables) (resource : TypedResource) (reserve : Bool) : Bool :=
  match rt.locate resource.ty? with
  | .ok ref => (rt.table ref).HasRoom reserve
  | .error _ => false

/-- The counts agree with what is counted, up to lends that are in no list of lenders yet
and borrows that are counted but in no table. -/
structure Accounted (rt : ResourceTables) (lent : List TypedResourceIndex) (counted : List ℕ) :
    Prop where
  chained : ∀ ref, ∃ free, (rt.table ref).Chained free
  borrows : ∀ scope, rt.borrowsOf scope + counted.count scope = rt.taskState.borrowCountOf scope
  /-- The lend count of a handle is the number of entries for it. -/
  lends : ∀ ref h, rt.lendersOf ref h + lent.countP (rt.isLender ref h) =
    (rt.table ref).lendCountAt h
  /-- The lenders are handles of tables that are there. -/
  located : ∀ id cx, rt.taskState.callContext id = .ok cx →
    ∀ index ∈ cx.lenders, ∃ ref, rt.locate index.ty? = .ok ref

namespace Accounted

variable {lent' : List TypedResourceIndex} {counted' : List ℕ} {cx' : CallContext}

variable (A : Accounted rt lent counted)
include A

theorem setTable (hr : rt.HasTable ref) (hc : t'.Chained free)
    (hb : ∀ scope, t'.borrows scope + counted'.count scope =
      (rt.table ref).borrows scope + counted.count scope)
    (hl : ∀ ref' h, ((rt.setTable ref t').table ref').lendCountAt h +
      lent.countP (rt.isLender ref' h) =
        (rt.table ref').lendCountAt h + lent'.countP (rt.isLender ref' h)) :
    Accounted (rt.setTable ref t') lent' counted' where
  chained := by
    intro ref'
    rw [table_setTable hr]
    split
    · exact ⟨free, hc⟩
    · exact A.chained ref'
  borrows := by
    intro scope
    have h1 := borrowsOf_setTable hr t' scope
    have h2 := A.borrows scope
    have h3 := hb scope
    rw [taskState_setTable]
    omega
  lends := by
    intro ref' h
    have h1 := A.lends ref' h
    have h2 := hl ref' h
    rw [lendersOf, taskState_setTable, isLender_setTable]
    rw [lendersOf] at h1
    omega
  located := by
    intro id cx hcx index hidx
    rw [taskState_setTable] at hcx
    rw [locate_setTable]
    exact A.located id cx hcx index hidx

theorem setContext (hcx : rt.taskState.callContext id = .ok cx) (cx' : CallContext)
    (hb : ∀ scope, counted'.count scope + (if scope = id then cx.borrowCount else 0) =
      counted.count scope + if scope = id then cx'.borrowCount else 0)
    (hl : ∀ ref h, cx'.lenders.countP (rt.isLender ref h) + lent'.countP (rt.isLender ref h) =
      cx.lenders.countP (rt.isLender ref h) + lent.countP (rt.isLender ref h))
    (hloc : ∀ index ∈ cx'.lenders, ∃ ref, rt.locate index.ty? = .ok ref) :
    Accounted { rt with taskState := rt.taskState.setCallContext id cx' } lent' counted' where
  chained := A.chained
  borrows := by
    intro scope
    have h1 := A.borrows scope
    have h2 := hb scope
    rw [borrowCountOf, callContext_setCallContext hcx cx' scope]
    by_cases hs : scope = id
    · subst hs
      rw [borrowCountOf_eq hcx] at h1
      simp only [if_true] at h2 ⊢
      have h3 : rt.borrowsOf scope + counted'.count scope = cx'.borrowCount := by omega
      exact h3
    · rw [if_neg hs, if_neg hs] at h2
      rw [if_neg hs]
      have h3 : rt.borrowsOf scope + counted'.count scope = rt.taskState.borrowCountOf scope := by
        omega
      exact h3
  lends := by
    intro ref h
    have h1 := A.lends ref h
    have h2 := hl ref h
    have h3 := total_setCallContext hcx (fun cx => cx.lenders.countP (rt.isLender ref h)) cx'
    have h4 : total (fun cx => cx.lenders.countP (rt.isLender ref h))
        (rt.taskState.setCallContext id cx') + lent'.countP (rt.isLender ref h) =
          (rt.table ref).lendCountAt h := by
      simp only [lendersOf] at h1 h3
      omega
    exact h4
  located := by
    intro id' cx'' hcx'' index hidx
    rw [callContext_setCallContext hcx cx' id'] at hcx''
    split at hcx''
    · rw [← ok.inj hcx''] at hidx
      exact hloc index hidx
    · exact A.located id' cx'' hcx'' index hidx

theorem setTable_sameLends (hr : rt.HasTable ref) (hc : t'.Chained free)
    (hb : ∀ scope, t'.borrows scope + counted'.count scope =
      (rt.table ref).borrows scope + counted.count scope)
    (hl : ∀ h, t'.lendCountAt h = (rt.table ref).lendCountAt h) :
    Accounted (rt.setTable ref t') lent counted' := by
  refine A.setTable hr hc hb fun ref' h => ?_
  rw [table_setTable hr]
  split
  · rename_i heq
    rw [hl, heq]
  · rfl

/-! ### The operations -/

theorem ownInsert (hr : rt.HasTable ref) (resource : TypedResource) (reserve : Bool) :
    Accounted ((onTable ref (resourceOwnInsert resource reserve)).run rt).2
      lent counted := by
  obtain ⟨free, hc⟩ := A.chained ref
  rw [onTable, run_zoom, resourceOwnInsert]
  rcases insert_cases hc (.resourceOwn resource 0) rfl reserve with
    ⟨msg, hrun, -⟩ | ⟨t', hrun, hins⟩
  · rw [hrun, setTable_table hr]
    exact A
  · rw [hrun]
    exact A.setTable_sameLends hr hins.chained (fun scope => congrArg (· + _) (hins.borrows scope))
      (hins.lendCountAt hc rfl)

theorem resourceNew (resource : TypedResource) (reserve : Bool) :
    Accounted ((resourceNew resource reserve).run rt).2 lent counted := by
  rw [ResourceTables.resourceNew, run_bind, run_tableForResource]
  cases hloc : rt.locate resource.ty? with
  | error e => exact A
  | ok ref => exact A.ownInsert (hasTable_of_locate hloc) resource reserve

theorem resourceRep (index : TypedResourceIndex) :
    Accounted ((ResourceTables.resourceRep index).run rt).2 lent counted := by
  rw [ResourceTables.resourceRep, run_bind, run_tableForIndex]
  cases hloc : rt.locate index.ty? with
  | error e => exact A
  | ok ref =>
    simp only [onTable, run_zoom, HandleTable.resourceRep, run_inspect]
    rw [setTable_table (hasTable_of_locate hloc)]
    exact A

/-- **Removing a resource.**  An owned handle that is removed is lent to no one; a borrow
that is removed is still counted in its scope. -/
theorem removeResource (hr : rt.HasTable ref)
    (index : TypedResourceIndex) :
    (∃ e, (onTable ref (removeResource index)).run rt = (.error e, rt)) ∨
      ∃ rt' ret, (onTable ref (removeResource index)).run rt = (.ok ret, rt') ∧
        ((∃ rep, ret = .own rep ∧ Accounted rt' lent counted ∧
            rt.lendersOf ref index.rawIndex = 0) ∨
          ∃ r scope, (rt.table ref).lookup? index.rawIndex = some (.resourceBorrow r scope) ∧
            ret = .borrow scope ∧ Accounted rt' lent (scope :: counted)) := by
  obtain ⟨free, hc⟩ := A.chained ref
  rw [onTable, run_zoom]
  rcases removeResource_cases (rt.table ref) index with
    ⟨e, hrun⟩ | ⟨slot, ret, hl, hrun, ⟨r, rep, rfl, rfl⟩ | ⟨r, scope, rfl, rfl⟩⟩
  · refine .inl ⟨e, ?_⟩
    rw [hrun, setTable_table hr]
  · refine .inr ⟨_, _, by rw [hrun], .inl ⟨rep, rfl, ?_, ?_⟩⟩
    · exact A.setTable_sameLends hr (hc.release hl)
        (fun scope => congrArg (· + _) (borrows_release hl _ _ scope))
        (lendCountAt_release hl rfl _ _)
    · have := A.lends ref index.rawIndex
      rw [lendCountAt, hl] at this
      rw [elim_some, Slot.lends] at this
      omega
  refine .inr ⟨_, _, by rw [hrun], .inr ⟨r, scope, hl, rfl, ?_⟩⟩
  refine A.setTable_sameLends hr (hc.release hl) (fun scope' => ?_)
    (lendCountAt_release hl rfl _ _)
  have := borrows_release hl (index.rawIndex - 1) (rt.table ref).next scope'
  simp only [Slot.isBorrowOf, decide_eq_true_eq] at this
  rw [count_cons]
  simp only [beq_iff_eq]
  omega

omit A

theorem dropBorrow {scope : ℕ} (A : Accounted rt lent (scope :: counted)) :
    ∃ rt', (dropBorrow scope).run rt = (.ok none, rt') ∧
      Accounted rt' lent counted := by
  have hb := A.borrows scope
  rw [count_cons_self] at hb
  cases hcx : rt.taskState.callContext scope with
  | error e =>
    rw [borrowCountOf, hcx] at hb
    simp only [] at hb
    omega
  | ok cx =>
    rw [borrowCountOf_eq hcx] at hb
    have hpos : 1 ≤ cx.borrowCount := by omega
    refine ⟨_, ?_, A.setContext hcx { cx with borrowCount := cx.borrowCount - 1 } ?_
      (fun _ _ => rfl) (A.located scope cx hcx)⟩
    · simp [ResourceTables.dropBorrow, callContext,
        setCallContext, run_bind, hcx, subU32_of_le hpos]
    · intro scope'
      simp only [count_cons, beq_iff_eq, eq_comm (a := scope)]
      split <;> omega

/-- Dropping a handle; an owned one that is dropped is lent to no one. -/
theorem resourceDrop (A : Accounted rt lent counted) (index : TypedResourceIndex) :
    Accounted ((resourceDrop index).run rt).2 lent counted ∧
      ∀ ref rep rt', rt.locate index.ty? = .ok ref →
        (resourceDrop index).run rt = (.ok (some rep), rt') →
        rt.lendersOf ref index.rawIndex = 0 := by
  rw [ResourceTables.resourceDrop, run_bind, run_tableForIndex]
  cases hloc : rt.locate index.ty? with
  | error e => exact ⟨A, fun _ _ _ h => by cases h⟩
  | ok ref =>
    simp only [run_bind]
    rcases A.removeResource (hasTable_of_locate hloc) index with
      ⟨e, hrun⟩ | ⟨rt', ret, hrun, ⟨rep, rfl, A', hzero⟩ | ⟨r, scope, -, rfl, A'⟩⟩
    · rw [hrun]
      exact ⟨A, fun _ _ _ _ h => by cases h⟩
    · rw [hrun]
      exact ⟨A', fun _ _ _ href _ => ok.inj href ▸ hzero⟩
    · rw [hrun]
      obtain ⟨rt'', hdrop, A''⟩ := A'.dropBorrow
      simp only [hdrop]
      exact ⟨A'', fun _ _ _ _ h => by cases h⟩

/-- Lifting an owned handle, which is lent to no one; a borrow passed instead stays counted in
its scope. -/
theorem resourceLiftOwn (A : Accounted rt lent counted) (index : TypedResourceIndex) :
    (∃ counted', Accounted ((resourceLiftOwn index).run rt).2 lent counted' ∧
      (rt.isBorrow index = false → counted' = counted)) ∧
      ∀ ref rep rt', rt.locate index.ty? = .ok ref →
        (resourceLiftOwn index).run rt = (.ok rep, rt') →
        rt.lendersOf ref index.rawIndex = 0 := by
  rw [ResourceTables.resourceLiftOwn, run_bind, run_tableForIndex]
  cases hloc : rt.locate index.ty? with
  | error e => exact ⟨⟨counted, A, fun _ => rfl⟩, fun _ _ _ h => by cases h⟩
  | ok ref =>
    simp only [run_bind]
    rcases A.removeResource (hasTable_of_locate hloc) index with
      ⟨e, hrun⟩ | ⟨rt', ret, hrun, ⟨rep, rfl, A', hzero⟩ | ⟨r, scope, hl, rfl, A'⟩⟩
    · rw [hrun]
      exact ⟨⟨counted, A, fun _ => rfl⟩, fun _ _ _ _ h => by cases h⟩
    · rw [hrun]
      exact ⟨⟨counted, A', fun _ => rfl⟩, fun _ _ _ href _ => ok.inj href ▸ hzero⟩
    · rw [hrun]
      refine ⟨⟨scope :: counted, A', fun hb => ?_⟩, fun _ _ _ _ h => by cases h⟩
      simp [isBorrow, hloc, hl] at hb

/-- Listing a lender in the current scope; without one the lend stays unlisted. -/
theorem recordLender (A : Accounted rt (index :: lent) counted)
    (hloc : rt.locate index.ty? = .ok ref) :
    ∃ lent', Accounted ((recordLender index).run rt).2 lent' counted ∧
      (rt.taskState.inScope = true → lent' = lent) := by
  simp only [ResourceTables.recordLender, currentCallContextScopeId, callContext, setCallContext,
    run_bind, run_get, run_lift]
  cases hid : rt.taskState.currentCallContextScopeId with
  | error e => exact ⟨index :: lent, A, fun h => by simp [inScope, hid] at h⟩
  | ok id =>
    simp only []
    cases hcx : rt.taskState.callContext id with
    | error e =>
      exact ⟨index :: lent, A, fun h => by simp [inScope, hid, hcx] at h⟩
    | ok cx =>
      refine ⟨lent, ?_, fun _ => rfl⟩
      refine A.setContext hcx { cx with lenders := cx.lenders ++ [index] }
        (fun _ => rfl) (fun ref h => ?_) (fun i hi => ?_)
      · simp only [countP_append, countP_cons, countP_nil]
        omega
      · rcases mem_append.mp hi with hi | hi
        · exact A.located id cx hcx i hi
        · exact ⟨ref, mem_singleton.mp hi ▸ hloc⟩

section

variable (A : Accounted rt lent counted)
include A

theorem storeOwn {n : ℕ} (hloc : rt.locate index.ty? = .ok ref)
    (hl : (rt.table ref).lookup? index.rawIndex = some (.resourceOwn r n)) (m : ℕ)
    (lent' : List TypedResourceIndex)
    (hlent : ∀ ref' h, m * (if rt.isLender ref' h index then 1 else 0) +
        lent.countP (rt.isLender ref' h) =
      n * (if rt.isLender ref' h index then 1 else 0) + lent'.countP (rt.isLender ref' h)) :
    Accounted (rt.setTable ref { rt.table ref with
      slots := (rt.table ref).slots.set (index.rawIndex - 1) (.resourceOwn r m) })
      lent' counted := by
  have hr := hasTable_of_locate hloc
  obtain ⟨free, hc⟩ := A.chained ref
  refine A.setTable hr (hc.store hl rfl)
    (fun scope => congrArg (· + _) (borrows_store hl rfl)) (fun ref' h => ?_)
  have hsum := hlent ref' h
  simp only [isLender, hloc] at hsum
  rw [table_setTable hr]
  by_cases hhere : ref = ref' ∧ index.rawIndex = h
  · obtain ⟨rfl, rfl⟩ := hhere
    have hold : (rt.table ref).lendCountAt index.rawIndex = n := by
      rw [lendCountAt, hl]
      rfl
    rw [if_pos rfl, lendCountAt_store hl rfl, hold]
    simpa [Slot.lends] using hsum
  rw [decide_eq_false hhere] at hsum
  have hsum : lent.countP (rt.isLender ref' h) = lent'.countP (rt.isLender ref' h) := by
    simpa using hsum
  split
  · rename_i heq
    rw [lendCountAt_store hl rfl, if_neg fun h' => hhere ⟨heq.symm, h'.symm⟩, hsum, heq]
  · rw [hsum]

/-- Lending a handle: the lend is counted in the slot and listed in the current scope. -/
theorem resourceLiftBorrow (index : TypedResourceIndex) :
    ∃ lent', Accounted ((resourceLiftBorrow index).run rt).2 lent' counted ∧
      (rt.taskState.inScope = true → lent' = lent) := by
  rw [ResourceTables.resourceLiftBorrow, run_bind, run_tableForIndex]
  cases hloc : rt.locate index.ty? with
  | error e => exact ⟨lent, A, fun _ => rfl⟩
  | ok ref =>
    have hr := hasTable_of_locate hloc
    simp only [run_bind, onTable, run_zoom]
    rcases resourceLend_cases (rt.table ref) index with
      ⟨e, hrun⟩ | ⟨slot, rep, hl, ⟨r, n, rfl, hrun⟩ | ⟨r, scope, rfl, hrun⟩⟩
    · rw [hrun]
      rw [setTable_table hr]
      exact ⟨lent, A, fun _ => rfl⟩
    · rw [hrun]
      have A' := A.storeOwn hloc hl (n + 1) (index :: lent) fun ref' h => by
        rw [countP_cons]
        ring
      obtain ⟨lent', A', hlent⟩ := A'.recordLender ((locate_setTable rt ref _ _).trans hloc)
      rw [taskState_setTable] at hlent
      refine ⟨lent', ?_, hlent⟩
      simp only [if_true, run_bind]
      split <;> simp_all
    · rw [hrun]
      rw [setTable_table hr]
      exact ⟨lent, A, fun _ => rfl⟩

/-- Counting a borrow in the current scope fails without a trace, or leaves a borrow that
is in no table yet. -/
theorem countBorrow : (∃ e, countBorrow.run rt = (.error e, rt)) ∨ ∃ scope cx, countBorrow.run rt =
          (.ok scope, { rt with taskState := rt.taskState.setCallContext scope cx }) ∧
        Accounted { rt with taskState := rt.taskState.setCallContext scope cx } lent
          (scope :: counted) := by
  simp only [ResourceTables.countBorrow, currentCallContextScopeId, callContext, setCallContext,
    run_bind, run_get, run_lift]
  cases hid : rt.taskState.currentCallContextScopeId with
  | error e => exact .inl ⟨e, rfl⟩
  | ok scope =>
    simp only []
    cases hcx : rt.taskState.callContext scope with
    | error e => exact .inl ⟨e, rfl⟩
    | ok cx =>
      simp only []
      cases hn : addU32 cx.borrowCount 1 with
      | error e => exact .inl ⟨e, rfl⟩
      | ok m =>
        obtain ⟨-, rfl⟩ := addU32_eq_ok.mp hn
        refine .inr ⟨scope, { cx with borrowCount := cx.borrowCount + 1 }, rfl, ?_⟩
        refine A.setContext hcx _ (fun scope' => ?_) (fun _ _ => rfl) (A.located scope cx hcx)
        simp only [count_cons, beq_iff_eq, eq_comm (a := scope)]
        split <;> omega

/-- Lowering a borrow: with room in the table, the borrow is counted and inserted. -/
theorem resourceLowerBorrow (resource : TypedResource) (reserve : Bool) :
    ∃ counted', Accounted ((resourceLowerBorrow resource reserve).run rt).2
      lent counted' ∧ (rt.hasRoomFor resource reserve = true → counted' = counted) := by
  rw [ResourceTables.resourceLowerBorrow, run_bind]
  rcases A.countBorrow with ⟨e, hrun⟩ | ⟨scope, cx, hrun, A'⟩
  · rw [hrun]
    exact ⟨counted, A, fun _ => rfl⟩
  rw [hrun]
  simp only [run_bind, run_tableForResource]
  generalize htask : rt.taskState.setCallContext scope cx = task at A'
  have hlocate := locate_taskState rt task resource.ty?
  have htable : table { rt with taskState := task } = rt.table := by
    funext ref
    cases ref <;> rfl
  rw [hlocate]
  cases hloc : rt.locate resource.ty? with
  | error e =>
    exact ⟨scope :: counted, A', fun h => by simp [hasRoomFor, hloc] at h⟩
  | ok ref =>
    have hr : HasTable { rt with taskState := task } ref := hasTable_of_locate (hlocate.trans hloc)
    obtain ⟨free, hc⟩ := A'.chained ref
    simp only [onTable, run_zoom, resourceBorrowInsert]
    rcases insert_cases hc (.resourceBorrow resource scope) rfl reserve with
      ⟨msg, hins, hroom⟩ | ⟨t', hins, hins'⟩
    · rw [hins, setTable_table hr]
      refine ⟨scope :: counted, A', fun h => ?_⟩
      rw [htable] at hroom
      simp [hasRoomFor, hloc, hroom] at h
    rw [hins]
    refine ⟨counted, A'.setTable_sameLends hr hins'.chained (fun scope' => ?_)
      (hins'.lendCountAt hc rfl), fun _ => rfl⟩
    rw [hins'.borrows, count_cons]
    simp only [Slot.isBorrowOf, decide_eq_true_eq, beq_iff_eq]
    omega

end

/-- Taking back a lend finds the handle with a lend count that is not zero. -/
theorem undoLend (A : Accounted rt (index :: lent) counted) (hloc : rt.locate index.ty? = .ok ref) :
    ∃ t', (unwrapErr (resourceUndoLend index)).run (rt.table ref) = (.ok ⟨⟩, t') ∧
      Accounted (rt.setTable ref t') lent counted := by
  have hself : rt.isLender ref index.rawIndex index = true := by
    simp [isLender, hloc]
  have hcnt := A.lends ref index.rawIndex
  rw [countP_cons, if_pos hself, lendCountAt] at hcnt
  obtain ⟨r, n, hl⟩ : ∃ r n, (rt.table ref).lookup? index.rawIndex =
      some (.resourceOwn r (n + 1)) := by
    cases hl : (rt.table ref).lookup? index.rawIndex with
    | none => simp [hl] at hcnt
    | some slot =>
      cases slot with
      | resourceOwn r n =>
        rw [hl, elim_some, Slot.lends] at hcnt
        exact ⟨r, n - 1, by congr; omega⟩
      | _ => simp [hl, Slot.lends] at hcnt
  refine ⟨_, ?_, A.storeOwn hloc hl n lent fun ref' h => ?_⟩
  · simp [unwrapErr, run_resourceUndoLend hl]
  · rw [countP_cons]
    ring

theorem undoLends {lenders : List TypedResourceIndex} (A : Accounted rt (lenders ++ lent) counted)
    (hloc : ∀ index ∈ lenders, ∃ ref, rt.locate index.ty? = .ok ref) :
    ∃ rt', (undoLends lenders).run rt = (.ok ⟨⟩, rt') ∧
      Accounted rt' lent counted := by
  induction lenders generalizing rt with
  | nil => exact ⟨rt, rfl, A⟩
  | cons lender rest ih =>
    obtain ⟨ref, href⟩ := hloc lender (.head _)
    obtain ⟨t', hrun, A'⟩ := A.undoLend href
    obtain ⟨rt', hrest, A''⟩ := ih A' fun index hidx => by
      rw [locate_setTable]
      exact hloc index (.tail lender hidx)
    refine ⟨rt', ?_, A''⟩
    rw [undoLends, run_bind, run_tableForIndex, href]
    simp only [run_bind, onTable, run_zoom, hrun]
    exact hrest

section

variable (A : Accounted rt lent counted)
include A

/-- **Leaving a scope.**  With a live context the check returns, and the lends of the scope
are taken back. -/
theorem validateScopeExit_of_context (hid : rt.taskState.currentCallContextScopeId = .ok id)
    (hcx : rt.taskState.callContext id = .ok cx) :
    ∃ rt', validateScopeExit.run rt =
        (if 0 < cx.borrowCount then
          .error (.error "borrow handles still remain at the end of the call") else .ok ⟨⟩, rt') ∧
      Accounted rt' lent counted := by
  simp only [validateScopeExit, currentCallContextScopeId, callContext,
    setCallContext, run_bind, run_get, run_lift, hid, hcx]
  by_cases hb : 0 < cx.borrowCount
  · rw [if_pos hb, if_pos hb]
    exact ⟨rt, rfl, A⟩
  rw [if_neg hb, if_neg hb]
  have A' : Accounted { rt with
      taskState := rt.taskState.setCallContext id { cx with lenders := [] } }
      (cx.lenders ++ lent) counted := by
    refine A.setContext hcx _ (fun _ => rfl) (fun ref h => ?_) (fun _ h => by cases h)
    simp [countP_append]
  exact A'.undoLends fun index hidx => by
    exact A.located id cx hcx index hidx

theorem validateScopeExit : Accounted (validateScopeExit.run rt).2 lent counted := by
  cases hid : rt.taskState.currentCallContextScopeId with
  | error e =>
    simpa [ResourceTables.validateScopeExit, currentCallContextScopeId, run_bind, hid] using A
  | ok id =>
    cases hcx : rt.taskState.callContext id with
    | error e =>
      simpa [ResourceTables.validateScopeExit, currentCallContextScopeId, callContext,
        run_bind, hid, hcx] using A
    | ok cx =>
      obtain ⟨rt', hrun, A'⟩ := A.validateScopeExit_of_context hid hcx
      rw [hrun]
      exact A'

/-! ### Scopes -/

theorem setTaskState {task : ComponentTaskState} (hs : rt.taskState.SameCounts task) :
    Accounted { rt with taskState := task } lent counted where
  chained := A.chained
  borrows := fun scope => (A.borrows scope).trans (hs.borrows scope).symm
  lends := by
    intro ref h
    exact (congrArg (· + _) (hs.total _ rfl)).trans (A.lends ref h)
  located := by
    intro id cx hid index hidx
    rcases hs.context id cx hid with hnil | hold
    · rw [hnil] at hidx
      cases hidx
    · rw [locate_taskState]
      exact A.located id cx hold index hidx

end

end Accounted

end ResourceTables

/-! ## Runs -/

/-- A resource operation, or a step that enters or leaves a call scope. -/
inductive ResourceOp
  | resourceNew (resource : TypedResource) (reserve : Bool)
  | resourceLowerOwn (resource : TypedResource) (reserve : Bool)
  | resourceRep (index : TypedResourceIndex)
  | resourceDrop (index : TypedResourceIndex)
  | resourceLiftOwn (index : TypedResourceIndex)
  | resourceLiftBorrow (index : TypedResourceIndex)
  | resourceLowerBorrow (resource : TypedResource) (reserve : Bool)
  | validateScopeExit
  | enterCall (reserve : Bool)
  | exitCall
  | pushTask (rep : ℕ) (isHost : Bool)
  | deleteTask (rep : ℕ)
  | setThread (thread : CurrentThread)

/-- A change of the call scopes. -/
def ResourceTables.onScopes (f : ComponentTaskState → Exec ComponentTaskState) :
    Call ResourceTables PUnit := do
  let rt ← Call.get
  let task ← Call.lift (f rt.taskState)
  Call.set { rt with taskState := task }

namespace ComponentTaskState

/-- The innermost scope has nothing lent or borrowed. -/
def canExit : ComponentTaskState → Bool
  | notConcurrent scopes => scopes.getLast? = some .default
  | concurrent _ => true

/-- A task can be pushed at `rep`. -/
def canPush (rep : ℕ) : ComponentTaskState → Bool
  | notConcurrent _ => true
  | concurrent state => state.table[rep]?.join = none ∧ rep ≤ state.table.length

/-- The context of a task that is deleted is as `validateScopeExit` leaves it. -/
def canDelete (rep : ℕ) : ComponentTaskState → Bool
  | notConcurrent _ => true
  | concurrent state => state.table[rep]?.join.all fun task => task.callContext = .default

end ComponentTaskState

namespace ResourceOp

/-- An operation as a transition of the tables; results are dropped. -/
def run (op : ResourceOp) (rt : ResourceTables) : Exec Unit × ResourceTables :=
  let discard {α : Type} (c : Call ResourceTables α) : Exec Unit × ResourceTables :=
    ((c.run rt).1.map fun _ => (), (c.run rt).2)
  match op with
  | resourceNew resource reserve => discard (ResourceTables.resourceNew resource reserve)
  | resourceLowerOwn resource reserve => discard (ResourceTables.resourceLowerOwn resource reserve)
  | resourceRep index => discard (ResourceTables.resourceRep index)
  | resourceDrop index => discard (ResourceTables.resourceDrop index)
  | resourceLiftOwn index => discard (ResourceTables.resourceLiftOwn index)
  | resourceLiftBorrow index => discard (ResourceTables.resourceLiftBorrow index)
  | resourceLowerBorrow resource reserve =>
    discard (ResourceTables.resourceLowerBorrow resource reserve)
  | validateScopeExit => discard ResourceTables.validateScopeExit
  | enterCall reserve => discard (ResourceTables.onScopes fun s => s.enterCallNotConcurrent reserve)
  | exitCall => discard (ResourceTables.onScopes fun s => s.exitCallNotConcurrent)
  | pushTask rep isHost => discard (ResourceTables.onScopes fun s => s.pushTask rep isHost)
  | deleteTask rep => discard (ResourceTables.onScopes fun s => s.deleteTask rep)
  | setThread thread => discard (ResourceTables.onScopes fun s => s.setThread thread)

/-- A scope is left only after `validateScopeExit` has succeeded on it. -/
def allowed (rt : ResourceTables) : ResourceOp → Bool
  | exitCall => rt.taskState.canExit
  | pushTask rep _ => rt.taskState.canPush rep
  | deleteTask rep => rt.taskState.canDelete rep
  | _ => true

/-- An operation that does not fail after its first write: no borrow is passed where an
owned handle is expected, a borrow that is lowered finds room in its table, and a handle
is lent within a call. -/
def completes (rt : ResourceTables) : ResourceOp → Bool
  | resourceLiftOwn index => !rt.isBorrow index
  | resourceLiftBorrow _ => rt.taskState.inScope
  | resourceLowerBorrow resource reserve => rt.hasRoomFor resource reserve
  | _ => true

end ResourceOp

/-- One operation.  After an `Err` the run goes on with what the operation left behind; a
panic ends the run. -/
def ResourceTables.step (rt : ResourceTables) (op : ResourceOp) : Exec ResourceTables :=
  match op.run rt with
  | (.ok _, rt') => pure rt'
  | (.error (.error _), rt') => pure rt'
  | (.error e, _) => throw e

/-- Runs of resource operations, from empty tables and without calls. -/
def resourceMachine : Machine ResourceTables ResourceOp where
  start := fun rt => rt.hostTable = .default ∧ (∀ g ∈ rt.guest, ∀ t ∈ g.states, t = .default) ∧
    (rt.taskState = .notConcurrent [] ∨ rt.taskState = .concurrent ⟨.none, []⟩)
  allowed := fun rt op => op.allowed rt = true
  step := ResourceTables.step

instance (rt : ResourceTables) (op : ResourceOp) : Decidable (resourceMachine.allowed rt op) :=
  inferInstanceAs (Decidable (op.allowed rt = true))

namespace ResourceTables.Accounted

theorem of_start (h : resourceMachine.start rt) : Accounted rt [] [] := by
  obtain ⟨hhost, hguest, htask⟩ := h
  have htable : ∀ ref, rt.table ref = .default := by
    intro ref
    cases ref with
    | host => exact hhost
    | guest i =>
      cases hg : rt.guest with
      | none => simp [table, hg]
      | some g =>
        cases hi : g.states[i]? with
        | none => simp [table, hg, hi]
        | some t =>
          have := hguest g hg t (mem_of_getElem? hi)
          simp [table, hg, hi, this]
  have hctx : ∀ id cx, rt.taskState.callContext id ≠ .ok cx := by
    intro id cx hid
    have hid := callContext_eq_ok.mp hid
    rcases htask with h | h <;> simp [h] at hid
  have htotal : ∀ f, rt.taskState.total f = 0 := by
    intro f
    rcases htask with h | h <;> simp [h, total]
  refine ⟨?_, ?_, ?_, ?_⟩
  · intro ref
    rw [htable]
    exact ⟨[], chained_default⟩
  · intro scope
    have hcnt : rt.taskState.borrowCountOf scope = 0 := by
      rw [borrowCountOf]
      split
      · exact absurd ‹_› (hctx scope _)
      · rfl
    have hsts : ∀ n ∈ (rt.guest.elim [] GuestTables.states).map fun t => t.borrows scope,
        n = 0 := by
      intro n hn
      obtain ⟨t, ht, rfl⟩ := mem_map.mp hn
      cases hg : rt.guest with
      | none => simp [hg] at ht
      | some g =>
        rw [hguest g hg t (by simpa [hg] using ht)]
        rfl
    rw [borrowsOf, hhost, sum_eq_zero hsts, hcnt]
    rfl
  · intro ref h
    rw [lendersOf, htotal, htable]
    cases h <;> rfl
  · intro id cx hid
    exact absurd hid (hctx id cx)

theorem onScopes (A : Accounted rt lent counted) {f : ComponentTaskState → Exec ComponentTaskState}
    (hf : ∀ task, f rt.taskState = .ok task → rt.taskState.SameCounts task) :
    Accounted ((onScopes f).run rt).2 lent counted := by
  simp only [ResourceTables.onScopes, run_bind, run_get, run_lift]
  cases h : f rt.taskState with
  | error e => exact A
  | ok task => exact A.setTaskState (hf task h)

/-- **A step** keeps the accounts; only an operation that fails after its first write adds
to what is on one side only. -/
theorem step (A : Accounted rt lent counted) {op : ResourceOp} (ha : op.allowed rt = true) :
    ∃ lent' counted', Accounted (op.run rt).2 lent' counted' ∧
      (op.completes rt = true → lent' = lent ∧ counted' = counted) := by
  have keep : Accounted (op.run rt).2 lent counted → ∃ lent' counted',
      Accounted (op.run rt).2 lent' counted' ∧
        (op.completes rt = true → lent' = lent ∧ counted' = counted) := fun h =>
    ⟨lent, counted, h, fun _ => ⟨rfl, rfl⟩⟩
  cases op with
  | resourceNew resource reserve => exact keep (A.resourceNew resource reserve)
  | resourceLowerOwn resource reserve => exact keep (A.resourceNew resource reserve)
  | resourceRep index => exact keep (A.resourceRep index)
  | resourceDrop index => exact keep (A.resourceDrop index).1
  | resourceLiftOwn index =>
    obtain ⟨⟨counted', A', hc⟩, -⟩ := A.resourceLiftOwn index
    refine ⟨lent, counted', A', fun h => ⟨rfl, hc ?_⟩⟩
    simpa [ResourceOp.completes] using h
  | resourceLiftBorrow index =>
    obtain ⟨lent', A', hl⟩ := A.resourceLiftBorrow index
    exact ⟨lent', counted, A', fun h => ⟨hl h, rfl⟩⟩
  | resourceLowerBorrow resource reserve =>
    obtain ⟨counted', A', hc⟩ := A.resourceLowerBorrow resource reserve
    exact ⟨lent, counted', A', fun h => ⟨rfl, hc h⟩⟩
  | validateScopeExit => exact keep A.validateScopeExit
  | enterCall reserve =>
    refine keep (A.onScopes fun task hok => ?_)
    rcases htask : rt.taskState with scopes | state <;> rw [htask] at hok
    swap
    · cases hok
    · cases reserve with
      | false => cases hok
      | true =>
        rw [← ok.inj hok]
        exact sameCounts_push scopes
  | exitCall =>
    refine keep (A.onScopes fun task hok => ?_)
    rcases htask : rt.taskState with scopes | state <;> rw [htask] at hok
    swap
    · cases hok
    · have hlast : scopes.getLast? = some .default := by
        simpa [ResourceOp.allowed, canExit, htask] using ha
      obtain ⟨init, rfl⟩ := getLast?_eq_some_iff.mp hlast
      rw [← ok.inj hok, dropLast_concat]
      exact sameCounts_pop init
  | pushTask rep isHost =>
    refine keep (A.onScopes fun task hok => ?_)
    rcases htask : rt.taskState with scopes | state <;> rw [htask] at hok
    · cases hok
    obtain ⟨hfree, -⟩ : state.table[rep]?.join = none ∧ rep ≤ state.table.length := by
      simpa [ResourceOp.allowed, canPush, htask] using ha
    rw [pushTask] at hok
    split at hok
    · rename_i hlt
      rw [← ok.inj hok]
      refine sameCounts_setTask (getElem?_eq_getElem hlt) ?_ ?_
      · rw [getElem?_eq_getElem hlt] at hfree
        intro t ht
        simp [show state.table[rep] = some t from ht] at hfree
      · intro t ht
        rw [← some.inj ht]
    · rw [← ok.inj hok]
      exact sameCounts_pushTask state isHost
  | deleteTask rep =>
    refine keep (A.onScopes fun task hok => ?_)
    rcases htask : rt.taskState with scopes | state <;> rw [htask] at hok
    · cases hok
    rw [deleteTask] at hok
    rcases hget : state.table[rep]? with _ | _ | t
    · simp [hget] at hok
    · simp [hget] at hok
    have hemp : t.callContext = .default := by
      simpa [ResourceOp.allowed, canDelete, htask, hget] using ha
    rw [hget] at hok
    rw [← ok.inj hok]
    refine sameCounts_setTask hget ?_ (fun t ht => by cases ht)
    intro t' ht'
    rw [← some.inj ht', hemp]
  | setThread thread =>
    refine keep (A.onScopes fun task hok => ?_)
    rcases htask : rt.taskState with scopes | state <;> rw [htask] at hok
    · cases hok
    · rw [← ok.inj hok]
      exact ⟨fun _ => rfl, fun _ _ => rfl, fun _ _ h => .inr h⟩

theorem lendCount_eq (A : Accounted rt [] counted) {h n : ℕ}
    (hl : (rt.table ref).lookup? h = some (.resourceOwn r n)) : n = rt.lendersOf ref h := by
  have := A.lends ref h
  rw [lendCountAt, hl] at this
  simpa [Slot.lends] using this.symm

theorem borrowCount_eq (A : Accounted rt lent []) (hcx : rt.taskState.callContext id = .ok cx) :
    cx.borrowCount = rt.borrowsOf id := by
  have := A.borrows id
  rw [borrowCountOf_eq hcx] at this
  simpa using this.symm

end ResourceTables.Accounted

open ResourceTables in
theorem accounted_of_reaches
    (hs : (resourceMachine.onlyWhen fun rt op => op.completes rt = true).Reaches rt) :
    Accounted rt [] [] := by
  refine Machine.Reaches.invariant (P := fun rt => Accounted rt [] []) ?_ ?_ hs
  · intro rt h
    exact .of_start h
  intro rt op rt' A ha hok
  obtain ⟨lent', counted', A', hc⟩ := A.step ha.1
  obtain ⟨rfl, rfl⟩ := hc ha.2
  have hok : rt.step op = .ok rt' := hok
  rw [step] at hok
  generalize op.run rt = r at hok A'
  obtain ⟨result, rt1⟩ := r
  rcases result with (_ | _ | _) | _
  · rw [← ok.inj hok]
    exact A'
  · cases hok
  · cases hok
  · rw [← ok.inj hok]
    exact A'

open ResourceTables in
/-- **Borrow accounting.**  In every state reached by operations that do not fail after
their first write, the borrow count of each live context is the number of live borrows of
its scope, and the lend count of each owned handle is the number of entries for it in the
lists of lenders.  An owned handle that is dropped or lifted is lent to no one, and
`validateScopeExit` never panics: it returns, unless borrows remain. -/
theorem borrows_accounted {rt : ResourceTables}
    (hs : (resourceMachine.onlyWhen fun rt op => op.completes rt = true).Reaches rt) :
    (∀ id cx, rt.taskState.callContext id = .ok cx → cx.borrowCount = rt.borrowsOf id) ∧
    (∀ ref h r n, (rt.table ref).lookup? h = some (.resourceOwn r n) → n = rt.lendersOf ref h) ∧
    (∀ index ref rep rt', rt.locate index.ty? = .ok ref →
      ((resourceDrop index).run rt = (.ok (some rep), rt') ∨
        (resourceLiftOwn index).run rt = (.ok rep, rt')) →
      rt.lendersOf ref index.rawIndex = 0) ∧
    ∀ id cx, rt.taskState.currentCallContextScopeId = .ok id →
      rt.taskState.callContext id = .ok cx →
      (validateScopeExit.run rt).1 = if 0 < cx.borrowCount then
        .error (.error "borrow handles still remain at the end of the call") else .ok ⟨⟩ := by
  have A := accounted_of_reaches hs
  refine ⟨fun _ _ => A.borrowCount_eq, fun _ _ _ _ => A.lendCount_eq, ?_, ?_⟩
  · intro index ref rep rt' hloc h
    rcases h with h | h
    · exact (A.resourceDrop index).2 ref rep rt' hloc h
    · exact (A.resourceLiftOwn index).2 ref rep rt' hloc h
  · intro id cx hid hcx
    obtain ⟨rt', hrun, -⟩ := A.validateScopeExit_of_context hid hcx
    rw [hrun]

/-- The tables of a component with one instance and one resource type. -/
def oneInstance : ResourceTables :=
  ⟨some ⟨[.default], [some 0]⟩, .default, .notConcurrent []⟩

theorem start_oneInstance : resourceMachine.start oneInstance := by
  simp [resourceMachine, oneInstance]

/-- In a call an owned handle of the guest is lent to the host; it cannot be dropped. -/
theorem borrows_accounted_lent : ∃ rt,
    (resourceMachine.onlyWhen fun rt op => op.completes rt = true).Reaches rt ∧
    (rt.table (.guest 0)).lookup? 1 = some (.resourceOwn (.component 7 0) 1) ∧
    1 = rt.lendersOf (.guest 0) 1 := by
  obtain ⟨rt, hs, h⟩ := Machine.reaches_of_run?
    (M := resourceMachine.onlyWhen fun rt op => op.completes rt = true)
    [.enterCall true, .resourceNew (.component 7 0) true, .resourceLowerBorrow (.host 9) true,
      .resourceLiftBorrow (.component 1 0), .resourceDrop (.component 1 0), .resourceDrop (.host 1)]
    (p := fun rt => decide ((rt.table (.guest 0)).lookup? 1 =
      some (.resourceOwn (.component 7 0) 1))) start_oneInstance
    (by decide +kernel)
  have h := of_decide_eq_true h
  exact ⟨rt, hs, h, (borrows_accounted hs).2.1 _ _ _ _ h⟩

/-- A borrow passed where an owned handle is expected is removed and still counted; so is a
borrow for which the table has no room. -/
theorem borrowCount_leaks :
    (∃ rt, resourceMachine.Reaches rt ∧ rt.taskState.callContext 0 = .ok ⟨[], 1⟩ ∧
      rt.borrowsOf 0 = 0 ∧ rt.table (.guest 0) = ⟨0, [.free 1]⟩) ∧
    ∃ rt, resourceMachine.Reaches rt ∧ rt.taskState.callContext 0 = .ok ⟨[], 1⟩ ∧
      rt.borrowsOf 0 = 0 ∧ rt.table (.guest 0) = ⟨0, []⟩ := by
  constructor
  · obtain ⟨rt, hs, h⟩ := Machine.reaches_of_run? (M := resourceMachine)
      [.enterCall true, .resourceLowerBorrow (.component 7 0) true,
        .resourceLiftOwn (.component 1 0)]
      (p := fun rt => decide (rt = ⟨some ⟨[⟨0, [.free 1]⟩], [some 0]⟩, .default,
        .notConcurrent [⟨[], 1⟩]⟩)) start_oneInstance (by decide +kernel)
    obtain rfl := of_decide_eq_true h
    exact ⟨_, hs, rfl, rfl, rfl⟩
  obtain ⟨rt, hs, h⟩ := Machine.reaches_of_run? (M := resourceMachine)
    [.enterCall true, .resourceLowerBorrow (.component 7 0) false]
    (p := fun rt => decide (rt = ⟨some ⟨[⟨0, []⟩], [some 0]⟩, .default,
      .notConcurrent [⟨[], 1⟩]⟩)) start_oneInstance (by decide +kernel)
  obtain rfl := of_decide_eq_true h
  exact ⟨_, hs, rfl, rfl, rfl⟩

end WasmDeps.Component
