import WasmDeps.Gc.RootSet

/-!
# Scoped roots along a run

Scopes are entered and exited in strict nesting order, and roots are pushed into the
innermost one.  A run of this is recorded in a `Scoping`: the store itself, the open
scopes, and every scoped root that was ever made together with the reference and the scope
it was made for.

The generation counter is what tells a root of an exited scope from a later root at the
same position.  It grows with every exit of a scope that has roots, so as long as it does
not wrap around, every root of an exited scope is from an older generation than whatever is
at its position now (`Scoping.Placed`).  It is a `u32`, and a build without overflow checks
wraps it around: after `2 ^ 32` such exits an old root resolves to another reference.
-/

namespace WasmDeps.Gc

open WasmDeps.Lib List Exec

/-! ## Runs -/

/-- A scope that has been entered and not exited. -/
structure OpenScope where
  /-- The scopes are numbered from one as they are entered. -/
  id : ℕ
  start : ℕ
  deriving DecidableEq

/-- A root that was made, its referent and its scope. -/
structure ScopedRoot where
  root : GcRootIndex
  gcRef : VMGcRef
  /-- The innermost scope at that time; zero for the store itself. -/
  scope : ℕ
  deriving DecidableEq

/-- A store, the scopes that are open in it, and the scoped roots made so far. -/
structure Scoping where
  store : StoreOpaque
  scopes : List OpenScope
  entered : ℕ
  made : List ScopedRoot

namespace Scoping

/-- The operations on scopes. -/
inductive Op
  | enter
  | exit
  | push (gcRef : VMGcRef)

def init (id : ℕ) (gcStore : Bool) : Scoping where
  store := ⟨id, gcStore, .empty⟩
  scopes := []
  entered := 0
  made := []

variable (s : Scoping)

/-- The scope that a root pushed now belongs to. -/
def current : ℕ := (s.scopes.head?.map OpenScope.id).getD 0

/-- The scope has not been left. -/
def IsOpen (scope : ℕ) : Prop := scope = 0 ∨ ∃ o ∈ s.scopes, o.id = scope

instance (s : Scoping) (scope : ℕ) : Decidable (s.IsOpen scope) :=
  inferInstanceAs (Decidable (scope = 0 ∨ ∃ o ∈ s.scopes, o.id = scope))

/-- One operation, with what it records. -/
def step (overflowChecks : Bool) (s : Scoping) : Op → Exec Scoping
  | .enter =>
    pure
      { s with
        scopes := ⟨s.entered + 1, s.store.gcRoots.enterLifoScope⟩ :: s.scopes
        entered := s.entered + 1 }
  | .exit =>
    match s.scopes with
    | [] => throw (.panic "no scope to exit")
    | o :: rest => do
      let (roots, _) ←
        s.store.gcRoots.exitLifoScope overflowChecks s.store.gcStore o.start
      pure { s with store := { s.store with gcRoots := roots }, scopes := rest }
  | .push gcRef => do
    let (root, roots) ← s.store.gcRoots.pushLifoRoot s.store.id gcRef
    pure
      { s with
        store := { s.store with gcRoots := roots }
        made := ⟨root, gcRef, s.current⟩ :: s.made }

abbrev stack : List LifoRoot := s.store.gcRoots.lifoRoots

abbrev generation : ℕ := s.store.gcRoots.lifoGeneration

/-- The step does not wrap the generation around.  With overflow checks none does. -/
def CountsOn (overflowChecks : Bool) (s : Scoping) : Op → Prop
  | .exit =>
    overflowChecks = false →
      ∀ o ∈ s.scopes.head?, o.start < s.stack.length → s.generation < u32Max
  | _ => True

instance (overflowChecks : Bool) (s : Scoping) (op : Op) :
    Decidable (s.CountsOn overflowChecks op) :=
  match op with
  | .enter => .isTrue trivial
  | .push _ => .isTrue trivial
  | .exit =>
    inferInstanceAs (Decidable (overflowChecks = false →
      ∀ o ∈ s.scopes.head?, o.start < s.stack.length → s.generation < u32Max))

end Scoping

/-- Runs of scope entries, exits and pushes in a new store.  Scopes are values that exit
when they are dropped, so there is one to exit. -/
def scopingMachine (overflowChecks : Bool) : Machine Scoping Scoping.Op where
  start := fun s => ∃ id gcStore, s = .init id gcStore
  allowed := fun s op =>
    match op with
    | .exit => s.scopes ≠ []
    | _ => True
  step := Scoping.step overflowChecks

instance (overflowChecks : Bool) (s : Scoping) (op : Scoping.Op) :
    Decidable ((scopingMachine overflowChecks).allowed s op) :=
  match op with
  | .enter => .isTrue trivial
  | .push _ => .isTrue trivial
  | .exit => inferInstanceAs (Decidable (s.scopes ≠ []))

/-! ## What each step does -/

namespace RootSet

variable {overflowChecks gcStore : Bool} {r r' : RootSet} {scope : ℕ} {dropped : List VMGcRef}

theorem nextGeneration_eq {g g' : ℕ} (hok : nextGeneration overflowChecks g = .ok g')
    (hcnt : overflowChecks = false → g < u32Max) : g' = g + 1 := by
  cases overflowChecks with
  | true => exact (addU32_eq_ok.mp hok).2.symm
  | false =>
    have hlt := hcnt rfl
    obtain rfl : (g + 1) % (u32Max + 1) = g' := by simpa [nextGeneration] using hok
    exact Nat.mod_eq_of_lt (by omega)

/-- Leaving a scope cuts the stack and starts a generation. -/
theorem exitLifoScope_spec (hok : r.exitLifoScope overflowChecks gcStore scope = .ok (r', dropped))
    (hcnt : overflowChecks = false → scope < r.lifoRoots.length → r.lifoGeneration < u32Max) :
    r'.lifoRoots = r.lifoRoots.take scope ∧ r.lifoGeneration ≤ r'.lifoGeneration ∧
      (scope < r.lifoRoots.length → r.lifoGeneration < r'.lifoGeneration) := by
  rw [exitLifoScope] at hok
  split at hok
  · rename_i hlt
    obtain ⟨g, hg, hok⟩ := bind_eq_ok.mp hok
    have hnext := nextGeneration_eq hg fun hc => hcnt hc hlt
    cases hok
    exact ⟨rfl, by simp only; omega, fun _ => by simp only; omega⟩
  · rename_i hle
    cases hok
    exact ⟨(take_of_length_le (by omega)).symm, le_refl _, fun h => absurd h hle⟩

/-- A new root is the last of the stack. -/
theorem pushLifoRoot_spec {storeId : ℕ} {gcRef : VMGcRef} {root : GcRootIndex}
    (hok : r.pushLifoRoot storeId gcRef = .ok (root, r')) :
    root.storeId = storeId ∧ root.generation = r.lifoGeneration ∧
      root.index.asLifo = some r.lifoRoots.length ∧
      r'.lifoGeneration = r.lifoGeneration ∧
      r'.lifoRoots = r.lifoRoots ++ [⟨r.lifoGeneration, gcRef⟩] := by
  obtain ⟨index, hidx, hok⟩ := bind_eq_ok.mp hok
  cases hok
  exact ⟨rfl, rfl, PackedIndex.newLifo_eq_ok hidx, rfl, rfl⟩

end RootSet

/-! ## The invariant -/

namespace Scoping

variable {overflowChecks : Bool} {s s' : Scoping} {h : ScopedRoot} {i : ℕ}

/-- A root is at position `i`.  While its scope is open its entry is there, above the start
of its own scope and below the start of every scope within; afterwards only entries of later
generations are. -/
structure Placed (s : Scoping) (h : ScopedRoot) (i : ℕ) : Prop where
  entered : h.scope ≤ s.entered
  /-- No root is from a generation to come. -/
  generation_le : h.root.generation ≤ s.generation
  entry : s.IsOpen h.scope → s.stack[i]? = some ⟨h.root.generation, h.gcRef⟩
  /-- A root lies below the scopes within its own. -/
  below : s.IsOpen h.scope → ∀ o ∈ s.scopes, h.scope < o.id → i < o.start
  above : s.IsOpen h.scope → ∀ o ∈ s.scopes, h.scope = o.id → o.start ≤ i
  /-- A root whose scope is exited is from an earlier generation. -/
  generation_lt : ¬s.IsOpen h.scope → h.root.generation < s.generation
  /-- It is also from an earlier one than the entry at its position. -/
  later : ¬s.IsOpen h.scope → ∀ e, s.stack[i]? = some e → h.root.generation < e.generation

/-- The invariant of the runs. -/
structure Inv (s : Scoping) : Prop where
  ids : s.scopes.Pairwise fun a b => b.id < a.id
  /-- The open scopes have been entered. -/
  ids_le : ∀ o ∈ s.scopes, 0 < o.id ∧ o.id ≤ s.entered
  starts_le : ∀ o ∈ s.scopes, o.start ≤ s.stack.length
  placed : ∀ h ∈ s.made,
    h.root.storeId = s.store.id ∧ ∃ i, h.root.index.asLifo = some i ∧ s.Placed h i
  starts : s.scopes.Pairwise fun a b => b.start ≤ a.start

theorem Placed.lt_length (hp : s.Placed h i) (hopen : s.IsOpen h.scope) : i < s.stack.length :=
  lt_of_getElem? (hp.entry hopen)

/-- A handle resolves to its own reference exactly while its scope is open. -/
theorem Placed.getGcRef (hp : s.Placed h i) (hid : h.root.storeId = s.store.id)
    (hi : h.root.index.asLifo = some i) :
    h.root.getGcRef s.store = .ok (if s.IsOpen h.scope then some h.gcRef else none) := by
  have hsame : h.root.getGcRef s.store = .ok
      ((s.stack[i]?).bind fun e =>
        if e.generation = h.root.generation then some e.gcRef else none) := by
    simp only [GcRootIndex.getGcRef, ensure_of hid, ok_bind, hi]
    cases s.store.gcRoots.lifoRoots[i]? <;> rfl
  rw [hsame]
  by_cases hopen : s.IsOpen h.scope
  · simp [hp.entry hopen, hopen]
  rw [if_neg hopen]
  cases he : s.stack[i]? with
  | none => rfl
  | some e =>
    have hlt := hp.later hopen e he
    simp [ne_of_gt hlt]

theorem inv_init (id : ℕ) (gcStore : Bool) : (init id gcStore).Inv where
  ids := List.Pairwise.nil
  ids_le := by simp [init]
  starts_le := by simp [init]
  placed := by simp [init]
  starts := List.Pairwise.nil

/-! ## One step keeps it -/

variable {o : OpenScope} {t : Scoping}

theorem isOpen_cons (hs : s.scopes = o :: t.scopes) (scope : ℕ) :
    s.IsOpen scope ↔ t.IsOpen scope ∨ scope = o.id := by
  rw [IsOpen]
  rw [hs]
  constructor
  · rintro (h0 | ⟨p, hp, rfl⟩)
    · exact .inl (.inl h0)
    · rcases mem_cons.mp hp with rfl | hp
      · exact .inr rfl
      · exact .inl (.inr ⟨p, hp, rfl⟩)
  · rintro ((h0 | ⟨p, hp, rfl⟩) | rfl)
    · exact .inl h0
    · exact .inr ⟨p, .tail _ hp, rfl⟩
    · exact .inr ⟨o, .head _, rfl⟩

/-- Entering a scope keeps the invariant. -/
theorem Inv.enter (hinv : s.Inv) (hok : s.step overflowChecks .enter = .ok s') : s'.Inv := by
  cases hok
  refine
    { ids := pairwise_cons.mpr ⟨fun o ho => ?_, hinv.ids⟩
      ids_le := fun o ho => ?_
      starts_le := fun o ho => ?_
      placed := fun h hh => ?_
      starts := pairwise_cons.mpr ⟨hinv.starts_le, hinv.starts⟩ }
  · exact Nat.lt_succ_of_le (hinv.ids_le o ho).2
  · rcases mem_cons.mp ho with rfl | ho
    · exact ⟨Nat.succ_pos _, le_refl _⟩
    · exact ⟨(hinv.ids_le o ho).1, Nat.le_succ_of_le (hinv.ids_le o ho).2⟩
  · rcases mem_cons.mp ho with rfl | ho
    · exact le_refl _
    · exact hinv.starts_le o ho
  obtain ⟨hid, i, hi, hp⟩ := hinv.placed h hh
  have hent := hp.entered
  -- The new scope has a new number, so it is the scope of no root made before.
  have hopen := isOpen_cons (s := { s with
    scopes := ⟨s.entered + 1, s.store.gcRoots.enterLifoScope⟩ :: s.scopes
    entered := s.entered + 1 }) rfl h.scope
  rw [or_iff_left (by simp only; omega)] at hopen
  refine ⟨hid, i, hi, ?_⟩
  exact
    { entered := Nat.le_succ_of_le hent
      generation_le := hp.generation_le
      entry := fun ho => hp.entry (hopen.mp ho)
      below := by
        intro ho o hmem hlt
        rcases mem_cons.mp hmem with rfl | hmem
        · exact hp.lt_length (hopen.mp ho)
        · exact hp.below (hopen.mp ho) o hmem hlt
      above := by
        intro ho o hmem heq
        rcases mem_cons.mp hmem with rfl | hmem
        · simp only at heq; omega
        · exact hp.above (hopen.mp ho) o hmem heq
      generation_lt := fun hn => hp.generation_lt (mt hopen.mpr hn)
      later := fun hn => hp.later (mt hopen.mpr hn) }

theorem Inv.current_spec (hinv : s.Inv) :
    s.current ≤ s.entered ∧ s.IsOpen s.current ∧ ∀ o ∈ s.scopes, o.id ≤ s.current := by
  rw [current]
  cases hs : s.scopes with
  | nil => exact ⟨Nat.zero_le _, .inl rfl, by simp⟩
  | cons o rest =>
    have hids := hinv.ids
    have hle := (hinv.ids_le o (hs ▸ (.head _))).2
    rw [hs] at hids
    refine ⟨hle, .inr ⟨o, hs ▸ (.head _), rfl⟩, fun p hp => ?_⟩
    rcases mem_cons.mp hp with rfl | hp
    · exact le_refl _
    · exact le_of_lt ((pairwise_cons.mp hids).1 p hp)

/-- Making a root keeps the invariant. -/
theorem Inv.push {gcRef : VMGcRef} (hinv : s.Inv)
    (hok : s.step overflowChecks (.push gcRef) = .ok s') : s'.Inv := by
  obtain ⟨⟨root, roots⟩, hpush, hok⟩ := bind_eq_ok.mp hok
  obtain ⟨hid, hgen, hidx, hgen', hstack⟩ := RootSet.pushLifoRoot_spec hpush
  cases hok
  obtain ⟨hcur, hopen, hinner⟩ := hinv.current_spec
  refine
    { ids := hinv.ids
      ids_le := hinv.ids_le
      starts_le := fun o ho => ?_
      placed := fun h hh => ?_
      starts := hinv.starts }
  · have := hinv.starts_le o ho
    simp only [stack, hstack, length_append] at this ⊢
    omega
  rcases mem_cons.mp hh with rfl | hh
  · refine ⟨hid, s.stack.length, hidx, ?_⟩
    exact
      { entered := hcur
        generation_le := by simp only [generation, hgen, hgen']; exact le_refl _
        entry := fun _ => by simp [stack, hstack, hgen]
        below := fun _ o ho hlt => absurd hlt (not_lt.mpr (hinner o ho))
        above := fun _ o ho _ => hinv.starts_le o ho
        generation_lt := (absurd hopen)
        later := (absurd hopen) }
  obtain ⟨hid', i, hi, hp⟩ := hinv.placed h hh
  refine ⟨hid', i, hi, ?_⟩
  exact
    { entered := hp.entered
      generation_le := by simpa only [generation, hgen'] using hp.generation_le
      entry := fun ho => by
        rw [stack, hstack]
        rw [getElem?_append_left (hp.lt_length ho)]
        exact hp.entry ho
      below := hp.below
      above := hp.above
      generation_lt := fun hn => by
        simpa only [generation, hgen'] using hp.generation_lt hn
      later := fun hn e he => by
        rw [stack, hstack, getElem?_concat] at he
        split at he
        · rw [← Option.some.inj he]
          exact hp.generation_lt hn
        · exact hp.later hn e he }

theorem Inv.lt_of_isOpen {scope : ℕ} (hinv : s.Inv)
    (hs : s.scopes = o :: t.scopes) (hopen : t.IsOpen scope) : scope < o.id := by
  have hids := hinv.ids
  rw [hs] at hids
  rcases hopen with rfl | ⟨p, hp, rfl⟩
  · exact (hinv.ids_le o (hs ▸ (.head _))).1
  · exact (pairwise_cons.mp hids).1 p hp

/-- Roots of open scopes keep their places. -/
theorem Placed.exit (hinv : s.Inv) (hp : s.Placed h i)
    (hs : s.scopes = o :: t.scopes) (hent : t.entered = s.entered)
    (hstack : t.stack = s.stack.take o.start) (hle : s.generation ≤ t.generation)
    (hcut : o.start < s.stack.length → s.generation < t.generation) : t.Placed h i := by
  have hsub : ∀ p ∈ t.scopes, p ∈ s.scopes := fun p hp => hs ▸ .tail o hp
  have hopen : t.IsOpen h.scope → s.IsOpen h.scope := fun ho => (isOpen_cons hs _).mpr (.inl ho)
  -- A root that stops being open is one of the scope that is exited.
  have hown : s.IsOpen h.scope → ¬t.IsOpen h.scope → o.start ≤ i := fun ho hn =>
    hp.above ho o (hs ▸ (.head _)) (((isOpen_cons hs _).mp ho).resolve_left hn)
  have hgen := hp.generation_le
  exact
    { entered := hent ▸ hp.entered
      generation_le := le_trans hgen hle
      entry := fun ho => by
        have hlt := hp.below (hopen ho) o (hs ▸ (.head _)) (hinv.lt_of_isOpen hs ho)
        rw [hstack, getElem?_take_of_lt hlt]
        exact hp.entry (hopen ho)
      below := fun ho p hmem => hp.below (hopen ho) p (hsub p hmem)
      above := fun ho p hmem => hp.above (hopen ho) p (hsub p hmem)
      generation_lt := by
        intro hn
        by_cases ho : s.IsOpen h.scope
        · exact lt_of_le_of_lt hgen (hcut (lt_of_le_of_lt (hown ho hn) (hp.lt_length ho)))
        · exact lt_of_lt_of_le (hp.generation_lt ho) hle
      later := by
        intro hn e he
        rw [hstack, getElem?_take] at he
        split at he
        · rename_i hlt
          exact hp.later (fun ho => not_le.mpr hlt (hown ho hn)) e he
        · cases he }

/-- Leaving a scope keeps the invariant. -/
theorem Inv.exit (hinv : s.Inv) (hcnt : s.CountsOn overflowChecks .exit)
    (hok : s.step overflowChecks .exit = .ok s') : s'.Inv := by
  rw [step] at hok
  split at hok
  · cases hok
  rename_i o rest hs
  obtain ⟨⟨roots, dropped⟩, hexit, hok⟩ := bind_eq_ok.mp hok
  cases hok
  have hids := hinv.ids
  have hsts := hinv.starts
  have hsub : ∀ p ∈ rest, p ∈ s.scopes := fun p hp => hs ▸ .tail o hp
  rw [hs] at hids hsts
  obtain ⟨hrts, hle, hcut⟩ :=
    RootSet.exitLifoScope_spec hexit fun hc hlt => hcnt hc o (by simp [hs]) hlt
  refine
    { ids := (pairwise_cons.mp hids).2
      ids_le := fun p hp => hinv.ids_le p (hsub p hp)
      starts_le := fun p hp => ?_
      placed := fun h hh => ?_
      starts := (pairwise_cons.mp hsts).2 }
  · have hple := hinv.starts_le p (hsub p hp)
    have hpo := (pairwise_cons.mp hsts).1 p hp
    simp only [stack, hrts, length_take] at hple ⊢
    omega
  · obtain ⟨hid, i, hi, hp⟩ := hinv.placed h hh
    exact ⟨hid, i, hi, hp.exit hinv hs rfl hrts hle hcut⟩

/-- Every step keeps the invariant. -/
theorem Inv.step {op : Op} (hinv : s.Inv) (hcnt : s.CountsOn overflowChecks op)
    (hok : s.step overflowChecks op = .ok s') : s'.Inv := by
  cases op with
  | enter => exact hinv.enter hok
  | exit => exact hinv.exit hcnt hok
  | push gcRef => exact hinv.push hok

end Scoping

/-! ## Runs in which the generation counts on -/

/-- **A scoped root resolves to its own reference.**  In every run in which the generation
does not wrap around — with overflow checks, in every run — every scoped root that was ever
made resolves to the reference it was made for while its scope is open, and to nothing once
it is exited. -/
theorem scoped_root_resolves {overflowChecks : Bool} {s : Scoping}
    (hs : ((scopingMachine overflowChecks).onlyWhen (Scoping.CountsOn overflowChecks)).Reaches s)
    {h : ScopedRoot} (hh : h ∈ s.made) :
    h.root.getGcRef s.store = .ok (if s.IsOpen h.scope then some h.gcRef else none) := by
  have hinv : s.Inv := by
    apply hs.invariant
    · rintro _ ⟨id, gcStore, rfl⟩
      exact Scoping.inv_init id gcStore
    · intro s op s' hinv hall hok
      exact hinv.step hall.2 hok
  obtain ⟨hid, i, hi, hp⟩ := hinv.placed h hh
  exact hp.getGcRef hid hi

/-- The root of an exited scope, after a second scope put another root at its position. -/
theorem scoped_root_resolves_reused :
    ∃ s : Scoping, ((scopingMachine false).onlyWhen (Scoping.CountsOn false)).Reaches s ∧
      s.stack.length = 1 ∧
      ∃ h ∈ s.made, ¬s.IsOpen h.scope ∧ h.root.getGcRef s.store = .ok none := by
  obtain ⟨s, hs, hp⟩ := Machine.reaches_of_run?
    (M := (scopingMachine false).onlyWhen (Scoping.CountsOn false))
    (p := fun s => s.stack.length = 1 ∧ ∃ h ∈ s.made, ¬s.IsOpen h.scope)
    [.enter, .push (i31Ref 0), .exit, .enter, .push (i31Ref 1)] ⟨0, false, rfl⟩
    (by decide +kernel)
  obtain ⟨hlen, h, hh, hexited⟩ := of_decide_eq_true hp
  refine ⟨s, hs, hlen, h, hh, hexited, ?_⟩
  rw [scoped_root_resolves hs hh, if_neg hexited]

/-! ## A run in which it wraps around -/

namespace Scoping

variable {s : Scoping}

section

variable (hs : (scopingMachine false).Reaches s) (hscopes : s.scopes = []) (hstack : s.stack = [])
  (r : VMGcRef)
include hs hscopes hstack r

theorem reaches_enter_push :
    ∃ s', (scopingMachine false).Reaches s' ∧ s'.scopes = [⟨s.entered + 1, 0⟩] ∧
      s'.stack = [⟨s.generation, r⟩] ∧ s'.generation = s.generation ∧
      s'.store.id = s.store.id ∧ s'.entered = s.entered + 1 ∧
      s'.made = ⟨⟨s.store.id, s.generation, ⟨0⟩⟩, r, s.entered + 1⟩ :: s.made := by
  have henter := Machine.Reaches.step (i := Op.enter) hs trivial rfl
  have hpush := Machine.Reaches.step (i := Op.push r) henter trivial (by
    simp only [scopingMachine, step, RootSet.pushLifoRoot, RootSet.enterLifoScope]
    simp only [stack] at hstack
    rw [hstack]
    rfl)
  refine ⟨_, hpush, ?_⟩
  simp [stack, current, hscopes]

/-- A whole scope with one root takes the generation one on, and the largest one to zero. -/
theorem reaches_round : ∃ s', (scopingMachine false).Reaches s' ∧ s'.scopes = [] ∧ s'.stack = [] ∧
      s'.generation = (s.generation + 1) % (u32Max + 1) ∧ s'.store.id = s.store.id ∧
      s'.entered = s.entered + 1 ∧
      s'.made = ⟨⟨s.store.id, s.generation, ⟨0⟩⟩, r, s.entered + 1⟩ :: s.made := by
  obtain ⟨t, ht, hsc', hstk', hgen, hid, hent, hmade⟩ :=
    reaches_enter_push hs hscopes hstack r
  have hexit := Machine.Reaches.step (i := Op.exit) ht
    (show t.scopes ≠ [] by rw [hsc']; exact cons_ne_nil _ _) (by
      simp only [scopingMachine, step, hsc', RootSet.exitLifoScope]
      rw [stack] at hstk'
      rw [if_pos (by rw [hstk']; exact Nat.zero_lt_one)]
      rfl)
  refine ⟨_, hexit, rfl, rfl, ?_, hid, hent, hmade⟩
  exact congrArg (fun g => (g + 1) % (u32Max + 1)) hgen

end

def firstRoot : ScopedRoot := ⟨⟨0, 0, ⟨0⟩⟩, i31Ref 0, 1⟩

/-- Rounds of a scope with one root, which count the generation up. -/
theorem reaches_rounds (n : ℕ) :
    ∃ s, (scopingMachine false).Reaches s ∧ s.scopes = [] ∧ s.stack = [] ∧
      s.generation = (n + 1) % (u32Max + 1) ∧ s.store.id = 0 ∧ s.entered = n + 1 ∧
      firstRoot ∈ s.made := by
  induction n with
  | zero =>
    obtain ⟨s, hs, hscopes, hstack, hgen, hid, hent, hmade⟩ :=
      reaches_round (.start ⟨0, false, rfl⟩) rfl rfl (i31Ref 0)
    exact ⟨s, hs, hscopes, hstack, hgen, hid, hent, hmade ▸ (.head _)⟩
  | succ n ih =>
    obtain ⟨s, hs, hscopes, hstack, hgen, hid, hent, hfst⟩ := ih
    obtain ⟨t, ht, hsc', hstk', hgen', hid', hent', hmade⟩ :=
      reaches_round hs hscopes hstack (i31Ref 1)
    refine ⟨t, ht, hsc', hstk', ?_, hid'.trans hid, by omega,
      hmade ▸ .tail _ hfst⟩
    rw [hgen', hgen, Nat.mod_add_mod]

end Scoping

/-- **A scoped root that resolves to another reference.**  Without overflow checks, the root
of the first scope of a store resolves to the root of the scope after `2 ^ 32` exits. -/
theorem scoped_root_resolves_to_another :
    ∃ s : Scoping, (scopingMachine false).Reaches s ∧ ∃ h ∈ s.made,
      ¬s.IsOpen h.scope ∧ h.gcRef = i31Ref 0 ∧
      h.root.getGcRef s.store = .ok (some (i31Ref 1)) := by
  obtain ⟨s, hs, hscopes, hstack, hgen, hid, hent, hfst⟩ := Scoping.reaches_rounds u32Max
  obtain ⟨t, ht, hsc', hstk', hgen', hid', hent', hmade⟩ :=
    Scoping.reaches_enter_push hs hscopes hstack (i31Ref 1)
  refine ⟨t, ht, Scoping.firstRoot, hmade ▸ .tail _ hfst, ?_, rfl, ?_⟩
  · rw [Scoping.IsOpen, hsc', hent]
    decide
  · rw [Scoping.stack, hgen] at hstk'
    rw [GcRootIndex.getGcRef, hid', hid, PackedIndex.asLifo,
      PackedIndex.isLifo, hstk']
    rfl

end WasmDeps.Gc
