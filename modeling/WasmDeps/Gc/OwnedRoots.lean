import WasmDeps.Gc.RootSet

/-!
# Owned roots along a run

An owned root stays until its last handle is dropped.  Dropping a handle does not touch the
store; the store finds out at its next trim, from the liveness flags.  A run is recorded in
an `Owning`: the store, the shared counts of all handles, and every owned root that was
ever made.

The flags of the roots that have a handle are always there (`Tracks.live`), and a trim
takes out only what a dead flag points to, so a root with a handle is never removed.  The
high-water mark is what keeps the number of flags in proportion to the number of roots that
are alive; but a store without a GC heap does not trim at all.
-/

namespace WasmDeps.Gc

open WasmDeps.Lib List Exec RootSet Option Machine

/-! ## Runs -/

/-- A store, the counts that the handles of each owned root share, and the roots made. -/
structure Owning where
  store : StoreOpaque
  /-- How many handles there are of the `i`-th root. -/
  strong : List ℕ
  /-- The owned roots made so far, with the references they were made for. -/
  made : List (OwnedRooted × VMGcRef)
  /-- The largest number of roots that had a handle at one time. -/
  mostAlive : ℕ

namespace Owning

/-- The operations on owned roots. -/
inductive Op
  /-- Make a root, when the slab can or cannot grow. -/
  | create (gcRef : VMGcRef) (outOfMemory : Bool)
  | clone (root : ℕ)
  | drop (root : ℕ)
  /-- Trim eagerly, as a garbage collection does first. -/
  | collect
  | allocateGcStore

def init (id : ℕ) (gcStore : Bool) : Owning where
  store := ⟨id, gcStore, .empty⟩
  strong := []
  made := []
  mostAlive := 0

variable (s : Owning)

/-- How many handles of a root there are. -/
def strongCount (root : ℕ) : ℕ := s.strong.getD root 0

/-- The roots that have a handle. -/
def aliveRoots : List ℕ :=
  (List.range s.strong.length).filter fun root => 0 < s.strongCount root

/-- One operation, with what it records. -/
def step : Op → Exec Owning
  | .create gcRef outOfMemory => do
    let result ← OwnedRooted.new s.strongCount s.store outOfMemory s.strong.length gcRef
    match result with
    | .error store => pure { s with store := store }
    | .ok (owned, store) =>
      let t :=
        { s with
          store := store
          strong := s.strong ++ [1]
          made := s.made ++ [(owned, gcRef)] }
      pure { t with mostAlive := max s.mostAlive t.aliveRoots.length }
  | .clone root => pure { s with strong := s.strong.set root (s.strongCount root + 1) }
  | .drop root => pure { s with strong := s.strong.set root (s.strongCount root - 1) }
  | .collect => do
    let store ← s.store.trimGcLivenessFlags s.strongCount true
    pure { s with store := store }
  | .allocateGcStore => pure { s with store := { s.store with gcStore := true } }

def HasGcStore : Op → Prop
  | .create _ _ => s.store.gcStore = true
  | _ => True

instance (s : Owning) (op : Op) : Decidable (s.HasGcStore op) :=
  match op with
  | .create _ _ => inferInstanceAs (Decidable (s.store.gcStore = true))
  | .clone _ | .drop _ | .collect | .allocateGcStore => .isTrue trivial

end Owning

/-- Runs that make, clone and drop owned roots.  Only a handle can be cloned or dropped. -/
def owningMachine : Machine Owning Owning.Op where
  start := fun s => ∃ id gcStore, s = .init id gcStore
  allowed := fun s op =>
    match op with
    | .clone root | .drop root => 0 < s.strongCount root
    | _ => True
  step := Owning.step

instance (s : Owning) (op : Owning.Op) : Decidable (owningMachine.allowed s op) :=
  match op with
  | .clone root | .drop root => inferInstanceAs (Decidable (0 < s.strongCount root))
  | .create _ _ | .collect | .allocateGcStore => .isTrue trivial

/-! ## What the flags tell -/

/-- The flags tell about the owned roots: each about one root made, and every root that has
a handle has its flag. -/
structure Tracks (r : RootSet) (count : ℕ → ℕ) (made : List (OwnedRooted × VMGcRef)) : Prop where
  index_nodup : (r.livenessFlags.map LivenessFlag.index).Nodup
  flag_nodup : (r.livenessFlags.map LivenessFlag.flag).Nodup
  recorded : ∀ f ∈ r.livenessFlags, ∃ o gcRef, made[f.flag]? = some (o, gcRef) ∧
    o.inner.index.asOwned = some f.index ∧ r.ownedRooted.get? f.index = some gcRef
  live : ∀ root, 0 < count root → ∃ f ∈ r.livenessFlags, f.flag = root

variable {r : RootSet} {count count' : ℕ → ℕ} {made : List (OwnedRooted × VMGcRef)} {eager : Bool}

theorem Tracks.mono (h : Tracks r count made) (hcnt : ∀ a, 0 < count' a → 0 < count a) :
    Tracks r count' made where
  index_nodup := h.index_nodup
  flag_nodup := h.flag_nodup
  recorded := h.recorded
  live := fun root hpos => h.live root (hcnt root hpos)

/-- `retain` keeps the flags that are not dead, and every root that no dead flag tells
about. -/
theorem RootSet.retain_spec (count : ℕ → ℕ) {flags : List LivenessFlag} {roots : Slab VMGcRef}
    (hnd : (flags.map LivenessFlag.index).Nodup)
    (hin : ∀ f ∈ flags, (roots.get? f.index).isSome) :
    ∃ roots' dropped,
      RootSet.retain count flags roots =
        .ok (flags.filter fun f => count f.flag ≠ 0, roots', dropped) ∧
      ∀ j, (∀ f ∈ flags, f.index = j → count f.flag ≠ 0) → roots'.get? j = roots.get? j := by
  induction flags generalizing roots with
  | nil => exact ⟨roots, [], rfl, fun _ _ => rfl⟩
  | cons f flags ih =>
    obtain ⟨hnot, hnd⟩ := nodup_cons.mp hnd
    by_cases hdead : count f.flag = 0
    · obtain ⟨gcRef, hget⟩ := isSome_iff_exists.mp (hin f (.head _))
      obtain ⟨roots1, hdea, hget1⟩ := Slab.dealloc_of hget
      have hne : ∀ g ∈ flags, g.index ≠ f.index := fun g hg heq =>
        hnot (mem_map.mpr ⟨g, hg, heq⟩)
      have hin1 : ∀ g ∈ flags, (roots1.get? g.index).isSome := by
        intro g hg
        rw [hget1, if_neg (hne g hg)]
        exact hin g (.tail f hg)
      obtain ⟨roots2, dropped, hretain, hget2⟩ := ih hnd hin1
      refine ⟨roots2, gcRef :: dropped, ?_, fun j hj => ?_⟩
      · simp [retain, hdead, hdea, hretain, hget, filter_cons_of_neg, toList_some]
      · rw [hget2 j fun g hg => hj g (.tail f hg), hget1, if_neg]
        rintro rfl
        exact hj f (.head _) rfl hdead
    · obtain ⟨roots', dropped, hretain, hget⟩ := ih hnd fun g hg =>
        hin g (.tail f hg)
      refine ⟨roots', dropped, ?_, fun j hj => hget j fun g hg =>
        hj g (.tail f hg)⟩
      simp [retain, hdead, hretain, filter_cons_of_pos]

/-- A trim keeps track.  It either has nothing to do yet, or keeps the flags that are not
dead and sets the next high-water mark. -/
theorem Tracks.trim (h : Tracks r count made) (eager : Bool) :
    ∃ r' dropped, r.trimLivenessFlags count eager = .ok (r', dropped) ∧ Tracks r' count made ∧
      ((r.livenessFlags.length < r.highWaterMark ∧ r' = r) ∨
        (r'.livenessFlags = (r.livenessFlags.filter fun f => count f.flag ≠ 0) ∧
          r'.highWaterMark ≤ max RootSet.defaultHighWater
            (r'.livenessFlags.length * RootSet.growthFactor))) := by
  rw [trimLivenessFlags]
  split
  · rename_i hskip
    exact ⟨r, [], rfl, h, .inl ⟨hskip.2, rfl⟩⟩
  have hin : ∀ f ∈ r.livenessFlags, (r.ownedRooted.get? f.index).isSome := by
    intro f hf
    obtain ⟨o, gcRef, -, -, hsome⟩ := h.recorded f hf
    exact isSome_iff_exists.mpr ⟨gcRef, hsome⟩
  obtain ⟨roots, dropped, hretain, hget⟩ := retain_spec count h.index_nodup hin
  rw [hretain]
  refine ⟨_, dropped, rfl, ?_, .inr ⟨rfl, ?_⟩⟩
  · have hsub : ((r.livenessFlags.filter fun f => count f.flag ≠ 0)).Sublist r.livenessFlags :=
      filter_sublist
    exact
      { index_nodup := h.index_nodup.sublist (hsub.map _)
        flag_nodup := h.flag_nodup.sublist (hsub.map _)
        recorded := by
          intro f hf
          obtain ⟨hmem, hlive⟩ := mem_filter.mp hf
          obtain ⟨o, gcRef, hmade, hidx, hsome⟩ := h.recorded f hmem
          refine ⟨o, gcRef, hmade, hidx, ?_⟩
          -- Any flag with this index is `f` itself, which is not dead.
          rw [← hsome]
          refine hget f.index fun g hg heq => ?_
          obtain rfl := inj_on_of_nodup_map h.index_nodup hg hmem heq
          simpa using hlive
        live := by
          intro root hpos
          obtain ⟨f, hmem, rfl⟩ := h.live root hpos
          exact ⟨f, mem_filter.mpr ⟨hmem, by simpa using ne_of_gt hpos⟩, rfl⟩ }
  · simp only [highWaterMark, getD_some]
    omega

theorem Tracks.flag_lt (h : Tracks r count made) {f : LivenessFlag} (hf : f ∈ r.livenessFlags) :
    f.flag < made.length := by
  obtain ⟨o, gcRef, hmade, -⟩ := h.recorded f hf
  exact lt_of_getElem? hmade

variable {gcRef : VMGcRef}

/-- A new root gets a new flag. -/
theorem Tracks.alloc {o : OwnedRooted} (h : Tracks r count made)
    (ho : o.inner.index.asOwned = some r.ownedRooted.nextId)
    (hcnt : ∀ a, 0 < count' a → 0 < count a ∨ a = made.length) :
    Tracks
      { r with
        ownedRooted := r.ownedRooted.alloc gcRef
        livenessFlags := r.livenessFlags ++ [⟨made.length, r.ownedRooted.nextId⟩] }
      count' (made ++ [(o, gcRef)]) := by
  have hfr : ∀ f ∈ r.livenessFlags, f.index ≠ r.ownedRooted.nextId := by
    intro f hf heq
    obtain ⟨_, _, -, -, hsome⟩ := h.recorded f hf
    rw [heq, Slab.get?_fresh] at hsome
    cases hsome
  refine
    { index_nodup := ?_
      flag_nodup := ?_
      recorded := fun f hf => ?_
      live := fun root hpos => ?_ }
  · rw [map_append]
    apply h.index_nodup.append (nodup_singleton _)
    refine disjoint_singleton.mpr fun hmem => ?_
    obtain ⟨f, hf, heq⟩ := mem_map.mp hmem
    exact hfr f hf heq
  · rw [map_append]
    apply h.flag_nodup.append (nodup_singleton _)
    refine disjoint_singleton.mpr fun hmem => ?_
    obtain ⟨f, hf, heq⟩ := mem_map.mp hmem
    exact ne_of_lt (h.flag_lt hf) heq
  · rcases mem_append.mp hf with hf | hf
    · obtain ⟨o', gcRef', hmade, hidx, hsome⟩ := h.recorded f hf
      refine ⟨o', gcRef', ?_, hidx, ?_⟩
      · rw [getElem?_append_left (h.flag_lt hf)]
        exact hmade
      · rw [Slab.get?_alloc, if_neg (hfr f hf)]
        exact hsome
    · obtain rfl := mem_singleton.mp hf
      exact ⟨o, gcRef, by simp, ho, by simp [Slab.get?_alloc]⟩
  · rcases hcnt root hpos with hpos | rfl
    · obtain ⟨f, hf, rfl⟩ := h.live root hpos
      exact ⟨f, mem_append_left _ hf, rfl⟩
    · exact ⟨_, mem_append_right _ (mem_singleton.mpr rfl), rfl⟩

/-! ## The invariant -/

namespace Owning

variable {s s' : Owning}

/-- The invariant of the runs. -/
structure Inv (s : Owning) : Prop where
  length_eq : s.made.length = s.strong.length
  /-- The flags tell about the roots made. -/
  tracks : Tracks s.store.gcRoots s.strongCount s.made
  /-- The handles are handles to owned roots of this store. -/
  inner : ∀ p ∈ s.made, p.1.inner.storeId = s.store.id ∧ p.1.inner.index.asLifo = none
  /-- The largest number of roots alive counts those alive now. -/
  alive_le : s.aliveRoots.length ≤ s.mostAlive

/-- The number that the liveness flags do not exceed. -/
def bound (s : Owning) : ℕ :=
  max RootSet.defaultHighWater (s.mostAlive * RootSet.growthFactor)

/-- The invariant of a run in which roots are made only with a GC heap. -/
structure Bounded (s : Owning) : Prop where
  flags_le : s.store.gcRoots.livenessFlags.length ≤ s.bound
  /-- The number of flags at which they are trimmed. -/
  mark_le : s.store.gcRoots.highWaterMark ≤ s.bound

/-- A root with a handle gives its referent. -/
theorem Inv.getGcRef (hinv : s.Inv) {root : ℕ} {o : OwnedRooted}
    (hmade : s.made[root]? = some (o, gcRef)) (hpos : 0 < s.strongCount root) :
    o.inner.getGcRef s.store = .ok (some gcRef) := by
  obtain ⟨f, hf, rfl⟩ := hinv.tracks.live root hpos
  obtain ⟨o', gcRef', hmade', hidx, hget⟩ := hinv.tracks.recorded f hf
  obtain ⟨rfl, rfl⟩ : o = o' ∧ gcRef = gcRef' := by simpa [hmade] using hmade'
  obtain ⟨hid, hlifo⟩ := hinv.inner _ (mem_of_getElem? hmade)
  simp [GcRootIndex.getGcRef, ensure_of hid, hlifo, hidx, hget]

/-- The flags that are not dead belong to roots that are alive. -/
theorem Inv.length_filter_le (hinv : s.Inv) :
    (s.store.gcRoots.livenessFlags.filter fun f => s.strongCount f.flag ≠ 0).length ≤
      s.mostAlive := by
  have hnd := hinv.tracks.flag_nodup.sublist
    ((filter_sublist (p := fun f => s.strongCount f.flag ≠ 0)).map LivenessFlag.flag)
  have hsub : ((s.store.gcRoots.livenessFlags.filter fun f => s.strongCount f.flag ≠ 0).map
      LivenessFlag.flag) ⊆ s.aliveRoots := by
    intro a ha
    obtain ⟨f, hf, rfl⟩ := mem_map.mp ha
    obtain ⟨hmem, hne⟩ := mem_filter.mp hf
    have hlt := hinv.length_eq ▸ hinv.tracks.flag_lt hmem
    refine mem_filter.mpr ⟨mem_range.mpr hlt, ?_⟩
    simpa [Nat.pos_iff_ne_zero] using hne
  have hle := (subperm_of_subset hnd hsub).length_le
  rw [length_map] at hle
  exact le_trans hle hinv.alive_le

/-- Trimming keeps the invariant, and with a GC heap leaves room for one more flag. -/
theorem Inv.trim (hinv : s.Inv) (eager : Bool) :
    ∃ store, s.store.trimGcLivenessFlags s.strongCount eager = .ok store ∧
      { s with store := store }.Inv ∧ (s.Bounded → { s with store := store }.Bounded) ∧
      (s.store.gcStore = true → s.Bounded →
        store.gcRoots.livenessFlags.length < s.bound) := by
  rw [StoreOpaque.trimGcLivenessFlags]
  split
  · rename_i hgc
    obtain ⟨r, dropped, htrim, htracks, hcs⟩ := hinv.tracks.trim eager
    have hlive := hinv.length_filter_le
    rw [htrim]
    refine ⟨_, rfl, ⟨hinv.length_eq, htracks, hinv.inner, hinv.alive_le⟩, fun hb => ?_,
      fun _ hb => ?_⟩
    · rcases hcs with ⟨-, rfl⟩ | ⟨hflags, hmark⟩
      · exact hb
      rw [← hflags] at hlive
      refine ⟨?_, le_trans hmark ?_⟩ <;>
      simp only [bound, growthFactor, defaultHighWater] <;>
      omega
    · rcases hcs with ⟨hlt, rfl⟩ | ⟨hflags, -⟩
      · exact lt_of_lt_of_le hlt hb.mark_le
      · rw [← hflags] at hlive
        simp only [bound, growthFactor, defaultHighWater]
        omega
  · rename_i hgc
    exact ⟨s.store, rfl, hinv, fun hb => hb, fun h => absurd h hgc⟩

theorem inv_init (id : ℕ) (gcStore : Bool) : (init id gcStore).Inv where
  length_eq := rfl
  tracks :=
    { index_nodup := nodup_nil
      flag_nodup := nodup_nil
      recorded := by simp [init, empty]
      live := by simp [init, strongCount] }
  inner := by simp [init]
  alive_le := le_refl _

/-! ## One step keeps it -/

/-- What an operation on a handle does to the counts: none but the roots that are alive
have a handle afterwards. -/
theorem Inv.setCount (hinv : s.Inv) {root n : ℕ} (hpos : 0 < s.strongCount root) :
    { s with strong := s.strong.set root n }.Inv := by
  have hcnt : ∀ a, 0 < ({ s with strong := s.strong.set root n } : Owning).strongCount a →
      0 < s.strongCount a := by
    intro a ha
    by_cases heq : root = a
    · exact heq ▸ hpos
    · simpa [strongCount, List.getD, getElem?_set_ne heq] using ha
  exact
    { length_eq := by simpa using hinv.length_eq
      tracks := hinv.tracks.mono hcnt
      inner := hinv.inner
      alive_le := by
        refine le_trans ?_ hinv.alive_le
        rw [aliveRoots, length_set]
        exact (monotone_filter_right _ fun a ha => by
          simpa using hcnt a (by simpa using ha)).length_le }

/-- Making a root trims the flags first. -/
theorem Inv.new (hinv : s.Inv) {outOfMemory : Bool}
    {result : Except StoreOpaque (OwnedRooted × StoreOpaque)}
    (hok : OwnedRooted.new s.strongCount s.store outOfMemory s.strong.length gcRef = .ok result) :
    ∃ store, s.store.trimGcLivenessFlags s.strongCount false = .ok store ∧
      (result = .error store ∨
        ∃ p, p.asLifo = none ∧ p.asOwned = some store.gcRoots.ownedRooted.nextId ∧
          result = .ok (⟨⟨store.id, 0, p⟩, s.made.length⟩,
            { store with
              gcRoots :=
                { store.gcRoots with
                  ownedRooted := store.gcRoots.ownedRooted.alloc gcRef
                  livenessFlags := store.gcRoots.livenessFlags ++
                    [⟨s.made.length, store.gcRoots.ownedRooted.nextId⟩] } })) := by
  obtain ⟨store, htrim, hok⟩ := bind_eq_ok.mp hok
  refine ⟨store, htrim, ?_⟩
  split at hok
  · exact .inl (by simpa using hok.symm)
  obtain ⟨p, hp, hok⟩ := bind_eq_ok.mp hok
  obtain ⟨hlifo, howned⟩ := PackedIndex.newOwned_eq_ok hp
  refine .inr ⟨p, hlifo, howned, ?_⟩
  rw [hinv.length_eq]
  simpa only [pure_eq, Except.ok.injEq] using hok.symm

theorem strongCount_append (s : Owning) {t : Owning} (ht : t.strong = s.strong ++ [1]) (a : ℕ)
    (hpos : 0 < t.strongCount a) : 0 < s.strongCount a ∨ a = s.strong.length := by
  simp only [strongCount, ht, List.getD, getElem?_concat] at hpos ⊢
  split at hpos
  · exact .inr ‹_›
  · exact .inl hpos

/-- Making a root keeps the invariant and the bound. -/
theorem Inv.create (hinv : s.Inv) {outOfMemory : Bool}
    (hok : s.step (.create gcRef outOfMemory) = .ok s') :
    s'.Inv ∧ (s.store.gcStore = true → s.Bounded → s'.Bounded) := by
  obtain ⟨result, hnew, hok⟩ := bind_eq_ok.mp hok
  obtain ⟨store, htrim, hresult⟩ := hinv.new hnew
  obtain ⟨store', htrim', hinv', hbounded, hroom⟩ := hinv.trim false
  obtain rfl : store = store' := by simpa [htrim] using htrim'
  rcases hresult with rfl | ⟨p, hlifo, howned, rfl⟩
  · cases hok
    exact ⟨hinv', fun _ => hbounded⟩
  cases hok
  refine ⟨?_, fun hgc hb => ⟨?_, ?_⟩⟩
  · refine
      { length_eq := by simp [hinv.length_eq]
        tracks := hinv'.tracks.alloc howned fun a ha => ?_
        inner := fun q hq => ?_
        alive_le := le_max_right _ _ }
    · rw [hinv.length_eq]
      exact strongCount_append s rfl a ha
    · rcases mem_append.mp hq with hq | hq
      · exact hinv'.inner q hq
      · obtain rfl := mem_singleton.mp hq
        exact ⟨rfl, hlifo⟩
  · have hlt := hroom hgc hb
    simp only [bound, growthFactor, defaultHighWater, length_append, length_singleton] at hlt ⊢
    omega
  · have hle := (hbounded hb).mark_le
    simp only [bound, growthFactor, defaultHighWater, highWaterMark] at hle ⊢
    omega

/-- Every step keeps the invariant and the bound. -/
theorem Inv.step {op : Op} (hinv : s.Inv) (hall : owningMachine.allowed s op)
    (hok : s.step op = .ok s') : s'.Inv ∧ (s.HasGcStore op → s.Bounded → s'.Bounded) := by
  cases op with
  | create gcRef outOfMemory => exact hinv.create hok
  | clone root =>
    cases hok
    exact ⟨hinv.setCount hall, fun _ hb => ⟨hb.flags_le, hb.mark_le⟩⟩
  | drop root =>
    cases hok
    exact ⟨hinv.setCount hall, fun _ hb => ⟨hb.flags_le, hb.mark_le⟩⟩
  | collect =>
    obtain ⟨store, htrim, hok⟩ := bind_eq_ok.mp hok
    obtain ⟨store', htrim', hinv', hbounded, -⟩ := hinv.trim true
    obtain rfl : store = store' := by simpa [htrim] using htrim'
    cases hok
    exact ⟨hinv', fun _ => hbounded⟩
  | allocateGcStore =>
    cases hok
    exact ⟨⟨hinv.length_eq, hinv.tracks, hinv.inner, hinv.alive_le⟩,
      fun _ hb => ⟨hb.flags_le, hb.mark_le⟩⟩

end Owning

/-! ## Runs -/

/-- **Owned roots are trimmed soundly and stay bounded.**  In every run a root that has a
handle resolves to the reference it was made for.  In every run in which roots are made only
when the store has a GC heap, the flags are at most the initial high-water mark or twice the
largest number of roots that were alive at one time, whichever is larger, and one. -/
theorem owned_roots_sound_and_bounded {s : Owning} (hs : owningMachine.Reaches s) :
    (∀ root o gcRef, s.made[root]? = some (o, gcRef) → 0 < s.strongCount root →
      o.inner.getGcRef s.store = .ok (some gcRef)) ∧
    ((owningMachine.onlyWhen Owning.HasGcStore).Reaches s →
      s.store.gcRoots.livenessFlags.length ≤
        max RootSet.defaultHighWater (s.mostAlive * RootSet.growthFactor) + 1) := by
  refine ⟨fun root o gcRef hmade hpos => ?_, fun hs => ?_⟩
  · have hinv : s.Inv := by
      refine hs.invariant ?_ fun s op s' hinv hall hok => (hinv.step hall hok).1
      rintro _ ⟨id, gcStore, rfl⟩
      exact Owning.inv_init id gcStore
    exact hinv.getGcRef hmade hpos
  have hinv : s.Inv ∧ s.Bounded := by
    apply hs.invariant (P := fun s => s.Inv ∧ s.Bounded)
    · rintro _ ⟨id, gcStore, rfl⟩
      exact ⟨Owning.inv_init id gcStore, Nat.zero_le _, Nat.le_refl _⟩
    · rintro s op s' ⟨hinv, hb⟩ ⟨hall, hgc⟩ hok
      obtain ⟨hinv', hb'⟩ := hinv.step hall hok
      exact ⟨hinv', hb' hgc hb⟩
  exact Nat.le_succ_of_le hinv.2.flags_le

/-- In a store with a GC heap, after the second of ten roots was cloned and all but that one
clone were dropped. -/
theorem owned_roots_sound_and_bounded_ten :
    ∃ s : Owning, (owningMachine.onlyWhen Owning.HasGcStore).Reaches s ∧
      s.made.length = 10 ∧ s.store.gcRoots.livenessFlags.length ≤ 9 ∧
      ∃ o, s.made[1]? = some (o, i31Ref 1) ∧
        o.inner.getGcRef s.store = .ok (some (i31Ref 1)) := by
  obtain ⟨s, hs, hp⟩ := reaches_of_run?
    (M := owningMachine.onlyWhen Owning.HasGcStore)
    (p := fun s => s.made.length = 10 ∧ s.mostAlive = 2 ∧ 0 < s.strongCount 1 ∧
      (s.made[1]?).map Prod.snd = some (i31Ref 1))
    ([.create (i31Ref 0) false, .create (i31Ref 1) false, .clone 1, .drop 0, .drop 1] ++
      (range 8).flatMap fun i => [.create (i31Ref i) false, .drop (i + 2)])
    ⟨0, true, rfl⟩ (by decide +kernel)
  obtain ⟨hlen, hmost, hpos, hmade⟩ := of_decide_eq_true hp
  obtain ⟨⟨o, gcRef⟩, hmade, rfl⟩ := map_eq_some_iff.mp hmade
  obtain ⟨hresolves, hbd⟩ := owned_roots_sound_and_bounded hs.of_onlyWhen
  have hbd := hbd hs
  rw [hmost] at hbd
  exact ⟨s, hs, hlen, hbd, o, hmade, hresolves 1 o _ hmade hpos⟩

/-- **The flags of a store without a GC heap are never trimmed.**  Ten roots of `i31`
references, each dropped before the next is made. -/
theorem owned_root_flags_grow :
    ∃ s : Owning, owningMachine.Reaches s ∧ s.mostAlive = 1 ∧
      max RootSet.defaultHighWater (s.mostAlive * RootSet.growthFactor) + 1 <
        s.store.gcRoots.livenessFlags.length := by
  obtain ⟨s, hs, hp⟩ := reaches_of_run?
    (M := owningMachine)
    (p := fun s => s.mostAlive = 1 ∧
      max defaultHighWater (s.mostAlive * growthFactor) + 1 <
        s.store.gcRoots.livenessFlags.length)
    ((range 10).flatMap fun i => [.create (i31Ref i) false, .drop i])
    ⟨0, false, rfl⟩ (by decide +kernel)
  exact ⟨s, hs, of_decide_eq_true hp⟩

end WasmDeps.Gc
