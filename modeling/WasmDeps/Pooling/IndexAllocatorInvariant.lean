import WasmDeps.Pooling.IndexAllocator
import Mathlib.Data.List.FinRange
import Mathlib.Data.List.Perm.Subperm

/-!
# The slot allocator keeps its lists

`Holds s hole warm affine` says that the state `s` represents the sequence `warm` of
warm slots and, for each affinity, the sequence `affine m`.  An allocation first takes
a slot out of its lists and only then marks it as used; in between, that slot is the
`hole`, which belongs to no list although its state still says that it is unused.
-/

namespace WasmDeps.Pooling

open WasmDeps.Lib List SlotState Pooling.Inner Function

/-- The state represents the given sequences of warm slots; `hole` is a slot that an
allocation in progress has taken out of its lists. -/
structure Holds (s : Inner) (hole : Option ℕ) (warm : List ℕ)
    (affine : MemoryInModule → List ℕ) : Prop where
  /-- The warm list is the sequence of warm slots. -/
  warm_linked : Linked (linkOf .unused s.slotState) s.warm warm
  affine_linked : ∀ m, Linked (linkOf .affine s.slotState)
    ((s.moduleAffine m).getD SlotList.default) (affine m)
  /-- Only affinities with a warm slot have a list. -/
  affine_present : ∀ m, s.moduleAffine m = none ↔ affine m = []
  /-- The warm list has exactly the warm slots. -/
  mem_warm : ∀ i, i ∈ warm ↔ (affinityAt s.slotState i).isSome ∧ hole ≠ some i
  /-- The list of an affinity has exactly the warm slots with it. -/
  mem_affine : ∀ m i, i ∈ affine m ↔ affinityAt s.slotState i = some (some m) ∧ hole ≠ some i
  /-- The cold slots are those from `lastCold` on. -/
  cold : ∀ i, i < s.slotState.length → hole ≠ some i →
    (s.slotState[i]? = some .unusedCold ↔ s.lastCold ≤ i)
  /-- `lastCold` is at most the number of slots. -/
  lastCold_le : s.lastCold ≤ s.slotState.length
  unusedWarmSlots_eq : s.unusedWarmSlots = warm.length
  unusedBytesResident_eq : s.unusedBytesResident = residentBytes s.slotState

variable {s : Inner} {hole : Option ℕ} {warm : List ℕ} {affine : MemoryInModule → List ℕ}

/-! ## Facts about slot vectors -/

variable {states : List SlotState}

variable {i slot index : ℕ} {a : Option MemoryInModule}

theorem lt_length_of_affinityAt (h : (affinityAt states i).isSome) : i < states.length := by
  obtain ⟨a, ha⟩ := Option.isSome_iff_exists.mp h
  obtain ⟨u, hu, -⟩ := affinityAt_eq_some.mp ha
  exact lt_of_getElem? hu

variable {xs : List ℕ}

theorem length_le_of_nodup {n : ℕ} (hnd : xs.Nodup) (hlt : ∀ i ∈ xs, i < n) : xs.length ≤ n := by
  have hsub : xs ⊆ range n := fun i hi => mem_range.mpr (hlt i hi)
  simpa using (hnd.subperm hsub).length_le

namespace Holds

variable (H : Holds s none warm affine)
include H

theorem lt_lastCold {st : SlotState} (hst : s.slotState[i]? = some st) (hne : st ≠ .unusedCold) :
    i < s.lastCold := by
  by_contra hcold
  have := (H.cold i (lt_of_getElem? hst) (by simp)).mpr (by omega)
  rw [hst] at this
  exact hne (Option.some.inj this)

theorem not_mem_of_used (hused : s.slotState[i]? = some (.used a)) :
    i ∉ warm ∧ ∀ m, i ∉ affine m := by
  have hnone : affinityAt s.slotState i = none := by
    simp [affinityAt, hused, affinity?]
  exact ⟨fun h => by simpa [hnone] using (H.mem_warm i).mp h,
    fun m h => by simpa [hnone] using (H.mem_affine m i).mp h⟩

theorem unusedWarmSlots_lt (hused : s.slotState[i]? = some (.used a)) :
    s.unusedWarmSlots < s.slotState.length := by
  have hnd := nodup_cons.mpr ⟨(H.not_mem_of_used hused).1, H.warm_linked.nodup⟩
  have hle := length_le_of_nodup hnd (n := s.slotState.length) (by
    intro j hj
    rcases mem_cons.mp hj with rfl | hj
    · exact lt_of_getElem? hused
    · exact lt_length_of_affinityAt ((H.mem_warm j).mp hj).1)
  rw [length_cons, ← H.unusedWarmSlots_eq] at hle
  exact hle

end Holds

theorem residentBytes_set {st : SlotState} (h : states[i]? = some st) (st' : SlotState) :
    residentBytes (states.set i st') + st.residentBytes =
      residentBytes states + st'.residentBytes :=
  sum_map_set SlotState.residentBytes h st'

theorem affinityAt_set_ne {j : ℕ} (h : i ≠ j) (st : SlotState) :
    affinityAt (states.set i st) j = affinityAt states j := by
  simp [affinityAt, getElem?_set_ne h]

theorem affinityAt_set_self (h : i < states.length) (st : SlotState) :
    affinityAt (states.set i st) i = st.affinity? := by
  simp [affinityAt, h]

def SlotState.isUnusedWarm (st : SlotState) : Bool := st.affinity?.isSome

/-- The warm list has all unused warm slots. -/
theorem countP_eq_length (hnd : xs.Nodup) (hmem : ∀ i, i ∈ xs ↔ (affinityAt states i).isSome) :
    states.countP isUnusedWarm = xs.length := by
  have hperm : xs.Perm ((finRange states.length).filter
      (fun i => (states.get i).affinity?.isSome) |>.map Fin.val) := by
    rw [perm_ext_iff_of_nodup hnd (((nodup_finRange _).filter _).map Fin.val_injective)]
    intro i
    rw [hmem]
    simp only [affinityAt, mem_map, mem_filter, mem_finRange, true_and]
    constructor
    · intro h
      have hlt := lt_length_of_affinityAt h
      exact ⟨⟨i, hlt⟩, by simpa [hlt] using h, rfl⟩
    · rintro ⟨j, hj, rfl⟩
      simpa using hj
  have hmap := map_get_finRange states
  calc states.countP isUnusedWarm
      = ((finRange states.length).map states.get).countP isUnusedWarm := by
        rw [hmap]
    _ = xs.length := by
      rw [hperm.length_eq, length_map, countP_map, countP_eq_length_filter]
      rfl

/-- **The walk of a represented list is the sequence it represents**, and none of the
walk's assertions fails. -/
theorem iter_eq {lens : Lens} {l : SlotList} (h : Linked (linkOf lens states) l xs) :
    l.iter states lens = .ok xs := by
  -- The part already walked fixes the previous slot, the part to come the current one.
  have walk : ∀ post pre fuel, xs = pre ++ post → post.length ≤ fuel →
      l.walk states lens fuel post.head? pre.getLast? = .ok post := by
    intro post
    induction post with
    | nil =>
      intro pre fuel hxs _
      have htail : pre.getLast? = l.tail := by simp [h.tail_eq, hxs]
      cases fuel <;> simp [SlotList.walk, htail]
    | cons x post ih =>
      intro pre fuel hxs hfuel
      obtain ⟨fuel, rfl⟩ : ∃ n, fuel = n + 1 := ⟨fuel - 1, by simp at hfuel; omega⟩
      obtain ⟨u, hu, hk⟩ := unwrapUnused_of_linkOf (h.link_eq pre x post hxs)
      have hrest := ih (pre ++ [x]) fuel (by simp [hxs]) (by simpa using hfuel)
      rw [getLast?_concat] at hrest
      simp [SlotList.walk, hu, hk, hrest]
  have hlt : ∀ i ∈ xs, i < states.length := by
    intro i hi
    obtain ⟨pre, post, hxs⟩ := append_of_mem hi
    obtain ⟨u, hu, -⟩ := linkOf_eq_some.mp (h.link_eq pre i post hxs)
    exact lt_of_getElem? hu
  have hlen := length_le_of_nodup h.nodup hlt
  rw [SlotList.iter, h.head_eq]
  exact walk xs [] _ rfl hlen

/-! ## The lists of the affinities -/

/-- The lists of the affinities represent the given sequences. -/
structure AffineHolds (states : List SlotState) (moduleAffine : MemoryInModule → Option SlotList)
    (affine : MemoryInModule → List ℕ) : Prop where
  linked : ∀ m, Linked (linkOf .affine states) ((moduleAffine m).getD SlotList.default) (affine m)
  /-- Only affinities with a warm slot have a list. -/
  present : ∀ m, moduleAffine m = none ↔ affine m = []
  disjoint : ∀ m m' i, i ∈ affine m → i ∈ affine m' → m = m'

theorem AffineHolds.congr {states states' : List SlotState}
    {moduleAffine : MemoryInModule → Option SlotList} (H : AffineHolds states moduleAffine affine)
    (h : ∀ m, ∀ i ∈ affine m, linkOf .affine states' i = linkOf .affine states i) :
    AffineHolds states' moduleAffine affine :=
  ⟨fun m => (H.linked m).congr (h m), H.present, H.disjoint⟩

theorem Holds.affineHolds (H : Holds s hole warm affine) :
    AffineHolds s.slotState s.moduleAffine affine where
  linked := H.affine_linked
  present := H.affine_present
  disjoint := by
    intro m m' i hm hm'
    have h := ((H.mem_affine m i).mp hm).1
    have h' := ((H.mem_affine m' i).mp hm').1
    exact Option.some.inj (Option.some.inj (h.symm.trans h'))

/-- A slot is taken off its affine list. -/
theorem removeAffine_spec (H : AffineHolds s.slotState s.moduleAffine affine)
    {m : MemoryInModule} (hmem : slot ∈ affine m) :
    ∃ states' moduleAffine', s.removeAffine slot m =
        .ok { s with slotState := states', moduleAffine := moduleAffine' } ∧
      SameSlots states' s.slotState ∧
      linkOf .unused states' = linkOf .unused s.slotState ∧
      AffineHolds states' moduleAffine' fun m => (affine m).erase slot := by
  obtain ⟨l, hl⟩ : ∃ l, s.moduleAffine m = some l := by
    rw [← Option.ne_none_iff_exists']
    intro hnone
    rw [(H.present m).mp hnone] at hmem
    exact not_mem_nil hmem
  have hlink := H.linked m
  rw [hl, Option.getD_some] at hlink
  obtain ⟨l', states', hok, hsame, hnew, hkeep, hother⟩ := remove_linked hlink hmem
  refine ⟨states', update s.moduleAffine m (if l'.head.isNone then none else some l'),
    ?_, hsame, hother .unused (by decide), ?_, ?_, ?_⟩
  · simp [removeAffine, hl, hok]
  · intro m'
    by_cases hm : m' = m
    · subst hm
      rw [update_self]
      split
      · rename_i hemp
        rw [Option.isNone_iff_eq_none] at hemp
        rw [hnew.eq_nil_of_head hemp]
        exact .nil
      · exact hnew
    · -- The links of the other affinities are untouched.
      have hslot : slot ∉ affine m' := fun h => hm (H.disjoint _ _ _ h hmem)
      rw [update_of_ne hm, erase_of_not_mem hslot]
      refine (H.linked m').congr fun i hi => hkeep i fun hi' => ?_
      exact hm (H.disjoint _ _ _ hi hi')
  · intro m'
    by_cases hm : m' = m
    · subst hm
      rw [← head?_eq_none_iff, ← hnew.head_eq]
      simp
    · have hslot : slot ∉ affine m' := fun h => hm (H.disjoint _ _ _ h hmem)
      rw [update_of_ne hm, erase_of_not_mem hslot]
      exact H.present m'
  · intro m1 m2 i h1 h2
    exact H.disjoint _ _ _ (mem_of_mem_erase h1) (mem_of_mem_erase h2)

/-- A slot is put at the end of its affine list. -/
theorem appendAffine_spec (H : AffineHolds s.slotState s.moduleAffine affine)
    (hnot : ∀ m, index ∉ affine m) (hlt : index < s.slotState.length) (a : Option MemoryInModule) :
    ∃ states' moduleAffine' link, s.appendAffine index a =
        .ok ({ s with slotState := states', moduleAffine := moduleAffine' }, link) ∧
      SameSlots states' s.slotState ∧
      linkOf .unused states' = linkOf .unused s.slotState ∧
      ∀ u, u.affineListLink = link → ∀ m,
        Linked (linkOf .affine (states'.set index (.unusedWarm u)))
          ((moduleAffine' m).getD SlotList.default)
          (if a = some m then affine m ++ [index] else affine m) ∧
        (moduleAffine' m = none ↔ (if a = some m then affine m ++ [index] else affine m) = []) := by
  have hkeep : ∀ states' u m, ∀ i ∈ affine m,
      linkOf .affine (states'.set index (.unusedWarm u)) i = linkOf .affine states' i :=
    fun states' u m i hi => linkOf_set_of_mem (hnot m) hi _
  cases a with
  | none =>
    refine ⟨s.slotState, s.moduleAffine, ⟨none, none⟩, rfl, .refl _, rfl, fun u _ m => ?_⟩
    exact ⟨(H.linked m).congr (hkeep s.slotState u m), H.present m⟩
  | some m =>
    obtain ⟨l', states', link, hok, hsame, hnew, hlinks, hother⟩ :=
      append_linked (H.linked m) (hnot m) hlt
    refine ⟨states', update s.moduleAffine m (some l'), link, ?_, hsame,
      hother .unused (by decide), fun u hu m' => ?_⟩
    · cases hm : s.moduleAffine m with
      | some l =>
        rw [hm, Option.getD_some] at hok
        simp [Inner.appendAffine, hm, hok]
      | none =>
        -- Appending to the empty list is what a new one-element list is.
        rw [hm] at hok
        obtain ⟨rfl, rfl, rfl⟩ : ⟨some index, some index⟩ = l' ∧ s.slotState = states' ∧
            ⟨none, none⟩ = link := by
          simpa [SlotList.append, SlotList.relink, SlotList.default] using hok
        simp [Inner.appendAffine, hm, SlotList.new]
    by_cases hmm : m' = m
    · subst hmm
      rw [update_self, if_pos rfl]
      exact ⟨hnew u hu, by simp⟩
    · rw [update_of_ne hmm, if_neg (by simpa using Ne.symm hmm)]
      refine ⟨(H.linked m').congr fun i hi => ?_, H.present m'⟩
      rw [hkeep _ _ m' i hi, hlinks i fun hi' => hmm (H.disjoint _ _ _ hi hi')]

/-! ## Allocation -/

/-- A slot was picked: it is free, all other slots are as before, and the invariant
holds with the slot as its hole. -/
structure Picked (s s' : Inner) (slot : ℕ) : Prop where
  same : SameSlots s'.slotState s.slotState
  lt_length : slot < s.slotState.length
  unused : ∀ a, s.slotState[slot]? ≠ some (.used a)
  /-- It is no longer among the cold slots. -/
  lt_lastCold : slot < s'.lastCold
  holds : ∃ warm affine, Holds s' (some slot) warm affine

/-- The state represents what is left of the given sequences, in the same order. -/
def HoldsWithin (s : Inner) (hole : Option ℕ) (warm : List ℕ)
    (affine : MemoryInModule → List ℕ) : Prop :=
  ∃ warm' affine', Holds s hole warm' affine' ∧ warm' <+ warm ∧ ∀ m, affine' m <+ affine m

/-- The call picks the slot `r`, or leaves the state as it is if there is none. -/
def Picks (s : Inner) (warm : List ℕ) (affine : MemoryInModule → List ℕ)
    (call : Exec (Inner × Option ℕ)) (r : Option ℕ) : Prop :=
  ∃ s', call = .ok (s', r) ∧ match r with
    | none => s' = s
    | some slot => Picked s s' slot ∧ HoldsWithin s' (some slot) warm affine

section

variable (H : Holds s none warm affine)
include H

/-- A warm slot is taken off both lists. -/
theorem holds_remove (hmem : slot ∈ warm) :
    ∃ s', s.remove slot = .ok s' ∧ Picked s s' slot ∧ HoldsWithin s' (some slot) warm affine := by
  obtain ⟨a, ha⟩ := Option.isSome_iff_exists.mp ((H.mem_warm slot).mp hmem).1
  obtain ⟨u, hu, hua⟩ := affinityAt_eq_some.mp ha
  have hlt := lt_of_getElem? hu
  have hwarm := H.lt_lastCold hu (by simp)
  have hcnt : 1 ≤ s.unusedWarmSlots := by
    rw [H.unusedWarmSlots_eq]
    exact length_pos_of_mem hmem
  obtain ⟨l', states1, hok, hsame, hlink, -, hother⟩ := remove_linked H.warm_linked hmem
  obtain ⟨u1, hu1, hua1⟩ := affinityAt_eq_some.mp ((hsame.affinityAt_eq slot).trans ha)
  have hunwrap : unwrapUnused states1 slot = .ok u1 := by simp [unwrapUnused, hu1]
  have haff := H.affineHolds.congr fun m i _ => by rw [hother .affine (by decide)]
  -- Whatever happens to the links of the affinities, this is the resulting state.
  have finish : ∀ states' moduleAffine',
      SameSlots states' s.slotState → linkOf .unused states' = linkOf .unused states1 →
      AffineHolds states' moduleAffine' (fun m => (affine m).erase slot) →
      let s' := { s with
        unusedWarmSlots := s.unusedWarmSlots - 1, warm := l', slotState := states',
        moduleAffine := moduleAffine' }
      Picked s s' slot ∧ HoldsWithin s' (some slot) warm affine := by
    intro states' moduleAffine' hsame' hun haff' s'
    have hhole : ∀ p i, (i ≠ slot ∧ p ∧ none ≠ some i) ↔
        (p ∧ some slot ≠ some i) := by
      grind
    have H' : Holds s' (some slot) (warm.erase slot) fun m => (affine m).erase slot := by
      refine ⟨hun ▸ hlink, haff'.linked, haff'.present, ?_, ?_, ?_, ?_, ?_, ?_⟩
      · intro i
        rw [H.warm_linked.nodup.mem_erase_iff, H.mem_warm, hsame'.affinityAt_eq, hhole]
      · intro m i
        rw [(H.affine_linked m).nodup.mem_erase_iff, H.mem_affine, hsame'.affinityAt_eq, hhole]
      · intro i hi _
        rw [hsame'.getElem?_iff (by simp), H.cold i (hsame'.length_eq ▸ hi) (by simp)]
      · exact hsame'.length_eq ▸ H.lastCold_le
      · simp [s', H.unusedWarmSlots_eq, length_erase_of_mem hmem]
      · simp [s', H.unusedBytesResident_eq, hsame'.residentBytes_eq]
    exact ⟨⟨hsame', hlt, by simp [hu], hwarm, _, _, H'⟩, _, _, H', erase_sublist,
      fun m => erase_sublist⟩
  cases a with
  | none =>
    refine ⟨_, ?_, finish states1 s.moduleAffine hsame rfl ?_⟩
    · simp [Inner.remove, subU32_of_le hcnt, hok, hunwrap, hua1]
    have herase : (fun m => (affine m).erase slot) = affine := by
      funext m
      refine erase_of_not_mem fun h => ?_
      have := ((H.mem_affine m slot).mp h).1
      rw [ha] at this
      cases this
    rw [herase]
    exact haff
  | some m =>
    have hmem' := (H.mem_affine m slot).mpr ⟨ha, by simp⟩
    obtain ⟨states2, moduleAffine', hok2, hsame2, hun, haff2⟩ :=
      removeAffine_spec (s := { s with
        unusedWarmSlots := s.unusedWarmSlots - 1, warm := l', slotState := states1 })
        haff hmem'
    refine ⟨_, ?_, finish states2 moduleAffine' (hsame2.trans hsame) hun haff2⟩
    simp [Inner.remove, subU32_of_le hcnt, hok, hunwrap, hua1, hok2]

/-- `pick_affine` picks the last slot of the memory's list. -/
theorem pickAffine_spec (forMemory : Option MemoryInModule) :
    Picks s warm affine (s.pickAffine forMemory)
      (forMemory.bind fun m => (affine m).getLast?) := by
  have htail : (forMemory.bind s.moduleAffine).bind Ends.tail =
      forMemory.bind fun m => (affine m).getLast? := by
    rw [Option.bind_assoc]
    congr 1
    funext m
    rw [← (H.affine_linked m).tail_eq]
    cases s.moduleAffine m <;> rfl
  rw [pickAffine]
  rw [htail]
  cases hslot : forMemory.bind fun m => (affine m).getLast? with
  | none => exact ⟨s, rfl, rfl⟩
  | some slot =>
    obtain ⟨m, -, hm⟩ := Option.bind_eq_some_iff.mp hslot
    have hmem := (H.mem_affine m slot).mp (mem_of_getLast? hm)
    have hwarm := (H.mem_warm slot).mpr ⟨by simp [hmem.1], hmem.2⟩
    obtain ⟨s', hok, hpk⟩ := holds_remove H hwarm
    exact ⟨s', by simp [hok], hpk⟩

/-- `pick_warm` picks the head of the warm list. -/
theorem pickWarm_spec : Picks s warm affine s.pickWarm warm.head? := by
  rw [pickWarm]
  rw [H.warm_linked.head_eq]
  cases hhead : warm.head? with
  | none => exact ⟨s, rfl, rfl⟩
  | some slot =>
    obtain ⟨s', hok, hpk⟩ := holds_remove H (mem_of_mem_head? hhead)
    exact ⟨s', by simp [hok], hpk⟩

/-- The first slot never used, if any. -/
def Inner.firstCold (s : Inner) : Option ℕ :=
  if s.lastCold = s.slotState.length then none else some s.lastCold

/-- `pick_cold` picks the first cold slot. -/
theorem pickCold_spec (hcap : s.slotState.length ≤ u32Max) :
    Picks s warm affine s.pickCold s.firstCold := by
  unfold pickCold firstCold
  have hle := H.lastCold_le
  by_cases hlast : s.lastCold = s.slotState.length
  · exact ⟨s, by simp [hlast], by simp [hlast]⟩
  have hcold := (H.cold s.lastCold (by omega) (by simp)).mpr le_rfl
  have hnone : affinityAt s.slotState s.lastCold = none := by
    simp [affinityAt, hcold, affinity?]
  -- A cold slot is on no list, so making it the hole changes no list.
  have hhole : ∀ i a, affinityAt s.slotState i = some a → some s.lastCold ≠ some i := by
    rintro i a hi heq
    rw [← Option.some.inj heq, hnone] at hi
    cases hi
  have H' : Holds { s with lastCold := s.lastCold + 1 } (some s.lastCold) warm affine := by
    refine { H with
      mem_warm := fun i => ?_, mem_affine := fun m i => ?_, cold := fun i hi hne => ?_,
      lastCold_le := by simp only; omega }
    · rw [H.mem_warm]
      refine and_congr_right fun hsome => ?_
      obtain ⟨a, ha⟩ := Option.isSome_iff_exists.mp hsome
      exact iff_of_true (by simp) (hhole i a ha)
    · rw [H.mem_affine]
      exact and_congr_right fun ha => iff_of_true (by simp) (hhole i _ ha)
    · have hne' : s.lastCold ≠ i := fun h => hne (congrArg some h)
      rw [H.cold i hi (by simp)]
      simp only
      omega
  rw [if_neg hlast, if_neg hlast, addU32_of_le (by omega)]
  exact ⟨_, rfl, ⟨.refl _, by omega, by simp [hcold], by simp, _, _, H'⟩, _, _, H',
    .refl _, fun _ => .refl _⟩

end

/-- The slot for an allocation that finds none of its affinity. -/
def Inner.anyChoice (s : Inner) (warm : List ℕ) : Option ℕ :=
  if warm.length < s.maxUnusedWarmSlots then s.firstCold.or warm.head?
  else warm.head?.or s.firstCold

theorem Picks.orElse {call call' : Exec (Inner × Option ℕ)} {r r' : Option ℕ}
    {f : Inner × Option ℕ → Exec (Inner × Option ℕ)} (h : Picks s warm affine call r)
    (hsome : ∀ s' slot, f (s', some slot) = .ok (s', some slot))
    (hnone : r = none → f (s, none) = call' ∧ Picks s warm affine call' r') :
    Picks s warm affine (call >>= f) (r.or r') := by
  obtain ⟨s', hok, hr⟩ := h
  cases r with
  | none =>
    obtain ⟨hf, hpicks⟩ := hnone rfl
    subst hr
    rw [hok, Exec.ok_bind, hf]
    exact hpicks
  | some slot => exact ⟨s', by simp [hok, hsome], hr⟩

theorem pickAny_spec (H : Holds s none warm affine) (hcap : s.slotState.length ≤ u32Max) :
    Picks s warm affine s.pickAny (s.anyChoice warm) := by
  unfold pickAny anyChoice
  rw [H.unusedWarmSlots_eq]
  split
  · exact (pickCold_spec H hcap).orElse (fun _ _ => rfl) fun _ => ⟨rfl, pickWarm_spec H⟩
  rename_i hmax
  refine (pickWarm_spec H).orElse (fun _ _ => rfl) fun hwarm => ⟨?_, pickCold_spec H hcap⟩
  -- Without warm slots the threshold can only be zero.
  have hzero : s.maxUnusedWarmSlots = 0 := by
    rw [head?_eq_none_iff.mp hwarm, length_nil] at hmax
    omega
  simp [hzero]

/-- The slot that an allocation chooses. -/
def Inner.choice (s : Inner) (warm : List ℕ) (affine : MemoryInModule → List ℕ)
    (forMemory : Option MemoryInModule) (mode : AllocMode) : Option ℕ :=
  (forMemory.bind fun m => (affine m).getLast?).or
    (match mode with
      | .anySlot => s.anyChoice warm
      | .forceAffineAndClear => none)

/-- `pick` picks what the policy says. -/
theorem pick_spec (H : Holds s none warm affine) (hcap : s.slotState.length ≤ u32Max)
    (forMemory : Option MemoryInModule) (mode : AllocMode) :
    Picks s warm affine (s.pick forMemory mode) (s.choice warm affine forMemory mode) := by
  unfold pick choice
  refine (pickAffine_spec H forMemory).orElse (fun _ _ => rfl) fun _ => ⟨rfl, ?_⟩
  cases mode with
  | forceAffineAndClear => exact ⟨s, rfl, rfl⟩
  | anySlot => exact pickAny_spec H hcap

/-- A picked slot is taken. -/
theorem holds_take (H : Holds s (some slot) warm affine)
    (hlt : slot < s.slotState.length) (hcold : slot < s.lastCold) (a : Option MemoryInModule) :
    ∃ s', s.take slot a = .ok s' ∧ s'.slotState = s.slotState.set slot (.used a) ∧
      s'.unusedBytesResident ≤ s.unusedBytesResident ∧ Holds s' none warm affine := by
  obtain ⟨st, hst⟩ : ∃ st, s.slotState[slot]? = some st := ⟨_, getElem?_eq_getElem hlt⟩
  have hbs := residentBytes_set hst (.used a)
  have hzero : (used a).residentBytes = 0 := rfl
  have htake : s.take slot a = .ok { s with
      unusedBytesResident := s.unusedBytesResident - st.residentBytes
      slotState := s.slotState.set slot (.used a) } := by
    rw [Inner.take]
    rw [hst, unwrap_some]
    cases st with
    | unusedWarm u =>
      have hu : (unusedWarm u).residentBytes = u.bytesResident := rfl
      rw [hu] at hbs ⊢
      simp [subUsize_of_le (show u.bytesResident ≤ s.unusedBytesResident by
        rw [H.unusedBytesResident_eq]; omega)]
    | used b => simp [SlotState.residentBytes]
    | unusedCold => simp [SlotState.residentBytes]
  have hnwarm : slot ∉ warm := fun h => ((H.mem_warm slot).mp h).2 rfl
  have hnaff : ∀ m, slot ∉ affine m := fun m h => ((H.mem_affine m slot).mp h).2 rfl
  have hself : affinityAt (s.slotState.set slot (.used a)) slot = none := affinityAt_set_self hlt _
  refine ⟨_, htake, rfl, Nat.sub_le _ _, ?_⟩
  refine ⟨H.warm_linked.congr fun i hi => linkOf_set_of_mem hnwarm hi _,
    fun m => (H.affine_linked m).congr fun i hi => linkOf_set_of_mem (hnaff m) hi _,
    H.affine_present, fun i => ?_, fun m i => ?_, fun i hi _ => ?_, ?_,
    H.unusedWarmSlots_eq, ?_⟩
  · by_cases hi : slot = i
    · subst hi
      simp [hself, hnwarm]
    · rw [H.mem_warm, affinityAt_set_ne hi]
      simp [hi]
  · by_cases hi : slot = i
    · subst hi
      simp [hself, hnaff]
    · rw [H.mem_affine, affinityAt_set_ne hi]
      simp [hi]
  · rw [length_set] at hi
    by_cases hs : slot = i
    · subst hs
      simp only [getElem?_set_self hi]
      exact iff_of_false (by simp) (by omega)
    · rw [getElem?_set_ne hs]
      exact H.cold i hi (by simpa using hs)
  · simpa using H.lastCold_le
  · simp only [H.unusedBytesResident_eq]
    omega

def Inner.IsUsed (s : Inner) (index : ℕ) : Prop := ∃ a, s.slotState[index]? = some (.used a)

/-- What an allocation of the slot `r`, if any, with the affinity `a` leaves. -/
structure Allocated (s s' : Inner) (warm : List ℕ) (affine : MemoryInModule → List ℕ)
    (r : Option ℕ) (a : Option MemoryInModule) : Prop where
  holds : HoldsWithin s' none warm affine
  length_eq : s'.slotState.length = s.slotState.length
  resident_le : s'.unusedBytesResident ≤ s.unusedBytesResident
  /-- The slot was free, and is used now. -/
  free : ∀ slot, r = some slot → slot < s.slotState.length ∧
    (∀ b, s.slotState[slot]? ≠ some (.used b)) ∧ s'.slotState[slot]? = some (.used a)
  /-- It is no longer cold; the others stay as cold as they were. -/
  cold : ∀ i, s'.slotState[i]? = some .unusedCold ↔
    s.slotState[i]? = some .unusedCold ∧ r ≠ some i
  used : ∀ i, s'.IsUsed i ↔ s.IsUsed i ∨ r = some i
  /-- The other slots are used for the memories they were used for. -/
  used_iff : ∀ i b, s'.slotState[i]? = some (.used b) ↔
    if r = some i then b = a else s.slotState[i]? = some (.used b)
  affinity : ∀ i, affinityAt s'.slotState i =
    if r = some i then none else affinityAt s.slotState i

section

variable (H : Holds s none warm affine)
include H

/-- **Allocation keeps the invariant.**  It never faults, and takes the slot of its choice. -/
theorem holds_allocWith (hcap : s.slotState.length ≤ u32Max)
    (forMemory : Option MemoryInModule) (mode : AllocMode) :
    ∃ s', s.allocWith forMemory mode = .ok (s', s.choice warm affine forMemory mode) ∧
      Allocated s s' warm affine (s.choice warm affine forMemory mode)
        (mode.affinity forMemory) := by
  obtain ⟨s1, hok, hr⟩ := pick_spec H hcap forMemory mode
  cases hslot : s.choice warm affine forMemory mode with
  | none =>
    rw [hslot] at hok hr
    subst hr
    exact ⟨s1, by simp [allocWith, hok], ⟨_, _, H, .refl _, fun _ => .refl _⟩, rfl, le_rfl,
      by simp, by simp, by simp, by simp, by simp⟩
  | some slot =>
    rw [hslot] at hok hr
    obtain ⟨hpk, warm1, affine1, H1, hwarm, haff⟩ := hr
    have hlen := hpk.same.length_eq
    have hlt := hlen ▸ hpk.lt_length
    obtain ⟨s', htake, hsts, hres, H'⟩ := holds_take H1 hlt hpk.lt_lastCold
      (mode.affinity forMemory)
    have hiff : ∀ i b, s'.slotState[i]? = some (.used b) ↔
        if some slot = some i then b = mode.affinity forMemory
        else s.slotState[i]? = some (.used b) := by
      intro i b
      rw [hsts]
      by_cases hi : slot = i
      · subst hi
        simp [hlt, eq_comm]
      · rw [getElem?_set_ne hi, hpk.same.getElem?_iff (by simp), if_neg (by simpa using hi)]
    refine ⟨s', by simp [allocWith, hok, htake], ⟨_, _, H', hwarm, haff⟩, ?_, ?_, ?_, ?_, ?_, hiff,
      fun i => ?_⟩
    · rw [hsts, length_set, hlen]
    · rwa [H1.unusedBytesResident_eq, hpk.same.residentBytes_eq,
        ← H.unusedBytesResident_eq] at hres
    · rintro i hi
      obtain rfl := Option.some.inj hi
      exact ⟨hpk.lt_length, hpk.unused, by rw [hsts, getElem?_set_self hlt]⟩
    · intro i
      rw [hsts]
      by_cases hi : slot = i
      · subst hi
        simp [hlt]
      · rw [getElem?_set_ne hi, hpk.same.getElem?_iff (by simp)]
        simp [hi]
    · intro i
      simp only [IsUsed, hiff]
      split <;> simp [*]
    · rw [hsts]
      by_cases hi : slot = i
      · subst hi
        rw [if_pos rfl]
        exact affinityAt_set_self hlt _
      · rw [affinityAt_set_ne hi, hpk.same.affinityAt_eq, if_neg (by simpa using hi)]

/-- Without a choice all slots are in use. -/
theorem used_of_choice_eq_none {forMemory : Option MemoryInModule}
    (h : s.choice warm affine forMemory .anySlot = none) (hi : i < s.slotState.length) :
    ∃ a, s.slotState[i]? = some (.used a) := by
  have hany : s.anyChoice warm = none := (Option.or_eq_none_iff.mp h).2
  obtain ⟨hcold, hwarm⟩ : s.firstCold = none ∧ warm.head? = none := by
    rw [anyChoice] at hany
    split at hany
    · exact Option.or_eq_none_iff.mp hany
    · exact (Option.or_eq_none_iff.mp hany).symm
  have hlast : s.lastCold = s.slotState.length := by simpa [firstCold] using hcold
  obtain rfl : warm = [] := head?_eq_none_iff.mp hwarm
  obtain ⟨st, hst⟩ : ∃ st, s.slotState[i]? = some st := ⟨_, getElem?_eq_getElem hi⟩
  cases st with
  | used a => exact ⟨a, hst⟩
  | unusedCold =>
    have := (H.cold i hi (by simp)).mp hst
    omega
  | unusedWarm u =>
    have := (H.mem_warm i).mpr ⟨by simp [affinityAt, hst, affinity?], by simp⟩
    exact absurd this not_mem_nil

/-! ## Freeing -/

/-- **Freeing keeps the invariant**, and only the sum of the resident bytes can fail. -/
theorem holds_free (hcap : s.slotState.length ≤ u32Max)
    (hused : s.slotState[index]? = some (.used a)) (bytesResident : ℕ) :
    ∃ s', s.free index bytesResident = (do
        let _ ← addUsize s.unusedBytesResident bytesResident
        pure s') ∧
      Holds s' none (warm ++ [index])
        (fun m => if a = some m then affine m ++ [index] else affine m) ∧
      s'.slotState.length = s.slotState.length ∧
      s'.unusedBytesResident = s.unusedBytesResident + bytesResident ∧
      (∀ i : ℕ, s'.slotState[i]? = some .unusedCold ↔ s.slotState[i]? = some .unusedCold) ∧
      (∀ i, affinityAt s'.slotState i = if i = index then some a else affinityAt s.slotState i) ∧
      ∀ i b, s'.slotState[i]? = some (.used b) ↔ s.slotState[i]? = some (.used b) ∧ i ≠ index := by
  have hlt := lt_of_getElem? hused
  obtain ⟨hnwarm, hnaff⟩ := H.not_mem_of_used hused
  have hcnt : s.unusedWarmSlots + 1 ≤ u32Max := (H.unusedWarmSlots_lt hused).trans_le hcap
  obtain ⟨l', states1, link1, hok1, hsame1, hlink1, -, hother1⟩ :=
    append_linked H.warm_linked hnwarm hlt
  have haff1 := H.affineHolds.congr fun m i _ => by rw [hother1 .affine (by decide)]
  obtain ⟨states2, moduleAffine', link2, hok2, hsame2, hun2, haff2⟩ :=
    appendAffine_spec (s := { s with
      unusedWarmSlots := s.unusedWarmSlots + 1, warm := l', slotState := states1 })
      haff1 hnaff (hsame1.length_eq ▸ hlt) a
  have hsame := hsame2.trans hsame1
  have hlt2 := hsame.length_eq ▸ hlt
  have hused2 := (hsame.getElem?_iff (by simp) _).mpr hused
  have hbs := residentBytes_set hused2 (.unusedWarm ⟨a, bytesResident, link2, link1⟩)
  rw [hsame.residentBytes_eq] at hbs
  simp only [SlotState.residentBytes, add_zero] at hbs
  have hself : affinityAt (states2.set index (.unusedWarm ⟨a, bytesResident, link2, link1⟩)) index =
      some a := affinityAt_set_self hlt2 _
  have hne : ∀ i, index ≠ i →
      affinityAt (states2.set index (.unusedWarm ⟨a, bytesResident, link2, link1⟩)) i =
        affinityAt s.slotState i := fun i hi => by
    rw [affinityAt_set_ne hi, hsame.affinityAt_eq]
  have haff := haff2 ⟨a, bytesResident, link2, link1⟩ rfl
  have hcold : ∀ i : ℕ, (states2.set index (.unusedWarm ⟨a, bytesResident, link2, link1⟩))[i]? =
      some .unusedCold ↔ s.slotState[i]? = some .unusedCold := by
    intro i
    by_cases hi : index = i
    · subst hi
      simp [hlt2, hused]
    · rw [getElem?_set_ne hi, hsame.getElem?_iff (by simp)]
  refine ⟨{ s with
    unusedWarmSlots := s.unusedWarmSlots + 1
    warm := l'
    moduleAffine := moduleAffine'
    unusedBytesResident := s.unusedBytesResident + bytesResident
    slotState := states2.set index (.unusedWarm ⟨a, bytesResident, link2, link1⟩) },
    ?_, ?_, ?_, rfl, hcold, fun i => ?_, fun i b => ?_⟩
  · simp only [Inner.free, hused, addU32_of_le hcnt, hok1, hok2, Exec.pure_eq, Exec.ok_bind]
    cases hadd : addUsize s.unusedBytesResident bytesResident with
    | error e => rfl
    | ok t =>
      obtain ⟨-, rfl⟩ := addUsize_eq_ok.mp hadd
      rfl
  · refine ⟨?_, fun m => (haff m).1, fun m => (haff m).2, fun i => ?_,
      fun m i => ?_, fun i hi _ => ?_, ?_, ?_, ?_⟩
    · refine (hlink1 ⟨a, bytesResident, link2, link1⟩ rfl).congr fun i hi => ?_
      by_cases hi' : index = i
      · subst hi'
        simp [linkOf, hlt2, hsame1.length_eq, hlt]
      · rw [linkOf_set_ne hi', linkOf_set_ne hi', hun2]
    · by_cases hi : index = i
      · subst hi
        simp [hself]
      · rw [hne i hi, mem_append, H.mem_warm]
        simp [Ne.symm hi]
    · by_cases hi : index = i
      · subst hi
        rw [hself]
        split
        · simp_all
        · rename_i ham
          simp [hnaff, ham]
      · rw [hne i hi]
        split
        · rw [mem_append, H.mem_affine]
          simp [Ne.symm hi]
        · exact H.mem_affine m i
    · rw [length_set] at hi
      rw [hcold]
      exact H.cold i (hsame.length_eq ▸ hi) (by simp)
    · simpa [hsame.length_eq] using H.lastCold_le
    · simp [H.unusedWarmSlots_eq]
    · rw [H.unusedBytesResident_eq, hbs]
  · simp [hsame.length_eq]
  · by_cases hi : index = i
    · subst hi
      rw [if_pos rfl, hself]
    · rw [if_neg (Ne.symm hi), hne i hi]
  · by_cases hi : index = i
    · subst hi
      simp [hlt2]
    · simp only [getElem?_set_ne hi]
      rw [hsame.getElem?_iff (by simp)]
      simp [Ne.symm hi]

end

/-! ## Runs -/

inductive Op
  | alloc (forMemory : Option MemoryInModule)
  | allocAffineAndClearAffinity (m : MemoryInModule)
  | free (index bytesResident : ℕ)

/-- Run an operation; the result is the allocated slot. -/
def Op.run (s : Inner) : Op → Exec (Inner × Option ℕ)
  | .alloc forMemory => s.alloc forMemory
  | .allocAffineAndClearAffinity m => s.allocAffineAndClearAffinity m
  | .free index bytesResident => do
    let s ← s.free index bytesResident
    pure (s, none)

instance (s : Inner) (index : ℕ) : Decidable (s.IsUsed index) :=
  match h : s.slotState[index]? with
  | some (.used a) => .isTrue ⟨a, h⟩
  | some .unusedCold => .isFalse fun ⟨_, h'⟩ => by rw [h] at h'; cases h'
  | some (.unusedWarm _) => .isFalse fun ⟨_, h'⟩ => by rw [h] at h'; cases h'
  | none => .isFalse fun ⟨_, h'⟩ => by rw [h] at h'; cases h'

/-- Only slots in use are freed, with a resident size that is a `usize`. -/
def Op.Allowed (s : Inner) : Op → Prop
  | .free index bytesResident =>
    s.IsUsed index ∧ bytesResident ≤ usizeMax
  | _ => True

/-- The resident bytes of all warm slots still fit a `usize` after the operation. -/
def Op.ResidentFits (s : Inner) : Op → Prop
  | .free _ bytesResident => residentBytes s.slotState + bytesResident ≤ usizeMax
  | _ => True

instance (s : Inner) : (op : Op) → Decidable (op.Allowed s)
  | .alloc _ => .isTrue trivial
  | .allocAffineAndClearAffinity _ => .isTrue trivial
  | .free index bytesResident =>
    inferInstanceAs (Decidable (s.IsUsed index ∧ bytesResident ≤ usizeMax))

/-- The allocator, with the operations its callers may perform. -/
def indexAllocator (capacity maxUnusedWarmSlots : ℕ) : Machine Inner Op where
  start := fun s => s = Inner.new capacity maxUnusedWarmSlots
  allowed := Op.Allowed
  step := fun s op => Prod.fst <$> op.run s

instance (capacity maxUnusedWarmSlots : ℕ) (s : Inner) (op : Op) :
    Decidable ((indexAllocator capacity maxUnusedWarmSlots).allowed s op) :=
  inferInstanceAs (Decidable (op.Allowed s))

theorem holds_new (capacity maxUnusedWarmSlots : ℕ) :
    Holds (new capacity maxUnusedWarmSlots) none [] fun _ => [] := by
  have hcold : ∀ i, i < capacity →
      (replicate capacity SlotState.unusedCold)[i]? = some .unusedCold := by
    intro i hi
    simp [hi]
  have hnone : ∀ i, affinityAt (replicate capacity SlotState.unusedCold) i = none := by
    intro i
    rw [affinityAt, getElem?_replicate]
    split <;> rfl
  refine ⟨.nil, fun _ => .nil, fun _ => by simp [Inner.new], fun i => by simp [Inner.new, hnone],
    fun m i => by simp [Inner.new, hnone], fun i hi _ => ?_, by simp [Inner.new], rfl, ?_⟩
  · simp only [Inner.new, length_replicate] at hi ⊢
    exact iff_of_true (hcold i hi) (Nat.zero_le i)
  · simp [Inner.new, residentBytes, SlotState.residentBytes]

/-- What every operation does in a state that satisfies the invariant: it keeps the
invariant, and it fails only where the resident bytes do not fit. -/
theorem holds_run (H : Holds s none warm affine) (hcap : s.slotState.length ≤ u32Max) {op : Op}
    (hall : op.Allowed s) :
    ∃ s' r, (op.run s = .ok (s', r) ∨
        ¬op.ResidentFits s ∧ op.run s = .error (.panic "attempt to add with overflow")) ∧
      (∃ warm affine, Holds s' none warm affine) ∧
      s'.slotState.length = s.slotState.length ∧
      (∀ slot, r = some slot → slot < s.slotState.length ∧
        ∀ a, s.slotState[slot]? ≠ some (.used a)) ∧
      (∀ forMemory, op = .alloc forMemory → r = none →
        ∀ i < s.slotState.length, ∃ a, s.slotState[i]? = some (.used a)) := by
  cases op with
  | alloc forMemory =>
    obtain ⟨s', hok, hs'⟩ := holds_allocWith H hcap forMemory .anySlot
    obtain ⟨warm', affine', H', -⟩ := hs'.holds
    exact ⟨s', _, .inl hok, ⟨warm', affine', H'⟩, hs'.length_eq,
      fun slot hslot => ⟨(hs'.free slot hslot).1, (hs'.free slot hslot).2.1⟩,
      fun _ _ hnone i hi => used_of_choice_eq_none H hnone hi⟩
  | allocAffineAndClearAffinity m =>
    obtain ⟨s', hok, hs'⟩ := holds_allocWith H hcap (some m) .forceAffineAndClear
    obtain ⟨warm', affine', H', -⟩ := hs'.holds
    exact ⟨s', _, .inl hok, ⟨warm', affine', H'⟩, hs'.length_eq,
      fun slot hslot => ⟨(hs'.free slot hslot).1, (hs'.free slot hslot).2.1⟩, by simp⟩
  | free index bytesResident =>
    obtain ⟨a, ha⟩ := hall.1
    obtain ⟨s', hok, H', hlen, -⟩ := holds_free H hcap ha bytesResident
    refine ⟨s', none, ?_, ⟨_, _, H'⟩, hlen, by simp, by simp⟩
    rw [H.unusedBytesResident_eq] at hok
    by_cases hfits : residentBytes s.slotState + bytesResident ≤ usizeMax
    · exact .inl (by simp [Op.run, hok, addUsize, hfits])
    · exact .inr ⟨hfits, by simp [Op.run, hok, addUsize, hfits]⟩

/-- The invariant holds in every state that is reached. -/
theorem holds_of_reaches {capacity maxUnusedWarmSlots : ℕ} (hcap : capacity ≤ u32Max)
    (hs : (indexAllocator capacity maxUnusedWarmSlots).Reaches s) :
    s.slotState.length = capacity ∧ ∃ warm affine, Holds s none warm affine := by
  refine Machine.Reaches.invariant
    (P := fun s => s.slotState.length = capacity ∧ ∃ warm affine, Holds s none warm affine)
    ?_ ?_ hs
  · rintro _ rfl
    exact ⟨by simp [Inner.new], _, _, holds_new _ _⟩
  rintro s op s' ⟨hlen, warm, affine, H⟩ hall hstep
  obtain ⟨s1, r, hrun, hholds, hlen1, -⟩ := holds_run H (by omega) hall
  have hstep' : Prod.fst <$> op.run s = .ok s' := hstep
  rcases hrun with hok | ⟨-, herr⟩
  · rw [hok] at hstep'
    obtain rfl : s1 = s' := Except.ok.inj hstep'
    exact ⟨by omega, hholds⟩
  · rw [herr] at hstep'
    cases hstep'

/-- **The slot allocator keeps its books.**  After every run the cold slots are those
from `lastCold` on, the warm list is walked through every warm slot once, an affinity
has a list exactly when a warm slot has it and the list is walked through exactly those,
and the two counters are exact.  The next operation succeeds as long as the resident
bytes fit a `usize`, returns only a free slot, and finds no slot only if all are in
use. -/
theorem indexAllocator_invariant (capacity maxUnusedWarmSlots : ℕ) (hcap : capacity ≤ u32Max)
    (hs : (indexAllocator capacity maxUnusedWarmSlots).Reaches s) :
    (∀ i < capacity, s.slotState[i]? = some .unusedCold ↔ s.lastCold ≤ i) ∧
    (∃ xs, s.warm.iter s.slotState .unused = .ok xs ∧ xs.Nodup ∧
      ∀ i, i ∈ xs ↔ ∃ u, s.slotState[i]? = some (.unusedWarm u)) ∧
    (∀ m, (s.moduleAffine m = none ↔
        ¬∃ (i : ℕ) (u : Unused), s.slotState[i]? = some (.unusedWarm u) ∧ u.affinity = some m) ∧
      ∀ l, s.moduleAffine m = some l → ∃ xs, l.iter s.slotState .affine = .ok xs ∧ xs.Nodup ∧
        ∀ i, i ∈ xs ↔ ∃ u, s.slotState[i]? = some (.unusedWarm u) ∧ u.affinity = some m) ∧
    s.unusedWarmSlots = s.slotState.countP SlotState.isUnusedWarm ∧
    s.unusedBytesResident = (s.slotState.map SlotState.residentBytes).sum ∧
    ∀ op : Op, op.Allowed s → op.ResidentFits s → ∃ s' r, op.run s = .ok (s', r) ∧
      (∀ slot, r = some slot → slot < capacity ∧ ∀ a, s.slotState[slot]? ≠ some (.used a)) ∧
      (∀ forMemory, op = .alloc forMemory → r = none →
        ∀ i < capacity, ∃ a, s.slotState[i]? = some (.used a)) := by
  obtain ⟨rfl, warm, affine, H⟩ := holds_of_reaches hcap hs
  have hwarm : ∀ i, (affinityAt s.slotState i).isSome ↔
      ∃ u, s.slotState[i]? = some (.unusedWarm u) := by
    intro i
    rw [Option.isSome_iff_exists]
    constructor
    · rintro ⟨a, ha⟩
      obtain ⟨u, hu, -⟩ := affinityAt_eq_some.mp ha
      exact ⟨u, hu⟩
    · rintro ⟨u, hu⟩
      exact ⟨_, affinityAt_eq_some.mpr ⟨u, hu, rfl⟩⟩
  have hmem : ∀ m i, i ∈ affine m ↔
      ∃ u, s.slotState[i]? = some (.unusedWarm u) ∧ u.affinity = some m := by
    intro m i
    rw [H.mem_affine, affinityAt_eq_some]
    simp
  refine ⟨fun i hi => H.cold i hi (by simp),
    ⟨warm, iter_eq H.warm_linked, H.warm_linked.nodup, fun i => by rw [H.mem_warm, hwarm]; simp⟩,
    fun m => ⟨?_, fun l hl => ?_⟩, ?_, H.unusedBytesResident_eq, fun op hall hfits => ?_⟩
  · rw [H.affine_present, eq_nil_iff_forall_not_mem, not_exists]
    exact forall_congr' fun i => not_congr (hmem m i)
  · have hlink := H.affine_linked m
    rw [hl, Option.getD_some] at hlink
    exact ⟨affine m, iter_eq hlink, hlink.nodup, hmem m⟩
  · rw [H.unusedWarmSlots_eq,
      countP_eq_length H.warm_linked.nodup fun i => by rw [H.mem_warm]; simp]
  · obtain ⟨s', r, hok | hfail, -, -, hfree, hnone⟩ := holds_run H hcap hall
    · exact ⟨s', r, hok, hfree, hnone⟩
    · exact absurd hfits hfail.1

/-- Two slots of one affinity are allocated and freed, and one is allocated again. -/
theorem indexAllocator_invariant_reuse : ∃ s,
    (indexAllocator 2 1).Reaches s ∧ s.unusedWarmSlots = 1 ∧
    ∃ xs, s.warm.iter s.slotState .unused = .ok xs ∧ xs.Nodup ∧
      ∀ i, i ∈ xs ↔ ∃ u, s.slotState[i]? = some (.unusedWarm u) := by
  obtain ⟨s, hs, hcnt⟩ := Machine.reaches_of_run? (M := indexAllocator 2 1)
    [.alloc (some ⟨7, 0⟩), .alloc (some ⟨7, 0⟩), .free 1 5, .free 0 6, .alloc (some ⟨7, 0⟩)]
    (p := fun s => s.unusedWarmSlots == 1) rfl (by decide +kernel)
  exact ⟨s, hs, by simpa using hcnt, (indexAllocator_invariant 2 1 (by decide) hs).2.1⟩

/-- Resident sizes that are each a `usize` need not sum to one: `free` then overflows
its counter. -/
theorem unusedBytesResident_overflows : ∃ s, (indexAllocator 2 0).Reaches s ∧
    (Op.free 1 1).Allowed s ∧
    ((Op.free 1 1).run s).fault? = some (.panic "attempt to add with overflow") := by
  obtain ⟨s, hs, h⟩ := Machine.reaches_of_run? (M := indexAllocator 2 0)
    [.alloc none, .alloc none, .free 0 usizeMax]
    (p := fun s => decide ((Op.free 1 1).Allowed s ∧
      ((Op.free 1 1).run s).fault? = some (.panic "attempt to add with overflow"))) rfl
    (by decide +kernel)
  exact ⟨s, hs, of_decide_eq_true h⟩

end WasmDeps.Pooling
