import WasmDeps.Gc.CopyingCheney

/-!
# A collection of the copying collector

A collection swaps the semi-spaces, copies what is reachable, drops the host data of the
`externref`s that were not copied and adjusts the semi-spaces to the capacity.  What it leaves
is an image of the reachable objects: references are renamed, everything else in an object is
kept but for the link of an `externref`.
-/

namespace WasmDeps.Gc

open WasmDeps.Lib List Exec

/-! ## The semi-spaces -/

/-- Where the first object of a space stands: after 16 bytes left free, if the space has them. -/
def firstObject (start stop : ℕ) : ℕ :=
  if copyingAlign ≤ stop - start then start + copyingAlign else start

namespace CopyingHeap

/-- The two halves of the heap: one of them is active, the other one is idle. -/
structure Halves (h : CopyingHeap) (half : ℕ) : Prop where
  halves : (h.activeSpaceStart = 0 ∧ h.activeSpaceEnd = half ∧
      h.idleSpaceStart = half ∧ h.idleSpaceEnd = 2 * half) ∨
    (h.activeSpaceStart = half ∧ h.activeSpaceEnd = 2 * half ∧
      h.idleSpaceStart = 0 ∧ h.idleSpaceEnd = half)
  aligned : 8 ∣ half
  le_capacity : 2 * half ≤ h.capacity

/-- **The semi-spaces.**  Each half has room for the first granule, unless the heap is too small
for that. -/
structure SemiSpaces (h : CopyingHeap) (half : ℕ) : Prop extends Halves h half where
  granule : 16 ≤ half ∨ h.capacity < 32

variable {h h' : CopyingHeap} {half : ℕ}

/-- The capacity is aligned and within the memory. -/
theorem capacity_spec (h : CopyingHeap) :
    16 ∣ h.capacity ∧ h.capacity ≤ h.memory.len ∧ h.capacity ≤ u32Max := by
  have := roundDown_le (min h.memory.len u32Max) copyingAlign
  refine ⟨dvd_roundDown _ _, ?_, ?_⟩
  · exact this.trans (min_le_left _ _)
  · exact this.trans (min_le_right _ _)

theorem lt_capacity_add (h : CopyingHeap) : min h.memory.len u32Max < h.capacity + 16 :=
  lt_roundDown_add _ (by decide)

theorem capacity_mono (hle : h.memory.len ≤ h'.memory.len) : h.capacity ≤ h'.capacity :=
  Nat.mul_le_mul_right _ (Nat.div_le_div_right (by omega))

/-- `reset_bump_ptr` is one assertion and one write. -/
theorem resetBumpPtr_eq_bind (hle : h.activeSpaceStart ≤ h.activeSpaceEnd)
    (hu32 : h.activeSpaceEnd ≤ u32Max) :
    h.resetBumpPtr = h.debugAssert
        (firstObject h.activeSpaceStart h.activeSpaceEnd % copyingAlign = 0)
        "assertion failed: self.bump_ptr().is_multiple_of(ALIGN)" >>= fun _ =>
      pure { h with bumpPtr := firstObject h.activeSpaceStart h.activeSpaceEnd } := by
  rw [resetBumpPtr, subU32_of_le hle, ok_bind]
  by_cases hroom : copyingAlign ≤ h.activeSpaceEnd - h.activeSpaceStart
  · have hfits : h.activeSpaceStart + copyingAlign ≤ u32Max := by
      omega
    rw [firstObject, if_pos hroom]
    rw [if_pos hroom, addU32_of_le hfits]
    rfl
  · rw [firstObject, if_neg hroom]
    rw [if_neg hroom, pure_eq]
    rfl

theorem firstObject_mod (start stop : ℕ) :
    firstObject start stop % copyingAlign = 0 ↔ 16 ∣ start := by
  rw [firstObject, copyingAlign]
  split <;> omega

/-- `reset_bump_ptr` returns if the space is aligned, or without debug assertions. -/
theorem resetBumpPtr_eq (hle : h.activeSpaceStart ≤ h.activeSpaceEnd)
    (hu32 : h.activeSpaceEnd ≤ u32Max)
    (hdebug : h.debugAssertions = true → 16 ∣ h.activeSpaceStart) :
    h.resetBumpPtr = .ok { h with
      bumpPtr := firstObject h.activeSpaceStart h.activeSpaceEnd } := by
  rw [resetBumpPtr_eq_bind hle hu32, debugAssert_eq fun hd => (firstObject_mod _ _).mpr (hdebug hd)]
  rfl

theorem SemiSpaces.congr (S : h.SemiSpaces half) (F : h'.SameSpaces h) : h'.SemiSpaces half := by
  have hcapacity : h'.capacity = h.capacity := by rw [capacity, capacity, F.len]
  refine ⟨⟨?_, S.aligned, hcapacity ▸ S.le_capacity⟩, hcapacity ▸ S.granule⟩
  rw [F.activeSpaceStart, F.activeSpaceEnd, F.idleSpaceStart, F.idleSpaceEnd]
  exact S.halves

namespace Halves

variable (S : h.Halves half)
include S

/-- Both spaces have `half` bytes. -/
theorem size_eq : h.activeSpaceEnd - h.activeSpaceStart = half ∧
    h.idleSpaceEnd - h.idleSpaceStart = half := by
  have := S.halves
  omega

/-- The spaces do not overlap. -/
theorem le : h.activeSpaceStart ≤ h.activeSpaceEnd ∧ h.idleSpaceStart ≤ h.idleSpaceEnd ∧
    (h.activeSpaceEnd ≤ h.idleSpaceStart ∨ h.idleSpaceEnd ≤ h.activeSpaceStart) := by
  have := S.halves
  omega

/-- The spaces are within the memory. -/
theorem end_le : h.activeSpaceEnd ≤ h.memory.len ∧ h.idleSpaceEnd ≤ h.memory.len ∧
    h.activeSpaceEnd ≤ u32Max ∧ h.idleSpaceEnd ≤ u32Max := by
  have := S.le_capacity
  obtain ⟨-, hlen, hu32⟩ := h.capacity_spec
  have := S.halves
  omega

theorem dvd_start : 8 ∣ h.activeSpaceStart ∧ 8 ∣ h.idleSpaceStart := by
  have := S.aligned
  have := S.halves
  omega

/-- Both spaces leave the same bytes free at their start. -/
theorem firstObject_eq : ∃ granule, (granule = 16 ∧ 16 ≤ half ∨ granule = 0 ∧ half < 16) ∧
    firstObject h.activeSpaceStart h.activeSpaceEnd = h.activeSpaceStart + granule ∧
    firstObject h.idleSpaceStart h.idleSpaceEnd = h.idleSpaceStart + granule := by
  obtain ⟨hact, hidle⟩ := S.size_eq
  rw [firstObject, firstObject, hact, hidle]
  by_cases hroom : copyingAlign ≤ half
  · rw [if_pos hroom, if_pos hroom]
    exact ⟨16, .inl ⟨rfl, hroom⟩, rfl, rfl⟩
  · rw [if_neg hroom, if_neg hroom]
    exact ⟨0, .inr ⟨rfl, Nat.lt_of_not_le hroom⟩, rfl, rfl⟩

theorem assertEqualSpaces_eq : h.assertEqualSpaces = .ok () := by
  obtain ⟨hact, hidle⟩ := S.size_eq
  obtain ⟨hle, hle', -⟩ := S.le
  refine debug_eq fun _ => ?_
  rw [subU32_of_le hle, ok_bind, subU32_of_le hle', ok_bind, ensure_of (hact.trans hidle.symm)]

theorem assertSpaces_eq (hst : h.activeSpaceStart ≤ h.bumpPtr)
    (hend : h.bumpPtr ≤ h.activeSpaceEnd) : h.assertSpaces = .ok () := by
  obtain ⟨-, hidle, hapart⟩ := S.le
  rw [assertSpaces, ensure_of hst, ok_bind, ensure_of hend, ok_bind, ensure_of hidle,
    ok_bind, ensure_of hapart]

/-- `flip` swaps the spaces and starts the active one anew. -/
theorem flip_eq (hdebug : h.debugAssertions = true → 16 ∣ h.idleSpaceStart) :
    h.flip = .ok { h with
      activeSpaceStart := h.idleSpaceStart, activeSpaceEnd := h.idleSpaceEnd
      idleSpaceStart := h.activeSpaceStart, idleSpaceEnd := h.activeSpaceEnd
      bumpPtr := firstObject h.idleSpaceStart h.idleSpaceEnd
      idleExternRefSetHead := h.activeExternRefSetHead, activeExternRefSetHead := none } := by
  obtain ⟨-, hle, -⟩ := S.le
  obtain ⟨-, -, -, hu32⟩ := S.end_le
  rw [flip, S.assertEqualSpaces_eq, resetBumpPtr_eq hle hu32 hdebug]
  rfl

/-- With debug assertions `flip` returns only for an aligned space. -/
theorem dvd_of_flip (hok : h.flip = .ok h') (hd : h.debugAssertions = true) :
    16 ∣ h.idleSpaceStart := by
  rw [flip, S.assertEqualSpaces_eq, resetBumpPtr_eq_bind S.le.2.1 S.end_le.2.2.2] at hok
  by_contra hnot
  have hmod : ¬firstObject h.idleSpaceStart h.idleSpaceEnd % copyingAlign = 0 :=
    fun heq => hnot ((firstObject_mod _ _).mp heq)
  simp [debugAssert, debug, hd, hmod] at hok

/-- `resize_semi_spaces` returns, and the active space does not shrink. -/
theorem resizeSemiSpaces_eq (hbump : h.bumpPtr ≤ h.activeSpaceEnd)
    (hgranule : 16 ≤ half ∨ h.capacity < 32 ∨ half = 0) :
    ∃ stop idleStart idleStop half', h.resizeSemiSpaces = .ok { h with
        activeSpaceEnd := stop, idleSpaceStart := idleStart, idleSpaceEnd := idleStop } ∧
      SemiSpaces { h with
        activeSpaceEnd := stop, idleSpaceStart := idleStart, idleSpaceEnd := idleStop } half' ∧
      h.activeSpaceEnd ≤ stop ∧
      (0 < half ∨ h.capacity < 32 →
        firstObject h.activeSpaceStart stop = firstObject h.activeSpaceStart h.activeSpaceEnd) := by
  rw [resizeSemiSpaces, S.assertEqualSpaces_eq]
  by_cases hsnd : h.idleSpaceStart < h.activeSpaceStart
  · rw [if_pos hsnd]
    have hpos : 16 ≤ half ∨ h.capacity < 32 := by
      have := S.halves
      omega
    exact ⟨_, _, _, half, rfl, ⟨S, hpos⟩, le_refl _, fun _ => rfl⟩
  rw [if_neg hsnd]
  obtain ⟨hdvd, -, -⟩ := h.capacity_spec
  have hle := S.le_capacity
  have hhalf : h.activeSpaceStart = 0 ∧ h.activeSpaceEnd = half ∧ h.idleSpaceStart = half := by
    have := S.halves
    omega
  obtain ⟨hst, hend, hidle⟩ := hhalf
  have S' : SemiSpaces { h with
      activeSpaceEnd := h.capacity / 2, idleSpaceStart := h.capacity / 2
      idleSpaceEnd := h.capacity } (h.capacity / 2) := by
    refine ⟨⟨.inl ⟨hst, rfl, rfl, ?_⟩, ?_, ?_⟩, ?_⟩
    · show h.capacity = 2 * (h.capacity / 2)
      omega
    · omega
    · show 2 * (h.capacity / 2) ≤ h.capacity
      omega
    · show 16 ≤ h.capacity / 2 ∨ h.capacity < 32
      omega
  refine ⟨h.capacity / 2, h.capacity / 2, h.capacity, h.capacity / 2, ?_, S', by omega, ?_⟩
  · simp only []
    rw [debugAssert_eq fun _ => by omega, debugAssert_eq fun _ => by omega,
      ok_bind, debugAssert_eq fun _ => by omega, S'.assertEqualSpaces_eq]
    rfl
  · intro hpos
    simp only [firstObject, copyingAlign]
    split <;> split <;> omega

end Halves

end CopyingHeap

/-! ## Well-formed heaps -/

/-- The list from `head` on goes through the `externref`s among `objs`, each of them once. -/
structure Externs (m : Memory) (head : Option VMGcRef) (objs chain : List ℕ) : Prop where
  path : Path (externLink m) (head.map VMGcRef.raw) chain none
  nodup : chain.Nodup
  mem_iff : ∀ x, x ∈ chain ↔ x ∈ objs ∧ isExtern m x = true

/-- The host data of `externref`s is live, and no two of them share it. -/
structure HostData (m : Memory) (host : ExternRefHostDataTable) (objs : List ℕ) : Prop where
  live : ∀ x ∈ objs, isExtern m x = true → (host.slab.get? (hostId m x)).isSome
  inj : ∀ x ∈ objs, ∀ y ∈ objs, isExtern m x = true → isExtern m y = true →
    hostId m x = hostId m y → x = y

/-- **A heap between two calls**: the objects `objs` lie one after the other from the start of
the active space to the bump pointer, they agree with their types and refer to each other
only, and the `externref`s among them are listed. -/
structure CopyingHeap.WellFormed (h : CopyingHeap) (host : ExternRefHostDataTable)
    (objs : List ℕ) : Prop where
  semiSpaces : ∃ half, h.SemiSpaces half
  objects : FromSpace h.traceInfos h.memory objs
    (firstObject h.activeSpaceStart h.activeSpaceEnd) h.bumpPtr
  bump_le : h.bumpPtr ≤ h.activeSpaceEnd
  externs : ∃ chain, Externs h.memory h.activeExternRefSetHead objs chain
  hostData : HostData h.memory host objs

/-! ## Sweeping -/

/-- The host data ids of the `externref`s of a list that have not been copied. -/
def sweptIds (m : Memory) (chain : List ℕ) : List ℕ :=
  (chain.filter fun x => !isCopied (m.readU32 x)).map (hostId m)

variable {h : CopyingHeap} {host : ExternRefHostDataTable} {objs chain froms dropped : List ℕ}

/-- **The loop over the `externref`s** of the idle space. -/
theorem CopyingHeap.sweepFrom_eq (host : ExternRefHostDataTable) (dropped : List ℕ)
    {link : Option VMGcRef} {fuel : ℕ}
    (hpath : Path (externLink h.memory) (link.map VMGcRef.raw) chain none)
    (hchain : ∀ x ∈ chain, 8 ∣ x ∧ x + 32 ≤ h.memory.len ∧ h.isInIdleSpace x = true)
    (hlive : ∀ id ∈ sweptIds h.memory chain, (host.slab.get? id).isSome)
    (hnd : (sweptIds h.memory chain).Nodup) (hfuel : chain.length < fuel) :
    ∃ host', h.sweepFrom fuel host dropped link =
        .ok (host', dropped ++ (sweptIds h.memory chain).filterMap host.slab.get?) ∧
      host.deallocAll (sweptIds h.memory chain) = .ok host' := by
  induction chain generalizing host dropped link fuel with
  | nil =>
    obtain rfl : link = none := Option.map_eq_none_iff.mp hpath
    obtain ⟨fuel, rfl⟩ := Nat.exists_eq_succ_of_ne_zero (ne_of_gt hfuel)
    exact ⟨host, by simp [sweepFrom, sweptIds], rfl⟩
  | cons x chain ih =>
    obtain ⟨hhead, hpath⟩ := hpath
    obtain ⟨r, rfl, rfl⟩ := Option.map_eq_some_iff.mp hhead
    obtain ⟨fuel, rfl⟩ := Nat.exists_eq_succ_of_ne_zero (ne_of_gt (Nat.zero_lt_of_lt hfuel))
    obtain ⟨h8, hlen, hidle⟩ := hchain r.raw (.head _)
    have hchain' := fun y hy => hchain y (.tail _ hy)
    have hfuel' := Nat.lt_of_succ_lt_succ hfuel
    rw [sweepFrom, sweepExternRef, assertInIdleSpace_eq (dvd_trans (by decide) h8) hidle, ok_bind,
      copied_eq h8 (by omega), ok_bind, index_eq h8 hlen]
    cases hcpd : isCopied (h.memory.readU32 r.raw) with
    | true =>
      have hids : sweptIds h.memory (r.raw :: chain) = sweptIds h.memory chain := by
        simp [sweptIds, hcpd]
      rw [hids] at hlive hnd ⊢
      exact ih host dropped hpath hchain' hlive hnd hfuel'
    | false =>
      have hids : sweptIds h.memory (r.raw :: chain) =
          hostId h.memory r.raw :: sweptIds h.memory chain := by
        simp [sweptIds, hcpd]
      rw [hids] at hlive hnd ⊢
      obtain ⟨hnew, hnd⟩ := nodup_cons.mp hnd
      obtain ⟨value, hval⟩ := Option.isSome_iff_exists.mp (hlive _ (.head _))
      have hdea : host.dealloc (hostId h.memory r.raw) =
          .ok (⟨host.slab.erase (hostId h.memory r.raw)⟩, value) := by
        simp [ExternRefHostDataTable.dealloc, hval]
      -- The ids that are still to be deallocated are other ones.
      have hother : ∀ id ∈ sweptIds h.memory chain,
          (host.slab.erase (hostId h.memory r.raw)).get? id = host.slab.get? id := by
        intro id hid
        have hne : id ≠ hostId h.memory r.raw := fun heq => hnew (heq ▸ hid)
        rw [SortedMap.get?_erase, if_neg hne]
      have hlive' : ∀ id ∈ sweptIds h.memory chain,
          ((host.slab.erase (hostId h.memory r.raw)).get? id).isSome := fun id hid => by
        rw [hother id hid]
        exact hlive id (.tail _ hid)
      obtain ⟨host', hsw, hall⟩ := ih ⟨host.slab.erase (hostId h.memory r.raw)⟩
        (dropped ++ [value]) hpath hchain' hlive' hnd hfuel'
      refine ⟨host', ?_, ?_⟩
      · rw [filterMap_congr hother, append_assoc] at hsw
        rw [filterMap_cons_some hval, ok_bind]
        rw [show h.memory.readU32 (r.raw + 24) = hostId h.memory r.raw from rfl, hdea]
        exact hsw
      · rw [deallocAll_cons, hdea]
        exact hall

/-! ## The copies -/

variable {h₀ : CopyingHeap} {infos : TraceInfos} {done : List ℕ} {roots : List VMGcRef}
  {lo hi x k : ℕ}

/-- Where the copies stand. -/
def copies (m : Memory) (base : ℕ) (froms : List ℕ) : List ℕ := (place m base froms).map Prod.snd

theorem mem_copies {m : Memory} {base t : ℕ} :
    t ∈ copies m base froms ↔ ∃ x, (x, t) ∈ place m base froms := by
  simp [copies]

namespace Evac

variable (Y : Ready h₀ infos objs lo hi) (E : Evac h₀ infos objs roots h froms done)
include Y E

theorem readU32_rest (hx : x ∈ objs) (hk : 20 ≤ k) (hk' : k + 4 ≤ 32) :
    h.memory.readU32 (x + k) = h₀.memory.readU32 (x + k) := by
  have := (Y.spaces.ok x hx).le_size
  by_cases hmem : x ∈ froms
  · exact Memory.readU32_add_congr fun i hi hi' =>
      E.memory.rest x hmem i (by omega) (by omega) (by omega)
  · exact E.fresh_readU32 Y hx hmem hk'

/-- Exactly the copied objects have the bit in their header. -/
theorem isCopied_eq (hx : x ∈ objs) : isCopied (h.memory.readU32 x) = decide (x ∈ froms) := by
  by_cases hmem : x ∈ froms
  · obtain ⟨t, ht⟩ := exists_place hmem
    rw [decide_eq_true hmem, (E.memory.record x t ht).1]
  obtain ⟨kind, hk, -⟩ := (Y.spaces.ok x hx).kind
  have hkind : h.memory.readU32 x = kind.asU32 :=
    (E.fresh_readU32 (k := 0) Y hx hmem (by decide)).trans hk
  rw [decide_eq_false hmem, hkind, kind.isCopied_asU32]

/-- The swept identifiers are those of the objects that were not copied. -/
theorem sweptIds_eq (hsub : chain ⊆ objs) : sweptIds h.memory chain =
    (chain.filter fun x => x ∉ froms).map (hostId h₀.memory) := by
  have hfilter : chain.filter (fun x => !isCopied (h.memory.readU32 x)) =
      chain.filter fun x => x ∉ froms := by
    refine filter_congr fun x hx => ?_
    rw [E.isCopied_eq Y (hsub hx), decide_not]
  rw [sweptIds, hfilter]
  refine map_congr_left fun x hx => ?_
  exact E.readU32_rest Y (hsub (mem_of_mem_filter hx)) (by decide) (by decide)

theorem shape {t : ℕ} (ht : (x, t) ∈ place h₀.memory h₀.bumpPtr froms) :
    SameShape infos h₀.memory h.memory x t :=
  (E.memory.body x t ht).shape (Y.spaces.ok x (E.memory.sub (mem_of_place ht)))

theorem objectOk_copy {t : ℕ} (ht : t ∈ copies h₀.memory h₀.bumpPtr froms) :
    ObjectOk infos h.memory t := by
  obtain ⟨x, hx⟩ := mem_copies.mp ht
  exact (E.shape Y hx).objectOk (Y.spaces.ok x (E.memory.sub (mem_of_place hx)))

/-- The copies are laid out in the new active space. -/
theorem laidOut_copies :
    LaidOut h.memory h₀.bumpPtr (copies h₀.memory h₀.bumpPtr froms) h.bumpPtr := by
  rw [E.bump]
  exact .of_place fun x t ht => (E.shape Y ht).objSize_eq

/-- **The copies are objects** that lie one after the other and refer to each other. -/
theorem fromSpace (hall : ∀ x t, (x, t) ∈ place h₀.memory h₀.bumpPtr froms →
      ∀ o ∈ refOffsets infos h₀.memory x, t + o ∈ done) :
    FromSpace infos h.memory (copies h₀.memory h₀.bumpPtr froms) h₀.bumpPtr h.bumpPtr := by
  refine ⟨E.laidOut_copies Y, fun t ht => E.objectOk_copy Y ht, fun t ht o ho href => ?_⟩
  obtain ⟨x, hx⟩ := mem_copies.mp ht
  rw [(E.shape Y hx).refOffsets_eq] at ho
  have hmv := E.memory.moved x t hx o ho (hall x t hx o ho)
  by_cases hraw : isHeapRef (h₀.memory.readU32 (x + o)) = true
  · exact mem_copies.mpr ⟨_, (if_pos hraw).mp hmv⟩
  · have heq := (if_neg hraw).mp hmv
    exact absurd (heq ▸ href) hraw

/-- The copied `externref`s form the new list. -/
theorem externs : Externs h.memory h.activeExternRefSetHead (copies h₀.memory h₀.bumpPtr froms)
    (externCopies h₀.memory h₀.bumpPtr froms) where
  path := E.links
  nodup := by
    have hcopies := (E.laidOut_copies Y).nodup fun t ht =>
        lt_of_lt_of_le (by decide) (E.objectOk_copy Y ht).le_size
    apply nodup_reverse.mpr
    exact (filter_sublist.map Prod.snd).nodup hcopies
  mem_iff t := by
    have hie : ∀ x, (x, t) ∈ place h₀.memory h₀.bumpPtr froms →
        isExtern h.memory t = isExtern h₀.memory x := fun x ht => (E.shape Y ht).isExtern_eq
    rw [mem_externCopies, mem_copies]
    constructor
    · rintro ⟨x, hx, hyes⟩
      exact ⟨⟨x, hx⟩, (hie x hx).trans hyes⟩
    · rintro ⟨⟨x, hx⟩, hyes⟩
      exact ⟨x, hx, (hie x hx).symm.trans hyes⟩

/-- Host data is live after the sweep exactly for the `externref`s that have been copied. -/
theorem hostData {host' : ExternRefHostDataTable} {dead : List ℕ} (H : HostData h₀.memory host objs)
    (hdea : host.deallocAll dead = .ok host')
    (hdead : ∀ id ∈ dead, ∃ x ∈ objs, isExtern h₀.memory x = true ∧ x ∉ froms ∧
      hostId h₀.memory x = id) : HostData h.memory host' (copies h₀.memory h₀.bumpPtr froms) := by
  have hcopy : ∀ t ∈ copies h₀.memory h₀.bumpPtr froms, isExtern h.memory t = true →
      ∃ x, (x, t) ∈ place h₀.memory h₀.bumpPtr froms ∧ isExtern h₀.memory x = true ∧
        hostId h.memory t = hostId h₀.memory x := by
    intro t ht hie
    obtain ⟨x, hx⟩ := mem_copies.mp ht
    have ok := Y.spaces.ok x (E.memory.sub (mem_of_place hx))
    rw [(E.shape Y hx).isExtern_eq] at hie
    exact ⟨x, hx, hie, (E.memory.body x t hx).hostId_eq ok hie⟩
  refine ⟨fun t ht hie => ?_, fun t ht u hu hie hie' heq => ?_⟩
  · obtain ⟨x, hx, hyes, hid⟩ := hcopy t ht hie
    have hmem := E.memory.sub (mem_of_place hx)
    have hnot : hostId h₀.memory x ∉ dead := by
      intro hin
      obtain ⟨y, hy, hie, hnew, heq⟩ := hdead _ hin
      exact hnew (H.inj y hy x hmem hie hyes heq ▸ mem_of_place hx)
    rw [hid, get?_deallocAll hdea, if_neg hnot]
    exact H.live x hmem hyes
  · obtain ⟨x, hx, hyes, hid⟩ := hcopy t ht hie
    obtain ⟨y, hy, hyes', hid'⟩ := hcopy u hu hie'
    obtain rfl := H.inj x (E.memory.sub (mem_of_place hx)) y (E.memory.sub (mem_of_place hy)) hyes
      hyes' (hid.symm.trans (heq.trans hid'))
    exact place_functional E.memory.nodup hx hy

end Evac

/-! ## The collection -/

/-- The heap after the spaces were swapped. -/
def CopyingHeap.swapped (h : CopyingHeap) : CopyingHeap :=
  { h with
    activeSpaceStart := h.idleSpaceStart, activeSpaceEnd := h.idleSpaceEnd
    idleSpaceStart := h.activeSpaceStart, idleSpaceEnd := h.activeSpaceEnd
    bumpPtr := firstObject h.idleSpaceStart h.idleSpaceEnd
    worklistPtr := firstObject h.idleSpaceStart h.idleSpaceEnd
    idleExternRefSetHead := h.activeExternRefSetHead, activeExternRefSetHead := none }

/-- **What a collection leaves**: the objects `froms` have been copied. -/
structure Collected (h : CopyingHeap) (host : ExternRefHostDataTable) (objs : List ℕ)
    (roots : List VMGcRef) (c : CopyingCollection) (froms : List ℕ) : Prop where
  nodup : froms.Nodup
  sub : froms ⊆ objs
  reachable_iff : ∀ x, Reachable h.traceInfos h.memory roots x ↔ x ∈ froms
  roots : List.Forall₂ (fun r r' => Moved h.memory h.swapped.bumpPtr froms r.raw r'.raw) roots
    c.roots
  body : ∀ x t, (x, t) ∈ place h.memory h.swapped.bumpPtr froms →
    CopiedBody h.traceInfos h.memory c.heap.memory x t
  moved : ∀ x t, (x, t) ∈ place h.memory h.swapped.bumpPtr froms →
    ∀ o ∈ refOffsets h.traceInfos h.memory x, Moved h.memory h.swapped.bumpPtr froms
      (h.memory.readU32 (x + o)) (c.heap.memory.readU32 (t + o))
  wellFormed : c.heap.WellFormed c.host (copies h.memory h.swapped.bumpPtr froms)
  dropped : ∃ dead : List ℕ, dead.Nodup ∧
    (∀ id, id ∈ dead ↔ ∃ x ∈ objs, isExtern h.memory x = true ∧ x ∉ froms ∧
      hostId h.memory x = id) ∧
    host.deallocAll dead = .ok c.host ∧ c.dropped = dead.filterMap host.slab.get?
  start_eq : c.heap.activeSpaceStart = h.idleSpaceStart
  first_eq : firstObject c.heap.activeSpaceStart c.heap.activeSpaceEnd = h.swapped.bumpPtr
  debug_eq : c.heap.debugAssertions = h.debugAssertions
  noGcCount_eq : c.heap.noGcCount = h.noGcCount
  infos_eq : c.heap.traceInfos = h.traceInfos
  len_eq : c.heap.memory.len = h.memory.len

namespace CopyingHeap.WellFormed

variable (W : h.WellFormed host objs)
include W

/-- The collection starts on the swapped heap. -/
theorem flip_eq (hdebug : h.debugAssertions = true → 16 ∣ h.idleSpaceStart) :
    ∃ h', h.flip = .ok h' ∧ h'.initializeWorklist = h.swapped := by
  obtain ⟨half, S⟩ := W.semiSpaces
  exact ⟨_, S.flip_eq hdebug, rfl⟩

/-- The swapped heap satisfies what the evacuation starts with. -/
theorem ready (hdebug : h.debugAssertions = true → 16 ∣ h.idleSpaceStart) :
    Ready h.swapped h.traceInfos objs (firstObject h.activeSpaceStart h.activeSpaceEnd)
      h.bumpPtr := by
  obtain ⟨half, S⟩ := W.semiSpaces
  obtain ⟨hlen, hlen', -, hu32'⟩ := S.end_le
  obtain ⟨granule, hgranule, hfst, hfst'⟩ := S.firstObject_eq
  obtain ⟨hdvd, hdvd'⟩ := S.dvd_start
  have hbump := W.bump_le
  have hend := W.objects.laidOut.end_eq
  have hswap : h.swapped.bumpPtr = h.idleSpaceStart + granule := hfst'
  have hspaces : (h.bumpPtr ≤ h.idleSpaceStart + granule ∨
      h.idleSpaceEnd ≤ h.activeSpaceStart + granule) ∧
      h.idleSpaceStart + granule + (h.bumpPtr - (h.activeSpaceStart + granule)) ≤
        h.idleSpaceEnd := by
    have := S.halves
    omega
  have hroom : objs ≠ [] → 0 < h.idleSpaceStart + granule := by
    intro hne
    obtain ⟨x, xs, rfl⟩ := exists_cons_of_ne_nil hne
    have := (W.objects.ok x (.head _)).le_size
    rw [totalSize_cons] at hend
    have := S.size_eq.1
    omega
  refine ⟨⟨W.objects, ?_, ?_, hu32'⟩, ?_, ?_, hbump, hlen', hlen, ?_, ?_, fun hd => ?_, ?_⟩
  · rw [hfst, hswap]
    exact hspaces.1
  · rw [hfst, hswap]
    exact hspaces.2
  · rw [hswap]
    exact Nat.le_add_right _ _
  · rw [hfst]
    exact Nat.le_add_right _ _
  · omega
  · omega
  · have := hdebug hd
    omega
  · exact fun hne => hswap ▸ hroom hne

theorem dvd_of_collect {c : CopyingCollection} (hok : h.collectIncrement host roots = .ok c)
    (hd : h.debugAssertions = true) : 16 ∣ h.idleSpaceStart := by
  obtain ⟨half, S⟩ := W.semiSpaces
  obtain ⟨-, -, hok⟩ := bind_eq_ok.mp hok
  obtain ⟨h', hflip, -⟩ := bind_eq_ok.mp hok
  exact S.dvd_of_flip hflip hd

/-- `sweep_extern_refs` frees the host data of the objects that were not copied. -/
theorem sweepExternRefs_eq {h2 : CopyingHeap} (Y : Ready h.swapped infos objs lo hi)
    (E : Evac h.swapped infos objs roots h2 froms done) :
    ∃ host' dead, h2.sweepExternRefs host = .ok ({ h2 with idleExternRefSetHead := none }, host',
        dead.filterMap host.slab.get?) ∧ dead.Nodup ∧
      (∀ id, id ∈ dead ↔ ∃ x ∈ objs, isExtern h.memory x = true ∧ x ∉ froms ∧
        hostId h.memory x = id) ∧
      host.deallocAll dead = .ok host' := by
  obtain ⟨chain, X⟩ := W.externs
  have hsub : chain ⊆ objs := fun x hx => ((X.mem_iff x).mp hx).1
  have hie : ∀ x ∈ chain, isExtern h.memory x = true := fun x hx => ((X.mem_iff x).mp hx).2
  have hpath : Path (externLink h2.memory) (h2.idleExternRefSetHead.map VMGcRef.raw) chain none :=
    by
    rw [E.frame.idleExternRefSetHead]
    refine X.path.congr fun x hx => ?_
    rw [externLink, E.readU32_rest Y (hsub hx) (by decide) (by decide)]
    rfl
  have hswept := E.sweptIds_eq Y hsub
  have hfuel : chain.length < h2.idleSpaceEnd + 1 := by
    have hle := (X.nodup.subperm hsub).length_le
    have hsum : objs.length ≤ totalSize h.memory objs := by
      refine (length_map (objSize h.memory)).symm.trans_le
        (length_le_sum_of_one_le _ fun n hn => ?_)
      obtain ⟨x, hx, rfl⟩ := mem_map.mp hn
      exact W.objects.size_pos hx
    have := W.objects.laidOut.end_eq
    have := W.bump_le
    have : h2.idleSpaceEnd = h.activeSpaceEnd := E.frame.idleSpaceEnd
    omega
  obtain ⟨dead, hdead⟩ : ∃ dead, dead = (chain.filter fun x => x ∉ froms).map (hostId h.memory) :=
    ⟨_, rfl⟩
  have hmem : ∀ id, id ∈ dead ↔ ∃ x ∈ objs, isExtern h.memory x = true ∧ x ∉ froms ∧
      hostId h.memory x = id := by
    intro id
    simp [hdead, X.mem_iff, and_assoc]
  have hnd : dead.Nodup := by
    rw [hdead]
    refine (X.nodup.filter _).map_on fun x hx y hy heq => ?_
    have hx := mem_of_mem_filter hx
    have hy := mem_of_mem_filter hy
    exact W.hostData.inj x (hsub hx) y (hsub hy) (hie x hx) (hie y hy) heq
  have hlive : ∀ id ∈ dead, (host.slab.get? id).isSome := by
    intro id hid
    obtain ⟨x, hx, hyes, -, rfl⟩ := (hmem id).mp hid
    exact W.hostData.live x hx hyes
  have hchain : ∀ x ∈ chain, 8 ∣ x ∧ x + 32 ≤ h2.memory.len ∧ h2.isInIdleSpace x = true := by
    intro x hx
    have := (Y.spaces.ok x (hsub hx)).le_size
    have := Y.obj_bounds (hsub hx)
    have := Y.idle_len
    have := E.frame.len
    exact ⟨Y.aligned_obj (hsub hx), by omega, E.isInIdleSpace Y (hsub hx)⟩
  have hids := hswept.trans hdead.symm
  obtain ⟨host', hsw, hdea⟩ := sweepFrom_eq (h := { h2 with idleExternRefSetHead := none })
    host [] hpath hchain (hids.symm ▸ hlive) (hids.symm ▸ hnd) hfuel
  rw [hids] at hsw hdea
  refine ⟨host', dead, ?_, hnd, hmem, hdea⟩
  rw [sweepExternRefs, hsw]
  rfl

/-- **A collection** of a well-formed heap. -/
theorem collect (hdebug : h.debugAssertions = true → 16 ∣ h.idleSpaceStart)
    (hrts : ∀ r ∈ roots, isHeapRef r.raw = true → r.raw ∈ objs) :
    ∃ c froms, h.collectIncrement host roots = .ok c ∧ Collected h host objs roots c froms := by
  obtain ⟨half, S⟩ := W.semiSpaces
  have Y := W.ready hdebug
  obtain ⟨h', hflip, hinit⟩ := W.flip_eq hdebug
  obtain ⟨h1, h2, roots', froms, done, hprocess, hworklist, hinfos, E, hall, hmv⟩ :=
    Ready.evacuate Y rfl rfl hrts
  obtain ⟨host', dead, hsw, hnd, hdead, hdea⟩ := W.sweepExternRefs_eq Y E
  have S2 := SemiSpaces.congr (h := h.swapped)
    ⟨⟨S.halves.symm.imp (fun ⟨a, b, c, d⟩ => ⟨c, d, a, b⟩) (fun ⟨a, b, c, d⟩ => ⟨c, d, a, b⟩),
      S.aligned, S.le_capacity⟩, S.granule⟩ E.frame
  have hbump2 : h2.bumpPtr ≤ h2.activeSpaceEnd := by
    rw [E.bump, E.frame.activeSpaceEnd]
    exact Y.spaces.fits E.memory.nodup E.memory.sub
  have S3 : SemiSpaces { h2 with idleExternRefSetHead := none } half :=
    ⟨⟨S2.halves, S2.aligned, S2.le_capacity⟩, S2.granule⟩
  obtain ⟨stop, idleStart, idleStop, half', hresize, S', hle, hfst⟩ :=
    S3.resizeSemiSpaces_eq hbump2 (S3.granule.imp_right .inl)
  have hst : h.activeSpaceStart ≤ h.bumpPtr := by
    obtain ⟨granule, -, hfst, -⟩ := S.firstObject_eq
    have := W.objects.laidOut.end_eq
    omega
  have hst2 : h2.activeSpaceStart ≤ h2.bumpPtr := by
    rw [E.bump, E.frame.activeSpaceStart]
    exact Y.start_le.trans (Nat.le_add_right _ _)
  have hbase : firstObject h2.activeSpaceStart stop = h.swapped.bumpPtr := by
    apply (hfst (S3.granule.imp_left fun hle => lt_of_lt_of_le (by decide) hle)).trans
    rw [E.frame.activeSpaceStart, E.frame.activeSpaceEnd]
    rfl
  refine ⟨⟨{ h2 with
    activeSpaceEnd := stop, idleSpaceStart := idleStart, idleSpaceEnd := idleStop
    idleExternRefSetHead := none }, host', roots', dead.filterMap host.slab.get?⟩, froms, ?_, ?_⟩
  · rw [collectIncrement, S.assertSpaces_eq hst W.bump_le, ok_bind, hflip, ok_bind,
      hinit, hprocess]
    simp only [hworklist, ok_bind, S2.assertSpaces_eq hst2 hbump2, hsw, hresize,
      S'.assertEqualSpaces_eq]
    rfl
  exact
    { nodup := E.memory.nodup
      sub := E.memory.sub
      reachable_iff := fun x => E.reachable_iff hmv hall
      roots := hmv
      body := E.memory.body
      moved := fun x t ht o ho => E.memory.moved x t ht o ho (hall x t ht o ho)
      wellFormed :=
        { semiSpaces := ⟨half', S'⟩
          objects := by
            rw [hbase, hinfos]
            exact E.fromSpace Y hall
          bump_le := hbump2.trans hle
          externs := ⟨_, E.externs Y⟩
          hostData := E.hostData Y W.hostData hdea fun id hid => (hdead id).mp hid }
      dropped := ⟨dead, hnd, hdead, hdea, rfl⟩
      start_eq := E.frame.activeSpaceStart
      first_eq := hbase
      debug_eq := E.frame.debugAssertions
      noGcCount_eq := E.frame.noGcCount
      infos_eq := hinfos
      len_eq := E.frame.len }

end CopyingHeap.WellFormed

/-! ## The object graph -/

/-- Where the copy of the object at `x` stands. -/
def copyOf (m : Memory) (base : ℕ) (froms : List ℕ) (x : ℕ) : ℕ :=
  ((place m base froms).find? fun p => p.1 = x).elim 0 Prod.snd

/-- The copy of an object is the one at its place. -/
theorem copyOf_eq {m : Memory} {base t : ℕ} (hnd : froms.Nodup)
    (h : (x, t) ∈ place m base froms) : copyOf m base froms x = t := by
  have hsome : ((place m base froms).find? fun p => p.1 = x).isSome :=
    find?_isSome.mpr ⟨_, h, decide_eq_true rfl⟩
  obtain ⟨⟨y, u⟩, hfind⟩ := Option.isSome_iff_exists.mp hsome
  have hy := find?_some hfind
  obtain rfl : y = x := of_decide_eq_true hy
  rw [copyOf, hfind]
  exact place_functional hnd (mem_of_find?_eq_some hfind) h

/-- Rename a raw reference; null references and `i31`s stay as they are. -/
def renameRef (f : ℕ → ℕ) (raw : ℕ) : ℕ := if isHeapRef raw then f raw else raw

/-- A moved reference is the renamed one. -/
theorem Moved.eq_renameRef {m : Memory} {base raw raw' : ℕ} (hnd : froms.Nodup)
    (h : Moved m base froms raw raw') : raw' = renameRef (copyOf m base froms) raw := by
  rw [renameRef]
  split
  · rename_i href
    exact (copyOf_eq hnd ((if_pos href).mp h)).symm
  · rename_i href
    exact (if_neg href).mp h

/-- **A collection preserves the object graph.**  It succeeds, and the objects of the new active
space are an image of the reachable objects under an injective map: the roots and the reference
fields are renamed by the map, and every other byte of an object is kept, but for the link of an
`externref`. -/
theorem collectIncrement_preserves_graph (W : h.WellFormed host objs)
    (hdebug : h.debugAssertions = true → 16 ∣ h.idleSpaceStart)
    (hroots : ∀ r ∈ roots, isHeapRef r.raw = true → r.raw ∈ objs) :
    ∃ (c : CopyingCollection) (objs' : List ℕ) (f : ℕ → ℕ),
      h.collectIncrement host roots = .ok c ∧
      c.heap.WellFormed c.host objs' ∧
      LaidOut c.heap.memory (firstObject h.idleSpaceStart h.idleSpaceEnd) objs' c.heap.bumpPtr ∧
      (∀ x y, Reachable h.traceInfos h.memory roots x → Reachable h.traceInfos h.memory roots y →
        f x = f y → x = y) ∧
      (∀ t, t ∈ objs' ↔ ∃ x, Reachable h.traceInfos h.memory roots x ∧ f x = t) ∧
      c.roots.map VMGcRef.raw = roots.map (fun r => renameRef f r.raw) ∧
      ∀ x, Reachable h.traceInfos h.memory roots x →
        (∀ o ∈ refOffsets h.traceInfos h.memory x,
          c.heap.memory.readU32 (f x + o) = renameRef f (h.memory.readU32 (x + o))) ∧
        ∀ k < objSize h.memory x, ¬InRef h.traceInfos h.memory x k → ¬InLink h.memory x k →
          c.heap.memory.byte (f x + k) = h.memory.byte (x + k) := by
  obtain ⟨c, froms, hcol, C⟩ := W.collect hdebug hroots
  have hcopy : ∀ x, Reachable h.traceInfos h.memory roots x →
      (x, copyOf h.memory h.swapped.bumpPtr froms x) ∈ place h.memory h.swapped.bumpPtr froms := by
    intro x hx
    obtain ⟨t, ht⟩ := exists_place
      ((C.reachable_iff x).mp hx)
    rwa [copyOf_eq C.nodup ht]
  refine ⟨c, copies h.memory h.swapped.bumpPtr froms, copyOf h.memory h.swapped.bumpPtr froms,
    hcol, C.wellFormed, ?_, fun x y hx hy heq => ?_, fun t => ?_, ?_, fun x hx => ⟨?_, ?_⟩⟩
  · have hlaid := C.wellFormed.objects.laidOut
    rwa [C.first_eq] at hlaid
  · have hpos := fun z hz => W.objects.size_pos (C.sub ((C.reachable_iff z).mp hz))
    exact place_injective ⟨hpos x hx, hpos y hy⟩ (hcopy x hx) (heq ▸ hcopy y hy)
  · rw [mem_copies]
    constructor
    · rintro ⟨x, ht⟩
      exact ⟨x, (C.reachable_iff x).mpr (mem_of_place ht), copyOf_eq C.nodup ht⟩
    · rintro ⟨x, hx, rfl⟩
      exact ⟨x, hcopy x hx⟩
  · have hmap : List.Forall₂ Eq (c.roots.map VMGcRef.raw) (roots.map fun r =>
        renameRef (copyOf h.memory h.swapped.bumpPtr froms) r.raw) := by
      rw [List.forall₂_map_left_iff, List.forall₂_map_right_iff]
      exact C.roots.flip.imp fun _ _ hr => Moved.eq_renameRef C.nodup hr
    rwa [List.forall₂_eq_eq_eq] at hmap
  · exact fun o ho => (C.moved x _ (hcopy x hx) o ho).eq_renameRef C.nodup
  · exact C.body x _ (hcopy x hx)

/-- A struct at 80 refers to itself and to the `externref` at 48, which is linked to the one at
16; the struct also has an `i31` and a scalar. -/
def linkedHeap : CopyingHeap where
  debugAssertions := true
  traceInfos := SortedMap.empty.insert 7 (.struct [16, 20, 28])
  noGcCount := 0
  memory := [(16, VMGcKind.externRef.asU32), (20, u32Max), (24, 32), (40, 5),
    (48, VMGcKind.externRef.asU32), (52, u32Max), (56, 32), (72, 6), (76, 16),
    (80, VMGcKind.structRef.asU32), (84, 7), (88, 32), (96, 80), (100, 48), (104, 99),
    (108, 3)].foldl (fun m p => m.writeU32 p.1 p.2) ⟨256, fun _ => 0⟩
  bumpPtr := 112
  activeSpaceEnd := 128
  activeSpaceStart := 0
  idleSpaceStart := 128
  idleSpaceEnd := 256
  worklistPtr := 0
  activeExternRefSetHead := some ⟨48, by decide⟩
  idleExternRefSetHead := none

def linkedHost : ExternRefHostDataTable := ⟨(SortedMap.empty.insert 5 50).insert 6 60⟩

theorem linkedHeap_wellFormed : linkedHeap.WellFormed linkedHost [16, 48, 80] where
  semiSpaces := ⟨128, ⟨.inl ⟨rfl, rfl, rfl, rfl⟩, by decide, by decide⟩, .inl (by decide)⟩
  objects := ⟨by decide +kernel, by decide +kernel, by decide +kernel⟩
  bump_le := by decide
  externs := by
    have hsub : ∀ x ∈ [48, 16], x ∈ [16, 48, 80] ∧ isExtern linkedHeap.memory x = true := by
      decide +kernel
    have hall : ∀ x ∈ [16, 48, 80], isExtern linkedHeap.memory x = true → x ∈ [48, 16] := by
      decide +kernel
    exact ⟨[48, 16], by decide +kernel, by decide, fun x => ⟨hsub x, fun h => hall x h.1 h.2⟩⟩
  hostData := ⟨by decide +kernel, by decide +kernel⟩

theorem collectIncrement_preserves_graph_linkedHeap : ∃ c objs',
    linkedHeap.collectIncrement linkedHost [⟨80, by decide⟩, ⟨3, by decide⟩, ⟨80, by decide⟩] =
      .ok c ∧ c.heap.WellFormed c.host objs' := by
  have hrts : ∀ r ∈ [⟨80, by decide⟩, ⟨3, by decide⟩, (⟨80, by decide⟩ : VMGcRef)],
      isHeapRef r.raw = true → r.raw ∈ [16, 48, 80] := by decide +kernel
  obtain ⟨c, objs', f, hcol, W, -⟩ := collectIncrement_preserves_graph linkedHeap_wellFormed
    (fun _ => by decide) hrts
  exact ⟨c, objs', hcol, W⟩

/-- The link of an `externref` is neither a reference field nor kept: the `externref` at 48 is
linked to the one at 16, and its copy is the last of the list. -/
theorem collectIncrement_changes_link : ∃ c,
    linkedHeap.WellFormed linkedHost [16, 48, 80] ∧
    linkedHeap.collectIncrement linkedHost [⟨48, by decide⟩] = .ok c ∧
    c.roots.map VMGcRef.raw = [144] ∧
    28 < objSize linkedHeap.memory 48 ∧ ¬InRef linkedHeap.traceInfos linkedHeap.memory 48 28 ∧
    c.heap.memory.byte (144 + 28) ≠ linkedHeap.memory.byte (48 + 28) := by
  have hrun : (linkedHeap.collectIncrement linkedHost [⟨48, by decide⟩]).toOption.any (fun c =>
      c.roots.map VMGcRef.raw = [144] ∧
        c.heap.memory.byte (144 + 28) ≠ linkedHeap.memory.byte (48 + 28)) = true := by
    decide +kernel
  have href : ¬InRef linkedHeap.traceInfos linkedHeap.memory 48 28 := by
    rw [InRef, refOffsets_of_isExtern (by decide +kernel)]
    simp
  cases hcol : linkedHeap.collectIncrement linkedHost [⟨48, by decide⟩] with
  | error e => simp [hcol, Except.toOption] at hrun
  | ok c =>
    rw [hcol] at hrun
    obtain ⟨hrts, hbyte⟩ := of_decide_eq_true hrun
    exact ⟨c, linkedHeap_wellFormed, rfl, hrts, by decide +kernel, href, hbyte⟩

end WasmDeps.Gc
