import WasmDeps.Gc.CopyingEvacuate

/-!
# Cheney's algorithm

The loops of a collection: forwarding the roots, and scanning the copies, which may add
further copies, until all of them are scanned.  Every object that is copied is reachable,
and once all copies are scanned, every reachable object has been copied.
-/

namespace WasmDeps.Gc

open WasmDeps.Lib CopyingHeap List Exec Memory VMGcRef

/-- The heaps agree on the semi-spaces and on what no copying changes. -/
structure CopyingHeap.SameSpaces (h' h : CopyingHeap) : Prop where
  debugAssertions : h'.debugAssertions = h.debugAssertions
  noGcCount : h'.noGcCount = h.noGcCount
  len : h'.memory.len = h.memory.len
  activeSpaceEnd : h'.activeSpaceEnd = h.activeSpaceEnd
  activeSpaceStart : h'.activeSpaceStart = h.activeSpaceStart
  idleSpaceStart : h'.idleSpaceStart = h.idleSpaceStart
  idleSpaceEnd : h'.idleSpaceEnd = h.idleSpaceEnd
  idleExternRefSetHead : h'.idleExternRefSetHead = h.idleExternRefSetHead

theorem CopyingHeap.SameSpaces.trans {h h' h'' : CopyingHeap} (a : h''.SameSpaces h')
    (b : h'.SameSpaces h) : h''.SameSpaces h :=
  ⟨a.1.trans b.1, a.2.trans b.2, a.3.trans b.3, a.4.trans b.4, a.5.trans b.5, a.6.trans b.6,
    a.7.trans b.7, a.8.trans b.8⟩

/-- **A heap whose semi-spaces have been swapped**: the idle space has the objects `objs` from
`lo` to `hi`, and there is as much room from the bump pointer on. -/
structure Ready (h₀ : CopyingHeap) (infos : TraceInfos) (objs : List ℕ) (lo hi : ℕ) : Prop where
  spaces : Spaces infos h₀.memory objs lo hi h₀.bumpPtr h₀.activeSpaceEnd
  start_le : h₀.activeSpaceStart ≤ h₀.bumpPtr
  idle_le : h₀.idleSpaceStart ≤ lo
  le_idle : hi ≤ h₀.idleSpaceEnd
  active_len : h₀.activeSpaceEnd ≤ h₀.memory.len
  idle_len : h₀.idleSpaceEnd ≤ h₀.memory.len
  aligned_lo : 8 ∣ lo
  aligned : 8 ∣ h₀.bumpPtr
  debug_aligned : h₀.debugAssertions = true → 16 ∣ h₀.bumpPtr
  pos : objs ≠ [] → 0 < h₀.bumpPtr

/-- **The heap when the objects `froms` have been copied** and the references at the addresses
`done` have been forwarded. -/
structure Evac (h₀ : CopyingHeap) (infos : TraceInfos) (objs : List ℕ) (roots : List VMGcRef)
    (h : CopyingHeap) (froms done : List ℕ) : Prop where
  frame : h.SameSpaces h₀
  bump : h.bumpPtr = h₀.bumpPtr + totalSize h₀.memory froms
  memory : Evacuated infos h₀.memory objs h₀.bumpPtr h.memory froms done
  links : Path (externLink h.memory) (h.activeExternRefSetHead.map VMGcRef.raw)
    (externCopies h₀.memory h₀.bumpPtr froms) none
  reached : ∀ x ∈ froms, Reachable infos h₀.memory roots x
  worklist_le : h.worklistPtr ≤ h.bumpPtr

variable {h₀ h h' : CopyingHeap} {infos : TraceInfos} {objs froms done : List ℕ}
  {roots : List VMGcRef} {r : VMGcRef} {lo hi x t o : ℕ}

namespace Ready

variable (Y : Ready h₀ infos objs lo hi)
include Y

theorem aligned_obj (hx : x ∈ objs) : 8 ∣ x := by
  refine place_dvd Y.aligned_lo (fun y hy => ?_) (Y.spaces.laidOut.mem_place hx)
  exact dvd_trans (by decide) (Y.spaces.ok y hy).size_dvd

theorem aligned_copy (hsub : froms ⊆ objs) (h : (x, t) ∈ place h₀.memory h₀.bumpPtr froms) :
    8 ∣ t := by
  refine place_dvd Y.aligned (fun y hy => ?_) h
  exact dvd_trans (by decide) (Y.spaces.ok y (hsub hy)).size_dvd

theorem obj_bounds (hx : x ∈ objs) : h₀.idleSpaceStart ≤ x ∧
    x + objSize h₀.memory x ≤ h₀.idleSpaceEnd := by
  have := Y.spaces.laidOut.bounds hx
  have := Y.idle_le
  have := Y.le_idle
  omega

end Ready

namespace Evac

variable (Y : Ready h₀ infos objs lo hi) (E : Evac h₀ infos objs roots h froms done)
include E

/-- The invariant depends on the memory, the bump pointer and the lists only. -/
theorem congr (hframe : h'.SameSpaces h) (hbump : h'.bumpPtr = h.bumpPtr)
    (hmem : h'.memory = h.memory) (hhead : h'.activeExternRefSetHead = h.activeExternRefSetHead)
    (hlist : h'.worklistPtr ≤ h.bumpPtr) : Evac h₀ infos objs roots h' froms done where
  frame := hframe.trans E.frame
  bump := hbump.trans E.bump
  memory := hmem ▸ E.memory
  links := by
    rw [hmem, hhead]
    exact E.links
  reached := E.reached
  worklist_le := hbump.symm ▸ hlist

include Y

/-- An object that was not copied is as it was at the start. -/
theorem fresh_readU32 (hx : x ∈ objs) (hnew : x ∉ froms) {k : ℕ} (hk : k + 4 ≤ 32) :
    h.memory.readU32 (x + k) = h₀.memory.readU32 (x + k) := by
  have := (Y.spaces.ok x hx).le_size
  exact readU32_add_congr fun i _ hi => E.memory.fresh x hx hnew i (by omega)

theorem isInIdleSpace (hx : x ∈ objs) : h.isInIdleSpace x = true := by
  have := Y.obj_bounds hx
  have := (Y.spaces.ok x hx).le_size
  simp only [CopyingHeap.isInIdleSpace, E.frame.idleSpaceStart, E.frame.idleSpaceEnd,
    Bool.and_eq_true, decide_eq_true_eq]
  omega

/-- Copies are within the active space. -/
theorem copy_bounds {fs : List ℕ} (hsub : fs ⊆ objs) (hnd : fs.Nodup)
    (ht : (x, t) ∈ place h₀.memory h₀.bumpPtr fs) :
    h.activeSpaceStart ≤ t ∧ t + objSize h₀.memory x ≤ h.activeSpaceEnd ∧
      t + objSize h₀.memory x ≤ h.memory.len := by
  have := place_bounds ht
  have := Y.spaces.fits hnd hsub
  have := Y.start_le
  have := Y.active_len
  rw [E.frame.activeSpaceStart, E.frame.activeSpaceEnd, E.frame.len]
  omega

theorem bump_aligned : 8 ∣ h.bumpPtr ∧ (h.debugAssertions = true → 16 ∣ h.bumpPtr) := by
  have hdvd := dvd_totalSize fun y hy => (Y.spaces.ok y (E.memory.sub hy)).size_dvd
  rw [E.bump]
  refine ⟨Nat.dvd_add Y.aligned (Nat.dvd_trans (by decide) hdvd), fun hd => ?_⟩
  exact Nat.dvd_add (Y.debug_aligned (E.frame.debugAssertions ▸ hd)) hdvd

/-- `copy` as one update of the heap. -/
theorem copy_eq (hr : r.raw ∈ objs) (hnew : r.raw ∉ froms) {kind : VMGcKind}
    (hk : h₀.memory.readU32 r.raw = kind.asU32) {toRef : VMGcRef} (hto : toRef.raw = h.bumpPtr) :
    h.copy r = linkExternRef { h with
        bumpPtr := h.bumpPtr + objSize h₀.memory r.raw
        memory := ((h.memory.copyWithin r.raw h.bumpPtr (objSize h₀.memory r.raw)).writeU32 r.raw
          (kindBits kind.asU32 ||| 1)).writeU32 (r.raw + 16) h.bumpPtr } toRef >>= fun h' =>
      h'.worklistInsert toRef >>= fun _ => pure (h', toRef) := by
  have ok := Y.spaces.ok r.raw hr
  have hle := ok.le_size
  obtain ⟨hnd, hsub, hmem⟩ := E.memory.next hr hnew
  have hapart := Y.spaces.disjoint hnd hsub hr hmem
  rw [← E.bump] at hmem hapart
  obtain ⟨hact, hend, hlen⟩ := E.copy_bounds Y hsub hnd hmem
  have hidle := Y.obj_bounds hr
  have hidleLen := Y.idle_len
  rw [← E.frame.len] at hidleLen
  have h8 := Y.aligned_obj hr
  have h2 : 2 ∣ r.raw := dvd_trans (by decide) h8
  obtain ⟨hbump8, hbump16⟩ := E.bump_aligned Y
  have hsize : objSize h.memory r.raw = objSize h₀.memory r.raw :=
    E.fresh_readU32 Y hr hnew (by decide)
  have hkind : h.memory.readU32 r.raw = kind.asU32 :=
    (E.fresh_readU32 (k := 0) Y hr hnew (by decide)).trans hk
  have hu32 := E.frame.activeSpaceEnd ▸ Y.spaces.limit_le
  have hnot : isCopied (h.memory.readU32 r.raw) = false := by
    rw [hkind, VMGcKind.isCopied_asU32]
  rw [copy, debugAssert_eq fun _ => by simp [isI31_eq_false h2], ok_bind,
    heapIndex_of_dvd h2, ok_bind, debugAssert_eq fun _ => E.isInIdleSpace Y hr,
    ok_bind, assertNotCopied_eq h8 (by omega) hnot, ok_bind,
    objectSize_eq h8 (by omega), ok_bind, hsize,
    allocateCopy_eq ok.size_dvd (by omega) hbump16 (dvd_trans (by decide) hbump8) hact hend
      hu32 hto, ok_bind]
  simp only [hto]
  rw [copyBytes, if_neg (by simp only; omega), pure_eq, ok_bind]
  -- The object itself is untouched by its copy.
  have hread : ∀ k, k + 4 ≤ 32 → (h.memory.copyWithin r.raw h.bumpPtr
      (objSize h₀.memory r.raw)).readU32 (r.raw + k) = h.memory.readU32 (r.raw + k) := by
    intro k hk
    refine readU32_congr fun i hi => byte_copyWithin_of_disjoint ?_
    omega
  have hkind' := (hread 0 (by decide)).trans hkind
  have hsize' : objSize (h.memory.copyWithin r.raw h.bumpPtr (objSize h₀.memory r.raw)) r.raw =
      objSize h₀.memory r.raw := (hread 8 (by decide)).trans hsize
  rw [setForwardingRef_eq h8 (by simp only [len_copyWithin]; omega) hkind'
    (by rw [hsize']; omega), ok_bind, hto]

/-- The last copy is on the worklist. -/
theorem worklistInsert_last {pre : List ℕ} {toRef : VMGcRef} (hfroms : froms = pre ++ [x])
    (hto : toRef.raw = h₀.bumpPtr + totalSize h₀.memory pre) (hlist : h.worklistPtr ≤ toRef.raw) :
    h.worklistInsert toRef = .ok () := by
  have hmem : (x, toRef.raw) ∈ place h₀.memory h₀.bumpPtr froms := by
    rw [hfroms]
    exact mem_place_concat.mpr (.inr ⟨rfl, hto⟩)
  have ok := Y.spaces.ok x (E.memory.sub (mem_of_place hmem))
  have hle := ok.le_size
  have hsize := ((E.memory.body x _ hmem).shape ok).objSize_eq
  obtain ⟨hact, hend, hlen⟩ := E.copy_bounds Y E.memory.sub E.memory.nodup hmem
  have hu32 := E.frame.activeSpaceEnd ▸ Y.spaces.limit_le
  have hbump : toRef.raw + objSize h₀.memory x = h.bumpPtr := by
    rw [E.bump, hfroms, totalSize_append, hto]
    simp [add_assoc]
  refine worklistInsert_eq (Y.aligned_copy E.memory.sub hmem) (by omega) ?_ ?_ (by omega) hlist
  · simp only [isInActiveSpace, Bool.and_eq_true, decide_eq_true_eq]
    omega
  · rw [hsize, hbump]

theorem rawRef_head_lt : rawRef h.activeExternRefSetHead < 2 ^ 32 := by
  cases hhead : h.activeExternRefSetHead with
  | none => decide
  | some e =>
    have hmem : e.raw ∈ externCopies h₀.memory h₀.bumpPtr froms := by
      have hpath := E.links
      rw [hhead] at hpath
      exact hpath.mem_of_some
    obtain ⟨y, hy, -⟩ := mem_externCopies.mp hmem
    have := place_bounds hy
    have := Y.spaces.fits E.memory.nodup E.memory.sub
    have hlim := Y.spaces.limit_le
    rw [u32Max] at hlim
    show e.raw < 2 ^ 32
    omega

/-- `copy` returns, and the invariant holds with one copy more. -/
theorem copy (hr : r.raw ∈ objs) (hnew : r.raw ∉ froms)
    (hrch : Reachable infos h₀.memory roots r.raw) :
    ∃ h' toRef, h.copy r = .ok (h', toRef) ∧
      (r.raw, toRef.raw) ∈ place h₀.memory h₀.bumpPtr (froms ++ [r.raw]) ∧
      Evac h₀ infos objs roots h' (froms ++ [r.raw]) done ∧
      h'.traceInfos = h.traceInfos ∧ h'.worklistPtr = h.worklistPtr := by
  have ok := Y.spaces.ok r.raw hr
  have hle := ok.le_size
  obtain ⟨kind, hk, hie, -⟩ := ok.kind
  obtain ⟨hnd, hsub, hmem⟩ := E.memory.next hr hnew
  have hapart := Y.spaces.disjoint hnd hsub hr hmem
  have h8 := Y.aligned_copy hsub hmem
  rw [← E.bump] at hmem hapart h8
  obtain ⟨hact, hend, hlen⟩ := E.copy_bounds Y hsub hnd hmem
  have hu32 := E.frame.activeSpaceEnd ▸ Y.spaces.limit_le
  have hpos : h.bumpPtr ≠ 0 := by
    have := Y.pos (ne_nil_of_mem hr)
    have := E.bump
    omega
  obtain ⟨toRef, hto⟩ : ∃ toRef : VMGcRef, toRef.raw = h.bumpPtr := ⟨⟨h.bumpPtr, hpos⟩, rfl⟩
  obtain ⟨m', hm'⟩ : ∃ m', m' = ((h.memory.copyWithin r.raw h.bumpPtr
    (objSize h₀.memory r.raw)).writeU32 r.raw (kindBits kind.asU32 ||| 1)).writeU32 (r.raw + 16)
      h.bumpPtr := ⟨_, rfl⟩
  have C : CopiedTo h.memory m' r.raw h.bumpPtr (objSize h₀.memory r.raw) := by
    rw [hm']
    obtain ⟨hcpd, hlt⟩ := kind.isCopied_setCopied
    exact copiedTo hapart (by omega) hcpd hlt (by rw [u32Max] at hu32; omega)
  have M := E.memory.copy Y.spaces hr hnew (E.bump ▸ C)
  have hlen' : m'.len = h.memory.len := by rw [hm']; rfl
  have hkind := ((M.body _ _ hmem).shape ok).kind_eq.trans hk
  have hbump : h.bumpPtr + objSize h₀.memory r.raw =
      h₀.bumpPtr + totalSize h₀.memory (froms ++ [r.raw]) := by
    rw [E.bump, totalSize_append]
    simp [add_assoc]
  have hreached : ∀ x ∈ froms ++ [r.raw], Reachable infos h₀.memory roots x := by
    intro x hx
    rcases mem_append.mp hx with hx | hx
    · exact E.reached x hx
    · rwa [mem_singleton.mp hx]
  -- The links of the other copies are untouched.
  have holdLinks : ∀ y u, (y, u) ∈ place h₀.memory h₀.bumpPtr froms → isExtern h₀.memory y = true →
      m'.readU32 (u + 28) = h.memory.readU32 (u + 28) := by
    intro y u hu hy
    have := (Y.spaces.ok y (E.memory.sub (mem_of_place hu))).le_size
    have := place_bounds hu
    have := Y.spaces.disjoint E.memory.nodup E.memory.sub hr hu
    have := E.bump
    refine readU32_congr fun i hi => ?_
    exact C.other (u + 28 + i) (by omega) (by omega) (by omega)
  suffices hlink : ∃ h', linkExternRef { h with
      bumpPtr := h.bumpPtr + objSize h₀.memory r.raw, memory := m' } toRef = .ok h' ∧
      h'.SameSpaces h ∧ h'.bumpPtr = h.bumpPtr + objSize h₀.memory r.raw ∧
      h'.worklistPtr = h.worklistPtr ∧ h'.traceInfos = h.traceInfos ∧
      Evacuated infos h₀.memory objs h₀.bumpPtr h'.memory (froms ++ [r.raw]) done ∧
      Path (externLink h'.memory) (h'.activeExternRefSetHead.map raw)
        (externCopies h₀.memory h₀.bumpPtr (froms ++ [r.raw])) none by
    obtain ⟨h', hlink, hframe, hb, hw, hinfos, M', hlinks⟩ := hlink
    have E' : Evac h₀ infos objs roots h' (froms ++ [r.raw]) done :=
      ⟨hframe.trans E.frame, hb.trans hbump, M', hlinks, hreached, by
        rw [hb, hw]
        exact E.worklist_le.trans (Nat.le_add_right _ _)⟩
    have hinsert := E'.worklistInsert_last Y rfl (hto.trans E.bump)
      (by rw [hw, hto]; exact E.worklist_le)
    refine ⟨h', toRef, ?_, hto ▸ hmem, E', hinfos, hw⟩
    rw [E.copy_eq Y hr hnew hk hto, ← hm', hlink, ok_bind, hinsert]
    rfl
  by_cases hx : kind = .externRef
  · have hyes := hie.mp hx
    have hraw := E.rawRef_head_lt Y
    refine ⟨_, (linkExternRef_eq (hto ▸ h8) (by rw [hlen', hto]; omega) (hto ▸ hkind)
      hx).trans (pushExternRef_eq (hto ▸ h8) (by rw [hlen', hto]; omega)),
      ⟨rfl, rfl, hlen', rfl, rfl, rfl, rfl, rfl⟩, rfl, rfl, rfl,
      M.link Y.spaces (hto ▸ hmem) hyes _, ?_⟩
    rw [externCopies_append hyes]
    have hself : externLink (m'.writeU32 (toRef.raw + 28) (rawRef h.activeExternRefSetHead))
        (h₀.bumpPtr + totalSize h₀.memory froms) = h.activeExternRefSetHead.map raw := by
      rw [← E.bump, ← hto, externLink, readU32_writeU32_self hraw, fromRawU32_rawRef]
    refine ⟨congrArg some (hto.trans E.bump), ?_⟩
    rw [hself]
    refine links_congr E.links fun y u hu hy => ?_
    have := (Y.spaces.ok y (E.memory.sub (mem_of_place hu))).le_size
    have := place_bounds hu
    have := E.bump
    exact (readU32_writeU32_of (by omega)).trans (holdLinks y u hu hy)
  have hnot : isExtern h₀.memory r.raw = false := by
    rw [← Bool.not_eq_true, ← hie]
    exact hx
  refine ⟨_, linkExternRef_eq_of_ne (hto ▸ h8) (by rw [hlen', hto]; omega)
    (hto ▸ hkind) hx, ⟨rfl, rfl, hlen', rfl, rfl, rfl, rfl, rfl⟩, rfl, rfl, rfl, M, ?_⟩
  rw [externCopies_append_of_not hnot]
  exact links_congr E.links holdLinks

theorem objSize_eq (hx : x ∈ objs) : objSize h.memory x = objSize h₀.memory x := by
  have := (Y.spaces.ok x hx).le_size
  by_cases hmem : x ∈ froms
  · exact readU32_add_congr fun i hi hi' => E.memory.rest x hmem i (by omega) (by omega) (by omega)
  · exact E.fresh_readU32 Y hx hmem (by decide)

/-- **Forwarding a reference**: the object is copied unless it has been. -/
theorem forward (hr : r.raw ∈ objs) (hrch : Reachable infos h₀.memory roots r.raw) :
    ∃ h' toRef more, h.forward r = .ok (h', toRef) ∧
      (r.raw, toRef.raw) ∈ place h₀.memory h₀.bumpPtr (froms ++ more) ∧
      Evac h₀ infos objs roots h' (froms ++ more) done ∧
      h'.traceInfos = h.traceInfos ∧ h'.worklistPtr = h.worklistPtr := by
  have ok := Y.spaces.ok r.raw hr
  have hle := ok.le_size
  have h8 := Y.aligned_obj hr
  have h2 : 2 ∣ r.raw := dvd_trans (by decide) h8
  have hbounds := Y.obj_bounds hr
  have hlen := Y.idle_len
  rw [← E.frame.len] at hlen
  rw [CopyingHeap.forward, debugAssert_eq fun _ => by simp [isI31_eq_false h2],
    ok_bind, assertInIdleSpace_eq h2 (E.isInIdleSpace Y hr), ok_bind, forwardingRef,
    index_eq h8 (by omega), ok_bind, assertForwardable_eq (by rw [E.objSize_eq Y hr]; omega),
    ok_bind]
  by_cases hmem : r.raw ∈ froms
  · obtain ⟨t, ht⟩ := exists_place hmem
    obtain ⟨hcpd, hfwd⟩ := E.memory.record r.raw t ht
    have hpos : t ≠ 0 := by
      have := Y.pos (ne_nil_of_mem hr)
      have := place_bounds ht
      omega
    have hraw : fromRawU32 t = some ⟨t, hpos⟩ := fromRawU32_eq_some.mpr rfl
    refine ⟨h, ⟨t, hpos⟩, [], ?_, by simpa using ht, by simpa using E, rfl, rfl⟩
    rw [hcpd, if_pos rfl, hfwd, hraw]
    rfl
  obtain ⟨kind, hk, -⟩ := ok.kind
  have hkind : h.memory.readU32 r.raw = kind.asU32 :=
    (E.fresh_readU32 (k := 0) Y hr hmem (by decide)).trans hk
  have hnot : isCopied (h.memory.readU32 r.raw) = false := by
    rw [hkind, kind.isCopied_asU32]
  obtain ⟨h', toRef, hcopy, hplc, E', hsame⟩ := E.copy Y hr hmem hrch
  refine ⟨h', toRef, [r.raw], ?_, hplc, E', hsame⟩
  rw [hnot, if_neg Bool.false_ne_true]
  exact hcopy

section

variable (ht : (x, t) ∈ place h₀.memory h₀.bumpPtr froms)
include ht

/-- A field of a copy is rewritten. -/
theorem rewrite (ho : o ∈ refOffsets infos h₀.memory x) {m' : Memory} (hlen : m'.len = h.memory.len)
    (hbs : ∀ i, i < t + o ∨ t + o + 4 ≤ i → m'.byte i = h.memory.byte i)
    (hmv : Moved h₀.memory h₀.bumpPtr froms (h₀.memory.readU32 (x + o)) (m'.readU32 (t + o))) :
    Evac h₀ infos objs roots { h with memory := m' } froms ((t + o) :: done) := by
  obtain ⟨f, hbump, M, hlinks, hreached, hlist⟩ := E
  refine ⟨⟨f.1, f.2, hlen.trans f.3, f.4, f.5, f.6, f.7, f.8⟩, hbump,
    M.rewrite Y.spaces ht ho hbs hmv, links_congr hlinks fun y u hu hy => ?_, hreached, hlist⟩
  have hend := ((Y.spaces.ok x (M.sub (mem_of_place ht))).offsets o ho).2
  have := (Y.spaces.ok y (M.sub (mem_of_place hu))).le_size
  refine readU32_congr fun k hk => hbs _ ?_
  rcases place_disjoint ht hu with ⟨rfl, rfl⟩ | hle
  · -- An `externref` has no references.
    simp [refOffsets_of_isExtern hy] at ho
  · omega

/-- `scan_field` returns, and the invariant holds with one field more done. -/
theorem scanField (ho : o ∈ refOffsets infos h₀.memory x) (hnot : t + o ∉ done) :
    ∃ h' more, h.scanField t o = .ok h' ∧
      Evac h₀ infos objs roots h' (froms ++ more) ((t + o) :: done) ∧
      h'.worklistPtr = h.worklistPtr := by
  have hx := E.memory.sub (mem_of_place ht)
  obtain ⟨-, hend⟩ := (Y.spaces.ok x hx).offsets o ho
  obtain ⟨-, hact, hlen⟩ := E.copy_bounds Y E.memory.sub E.memory.nodup ht
  have hlim := E.frame.activeSpaceEnd ▸ Y.spaces.limit_le
  have hread := E.memory.todo x t ht o ho hnot
  cases href : isHeapRef (h₀.memory.readU32 (x + o)) with
  | false =>
    have hmv : Moved h₀.memory h₀.bumpPtr froms (h₀.memory.readU32 (x + o))
        (h.memory.readU32 (t + o)) := by
      rw [Moved, href, if_neg Bool.false_ne_true, hread]
    refine ⟨h, [], scanField_eq_self (by omega) (by omega) (hread ▸ href), ?_, rfl⟩
    rw [append_nil]
    exact E.rewrite Y ht ho rfl (fun _ _ => rfl) hmv
  | true =>
    have hchild := Y.spaces.closed x hx o ho href
    have hrch := Reachable.field (E.reached x (mem_of_place ht)) ho href
    obtain ⟨hne, heven⟩ := of_decide_eq_true href
    obtain ⟨r, hr⟩ : ∃ r : VMGcRef, r.raw = h₀.memory.readU32 (x + o) := ⟨⟨_, hne⟩, rfl⟩
    rw [← hr] at hchild hrch heven
    have h2 := Nat.dvd_of_mod_eq_zero heven
    obtain ⟨h', toRef, more, hfwd, hplc, E', -, hlist⟩ := E.forward Y hchild hrch
    have hcopy := Y.aligned_copy E'.memory.sub hplc
    obtain ⟨hst, hstop, -⟩ := E'.copy_bounds Y E'.memory.sub E'.memory.nodup hplc
    have hsize := (Y.spaces.ok _ hchild).le_size
    have hlim' := E'.frame.activeSpaceEnd ▸ Y.spaces.limit_le
    have hin : h'.isInActiveSpace toRef.raw = true := by
      simp only [isInActiveSpace, Bool.and_eq_true, decide_eq_true_eq]
      omega
    have ht' : (x, t) ∈ place h₀.memory h₀.bumpPtr (froms ++ more) := by
      rw [place_append]
      exact mem_append_left _ ht
    have hmv : Moved h₀.memory h₀.bumpPtr (froms ++ more) (h₀.memory.readU32 (x + o))
        ((h'.memory.writeU32 (t + o) toRef.raw).readU32 (t + o)) := by
      rw [u32Max] at hlim'
      rw [Moved, if_pos href, readU32_writeU32_self (by omega), ← hr]
      exact hplc
    refine ⟨{ h' with memory := h'.memory.writeU32 (t + o) toRef.raw }, more, ?_,
      E'.rewrite Y ht' ho rfl (fun i hi => byte_writeU32_of hi) hmv, hlist⟩
    rw [scanField_eq_scanChild (by omega) (by omega) (hr.trans hread.symm) h2, scanChild,
      assertInIdleSpace_eq h2 (E.isInIdleSpace Y hchild), ok_bind, hfwd, ok_bind]
    simp only []
    rw [assertInActiveSpace_eq (dvd_trans (by decide) hcopy) hin]
    rfl

/-- The same for all fields of an object. -/
theorem scanFields {os : List ℕ}
    (hos : os ⊆ refOffsets infos h₀.memory x) (hnd : os.Nodup) (hnot : ∀ o ∈ os, t + o ∉ done) :
    ∃ h' more done', os.foldlM (fun h o => h.scanField t o) h = .ok h' ∧
      Evac h₀ infos objs roots h' (froms ++ more) done' ∧
      (∀ a, a ∈ done' ↔ a ∈ done ∨ ∃ o ∈ os, a = t + o) ∧
      h'.worklistPtr = h.worklistPtr := by
  induction os generalizing h froms done with
  | nil => exact ⟨h, [], done, rfl, by rwa [append_nil], by simp, rfl⟩
  | cons o os ih =>
    obtain ⟨ho, hos⟩ := cons_subset.mp hos
    obtain ⟨hnew, hnd⟩ := nodup_cons.mp hnd
    obtain ⟨h1, more1, hfield, E1, hlist1⟩ := E.scanField Y ht ho (hnot o (.head _))
    have ht1 : (x, t) ∈ place h₀.memory h₀.bumpPtr (froms ++ more1) := by
      rw [place_append]
      exact mem_append_left _ ht
    have hnot1 : ∀ o' ∈ os, t + o' ∉ (t + o) :: done := by
      intro o' ho' hmem
      rcases mem_cons.mp hmem with heq | hmem
      · exact hnew (add_left_cancel heq ▸ ho')
      · exact hnot o' (.tail o ho') hmem
    obtain ⟨h2, more2, done2, hfld, E2, hdone, hlist2⟩ := ih E1 ht1 hos hnd hnot1
    refine ⟨h2, more1 ++ more2, done2, ?_, by rwa [← append_assoc], fun a => ?_,
      hlist2.trans hlist1⟩
    · rw [foldlM_cons, hfield]
      exact hfld
    · have hcons : (∃ o' ∈ o :: os, a = t + o') ↔ a = t + o ∨ ∃ o' ∈ os, a = t + o' := by simp
      rw [hdone, mem_cons, hcons, or_assoc, or_left_comm]

end

/-- **Scanning a copy** forwards all of its references. -/
theorem scan (ht : (x, r.raw) ∈ place h₀.memory h₀.bumpPtr froms)
    (hnot : ∀ o ∈ refOffsets infos h₀.memory x, r.raw + o ∉ done) :
    ∃ h' more done', h.scan r infos = .ok h' ∧
      Evac h₀ infos objs roots h' (froms ++ more) done' ∧
      (∀ a, a ∈ done' ↔ a ∈ done ∨ ∃ o ∈ refOffsets infos h₀.memory x, a = r.raw + o) ∧
      h'.worklistPtr = h.worklistPtr := by
  have ok := Y.spaces.ok x (E.memory.sub (mem_of_place ht))
  have hsize := ok.le_size
  have shape := (E.memory.body x _ ht).shape ok
  have h8 := Y.aligned_copy E.memory.sub ht
  have h2 : 2 ∣ r.raw := dvd_trans (by decide) h8
  obtain ⟨hst, hend, hlen⟩ := E.copy_bounds Y E.memory.sub E.memory.nodup ht
  have hlim := E.frame.activeSpaceEnd ▸ Y.spaces.limit_le
  have hnd : (refOffsets infos h₀.memory x).Nodup := ok.disjoint.imp fun hle => by omega
  rw [CopyingHeap.scan, debugAssert_eq fun _ => by simp [isI31_eq_false h2], ok_bind,
    heapIndex_of_dvd h2, ok_bind, debugAssert_eq fun _ => isInActiveSpace_iff.mpr (by omega),
    ok_bind, ty_eq h8 (by omega), ok_bind, shape.isExtern_eq, shape.objTy_eq]
  have hfld := E.scanFields Y ht (List.Subset.refl _) hnd hnot
  cases hie : isExtern h₀.memory x with
  | true =>
    rw [refOffsets_of_isExtern hie] at hfld ⊢
    exact hfld
  | false =>
    obtain ⟨info, hinfo⟩ := Option.isSome_iff_exists.mp (ok.info hie)
    simp only [Bool.false_eq_true, if_false, TraceInfos.traceInfo, hinfo, unwrap_some, ok_bind]
    rw [refOffsets, if_neg (of_decide_eq_false hie), hinfo] at hfld ⊢
    cases info with
    | struct offsets => exact hfld
    | array gcRefElems =>
      cases gcRefElems with
      | false => exact hfld
      | true =>
        obtain ⟨kind, hkind, -, harray⟩ := ok.kind
        obtain rfl := harray hinfo hie
        have hbd : ∀ i ∈ List.range (h₀.memory.readU32 (x + 16)),
            i * 4 + copyingGcRefArrayElemsOffset ≤ u32Max := by
          intro i hi
          have ho : i * 4 + copyingGcRefArrayElemsOffset ∈ refOffsets infos h₀.memory x := by
            rw [refOffsets, if_neg (of_decide_eq_false hie), hinfo]
            exact mem_map_of_mem hi
          have := (ok.offsets _ ho).2
          omega
        rw [arrayLen_eq h8 (by omega) (shape.kind_eq.trans hkind), ok_bind,
          shape.length hie hinfo, foldlM_scanElem hbd]
        exact hfld

/-- `worklist_pop` gives the first copy that was not scanned. -/
theorem worklistPop {scanned grey : List ℕ} (hfroms : froms = scanned ++ x :: grey)
    (hlist : h.worklistPtr = h₀.bumpPtr + totalSize h₀.memory scanned) :
    ∃ r, (x, r.raw) ∈ place h₀.memory h₀.bumpPtr froms ∧ r.raw = h.worklistPtr ∧
      h.worklistPop = .ok ({ h with worklistPtr := r.raw + objSize h₀.memory x }, some r) ∧
      Evac h₀ infos objs roots { h with worklistPtr := r.raw + objSize h₀.memory x } froms done :=
        by
  have hmem : (x, h.worklistPtr) ∈ place h₀.memory h₀.bumpPtr froms := by
    rw [hfroms, place_append, hlist]
    exact mem_append_right _ (.head _)
  have hx := E.memory.sub (mem_of_place hmem)
  have hpos : h.worklistPtr ≠ 0 := by
    have := Y.pos (ne_nil_of_mem hx)
    omega
  obtain ⟨r, hr⟩ : ∃ r : VMGcRef, r.raw = h.worklistPtr := ⟨⟨_, hpos⟩, rfl⟩
  rw [← hr] at hmem
  have ok := Y.spaces.ok x hx
  have hle := ok.le_size
  have hsize := ((E.memory.body x _ hmem).shape ok).objSize_eq
  obtain ⟨hst, -, hlen⟩ := E.copy_bounds Y E.memory.sub E.memory.nodup hmem
  have hbump := E.bump ▸ (place_bounds hmem).2
  have hroom := Y.spaces.fits E.memory.nodup E.memory.sub
  rw [← E.bump, ← E.frame.activeSpaceEnd] at hroom
  refine ⟨r, hmem, hr, ?_, E.congr ⟨rfl, rfl, rfl, rfl, rfl, rfl, rfl, rfl⟩ rfl rfl rfl hbump⟩
  rw [worklistPop_eq hr (Y.aligned_copy E.memory.sub hmem) hst (by omega) (by omega) hroom
    (E.frame.activeSpaceEnd ▸ Y.spaces.limit_le) (by omega), hsize]

/-- **The loop over the worklist**: the copies of `scanned` have been scanned, the others are
the worklist. -/
theorem worklistLoop {scanned grey : List ℕ} {fuel : ℕ} (hfroms : froms = scanned ++ grey)
    (hlist : h.worklistPtr = h₀.bumpPtr + totalSize h₀.memory scanned)
    (hdone : ∀ a, a ∈ done ↔ ∃ x t, (x, t) ∈ place h₀.memory h₀.bumpPtr scanned ∧
      ∃ o ∈ refOffsets infos h₀.memory x, a = t + o)
    (hfuel : h.activeSpaceEnd < fuel + h.worklistPtr) :
    ∃ h' more done', worklistLoop infos fuel h = .ok h' ∧
      Evac h₀ infos objs roots h' (froms ++ more) done' ∧
      ∀ x t, (x, t) ∈ place h₀.memory h₀.bumpPtr (froms ++ more) →
        ∀ o ∈ refOffsets infos h₀.memory x, t + o ∈ done' := by
  have hroom := Y.spaces.fits E.memory.nodup E.memory.sub
  rw [← E.bump, ← E.frame.activeSpaceEnd] at hroom
  induction fuel generalizing h froms done scanned grey with
  | zero =>
    have := E.worklist_le
    omega
  | succ fuel ih =>
    rw [worklistLoop]
    cases grey with
    | nil =>
      rw [append_nil] at hfroms
      subst hfroms
      have hst : h.activeSpaceStart ≤ h.bumpPtr := by
        have := Y.start_le
        rw [E.frame.activeSpaceStart, E.bump]
        omega
      rw [worklistPop_eq_none (hlist.trans E.bump.symm) hst hroom]
      refine ⟨h, [], done, rfl, by rwa [append_nil], fun x t ht o ho => ?_⟩
      rw [append_nil] at ht
      exact (hdone _).mpr ⟨x, t, ht, o, ho, rfl⟩
    | cons x grey =>
      obtain ⟨r, ht, hr, hpop, E1⟩ := E.worklistPop Y hfroms hlist
      have hx := Y.spaces.ok x (E.memory.sub (mem_of_place ht))
      have hsize := hx.le_size
      obtain ⟨hst, hend, -⟩ := E.copy_bounds Y E.memory.sub E.memory.nodup ht
      -- The copies before it end where it begins.
      have hnot : ∀ o ∈ refOffsets infos h₀.memory x, r.raw + o ∉ done := by
        intro o ho hmem
        obtain ⟨y, u, hu, o', ho', heq⟩ := (hdone _).mp hmem
        have hy := hfroms ▸ mem_append_left _ (mem_of_place hu)
        have := ((Y.spaces.ok y (E.memory.sub hy)).offsets o' ho').2
        have := (place_bounds hu).2
        omega
      obtain ⟨h2, more, done2, hscan, E2, hdone2, hlist2⟩ := E1.scan Y ht hnot
      have hnext : h2.worklistPtr = h₀.bumpPtr + totalSize h₀.memory (scanned ++ [x]) := by
        rw [hlist2, totalSize_append, hr, hlist]
        simp [add_assoc]
      have hdone' : ∀ a, a ∈ done2 ↔ ∃ y u, (y, u) ∈ place h₀.memory h₀.bumpPtr (scanned ++ [x]) ∧
            ∃ o ∈ refOffsets infos h₀.memory y, a = u + o := by
        intro a
        rw [hdone2, hdone, hr, hlist]
        simp [mem_place_concat, or_and_right, exists_or, and_assoc]
      have hroom2 := Y.spaces.fits E2.memory.nodup E2.memory.sub
      rw [← E2.bump, ← E2.frame.activeSpaceEnd] at hroom2
      have hsame := E2.frame.activeSpaceEnd.trans E.frame.activeSpaceEnd.symm
      have hspl : froms ++ more = (scanned ++ [x]) ++ (grey ++ more) := by simp [hfroms]
      obtain ⟨h3, more3, done3, hloop, E3, hall⟩ :=
        ih E2 hspl hnext hdone' (by rw [hlist2]; simp only; omega) hroom2
      have hin : isInActiveSpace
          { h with worklistPtr := r.raw + objSize h₀.memory x } r.raw = true :=
        isInActiveSpace_iff.mpr ⟨hst, show r.raw < h.activeSpaceEnd by omega⟩
      refine ⟨h3, more ++ more3, done3, ?_, by rwa [← append_assoc], ?_⟩
      · rw [hpop, ok_bind]
        simp only []
        rw [assertInActiveSpace_eq
          (dvd_trans (by decide) (Y.aligned_copy E.memory.sub ht)) hin, ok_bind, hscan]
        exact hloop
      · rwa [← append_assoc]

/-- The roots are forwarded, and what they refer to is copied. -/
theorem processRoots {rs : List VMGcRef} (hsub : rs ⊆ roots)
    (hclo : ∀ r ∈ rs, isHeapRef r.raw = true → r.raw ∈ objs) :
    ∃ h' more rs', h.processRoots rs = .ok (h', rs') ∧
      Evac h₀ infos objs roots h' (froms ++ more) done ∧
      List.Forall₂ (fun r r' => Moved h₀.memory h₀.bumpPtr (froms ++ more) r.raw r'.raw) rs rs' ∧
      h'.traceInfos = h.traceInfos ∧ h'.worklistPtr = h.worklistPtr := by
  induction rs generalizing h froms with
  | nil => exact ⟨h, [], [], rfl, by rwa [append_nil], .nil, rfl, rfl⟩
  | cons r rs ih =>
    obtain ⟨hr, hsub⟩ := cons_subset.mp hsub
    have hroot : ∃ h1 more1 r', h.processRoot r = .ok (h1, r') ∧
        Evac h₀ infos objs roots h1 (froms ++ more1) done ∧
        Moved h₀.memory h₀.bumpPtr (froms ++ more1) r.raw r'.raw ∧
        h1.traceInfos = h.traceInfos ∧ h1.worklistPtr = h.worklistPtr := by
      have hne := r.raw_ne_zero
      rw [processRoot]
      cases hi31 : r.isI31 with
      | true =>
        have hnot : isHeapRef r.raw = false := by
          rw [isI31, i31RefDiscriminant, decide_eq_true_eq] at hi31
          rw [isHeapRef, decide_eq_false_iff_not]
          omega
        refine ⟨h, [], r, rfl, by rwa [append_nil], ?_, rfl, rfl⟩
        rw [Moved, hnot, if_neg Bool.false_ne_true]
      | false =>
        have href : isHeapRef r.raw = true := by
          rw [isI31, i31RefDiscriminant, decide_eq_false_iff_not] at hi31
          rw [isHeapRef, decide_eq_true_eq]
          omega
        have hmem := hclo r (.head _) href
        obtain ⟨h1, r', more, hfwd, hplc, E1, hsame⟩ := E.forward Y hmem (.root hr href)
        refine ⟨h1, more, r', ?_, E1, (if_pos href).mpr hplc, hsame⟩
        rw [if_neg Bool.false_ne_true, heapIndex_of_dvd
            (dvd_trans (by decide) (Y.aligned_obj hmem)), ok_bind,
          debugAssert_eq fun _ => E.isInIdleSpace Y hmem]
        exact hfwd
    obtain ⟨h1, more1, r', hstep, E1, hmv, hinfos1, hlist1⟩ := hroot
    obtain ⟨h2, more2, rs', hrest, E2, hall, hinfos2, hlist2⟩ :=
      ih E1 hsub fun r hr => hclo r (.tail _ hr)
    rw [append_assoc] at E2 hall
    refine ⟨h2, more1 ++ more2, r' :: rs', ?_, E2, .cons ?_ hall, hinfos2.trans hinfos1,
      hlist2.trans hlist1⟩
    · rw [processRoots, hstep, ok_bind]
      simp only [hrest]
      rfl
    · rw [← append_assoc]
      exact hmv.append

omit Y in
/-- **Exactly the reachable objects have been copied** once all references of the copies have
been forwarded. -/
theorem reachable_iff {roots' : List VMGcRef}
    (hrts : List.Forall₂ (fun r r' => Moved h₀.memory h₀.bumpPtr froms r.raw r'.raw) roots roots')
    (hall : ∀ x t, (x, t) ∈ place h₀.memory h₀.bumpPtr froms →
      ∀ o ∈ refOffsets infos h₀.memory x, t + o ∈ done) :
    Reachable infos h₀.memory roots x ↔ x ∈ froms := by
  refine ⟨fun hx => ?_, E.reached x⟩
  induction hx with
  | root hr href =>
    obtain ⟨i, hi, rfl⟩ := mem_iff_getElem.mp hr
    have hi' := hrts.length_eq ▸ hi
    have hmv := hrts.get hi hi'
    exact mem_of_place ((if_pos href).mp hmv)
  | field hx ho href ih =>
    obtain ⟨t, ht⟩ := exists_place ih
    have hmv := E.memory.moved _ t ht _ ho (hall _ t ht _ ho)
    exact mem_of_place ((if_pos href).mp hmv)

end Evac

/-- The invariant holds at the start. -/
theorem Evac.start (hlist : h₀.worklistPtr = h₀.bumpPtr)
    (hhead : h₀.activeExternRefSetHead = none) :
    Evac h₀ h₀.traceInfos objs roots h₀ [] [] where
  frame := ⟨rfl, rfl, rfl, rfl, rfl, rfl, rfl, rfl⟩
  bump := rfl
  memory := by
    refine ⟨nodup_nil, nil_subset _, ?_, fun _ _ _ _ _ => rfl, ?_, ?_, ?_, ?_, ?_⟩ <;> simp [place]
  links := by
    rw [hhead]
    rfl
  reached := by simp
  worklist_le := le_of_eq hlist

/-- **Copying what is reachable**: forward the roots, then scan until the worklist is empty. -/
theorem Ready.evacuate (Y : Ready h₀ h₀.traceInfos objs lo hi)
    (hlist : h₀.worklistPtr = h₀.bumpPtr) (hhead : h₀.activeExternRefSetHead = none)
    (hrts : ∀ r ∈ roots, isHeapRef r.raw = true → r.raw ∈ objs) :
    ∃ h1 h2 roots' froms done, h₀.processRoots roots = .ok (h1, roots') ∧
      h1.processWorklist = .ok h2 ∧ h2.traceInfos = h₀.traceInfos ∧
      Evac h₀ h₀.traceInfos objs roots h2 froms done ∧
      (∀ x t, (x, t) ∈ place h₀.memory h₀.bumpPtr froms →
        ∀ o ∈ refOffsets h₀.traceInfos h₀.memory x, t + o ∈ done) ∧
      List.Forall₂ (fun r r' => Moved h₀.memory h₀.bumpPtr froms r.raw r'.raw) roots roots' := by
  obtain ⟨h1, more, roots', hprocess, E1, hmv, hinfos, hlist1⟩ :=
    (Evac.start hlist hhead).processRoots Y (List.Subset.refl roots) hrts
  have E1' : Evac h₀ h₀.traceInfos objs roots { h1 with traceInfos := .empty } more [] :=
    E1.congr ⟨rfl, rfl, rfl, rfl, rfl, rfl, rfl, rfl⟩ rfl rfl rfl E1.worklist_le
  have hspl : more = [] ++ more := rfl
  have hfuel : h1.activeSpaceEnd < h1.activeSpaceEnd + 1 + h1.worklistPtr := by omega
  obtain ⟨h2, more2, done, hloop, E2, hall⟩ :=
    E1'.worklistLoop Y hspl (hlist1.trans hlist) (by simp [place]) hfuel
  refine ⟨h1, { h2 with traceInfos := h1.traceInfos }, roots', more ++ more2, done, hprocess, ?_,
    hinfos, E2.congr ⟨rfl, rfl, rfl, rfl, rfl, rfl, rfl, rfl⟩ rfl rfl rfl E2.worklist_le, hall,
    hmv.imp fun _ _ h => h.append⟩
  rw [processWorklist, hinfos, hloop]
  rfl

end WasmDeps.Gc
