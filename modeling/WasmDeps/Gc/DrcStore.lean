import WasmDeps.Gc.DrcCascade
import WasmDeps.Lib.LinkedList
import Mathlib.Tactic.Abel

/-!
# Mutating a reference-counted heap

What the calls of the runtime do to the counting equation: cloning and overwriting
references, writing fields and allocating objects.  A write increments the count of the
new value before it drops the old one, so between the two the heap satisfies the equation
of the graph *after* the write, with the old value pending.
-/

namespace WasmDeps.Gc

open WasmDeps.Lib FreeList DrcObject List Exec Function SortedMap Option DrcHeap VMGcRef

/-- The heap index in a slot, unless the slot is null or holds an `i31`. -/
def heapRefs : Option VMGcRef → Multiset ℕ
  | some r => if r.isI31 then 0 else {r.raw}
  | none => 0

@[simp] theorem heapRefs_none : heapRefs none = 0 := rfl

theorem heapRefs_some {r : VMGcRef} (h : r.isI31 = false) : heapRefs (some r) = {r.raw} := by
  simp [heapRefs, h]

theorem heapRefs_of_isI31 {r : VMGcRef} (h : r.isI31 = true) : heapRefs (some r) = 0 := by
  simp [heapRefs, h]

/-! ## Writing headers -/

/-- The objects agree on everything but the count, the mark and the roots list. -/
structure DrcObject.SameBody (o' o : DrcObject) : Prop where
  kind : o'.kind = o.kind
  ty : o'.ty = o.ty
  objectSize : o'.objectSize = o.objectSize
  data : o'.data = o.data

variable {o o' : DrcObject} {h h' : DrcHeap} {host host' : ExternRefHostDataTable} {r : VMGcRef}
  {ext ext' : ℕ → ℕ} {offset : ℕ}

namespace DrcObject.SameBody

variable (B : o'.SameBody o)
include B

theorem wordAt_eq : o'.wordAt = o.wordAt := by
  funext offset
  rw [wordAt, wordAt, B.data]

theorem refOffsets_eq (h : DrcHeap) : h.refOffsets o' = h.refOffsets o := by
  rw [DrcHeap.refOffsets, DrcHeap.refOffsets, B.ty, B.wordAt_eq]

theorem children_eq (h : DrcHeap) : h.children o' = h.children o := by
  have hrefAt : o'.refAt = o.refAt := by
    funext offset
    rw [refAt, refAt, B.wordAt_eq]
  rw [children, children, B.refOffsets_eq, refsAt, refsAt, hrefAt]

theorem fits_iff (info : Option TraceInfo) : o'.Fits info ↔ o.Fits info := by
  match info with
  | some (.struct offsets) => simp [Fits, B.wordAt_eq]
  | some (.array true) => simp [Fits, B.wordAt_eq, B.kind, B.data]
  | some (.array false) => exact .rfl
  | none => exact .rfl

/-- Equal bodies are equally well typed. -/
theorem wellTyped (W : h.WellTyped o) : h.WellTyped o' where
  size_le := B.objectSize ▸ W.size_le
  data_le := by
    rw [B.data, B.objectSize]
    exact W.data_le
  externref hty := by
    rw [B.kind, B.wordAt_eq]
    exact W.externref (B.ty ▸ hty)
  fits ty hty := (B.fits_iff _).mpr (W.fits ty (B.ty ▸ hty))

end DrcObject.SameBody

namespace DrcHeap

variable {G : RefGraph ℕ} {x : ℕ} {xs : List ℕ}

section

variable (hr : h.objects.get? r.raw = some o)
include hr

theorem keys_put (o' : DrcObject) : (h.put r o').objects.keys = h.objects.keys :=
  keys_insert_of_mem o' (mem_keys_of_get? hr)

theorem fields_put (B : o'.SameBody o) : (h.put r o').fields = h.fields := by
  funext x
  have hch := B.children_eq h
  by_cases hx : x = r.raw
  · subst hx
    simp only [fields, hr, put, get?_insert, if_true, map_some, getD_some]
    exact hch
  · rw [fields, put, get?_insert, if_neg hx]
    rfl

theorem hostDataAt_put (B : o'.SameBody o) : (h.put r o').hostDataAt = h.hostDataAt := by
  funext x
  by_cases hx : x = r.raw
  · subst hx
    simp only [hostDataAt, hr, put, get?_insert, if_true, Option.filter, B.ty]
    split
    · simp [B.wordAt_eq]
    · rfl
  · simp [hostDataAt, put, hx]

end

/-- An object is replaced by one of its size and host data. -/
theorem Sound.replace (S : h.Sound host) (hr : h.objects.get? r.raw = some o) (W : h.WellTyped o')
    (hsize : o'.objectSize = o.objectSize) (hhost : (h.put r o').hostDataAt = h.hostDataAt) :
    (h.put r o').Sound host where
  typed x p hp := by
    rw [put, get?_insert] at hp
    split at hp
    · obtain rfl := some.inj hp
      exact ⟨W.1, W.2, W.3, W.4⟩
    · have W := S.typed x p hp
      exact ⟨W.1, W.2, W.3, W.4⟩
  host_live x id hid := S.host_live x id (hhost ▸ hid)
  host_inj x y id hx hy := S.host_inj x y id (hhost ▸ hx) (hhost ▸ hy)
  stored := by
    refine S.stored.congr rfl rfl fun x => ?_
    by_cases hx : x = r.raw
    · subst hx
      simp [put, hr, hsize]
    · simp [put, hx]
  allocs := S.allocs

theorem Sound.put (S : h.Sound host) (hr : h.objects.get? r.raw = some o) (B : o'.SameBody o) :
    (h.put r o').Sound host :=
  S.replace hr (B.wellTyped (S.typed _ _ hr)) B.objectSize (hostDataAt_put hr B)

/-- A changed count, paid for by the references outside of the heap. -/
theorem Counted.put (C : h.Counted ext) (hr : h.objects.get? r.raw = some o) (B : o'.SameBody o)
    (hpos : 0 < o'.refCount) (hne : ∀ x, x ≠ r.raw → ext' x = ext x)
    (hcnt : o'.refCount + ext r.raw = o.refCount + ext' r.raw) : (h.put r o').Counted ext' := by
  have hkeys := keys_put hr o'
  have hrefs : ∀ x, (h.put r o').graph.refsTo ∅ x = h.graph.refsTo ∅ x := by
    intro x
    simp [RefGraph.refsTo, graph, hkeys, fields_put hr B]
  have hmem := mem_keys_of_get? hr
  have ho : h.refCount r.raw = o.refCount := by simp [refCount, hr]
  refine ⟨?_, fun x hx => ?_, fun x hx => ?_, fun x hx => ?_⟩
  · rw [hkeys, fields_put hr B]
    exact C.closed
  · rw [hkeys]
    by_cases hxr : x = r.raw
    · exact hxr ▸ hmem
    · exact C.held_mem x (hne x hxr ▸ hx)
  · rw [Cascade.refCount_put]
    by_cases hxr : x = r.raw
    · subst hxr
      rwa [update_self]
    · rw [update_of_ne hxr]
      exact C.count_pos x (hkeys ▸ hx)
  have heq := C.count_eq x (hkeys ▸ hx)
  rw [Cascade.refCount_put, hrefs]
  by_cases hxr : x = r.raw
  · subst hxr
    rw [update_self]
    omega
  · rw [update_of_ne hxr, hne x hxr]
    exact heq

/-- Some objects are gone, and the others only changed their counts. -/
structure Shrinks (h' h : DrcHeap) : Prop where
  frame : h'.SameFrame h
  get?_eq : ∀ x o', h'.objects.get? x = some o' →
    ∃ o, h.objects.get? x = some o ∧ o' = { o with refCount := o'.refCount }

namespace Shrinks

variable {h'' : DrcHeap}

protected theorem rfl : h.Shrinks h := ⟨.rfl, fun _ o ho => ⟨o, ho, rfl⟩⟩

theorem trans (a : h''.Shrinks h') (b : h'.Shrinks h) : h''.Shrinks h where
  frame := a.frame.trans b.frame
  get?_eq x o'' ho'' := by
    obtain ⟨o', ho', heq'⟩ := a.get?_eq x o'' ho''
    obtain ⟨o, ho, heq⟩ := b.get?_eq x o' ho'
    refine ⟨o, ho, ?_⟩
    rw [heq', heq]

end Shrinks

theorem shrinks_put (hr : h.objects.get? r.raw = some o) (n : ℕ) :
    (h.put r { o with refCount := n }).Shrinks h where
  frame := ⟨rfl, rfl, rfl, rfl, rfl⟩
  get?_eq x p hp := by
    rw [put, get?_insert] at hp
    split at hp
    · rename_i hx
      obtain rfl := some.inj hp
      exact ⟨o, hx ▸ hr, rfl⟩
    · exact ⟨p, hp, rfl⟩

theorem shrinks_of_dropped {freed : List ℕ} (D : Dropped h host G ext h' host' freed) :
    h'.Shrinks h where
  frame := D.frame
  get?_eq x o' ho' := by
    rw [D.get?_eq] at ho'
    split at ho'
    · cases ho'
    · obtain ⟨o, ho, rfl⟩ := map_eq_some_iff.mp ho'
      exact ⟨o, ho, rfl⟩

/-! ## Overwriting references -/

theorem incRef_eq (S : h.Sound host) (hr : h.objects.get? r.raw = some o) (hpos : 0 < o.refCount)
    (hfits : o.refCount + 1 ≤ usizeMax) :
    h.incRef r = .ok (h.put r { o with refCount := o.refCount + 1 }) := by
  have heven := S.stored.two_dvd hr
  simp [incRef, isI31_eq_false heven, index_eq heven hr, DrcObject.incRef, hpos,
    addUsize_of_le hfits]

variable {source destination : Option VMGcRef}

/-- The source is counted once more. -/
theorem incSource_spec (S : h.Sound host) (hmem : ∀ x ∈ heapRefs source, x ∈ h.objects.keys)
    (hpos : ∀ x ∈ h.objects.keys, 0 < h.refCount x)
    (hfits : ∀ x ∈ heapRefs source, h.refCount x + 1 ≤ usizeMax) :
    ∃ h', source.elim (pure h) h.incRef = .ok h' ∧ h'.Sound host ∧ h'.Shrinks h ∧
      h'.objects.keys = h.objects.keys ∧ h'.fields = h.fields ∧
      ∀ x, h'.refCount x = h.refCount x + (heapRefs source).count x := by
  match source with
  | none => exact ⟨h, rfl, S, .rfl, rfl, rfl, by simp⟩
  | some r =>
    cases hi31 : r.isI31 with
    | true =>
      refine ⟨h, ?_, S, .rfl, rfl, rfl, by simp [heapRefs_of_isI31 hi31]⟩
      simp [incRef, hi31]
    | false =>
      rw [heapRefs_some hi31] at hmem hfits
      have hr := hmem r.raw (by simp)
      have hp := hpos _ hr
      have hf := hfits r.raw (by simp)
      obtain ⟨o, ho⟩ := mem_keys.mp hr
      have hcnt : h.refCount r.raw = o.refCount := by simp [refCount, ho]
      have B : SameBody { o with refCount := o.refCount + 1 } o := ⟨rfl, rfl, rfl, rfl⟩
      refine ⟨_, incRef_eq S ho (by omega) (by omega), S.put ho B, shrinks_put ho _,
        keys_put ho _, fields_put ho B, fun x => ?_⟩
      rw [Cascade.refCount_put, heapRefs_some hi31]
      by_cases hx : x = r.raw
      · subst hx
        simp [hcnt]
      · simp [hx]

theorem dropped_nil (R : Represents h host G ext) (B : G.Balanced ext ∅ 0 h.refCount) :
    Dropped h host G ext h host [] where
  nodup := nodup_nil
  mem_iff x := by
    rw [← B.mem_dead_iff]
    simp
  get?_eq x := by
    cases ho : h.objects.get? x with
    | none => rfl
    | some o =>
      have hx := R.nodes ▸ mem_keys_of_get? ho
      have hcnt := B.count_eq x hx
      rw [refCount, ho] at hcnt
      rw [Multiset.count_zero, add_zero] at hcnt
      simp [← hcnt]
  freeList_eq := rfl
  host_eq := rfl
  frame := .rfl
  allocs := R.sound.allocs
  stored := R.sound.stored

/-- The destination is given up. -/
theorem dropDestination_spec (R : Represents h host G ext)
    (B : G.Balanced ext ∅ (heapRefs destination) h.refCount) :
    ∃ h' host' freed,
      destination.elim (pure (h, host)) (h.decRefAndMaybeDealloc host) = .ok (h', host') ∧
      Dropped h host G ext h' host' freed := by
  match destination with
  | none => exact ⟨h, host, [], rfl, dropped_nil R B⟩
  | some r =>
    cases hi31 : r.isI31 with
    | true =>
      rw [heapRefs_of_isI31 hi31] at B
      refine ⟨h, host, [], ?_, dropped_nil R B⟩
      simp [decRefAndMaybeDealloc, hi31]
    | false =>
      rw [heapRefs_some hi31] at B
      exact decRefAndMaybeDealloc_spec R B

/-- **Overwriting a slot.**  `G` and `ext` are the references once the slot is written: the
new value is in them, and the old one is not. -/
theorem writeGcRef_spec (S : h.Sound host)
    (hns : G.nodes = h.objects.keys) (hout : ∀ x ∈ G.nodes, ext x = 0 → G.out x = h.fields x)
    (hclo : ∀ x ∈ G.nodes, ∀ y ∈ G.out x, y ∈ G.nodes) (hext : ∀ x, 0 < ext x → x ∈ G.nodes)
    (hsrc : ∀ x ∈ heapRefs source, x ∈ h.objects.keys)
    (hdst : ∀ x ∈ heapRefs destination, x ∈ h.objects.keys)
    (hpos : ∀ x ∈ h.objects.keys, 0 < h.refCount x)
    (hfits : ∀ x ∈ heapRefs source, h.refCount x + 1 ≤ usizeMax)
    (hcnt : ∀ x ∈ h.objects.keys, h.refCount x + (heapRefs source).count x =
      G.refsTo ∅ x + ext x + (heapRefs destination).count x) :
    ∃ h' host', h.writeGcRef host destination source = .ok (h', host', source) ∧
      h'.Sound host' ∧ h'.Shrinks h ∧ (∀ x, 0 < ext x → x ∈ h'.objects.keys) ∧
      (∀ x ∈ h'.objects.keys, h'.fields x = h.fields x) ∧
      ∀ h'' : DrcHeap, h''.objects.keys = h'.objects.keys → h''.refCount = h'.refCount →
        (∀ x ∈ h'.objects.keys, h''.fields x = G.out x) → h''.Counted ext := by
  obtain ⟨h1, hok1, S1, hshr1, hkeys1, hfld1, hcnt1⟩ := incSource_spec S hsrc hpos hfits
  have R : Represents h1 host G ext := ⟨S1, hkeys1 ▸ hns, hfld1 ▸ hout⟩
  have B : G.Balanced ext ∅ (heapRefs destination) h1.refCount := by
    refine .start hclo (hns ▸ hdst) (fun x hx => ?_) fun x hx => ?_
    · have := hpos x (hns ▸ hx)
      rw [hcnt1]
      omega
    · rw [hcnt1]
      exact hcnt x (hns ▸ hx)
  obtain ⟨h', host', freed, hok, D⟩ := dropDestination_spec R B
  refine ⟨h', host', ?_, D.sound R, (shrinks_of_dropped D).trans hshr1, fun x hx => ?_,
    fun x hx => ?_, fun h'' hkeys hc hf => D.counted R hclo hext hkeys hc hf⟩
  · rw [writeGcRef, hok1, ok_bind, hok]
    rfl
  · rw [D.mem_keys_iff, ← R.nodes, D.mem_iff]
    refine ⟨hext x hx, fun hrel => ?_⟩
    obtain ⟨-, h0, -⟩ := hrel
    omega
  · rw [D.fields_eq (D.mem_keys_iff.mp hx).2, hfld1]

/-- The write barrier keeps the counts. -/
theorem Counted.writeGcRef (C : h.Counted ext) (S : h.Sound host)
    (hsource : ∀ x ∈ heapRefs source, x ∈ h.objects.keys)
    (hfits : ∀ x ∈ heapRefs source, h.refCount x + 1 ≤ usizeMax)
    (hext : ∀ x, ext' x + (heapRefs destination).count x = ext x + (heapRefs source).count x)
    (hheld : ∀ x, (heapRefs destination).count x ≤ ext x) :
    ∃ h' host', h.writeGcRef host destination source = .ok (h', host', source) ∧
      h'.Sound host' ∧ h'.Shrinks h ∧ h'.Counted ext' := by
  have hheld' : ∀ x, 0 < ext' x → x ∈ h.graph.nodes := by
    intro x hx
    by_cases hsrc : x ∈ heapRefs source
    · exact hsource x hsrc
    · have := hext x
      rw [Multiset.count_eq_zero.mpr hsrc] at this
      exact C.held_mem x (by omega)
  have hdst : ∀ x ∈ heapRefs destination, x ∈ h.objects.keys := by
    intro x hx
    have := hheld x
    have := Multiset.count_pos.mpr hx
    exact C.held_mem x (by omega)
  have hcnt : ∀ x ∈ h.objects.keys, h.refCount x + (heapRefs source).count x =
      h.graph.refsTo ∅ x + ext' x + (heapRefs destination).count x := by
    intro x hx
    have := C.count_eq x hx
    have := hext x
    omega
  obtain ⟨h', host', hok, S', hshr, -, hfld, hcounted⟩ := writeGcRef_spec S rfl
    (fun _ _ _ => rfl) C.closed hheld' hsource hdst C.count_pos hfits hcnt
  exact ⟨h', host', hok, S', hshr, hcounted h' rfl rfl hfld⟩

end DrcHeap

/-! ## Writing fields -/

namespace DrcObject

/-- The object with one word written. -/
def setWord (o : DrcObject) (offset value : ℕ) : DrcObject :=
  { o with data := o.data.set ((offset - drcHeaderSize) / 4) value }

theorem wordAt_isSome : (o.wordAt offset).isSome ↔ drcHeaderSize ≤ offset ∧ 4 ∣ offset ∧
    (offset - drcHeaderSize) / 4 < o.data.length := by
  rw [wordAt]
  split
  · rename_i hoff
    simp [hoff.1, hoff.2]
  rename_i hoff
  constructor
  · simp
  · rintro ⟨h1, h2, -⟩
    exact absurd ⟨h1, h2⟩ hoff

theorem wordAt_setWord_self (hoff : (o.wordAt offset).isSome) (value : ℕ) :
    (o.setWord offset value).wordAt offset = some value := by
  obtain ⟨h1, h2, h3⟩ := wordAt_isSome.mp hoff
  rw [wordAt, if_pos ⟨h1, h2⟩]
  simp [setWord, h3]

theorem wordAt_setWord_ne (hoff : (o.wordAt offset).isSome) {j : ℕ} (hj : j ≠ offset) (value : ℕ) :
    (o.setWord offset value).wordAt j = o.wordAt j := by
  obtain ⟨h1, h2, -⟩ := wordAt_isSome.mp hoff
  rw [wordAt, wordAt]
  by_cases hval : drcHeaderSize ≤ j ∧ 4 ∣ j
  · have hne : (offset - drcHeaderSize) / 4 ≠ (j - drcHeaderSize) / 4 := by
      omega
    rw [if_pos hval, if_pos hval, setWord, getElem?_set_ne hne]
  · rw [if_neg hval, if_neg hval]

theorem coe_refAt {raw : ℕ} (hraw : o.wordAt offset = some raw) :
    (↑((o.refAt offset).toList.map VMGcRef.raw) : Multiset ℕ) =
      heapRefs (VMGcRef.fromRawU32 raw) := by
  rw [refAt, hraw, bind_some]
  cases fromRawU32 raw with
  | none => rfl
  | some r => cases hi31 : r.isI31 <;> simp [hi31, heapRefs]

theorem writeU32_eq (hoff : (o.wordAt offset).isSome) (value : ℕ) :
    o.writeU32 offset value = .ok (o.setWord offset value) := by
  obtain ⟨raw, hraw⟩ := isSome_iff_exists.mp hoff
  simp [writeU32, readU32, hraw, setWord]

end DrcObject

theorem fromRawU32_elim (val : Option VMGcRef) : fromRawU32 (val.elim 0 raw) = val := by
  cases val with
  | none => rfl
  | some r => exact fromRawU32_eq_some.mpr rfl

namespace DrcHeap

variable (W : h.WellTyped o)
include W

theorem WellTyped.refOffsets_spec :
    (h.refOffsets o).Nodup ∧ ∀ i ∈ h.refOffsets o, (o.wordAt i).isSome := by
  cases hty : o.ty with
  | none => simp [refOffsets, hty]
  | some ty =>
    have hfits := W.fits ty hty
    rcases hinfo : h.traceInfos.get? ty with _ | (_ | _) | offsets
    · simp [hinfo, Fits] at hfits
    · simp [refOffsets, hty, hinfo]
    · rw [hinfo] at hfits
      obtain ⟨len, hlen, -⟩ := (any_eq_true _ _).mp hfits.2
      have ha : h.IsRefArray o len := ⟨by simp [hty, hinfo], hlen⟩
      rw [ha.refOffsets]
      refine ⟨(nodup_range').map fun i j hij => ?_, fun i hi => ?_⟩
      · omega
      · obtain ⟨j, hj, rfl⟩ := mem_map.mp hi
        have := mem_range'_1.mp hj
        have := (W.array ha).2
        exact wordAt_elemOffset (by omega)
    · rw [hinfo] at hfits
      have hrefs : h.refOffsets o = offsets := by simp [refOffsets, hty, hinfo]
      rw [hrefs]
      exact hfits

section

variable (hoff : offset ∈ h.refOffsets o)
include hoff

theorem WellTyped.refOffsets_setWord
    (value : ℕ) : h.refOffsets (o.setWord offset value) = h.refOffsets o := by
  have hsome := W.refOffsets_spec.2 offset hoff
  rw [refOffsets] at hoff
  rw [refOffsets, refOffsets, show (o.setWord offset value).ty = o.ty from rfl]
  rcases hinfo : o.ty.bind h.traceInfos.get? with _ | (_ | _) | offsets
  · rfl
  · rfl
  · have hne : drcArrayLengthOffset ≠ offset := by
      rw [hinfo] at hoff
      obtain ⟨i, -, rfl⟩ := mem_map.mp hoff
      rw [drcGcRefArrayElemsOffset]
      omega
    rw [wordAt_setWord_ne hsome hne]
  · rfl

/-- Writing a word keeps an object well typed. -/
theorem WellTyped.setWord (value : ℕ) : h.WellTyped (o.setWord offset value) := by
  have hsome := W.refOffsets_spec.2 offset hoff
  have hlen : (o.setWord offset value).data.length = o.data.length := by simp [DrcObject.setWord]
  have hword : ∀ j, ((o.setWord offset value).wordAt j).isSome ↔ (o.wordAt j).isSome := by
    intro j
    rw [wordAt_isSome, wordAt_isSome, hlen]
  refine ⟨W.size_le, by rw [hlen]; exact W.data_le, fun hty => ?_, fun ty hty => ?_⟩
  · rw [hword]
    exact W.externref hty
  have hfits := W.fits ty hty
  match hinfo : h.traceInfos.get? ty with
  | none => simp [hinfo, Fits] at hfits
  | some (.array false) => trivial
  | some (.struct offsets) =>
    rw [hinfo] at hfits
    exact ⟨hfits.1, fun i hi => (hword i).mpr (hfits.2 i hi)⟩
  | some (.array true) =>
    rw [hinfo] at hfits
    have hne : drcArrayLengthOffset ≠ offset := by
      have hbind : o.ty.bind h.traceInfos.get? = some (.array true) := by
        rw [show o.ty = some ty from hty, bind_some, hinfo]
      rw [refOffsets, hbind] at hoff
      obtain ⟨i, -, rfl⟩ := mem_map.mp hoff
      rw [drcGcRefArrayElemsOffset]
      omega
    refine ⟨hfits.1, ?_⟩
    rw [wordAt_setWord_ne hsome hne, hlen]
    exact hfits.2

/-- **Writing a field** replaces one reference of the object. -/
theorem WellTyped.children_setWord {raw : ℕ}
    (hraw : o.wordAt offset = some raw) (val : Option VMGcRef) :
    h.children (o.setWord offset (val.elim 0 VMGcRef.raw)) + heapRefs (VMGcRef.fromRawU32 raw) =
      h.children o + heapRefs val := by
  obtain ⟨hnd, hall⟩ := W.refOffsets_spec
  have hsome := hall offset hoff
  obtain ⟨pre, post, hspl⟩ := append_of_mem hoff
  rw [hspl, nodup_middle, nodup_cons, mem_append] at hnd
  have hrefs : ∀ is, offset ∉ is →
      (o.setWord offset (val.elim 0 VMGcRef.raw)).refsAt is = o.refsAt is := by
    intro is his
    refine filterMap_congr fun i hi => ?_
    have hne : i ≠ offset := fun heq => his (heq ▸ hi)
    rw [refAt, refAt, wordAt_setWord_ne hsome hne]
  have hexpand : ∀ p : DrcObject, (↑((p.refsAt (pre ++ offset :: post)).map VMGcRef.raw) :
      Multiset ℕ) = ↑((p.refsAt pre).map VMGcRef.raw) +
        (↑((p.refAt offset).toList.map VMGcRef.raw) + ↑((p.refsAt post).map VMGcRef.raw)) := by
    intro p
    have hcons : p.refsAt (offset :: post) = (p.refAt offset).toList ++ p.refsAt post := by
      cases hp : p.refAt offset <;> simp [refsAt, hp]
    rw [refsAt_append, hcons, map_append, map_append, ← Multiset.coe_add, ← Multiset.coe_add]
  have hnew := coe_refAt (wordAt_setWord_self hsome (val.elim 0 VMGcRef.raw))
  rw [fromRawU32_elim] at hnew
  rw [children, children, W.refOffsets_setWord hoff, hspl, hexpand, hexpand, hnew, coe_refAt hraw,
    hrefs pre fun hm => hnd.1 (.inl hm), hrefs post fun hm => hnd.1 (.inr hm)]
  abel

end

end DrcHeap

/-- Some objects are gone; the others keep their marks and their places on the roots list. -/
structure DrcHeap.KeepsRoots (h' h : DrcHeap) : Prop where
  frame : h'.SameFrame h
  get?_eq : ∀ x o', h'.objects.get? x = some o' → ∃ o, h.objects.get? x = some o ∧
    o'.marked = o.marked ∧
    o'.inOverApproximatedStackRoots = o.inOverApproximatedStackRoots ∧
    o'.nextOverApproximatedStackRoot = o.nextOverApproximatedStackRoot

theorem DrcHeap.Shrinks.keepsRoots (H : h'.Shrinks h) : h'.KeepsRoots h where
  frame := H.frame
  get?_eq x o' ho' := by
    obtain ⟨o, ho, heq⟩ := H.get?_eq x o' ho'
    refine ⟨o, ho, ?_⟩
    rw [heq]
    exact ⟨rfl, rfl, rfl⟩

namespace DrcHeap

variable (ho : h.objects.get? r.raw = some o)
include ho

theorem hostDataAt_put_setWord (hoff : offset ∈ h.refOffsets o) (value : ℕ) :
    (h.put r (o.setWord offset value)).hostDataAt = h.hostDataAt := by
  have hty : o.ty ≠ none := fun hnone => by simp [DrcHeap.refOffsets, hnone] at hoff
  obtain ⟨ty, hty⟩ := ne_none_iff_exists'.mp hty
  have hty' : (o.setWord offset value).ty = some ty := hty
  funext x
  by_cases hx : x = r.raw
  · subst hx
    simp [hostDataAt, put, ho, hty, hty', Option.filter]
  · simp [hostDataAt, put, hx]

theorem refCount_put_setWord (value : ℕ) :
    (h.put r (o.setWord offset value)).refCount = h.refCount := by
  have hsame : (o.setWord offset value).refCount = h.refCount r.raw := by
    simp [refCount, ho, setWord]
  rw [Cascade.refCount_put, hsame, update_eq_self]

end DrcHeap

namespace GcStore

variable {s : GcStore}

/-- `i31`s need no barrier, and the heap ignores them anyway. -/
theorem writeGcRef_eq (s : GcStore) (destination source : Option VMGcRef) :
    s.writeGcRef destination source =
      s.heap.writeGcRef s.host destination source >>= fun r => pure (⟨r.1, r.2.1⟩, r.2.2) := by
  rw [writeGcRef]
  by_cases hneeds : needsWriteBarrier destination source = true
  · rw [if_pos hneeds]
  rw [if_neg hneeds]
  rw [needsWriteBarrier, Bool.or_eq_true, not_or] at hneeds
  have hi31 : ∀ {r : Option VMGcRef}, ¬r.any (fun r => !r.isI31) = true →
      ∀ t ∈ r, t.isI31 = true := by
    intro r hr t ht
    obtain rfl := mem_def.mp ht
    simpa using hr
  have hsrc : source.elim (pure s.heap) s.heap.incRef = .ok s.heap := by
    match source, hi31 hneeds.2 with
    | none, _ => rfl
    | some r, h => simp [DrcHeap.incRef, h r rfl]
  have hdest : destination.elim (pure (s.heap, s.host))
      (s.heap.decRefAndMaybeDealloc s.host) = .ok (s.heap, s.host) := by
    match destination, hi31 hneeds.1 with
    | none, _ => rfl
    | some r, h => simp [decRefAndMaybeDealloc, h r rfl]
  rw [DrcHeap.writeGcRef, hsrc, ok_bind, hdest]
  rfl

/-- **Writing a field** of an object that is held from outside. -/
theorem writeVal_spec (S : s.heap.Sound s.host) (C : s.heap.Counted ext) {object : VMGcRef}
    {val : Option VMGcRef}
    (ho : s.heap.objects.get? object.raw = some o) (hheld : 0 < ext object.raw)
    (hoff : offset ∈ s.heap.refOffsets o) (hval : ∀ x ∈ heapRefs val, x ∈ s.heap.objects.keys)
    (hfits : ∀ x ∈ heapRefs val, s.heap.refCount x + 1 ≤ usizeMax) :
    ∃ s', s.writeVal object offset val = .ok s' ∧ s'.heap.Sound s'.host ∧
      s'.heap.Counted ext ∧ s'.heap.KeepsRoots s.heap := by
  have W := S.typed _ _ ho
  have heven := S.stored.two_dvd ho
  have hsome := W.refOffsets_spec.2 offset hoff
  obtain ⟨raw, hraw⟩ := isSome_iff_exists.mp hsome
  have hmem := mem_keys_of_get? ho
  have hfld : s.heap.fields object.raw = s.heap.children o := by
    simp [fields, ho]
  -- The graph in which the field has been written.
  obtain ⟨refs, hrefs⟩ : ∃ refs, refs =
    s.heap.children (o.setWord offset (val.elim 0 VMGcRef.raw)) := ⟨_, rfl⟩
  have hch := W.children_setWord hoff hraw val
  rw [← hrefs] at hch
  obtain ⟨G, hG⟩ : ∃ G, G = s.heap.graph.update object.raw refs := ⟨_, rfl⟩
  have hns : G.nodes = s.heap.objects.keys := by rw [hG]; rfl
  have hout : ∀ x, x ≠ object.raw → G.out x = s.heap.fields x := by
    intro x hx
    rw [hG]
    exact update_of_ne hx _ _
  have hout' : G.out object.raw = refs := by
    rw [hG]
    exact update_self ..
  have hcnt : ∀ x ∈ s.heap.objects.keys, s.heap.refCount x + (heapRefs val).count x =
      G.refsTo ∅ x + ext x + (heapRefs (fromRawU32 raw)).count x := by
    intro x hx
    have h1 := C.count_eq x hx
    have h2 := RefGraph.refsTo_update (G := s.heap.graph) hmem refs x
    have h3 := congrArg (Multiset.count x) hch
    rw [Multiset.count_add, Multiset.count_add] at h3
    rw [show s.heap.graph.out object.raw = s.heap.children o from hfld, ← hG] at h2
    omega
  have hmem' : ∀ y ∈ s.heap.children o + heapRefs val, y ∈ s.heap.objects.keys := by
    intro y hy
    rcases Multiset.mem_add.mp hy with hy | hy
    · exact C.closed _ hmem y (hfld ▸ hy)
    · exact hval y hy
  have hold : ∀ y ∈ heapRefs (fromRawU32 raw), y ∈ s.heap.objects.keys := by
    exact fun y hy => hmem' y (hch ▸ Multiset.mem_add.mpr (.inr hy))
  have hclo : ∀ x ∈ G.nodes, ∀ y ∈ G.out x, y ∈ G.nodes := by
    intro x hx y hy
    rw [hns] at hx ⊢
    by_cases hxo : x = object.raw
    · subst hxo
      rw [hout'] at hy
      exact hmem' y (hch ▸ Multiset.mem_add.mpr (.inl hy))
    · exact C.closed x hx y (hout x hxo ▸ hy)
  obtain ⟨h', host', hok, S', hshr, hkept, hfld', hcounted⟩ :=
    writeGcRef_spec S hns (fun x hx h0 => hout x fun heq => by subst heq; omega) hclo
      (fun x hx => hns ▸ C.held_mem x hx) hval hold C.count_pos hfits hcnt
  obtain ⟨o', ho'⟩ := mem_keys.mp (hkept _ hheld)
  obtain ⟨p, hp, heq⟩ := hshr.get?_eq _ _ ho'
  obtain rfl : o = p := some.inj (ho.symm.trans hp)
  have B : SameBody o' o := by rw [heq]; exact ⟨rfl, rfl, rfl, rfl⟩
  have W' := S'.typed _ _ ho'
  have hoff' : offset ∈ h'.refOffsets o' := by
    have hinfos : h'.refOffsets o' = s.heap.refOffsets o' := by
      simp [DrcHeap.refOffsets, hshr.frame.traceInfos]
    rw [hinfos, B.refOffsets_eq]
    exact hoff
  have hsome' := W'.refOffsets_spec.2 offset hoff'
  obtain ⟨o'', ho''⟩ : ∃ o'', o'' = o'.setWord offset (val.elim 0 VMGcRef.raw) := ⟨_, rfl⟩
  have hhost := ho'' ▸ hostDataAt_put_setWord ho' hoff' _
  have hcnt'' := ho'' ▸ refCount_put_setWord ho' _
  refine ⟨⟨h'.put object o'', host'⟩, ?_, ?_, hcounted _ (keys_put ho' o'') hcnt''
    fun x hx => ?_, ?_, fun x p hp => ?_⟩
  · have hwr : s.writeGcRef (fromRawU32 raw) val = .ok (⟨h', host'⟩, val) := by
      rw [writeGcRef_eq, hok]
      rfl
    simp [writeVal, index_eq heven ho, readU32, hraw, hwr, index_eq heven ho',
      writeU32_eq hsome', ← ho'']
  · exact S'.replace ho' (ho'' ▸ W'.setWord hoff' _) (by rw [ho'']; rfl) hhost
  · by_cases hxo : x = object.raw
    · subst hxo
      have hbody : SameBody o'' (o.setWord offset (val.elim 0 VMGcRef.raw)) := by
        rw [ho'', heq]
        exact ⟨rfl, rfl, rfl, rfl⟩
      have hinfos : (h'.put object o'').children o'' = s.heap.children o'' := by
        simp [children, DrcHeap.refOffsets, put, hshr.frame.traceInfos]
      rw [hout', hrefs, ← hbody.children_eq, ← hinfos]
      simp [fields, put]
    · rw [hout x hxo, ← hfld' x hx]
      rw [fields, put, get?_insert, if_neg hxo]
      rfl
  · exact ⟨hshr.frame.1, hshr.frame.2, hshr.frame.3, hshr.frame.4, hshr.frame.5⟩
  · rw [put, get?_insert] at hp
    split at hp
    · rename_i hx
      obtain rfl := some.inj hp
      refine ⟨o, hx ▸ ho, ?_⟩
      rw [ho'', heq]
      exact ⟨rfl, rfl, rfl⟩
    · exact hshr.keepsRoots.get?_eq x p hp

end GcStore

/-! ## Allocating objects -/

theorem add_sum_le {limit : ℕ} {l : List (ℕ × ℕ)} (hl : l.Pairwise fun a b => a.1 + a.2 ≤ b.1)
    {lo : ℕ} (hbounds : ∀ b ∈ l, lo ≤ b.1 ∧ b.1 + b.2 ≤ limit) (hlo : lo ≤ limit) :
    lo + (l.map Prod.snd).sum ≤ limit := by
  induction l generalizing lo with
  | nil => simpa using hlo
  | cons b l ih =>
    obtain ⟨hb, hl⟩ := pairwise_cons.mp hl
    obtain ⟨hlo', hend⟩ := hbounds b (.head _)
    have := ih hl (fun c hc => ⟨hb c hc, (hbounds c (.tail b hc)).2⟩) hend
    rw [map_cons, sum_cons]
    omega

namespace DrcHeap

theorem sum_blocks_le {f : FreeList} (H : FreeListState.Holds ⟨f, h.blocks⟩) :
    (h.blocks.map Prod.snd).sum ≤ managedEnd f.capacity := by
  have hsort : h.blocks.Pairwise fun a b => a.1 < b.1 :=
    pairwise_map.mpr (h.objects.sorted.imp fun hlt => hlt)
  have hrow : h.blocks.Pairwise fun a b => a.1 + a.2 ≤ b.1 := by
    refine (hsort.and H.disjoint).imp_of_mem fun {a b} _ hb hab => ?_
    rw [Disjoint] at hab
    omega
  have : 0 + (h.blocks.map Prod.snd).sum ≤ managedEnd f.capacity :=
    add_sum_le hrow (fun b hb => ⟨Nat.zero_le _, (H.placed b hb).end_le⟩) (Nat.zero_le _)
  omega

/-- Allocation takes a free block and keeps the others. -/
theorem Stored.alloc (S : h.Stored) (hsize : alignedSize o.objectSize = some o.blockSize)
    (hpos : 0 < o.objectSize) :
    ∃ f r, h.freeList.allocFast o.blockSize = .ok (f, r) ∧
      match r with
      | none => Stored { h with freeList := f }
      | some i => 16 ∣ i ∧ i ≠ 0 ∧ h.objects.get? i = none ∧
          h.allocatedBytes + o.blockSize ≤ usizeMax ∧
          Stored { h with
            objects := h.objects.insert i o
            allocatedBytes := h.allocatedBytes + o.blockSize
            freeList := f } := by
  have hdvd : 16 ∣ o.blockSize := dvd_roundUp _ _
  have hbpos : 0 < o.blockSize := by
    have := le_roundUp (a := freeListAlign) o.objectSize (by decide)
    rw [DrcObject.blockSize]
    omega
  obtain ⟨f, r, hok, hstp⟩ := steps_allocImpl S.blocks (.allocFast o.blockSize) rfl hdvd hbpos
  have hfast : h.freeList.allocFast o.blockSize = .ok (f, r) := by
    simp [allocFast, assertAligned_of hdvd, hbpos, hok]
  refine ⟨f, r, hfast, ?_⟩
  cases r with
  | none => exact ⟨hstp.holds, S.bytes, S.sized⟩
  | some i =>
    obtain ⟨hp, hdisj⟩ := hstp.exclusive i rfl o.blockSize rfl
    have hidx := hp.le_index
    have hfr : h.objects.get? i = none := by
      cases hi : h.objects.get? i with
      | none => rfl
      | some o' =>
        have := hdisj (i, o'.blockSize) (mem_blocks.mpr (by simp [hi]))
        have := (S.placed hi).size_pos
        rw [Disjoint] at *
        omega
    obtain ⟨g, hg⟩ : ∃ g, g = { h with
      objects := h.objects.insert i o
      allocatedBytes := h.allocatedBytes + o.blockSize
      freeList := f } := ⟨_, rfl⟩
    have hperm : g.blocks.Perm ((i, o.blockSize) :: h.blocks) := by
      have := (perm_insert h.objects i o).map fun e => (e.1, e.2.blockSize)
      rw [erase_of_get?_eq_none hfr] at this
      rw [hg]
      exact this
    have H := hstp.holds.perm hperm.symm
    have hsum := (hperm.map Prod.snd).sum_eq
    rw [map_cons, sum_cons, ← S.bytes] at hsum
    have hle := sum_blocks_le H
    have hmax : managedEnd f.capacity ≤ u32Max := managedEnd_le _
    have husize : u32Max ≤ usizeMax := by decide
    refine ⟨hp.dvd_index, by omega, hfr, by omega, ?_⟩
    rw [← hg]
    refine ⟨?_, ?_, fun x p hx => ?_⟩
    · have hf : g.freeList = f := by rw [hg]
      rw [hf]
      exact H
    · have hb : g.allocatedBytes = h.allocatedBytes + o.blockSize := by rw [hg]
      omega
    have hx' : (h.objects.insert i o).get? x = some p := by rw [hg] at hx; exact hx
    rw [get?_insert] at hx'
    split at hx'
    · obtain rfl := some.inj hx'
      exact hsize
    · exact S.sized x p hx'

/-- What a successful allocation does. -/
structure Allocates (h h' : DrcHeap) (r : VMGcRef) (o : DrcObject) : Prop where
  frame : h'.SameFrame h
  objects_eq : h'.objects = h.objects.insert r.raw o
  fresh : h.objects.get? r.raw = none
  even : 2 ∣ r.raw
  stored : h'.Stored
  allocs : h'.tracingAllocs = h.tracingAllocs

/-- **Allocating an object**: it is refused, or there is no space for it, or it is new. -/
theorem allocRaw_spec (S : h.Stored) {kind : VMGcKind} {ty : Option ℕ} {layout : Layout}
    (data : List ℕ) (hsize : drcHeaderSize ≤ layout.size ∧ layout.size ≤ u32Max)
    (hal : 8 ≤ layout.align ∧ layout.align ≤ freeListAlign)
    (hinfo : h.checkTraceInfo kind ty = .ok ()) :
    (∃ msg, h.allocRaw kind ty layout data = .error (.error msg)) ∨
    (∃ h', h.allocRaw kind ty layout data = .ok (h', .error layout.size) ∧
      h'.SameFrame h ∧ h'.objects = h.objects ∧ h'.Stored ∧ h'.tracingAllocs = h.tracingAllocs) ∨
    ∃ h' r, h.allocRaw kind ty layout data = .ok (h', .ok r) ∧
      h.Allocates h' r (newObject kind ty layout data) := by
  obtain ⟨o, ho⟩ : ∃ o, o = newObject kind ty layout data := ⟨_, rfl⟩
  have hobj : o.objectSize = layout.size := by rw [ho]; rfl
  simp only [allocRaw, ensure_of hsize.1, ensure_of hsize.2, ensure_of hal.1,
    ensure_of hal.2, hinfo, ok_bind, ← ho]
  by_cases hfits : layout.size + freeListAlign ≤ u32Max
  · right
    have hald : alignedSize o.objectSize = some o.blockSize := by
      rw [hobj, alignedSize, if_pos hfits, DrcObject.blockSize, hobj]
      rfl
    have hpos : 0 < o.objectSize := by
      have := hsize.1
      rw [drcHeaderSize] at this
      omega
    obtain ⟨f, r, hok, hr⟩ := S.alloc hald hpos
    rw [← hobj, hald, okOr_some, ok_bind, hok, ok_bind]
    cases r with
    | none =>
      exact .inl ⟨{ h with freeList := f }, rfl, ⟨rfl, rfl, rfl, rfl, rfl⟩, rfl, hr, rfl⟩
    | some i =>
      obtain ⟨hdvd, hne, hfr, hle, hstd⟩ := hr
      have href : fromHeapIndex i = some ⟨i, hne⟩ := by
        rw [fromHeapIndex, if_neg (by rw [i31RefDiscriminant]; omega)]
        exact fromRawU32_eq_some.mpr rfl
      refine .inr ⟨{ h with
          objects := h.objects.insert i o
          allocatedBytes := h.allocatedBytes + o.blockSize
          freeList := f }, ⟨i, hne⟩, ?_, ⟨rfl, rfl, rfl, rfl, rfl⟩, ?_, hfr, ?_, hstd, rfl⟩
      · simp only [initObject, href, okOr_some, ok_bind, addUsize_of_le hle]
        rfl
      · rw [ho]
      · exact dvd_trans (by decide) hdvd
  · left
    refine ⟨"allocation size too large", ?_⟩
    rw [alignedSize, if_neg hfits]
    rfl

namespace Allocates

variable (A : h.Allocates h' r o)

include A

theorem keys_eq : h'.objects.keys = insert r.raw h.objects.keys := by
  rw [A.objects_eq, keys_insert]

theorem not_mem_keys : r.raw ∉ h.objects.keys := by
  rw [SortedMap.mem_keys, A.fresh]
  simp

theorem children_eq (p : DrcObject) : h'.children p = h.children p := by
  simp [children, refOffsets, A.frame.traceInfos]

theorem fields_of_ne {x : ℕ} (hx : x ≠ r.raw) : h'.fields x = h.fields x := by
  rw [fields, fields, A.objects_eq, get?_insert, if_neg hx]
  exact congrArg (fun f => ((h.objects.get? x).map f).getD 0) (funext A.children_eq)

theorem fields_self : h'.fields r.raw = h.children o := by
  simp [fields, A.objects_eq, A.children_eq]

/-- A new object of a sound heap, with host data of its own if it is an `externref`. -/
theorem sound (S : h.Sound host) (W : h.WellTyped o)
    (hlive : ∀ id, (host.slab.get? id).isSome → (host'.slab.get? id).isSome)
    (hid : o.ty = none → ∀ id, o.wordAt drcHeaderSize = some id →
      (host'.slab.get? id).isSome ∧ ∀ x, h.hostDataAt x ≠ some id) : h'.Sound host' := by
  have hself : ∀ id, h'.hostDataAt r.raw = some id →
      (host'.slab.get? id).isSome ∧ ∀ x, h.hostDataAt x ≠ some id := by
    intro id h'id
    rw [hostDataAt, A.objects_eq, get?_insert, if_pos rfl] at h'id
    cases hty : o.ty with
    | none =>
      simp only [Option.filter, hty, isNone_none, if_true, bind_some] at h'id
      exact hid hty id h'id
    | some ty => simp [Option.filter, hty] at h'id
  have hother : ∀ x, x ≠ r.raw → h'.hostDataAt x = h.hostDataAt x := by
    intro x hx
    simp [hostDataAt, A.objects_eq, hx]
  refine ⟨fun x p hp => ?_, fun x id hx => ?_, fun x y id hx hy => ?_, A.stored, ?_⟩
  · have Wp : h.WellTyped p := by
      rw [A.objects_eq, get?_insert] at hp
      split at hp
      · obtain rfl := some.inj hp
        exact W
      · exact S.typed x p hp
    exact ⟨Wp.1, Wp.2, Wp.3, fun ty hty => A.frame.traceInfos ▸ Wp.4 ty hty⟩
  · by_cases hxr : x = r.raw
    · subst hxr
      exact (hself id hx).1
    · exact hlive id (S.host_live x id (hother x hxr ▸ hx))
  · by_cases hxr : x = r.raw
    · by_cases hyr : y = r.raw
      · rw [hxr, hyr]
      · subst hxr
        exact absurd (hother y hyr ▸ hy) ((hself id hx).2 y)
    · by_cases hyr : y = r.raw
      · subst hyr
        exact absurd (hother x hxr ▸ hx) ((hself id hy).2 x)
      · exact S.host_inj x y id (hother x hxr ▸ hx) (hother y hyr ▸ hy)
  · rw [A.allocs, S.allocs]

/-- The counts hold with the new object. -/
theorem counted (C : h.Counted ext) (hcnt : o.refCount = 1)
    (hle : ∀ x, (h.children o).count x ≤ ext x)
    (hext : ∀ x, ext' x + (h.children o).count x = ext x + if x = r.raw then 1 else 0) :
    h'.Counted ext' := by
  have hnot := A.not_mem_keys
  have hmem : ∀ x, 0 < ext x → x ≠ r.raw := fun x hx heq => hnot (heq ▸ C.held_mem x hx)
  have hrefs : ∀ x, h'.graph.refsTo ∅ x = (h.children o).count x + h.graph.refsTo ∅ x := by
    intro x
    simp only [RefGraph.refsTo, graph, Finset.sdiff_empty, A.keys_eq]
    rw [Finset.sum_insert hnot, A.fields_self]
    refine congrArg _ (Finset.sum_congr rfl fun a ha => ?_)
    rw [A.fields_of_ne fun heq => hnot (heq ▸ ha)]
  have hval : ∀ x, h'.refCount x = if x = r.raw then 1 else h.refCount x := by
    intro x
    by_cases hx : x = r.raw <;> simp [refCount, A.objects_eq, hx, hcnt]
  have hzero : ext r.raw = 0 := by
    by_contra h0
    exact hmem r.raw (by omega) rfl
  refine ⟨fun x hx y hy => ?_, fun x hx => ?_, fun x hx => ?_, fun x hx => ?_⟩
  · rw [A.keys_eq] at hx ⊢
    apply Finset.mem_insert_of_mem
    by_cases hxr : x = r.raw
    · subst hxr
      rw [A.fields_self] at hy
      have := Multiset.count_pos.mpr hy
      exact C.held_mem y (by have := hle y; omega)
    · rw [A.fields_of_ne hxr] at hy
      exact C.closed x (Finset.mem_of_mem_insert_of_ne hx hxr) y hy
  · rw [A.keys_eq]
    by_cases hxr : x = r.raw
    · exact hxr ▸ Finset.mem_insert_self _ _
    · have := hext x
      rw [if_neg hxr] at this
      exact Finset.mem_insert_of_mem (C.held_mem x (by omega))
  · rw [A.keys_eq] at hx
    rw [hval]
    by_cases hxr : x = r.raw
    · simp [hxr]
    · rw [if_neg hxr]
      exact C.count_pos x (Finset.mem_of_mem_insert_of_ne hx hxr)
  rw [A.keys_eq] at hx
  rw [hval, hrefs]
  have := hext x
  by_cases hxr : x = r.raw
  · -- Nothing in the heap refers to the new object.
    subst hxr
    have hnone : h.graph.refsTo ∅ r.raw = 0 := by
      refine Finset.sum_eq_zero fun a ha => Multiset.count_eq_zero.mpr fun hy => hnot ?_
      exact C.closed a ha _ hy
    simp only [if_true] at *
    omega
  · rw [if_neg hxr] at *
    have := C.count_eq x (Finset.mem_of_mem_insert_of_ne hx hxr)
    omega

end Allocates

end DrcHeap

end WasmDeps.Gc
