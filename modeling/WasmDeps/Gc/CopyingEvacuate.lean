import WasmDeps.Gc.CopyingLayout
import WasmDeps.Lib.LinkedList

/-!
# Evacuating the idle space

Cheney's algorithm copies the reachable objects of the idle space to the active space, one
after the other.  An object that has been copied is turned into a forwarding record; its
copy has the same bytes, but for the references that have been forwarded.
-/

namespace WasmDeps.Gc

open WasmDeps.Lib List Exec Memory VMGcRef

/-! ## The memory -/

/-- **The idle space when a collection begins**: objects from `lo` to `hi` that agree with
their types and refer to each other only. -/
structure FromSpace (infos : TraceInfos) (m₀ : Memory) (objs : List ℕ) (lo hi : ℕ) : Prop where
  laidOut : LaidOut m₀ lo objs hi
  ok : ∀ x ∈ objs, ObjectOk infos m₀ x
  closed : ∀ x ∈ objs, ∀ o ∈ refOffsets infos m₀ x, isHeapRef (m₀.readU32 (x + o)) = true →
    m₀.readU32 (x + o) ∈ objs

/-- The other space, from `base` to `limit`, is as large and apart from it. -/
structure Spaces (infos : TraceInfos) (m₀ : Memory) (objs : List ℕ) (lo hi base limit : ℕ) :
    Prop extends FromSpace infos m₀ objs lo hi where
  apart : hi ≤ base ∨ limit ≤ lo
  room : base + (hi - lo) ≤ limit
  limit_le : limit ≤ u32Max

/-- What becomes of a reference once the objects `froms` are copied to `base` and on. -/
def Moved (m₀ : Memory) (base : ℕ) (froms : List ℕ) (raw raw' : ℕ) : Prop :=
  if isHeapRef raw = true then (raw, raw') ∈ place m₀ base froms else raw' = raw

/-- **The memory when the objects `froms` have been copied**, in this order, to `base` and on,
and the references at the addresses `done` have been forwarded. -/
structure Evacuated (infos : TraceInfos) (m₀ : Memory) (objs : List ℕ) (base : ℕ) (m : Memory)
    (froms done : List ℕ) : Prop where
  nodup : froms.Nodup
  sub : froms ⊆ objs
  done_lt : ∀ a ∈ done, a < base + totalSize m₀ froms
  /-- Objects that have not been copied are untouched. -/
  fresh : ∀ x ∈ objs, x ∉ froms → ∀ k < objSize m₀ x, m.byte (x + k) = m₀.byte (x + k)
  /-- Objects that have been copied are forwarding records. -/
  record : ∀ x t, (x, t) ∈ place m₀ base froms →
    isCopied (m.readU32 x) = true ∧ m.readU32 (x + 16) = t
  rest : ∀ x ∈ froms, ∀ k < objSize m₀ x, 4 ≤ k → k < 16 ∨ 20 ≤ k →
    m.byte (x + k) = m₀.byte (x + k)
  body : ∀ x t, (x, t) ∈ place m₀ base froms → CopiedBody infos m₀ m x t
  todo : ∀ x t, (x, t) ∈ place m₀ base froms → ∀ o ∈ refOffsets infos m₀ x, t + o ∉ done →
    m.readU32 (t + o) = m₀.readU32 (x + o)
  moved : ∀ x t, (x, t) ∈ place m₀ base froms → ∀ o ∈ refOffsets infos m₀ x, t + o ∈ done →
    Moved m₀ base froms (m₀.readU32 (x + o)) (m.readU32 (t + o))

variable {infos : TraceInfos} {m₀ m m' : Memory} {objs froms more done : List ℕ}
  {lo hi base limit x y t u o raw raw' : ℕ}

/-- More copies do not change where a reference went. -/
theorem Moved.append (h : Moved m₀ base froms raw raw') :
    Moved m₀ base (froms ++ more) raw raw' := by
  rw [Moved] at h ⊢
  split
  · rename_i href
    rw [if_pos href] at h
    rw [place_append]
    exact mem_append_left _ h
  · rename_i href
    rwa [if_neg href] at h

theorem FromSpace.size_pos (F : FromSpace infos m₀ objs lo hi) (hx : x ∈ objs) :
    0 < objSize m₀ x := by
  have := (F.ok x hx).le_size
  omega

namespace Spaces

variable (P : Spaces infos m₀ objs lo hi base limit)
include P

/-- The copies fit, since the spaces have one size. -/
theorem fits (hnd : froms.Nodup) (hsub : froms ⊆ objs) : base + totalSize m₀ froms ≤ limit := by
  have := totalSize_le (m := m₀) hnd hsub
  have := P.laidOut.end_eq
  have := P.room
  omega

/-- Objects and copies do not overlap. -/
theorem disjoint (hnd : froms.Nodup) (hsub : froms ⊆ objs) (hx : x ∈ objs)
    (h : (y, t) ∈ place m₀ base froms) : x + objSize m₀ x ≤ t ∨ t + objSize m₀ y ≤ x := by
  have := P.fits hnd hsub
  have := P.laidOut.bounds hx
  have := place_bounds h
  rcases P.apart with hle | hle
  · omega
  · omega

end Spaces

/-- What copying an object of size `n` and turning it into a forwarding record does to the
memory. -/
structure CopiedTo (m m' : Memory) (x t n : ℕ) : Prop where
  other : ∀ i, i < t ∨ t + n ≤ i → i < x ∨ x + 4 ≤ i → i < x + 16 ∨ x + 20 ≤ i →
    m'.byte i = m.byte i
  bytes : ∀ k < n, m'.byte (t + k) = m.byte (x + k)
  record : isCopied (m'.readU32 x) = true ∧ m'.readU32 (x + 16) = t

/-- Copying an object and forwarding it, as writes of the memory. -/
theorem copiedTo {n word : ℕ} (hapart : x + n ≤ t ∨ t + n ≤ x) (hn : 20 ≤ n)
    (hword : isCopied word = true) (hlt : word < 2 ^ 32) (ht : t < 2 ^ 32) :
    CopiedTo m (((m.copyWithin x t n).writeU32 x word).writeU32 (x + 16) t) x t n where
  other i h1 h2 h3 := by
    rw [byte_writeU32_of h3, byte_writeU32_of h2, byte_copyWithin_of_disjoint h1]
  bytes k hk := by
    rw [byte_writeU32_of (by omega), byte_writeU32_of (by omega),
      byte_copyWithin hk]
  record := by
    rw [readU32_writeU32_of (by omega), readU32_writeU32_self hlt,
      readU32_writeU32_self ht]
    exact ⟨hword, rfl⟩

namespace Evacuated

variable (E : Evacuated infos m₀ objs base m froms done)
include E

/-- The next copy stands where the copies so far end. -/
theorem next (hx : x ∈ objs) (hnew : x ∉ froms) :
    (froms ++ [x]).Nodup ∧ froms ++ [x] ⊆ objs ∧
      (x, base + totalSize m₀ froms) ∈ place m₀ base (froms ++ [x]) := by
  refine ⟨?_, ?_, ?_⟩
  · rw [nodup_append]
    refine ⟨E.nodup, nodup_singleton x, fun y hy z hz heq => hnew ?_⟩
    rwa [← mem_singleton.mp hz, ← heq]
  · rw [append_subset]
    exact ⟨E.sub, cons_subset.mpr ⟨hx, nil_subset _⟩⟩
  · exact mem_place_concat.mpr (.inr ⟨rfl, rfl⟩)

variable (P : Spaces infos m₀ objs lo hi base limit)
include P

/-- A write to a reference of a copy, or to its link, if it is right for the references of this
copy. -/
theorem of_write {w : ℕ} {done' : List ℕ} (h : (x, t) ∈ place m₀ base froms)
    (hword : ∀ k, w ≤ k → k < w + 4 →
      k < objSize m₀ x ∧ (InRef infos m₀ x k ∨ InLink m₀ x k))
    (hbs : ∀ i, i < t + w ∨ t + w + 4 ≤ i → m'.byte i = m.byte i)
    (hdone : ∀ a ∈ done', a ∈ done ∨ t ≤ a ∧ a < t + objSize m₀ x) (hsub : done ⊆ done')
    (hrefs : ∀ o ∈ refOffsets infos m₀ x,
      (t + o ∉ done' → m'.readU32 (t + o) = m₀.readU32 (x + o)) ∧
      (t + o ∈ done' → Moved m₀ base froms (m₀.readU32 (x + o)) (m'.readU32 (t + o)))) :
    Evacuated infos m₀ objs base m' froms done' := by
  have hw := (hword (w + 3) (by omega) (by omega)).1
  have hfrom : ∀ y ∈ objs, ∀ k < objSize m₀ y, m'.byte (y + k) = m.byte (y + k) := by
    intro y hy k hk
    have := P.disjoint E.nodup E.sub hy h
    exact hbs (y + k) (by omega)
  have hother : ∀ y u, (y, u) ∈ place m₀ base froms → ∀ o ∈ refOffsets infos m₀ y,
      x = y ∧ t = u ∨ m'.readU32 (u + o) = m.readU32 (u + o) ∧ (u + o ∈ done' → u + o ∈ done) := by
    intro y u hu o ho
    have := ((P.ok y (E.sub (mem_of_place hu))).offsets o ho).2
    refine (place_disjoint h hu).imp_right fun hle => ⟨?_, fun ha => ?_⟩
    · exact readU32_congr fun k hk => hbs _ (by omega)
    · exact (hdone _ ha).resolve_right (by omega)
  refine ⟨E.nodup, E.sub, fun a ha => ?_, fun y hy hnew k hk => ?_, fun y u hu => ?_,
    fun y hy k hk hle hout => ?_, fun y u hu k hk href hlink => ?_, fun y u hu o ho hnot => ?_,
    fun y u hu o ho hin => ?_⟩
  · have := place_bounds h
    rcases hdone a ha with ha | ha
    · exact E.done_lt a ha
    · omega
  · exact (hfrom y hy k hk).trans (E.fresh y hy hnew k hk)
  · have hy := E.sub (mem_of_place hu)
    have := (P.ok y hy).le_size
    have hkind := readU32_congr fun k hk => hfrom y hy k (by omega)
    have hfwd : m'.readU32 (y + 16) = m.readU32 (y + 16) :=
      readU32_add_congr fun k _ hk => hfrom y hy k (by omega)
    rw [hkind, hfwd]
    exact E.record y u hu
  · exact (hfrom y (E.sub hy) k hk).trans (E.rest y hy k hk hle hout)
  · refine .trans (hbs (u + k) ?_) (E.body y u hu k hk href hlink)
    rcases place_disjoint h hu with ⟨rfl, rfl⟩ | hle
    · by_contra hin
      exact (hword k (by omega) (by omega)).2.elim href hlink
    · omega
  · rcases hother y u hu o ho with ⟨rfl, rfl⟩ | ⟨hsame, -⟩
    · exact (hrefs o ho).1 hnot
    · rw [hsame]
      exact E.todo y u hu o ho fun ha => hnot (hsub ha)
  · rcases hother y u hu o ho with ⟨rfl, rfl⟩ | ⟨hsame, hold⟩
    · exact (hrefs o ho).2 hin
    · rw [hsame]
      exact E.moved y u hu o ho (hold hin)

/-- A reference of a copy is rewritten. -/
theorem rewrite (h : (x, t) ∈ place m₀ base froms) (ho : o ∈ refOffsets infos m₀ x)
    (hbs : ∀ i, i < t + o ∨ t + o + 4 ≤ i → m'.byte i = m.byte i)
    (hmv : Moved m₀ base froms (m₀.readU32 (x + o)) (m'.readU32 (t + o))) :
    Evacuated infos m₀ objs base m' froms ((t + o) :: done) := by
  have hok := P.ok x (E.sub (mem_of_place h))
  obtain ⟨-, hend⟩ := hok.offsets o ho
  refine E.of_write P h (fun k hle hlt => ⟨by omega, .inl ⟨o, ho, hle, hlt⟩⟩) hbs
    (fun a ha => ?_) (fun a => .tail _) fun o' ho' => ?_
  · rcases mem_cons.mp ha with rfl | ha
    · exact .inr (by omega)
    · exact .inl ha
  -- Another reference is the same one or disjoint from it.
  rcases hok.apart ho ho' with rfl | hle
  · exact ⟨absurd (.head _), fun _ => hmv⟩
  have hsame : m'.readU32 (t + o') = m.readU32 (t + o') :=
    readU32_congr fun k hk => hbs _ (by omega)
  rw [hsame]
  exact ⟨fun hnot => E.todo x t h o' ho' fun hin => hnot (.tail _ hin),
    fun hin => E.moved x t h o' ho' ((mem_cons.mp hin).resolve_left (by omega))⟩

/-- The link of a copied `externref` is written. -/
theorem link (h : (x, t) ∈ place m₀ base froms) (hx : isExtern m₀ x = true) (raw : ℕ) :
    Evacuated infos m₀ objs base (m.writeU32 (t + 28) raw) froms done := by
  have hsize := (P.ok x (E.sub (mem_of_place h))).le_size
  refine E.of_write P h (fun k hle hlt => ⟨by omega, .inr ⟨hx, hle, hlt⟩⟩)
    (fun i hi => byte_writeU32_of hi) (fun a ha => .inl ha) (fun a ha => ha) fun o ho => ?_
  -- An `externref` has no references.
  simp [refOffsets_of_isExtern hx] at ho

/-- One more object is copied. -/
theorem copy (hx : x ∈ objs) (hnew : x ∉ froms)
    (C : CopiedTo m m' x (base + totalSize m₀ froms) (objSize m₀ x)) :
    Evacuated infos m₀ objs base m' (froms ++ [x]) done := by
  obtain ⟨hnd, hsub, hmem⟩ := E.next hx hnew
  have hplc : ∀ y u, (y, u) ∈ place m₀ base (froms ++ [x]) →
      (y, u) ∈ place m₀ base froms ∨ y = x ∧ u = base + totalSize m₀ froms :=
    fun y u => mem_place_concat.mp
  obtain ⟨t, ht⟩ : ∃ t, t = base + totalSize m₀ froms := ⟨_, rfl⟩
  rw [← ht] at C hmem hplc
  have hsize := (P.ok x hx).le_size
  -- Other objects and other copies are untouched.
  have hold : ∀ y ∈ objs, y ≠ x → ∀ k < objSize m₀ y, m'.byte (y + k) = m.byte (y + k) := by
    intro y hy hne k hk
    have := P.disjoint hnd hsub hy hmem
    have := (P.laidOut.disjoint hx hy).resolve_left fun heq => hne heq.symm
    exact C.other (y + k) (by omega) (by omega) (by omega)
  have hcopy : ∀ y u, (y, u) ∈ place m₀ base froms → ∀ k < objSize m₀ y,
      m'.byte (u + k) = m.byte (u + k) := by
    intro y u hu k hk
    have := place_bounds hu
    have := P.disjoint E.nodup E.sub hx hu
    exact C.other (u + k) (by omega) (by omega) (by omega)
  have hread : ∀ y u, (y, u) ∈ place m₀ base froms → ∀ o ∈ refOffsets infos m₀ y,
      m'.readU32 (u + o) = m.readU32 (u + o) := by
    intro y u hu o ho
    have := ((P.ok y (E.sub (mem_of_place hu))).offsets o ho).2
    exact readU32_add_congr fun k _ hk => hcopy y u hu k (by omega)
  have hne : ∀ y ∈ froms, y ≠ x := fun y hy heq => hnew (heq ▸ hy)
  have hself : ∀ k < objSize m₀ x, m'.byte (t + k) = m₀.byte (x + k) := fun k hk =>
    (C.bytes k hk).trans (E.fresh x hx hnew k hk)
  have hselfRead : ∀ o ∈ refOffsets infos m₀ x, m'.readU32 (t + o) = m₀.readU32 (x + o) := by
    intro o ho
    have := ((P.ok x hx).offsets o ho).2
    exact readU32_add_congr fun k _ hk => hself k (by omega)
  refine ⟨hnd, hsub, fun a ha => ?_, fun y hy hy' k hk => ?_, fun y u hu => ?_,
    fun y hy k hk h4 h16 => ?_, fun y u hu => ?_, fun y u hu o ho hnot => ?_,
    fun y u hu o ho hin => ?_⟩
  · have := E.done_lt a ha
    rw [totalSize_append]
    omega
  · rw [mem_append, not_or, mem_singleton] at hy'
    exact (hold y hy hy'.2 k hk).trans (E.fresh y hy hy'.1 k hk)
  · rcases hplc y u hu with hu | ⟨rfl, rfl⟩
    · have hy := E.sub (mem_of_place hu)
      have := (P.ok y hy).le_size
      have hsame := hold y hy (hne y (mem_of_place hu))
      have hkind := readU32_congr fun k hk => hsame k (by omega)
      have hfwd : m'.readU32 (y + 16) = m.readU32 (y + 16) :=
        readU32_add_congr fun k _ hk => hsame k (by omega)
      rw [hkind, hfwd]
      exact E.record y u hu
    · exact C.record
  · rcases mem_append.mp hy with hy | hy
    · exact (hold y (E.sub hy) (hne y hy) k hk).trans (E.rest y hy k hk h4 h16)
    · obtain rfl := mem_singleton.mp hy
      have := P.disjoint hnd hsub hx hmem
      exact (C.other (y + k) (by omega) (by omega) (by omega)).trans (E.fresh y hx hnew k hk)
  · rcases hplc y u hu with hu | ⟨rfl, rfl⟩
    · intro k hk href hlink
      exact (hcopy y u hu k hk).trans (E.body y u hu k hk href hlink)
    · exact fun k hk _ _ => hself k hk
  · rcases hplc y u hu with hu | ⟨rfl, rfl⟩
    · rw [hread y u hu o ho]
      exact E.todo y u hu o ho hnot
    · exact hselfRead o ho
  rcases hplc y u hu with hu | ⟨rfl, rfl⟩
  · rw [hread y u hu o ho]
    exact (E.moved y u hu o ho hin).append
  · -- Nothing beyond the copies is done.
    have := E.done_lt _ hin
    omega

end Evacuated

/-! ## The list of `externref`s -/

/-- The copies of `externref`s, the last one first. -/
def externCopies (m₀ : Memory) (base : ℕ) (froms : List ℕ) : List ℕ :=
  (((place m₀ base froms).filter fun p => isExtern m₀ p.1).map Prod.snd).reverse

theorem mem_externCopies : t ∈ externCopies m₀ base froms ↔
    ∃ x, (x, t) ∈ place m₀ base froms ∧ isExtern m₀ x = true := by
  simp [externCopies]

theorem externCopies_append_of_not (hx : isExtern m₀ x = false) :
    externCopies m₀ base (froms ++ [x]) = externCopies m₀ base froms := by
  simp [externCopies, place_append, place, hx]

theorem externCopies_append (hx : isExtern m₀ x = true) :
    externCopies m₀ base (froms ++ [x]) =
      (base + totalSize m₀ froms) :: externCopies m₀ base froms := by
  simp [externCopies, place_append, place, hx]

theorem fromRawU32_rawRef (r : Option VMGcRef) : VMGcRef.fromRawU32 (rawRef r) = r := by
  cases r with
  | none => rfl
  | some r => exact fromRawU32_eq_some.mpr rfl

/-- The list of copies is the same in a memory with the same links. -/
theorem links_congr {head : Option ℕ}
    (h : Path (externLink m) head (externCopies m₀ base froms) none)
    (hsame : ∀ x t, (x, t) ∈ place m₀ base froms → isExtern m₀ x = true →
      m'.readU32 (t + 28) = m.readU32 (t + 28)) :
    Path (externLink m') head (externCopies m₀ base froms) none := by
  refine h.congr fun t ht => ?_
  obtain ⟨x, hx, hie⟩ := mem_externCopies.mp ht
  rw [externLink, externLink, hsame x t hx hie]

/-! ## Operations that succeed -/

namespace VMGcKind

variable (kind : VMGcKind)

theorem isCopied_asU32 : isCopied kind.asU32 = false := by cases kind <;> decide

theorem reservedU26_asU32 : reservedU26 kind.asU32 = 0 := by cases kind <;> decide

theorem fromHighBitsOfU32_asU32 : fromHighBitsOfU32 kind.asU32 = .ok kind := by
  cases kind <;> rfl

theorem matchesKind_externRef : kind.matchesKind .externRef = decide (kind = .externRef) := by
  cases kind <;> decide

theorem isCopied_setCopied : isCopied (kindBits kind.asU32 ||| 1) = true ∧
    kindBits kind.asU32 ||| 1 < 2 ^ 32 := by cases kind <;> decide

end VMGcKind

namespace CopyingHeap

variable {h : CopyingHeap} {r : VMGcRef} {n : ℕ}

theorem debug_eq {check : Exec Unit} (hc : h.debugAssertions = true → check = .ok ()) :
    h.debug check = .ok () := by
  rw [debug]
  split
  · exact hc ‹_›
  · rfl

theorem debugAssert_eq {p : Prop} [Decidable p] {msg : String} (hp : h.debugAssertions = true → p) :
    h.debugAssert p msg = .ok () :=
  debug_eq fun hd => ensure_of (hp hd) msg

theorem index_eq (hr : 8 ∣ r.raw) (hn : r.raw + n ≤ h.memory.len) : h.index r n = .ok r.raw := by
  have h2 : 2 ∣ r.raw := dvd_trans (by decide) hr
  have h8 : ¬r.raw % 8 ≠ 0 := by omega
  rw [index, heapIndex_of_dvd h2, ok_bind, if_neg (by omega), if_neg h8]
  rfl

theorem objectSize_eq (hr : 8 ∣ r.raw) (hn : r.raw + 16 ≤ h.memory.len) :
    h.objectSize r = .ok (objSize h.memory r.raw) := by
  rw [objectSize, index_eq hr hn]
  rfl

theorem copied_eq (hr : 8 ∣ r.raw) (hn : r.raw + 16 ≤ h.memory.len) :
    h.copied r = .ok (isCopied (h.memory.readU32 r.raw)) := by
  rw [copied, index_eq hr hn]
  rfl

variable {kind : VMGcKind}

theorem kind_eq (hr : 8 ∣ r.raw) (hn : r.raw + 16 ≤ h.memory.len)
    (hk : h.memory.readU32 r.raw = kind.asU32) : h.kind r = .ok kind := by
  rw [CopyingHeap.kind, index_eq hr hn, ok_bind, hk, VMGcKind.fromHighBitsOfU32_asU32]

/-- The assertions of `assert_bump_ptr` hold. -/
theorem assertBumpPtr_eq (hald : h.debugAssertions = true → 16 ∣ h.bumpPtr)
    (hst : h.activeSpaceStart ≤ h.bumpPtr) (hend : h.bumpPtr ≤ h.activeSpaceEnd) :
    h.assertBumpPtr = .ok () := by
  rw [assertBumpPtr, debugAssert_eq fun hd => Nat.mod_eq_zero_of_dvd (hald hd), ok_bind,
    debugAssert_eq fun _ => hst, ok_bind, debugAssert_eq fun _ => hend]

/-- `allocate` takes the bytes at the bump pointer if they are there. -/
theorem allocate_eq {size : ℕ} (hsize : 16 ∣ size)
    (hald : h.debugAssertions = true → 16 ∣ h.bumpPtr) (hst : h.activeSpaceStart ≤ h.bumpPtr)
    (hend : h.bumpPtr + size ≤ h.activeSpaceEnd) (hu32 : h.activeSpaceEnd ≤ u32Max) :
    h.allocate size = .ok ({ h with bumpPtr := h.bumpPtr + size }, some h.bumpPtr) := by
  have hroom : ¬(u32Max < h.bumpPtr + size ∨ h.activeSpaceEnd < h.bumpPtr + size) := by omega
  rw [allocate, debugAssert_eq fun _ => Nat.mod_eq_zero_of_dvd hsize,
    assertBumpPtr_eq hald hst (by omega)]
  simp only [if_neg hroom]
  rw [assertBumpPtr_eq (h := { h with bumpPtr := h.bumpPtr + size })
    (fun hd => Nat.dvd_add (hald hd) hsize) (Nat.le_add_right_of_le hst) hend]
  rfl

theorem assertInIdleSpace_eq (hr : 2 ∣ r.raw) (hidle : h.isInIdleSpace r.raw = true)
    (msg : String) : h.assertInIdleSpace r msg = .ok () :=
  debug_eq fun _ => by rw [heapIndex_of_dvd hr, ok_bind, ensure_of hidle]

theorem assertInActiveSpace_eq (hr : 2 ∣ r.raw) (hact : h.isInActiveSpace r.raw = true)
    (msg : String) : h.assertInActiveSpace r msg = .ok () :=
  debug_eq fun _ => by rw [heapIndex_of_dvd hr, ok_bind, ensure_of hact]

theorem assertNotCopied_eq (hr : 8 ∣ r.raw) (hn : r.raw + 16 ≤ h.memory.len)
    (hnot : isCopied (h.memory.readU32 r.raw) = false) : h.assertNotCopied r = .ok () :=
  debug_eq fun _ => by
    rw [copied_eq hr hn, hnot]
    rfl

/-- `allocate` for a copy does not fail. -/
theorem allocateCopy_eq {size : ℕ} (hsize : 16 ∣ size) (hpos : 0 < size)
    (hald : h.debugAssertions = true → 16 ∣ h.bumpPtr) (h2 : 2 ∣ h.bumpPtr)
    (hst : h.activeSpaceStart ≤ h.bumpPtr) (hend : h.bumpPtr + size ≤ h.activeSpaceEnd)
    (hu32 : h.activeSpaceEnd ≤ u32Max) (hr : r.raw = h.bumpPtr) :
    h.allocateCopy size = .ok ({ h with bumpPtr := h.bumpPtr + size }, r) := by
  have hfrom : fromHeapIndex h.bumpPtr = some r := by
    rw [fromHeapIndex, if_neg (by rw [i31RefDiscriminant]; omega)]
    exact fromRawU32_eq_some.mpr hr.symm
  have hact : h.activeSpaceStart ≤ h.bumpPtr ∧ h.bumpPtr < h.activeSpaceEnd := by omega
  rw [allocateCopy, allocate_eq hsize hald hst hend hu32, ok_bind]
  simp only []
  rw [okOr_some, ok_bind, debugAssert_eq fun _ => by simpa [isInActiveSpace] using hact,
    ok_bind, hfrom]
  rfl

theorem assertForwardable_eq {i : ℕ} (hsize : 24 ≤ objSize h.memory i) :
    h.assertForwardable i = .ok () := debugAssert_eq fun _ => hsize

section

variable (hr : 8 ∣ r.raw)
include hr

/-- `set_forwarding_ref` writes the header bit and the reference. -/
theorem setForwardingRef_eq (hn : r.raw + 24 ≤ h.memory.len)
    (hk : h.memory.readU32 r.raw = kind.asU32) (hsize : 24 ≤ objSize h.memory r.raw)
    (dst : VMGcRef) :
    h.setForwardingRef r dst = .ok { h with
      memory := (h.memory.writeU32 r.raw (kindBits kind.asU32 ||| 1)).writeU32 (r.raw + 16)
        dst.raw } := by
  rw [setForwardingRef, index_eq hr hn, ok_bind]
  simp only [hk]
  rw [debugAssert_eq fun _ => by simp [VMGcKind.isCopied_asU32],
    assertForwardable_eq hsize, VMGcKind.reservedU26_asU32, setReservedU26,
    ensure_of (by decide)]
  rfl

theorem linkExternRef_eq_of_ne (hn : r.raw + 16 ≤ h.memory.len)
    (hk : h.memory.readU32 r.raw = kind.asU32) (hne : kind ≠ .externRef) : h.linkExternRef r =
      .ok h := by
  rw [linkExternRef, kind_eq hr hn hk, ok_bind, VMGcKind.matchesKind_externRef, decide_eq_false hne]
  rfl

/-- An `externref` becomes the head of the list. -/
theorem pushExternRef_eq (hn : r.raw + 32 ≤ h.memory.len) : h.pushExternRef r = .ok { h with
      memory := h.memory.writeU32 (r.raw + 28) (rawRef h.activeExternRefSetHead)
      activeExternRefSetHead := some r } := by
  rw [pushExternRef, index_eq hr hn]
  rfl

theorem linkExternRef_eq (hn : r.raw + 32 ≤ h.memory.len)
    (hk : h.memory.readU32 r.raw = kind.asU32) (heq : kind = .externRef) : h.linkExternRef r =
      h.pushExternRef r := by
  rw [linkExternRef, kind_eq hr (by omega) hk, ok_bind, VMGcKind.matchesKind_externRef,
    decide_eq_true heq]
  rfl

/-- `worklist_insert` needs no write: the new copy is the last one. -/
theorem worklistInsert_eq (hn : r.raw + 16 ≤ h.memory.len)
    (hact : h.isInActiveSpace r.raw = true) (hend : r.raw + objSize h.memory r.raw = h.bumpPtr)
    (hu32 : h.bumpPtr ≤ u32Max) (hlist : h.worklistPtr ≤ r.raw) : h.worklistInsert r = .ok () := by
  have h2 : 2 ∣ r.raw := dvd_trans (by decide) hr
  refine debug_eq fun _ => ?_
  rw [heapIndex_of_dvd h2, ok_bind, ensure_of hact, ok_bind, objectSize_eq hr hn, ok_bind,
    addU32_of_le (hend ▸ hu32), ok_bind, ensure_of hend, ok_bind, ensure_of hlist]

end

/-- A field without a heap reference stays. -/
theorem scanField_eq_self (hu32 : t + o ≤ u32Max) (hn : t + o + 4 ≤ h.memory.len)
    (href : isHeapRef (h.memory.readU32 (t + o)) = false) : h.scanField t o = .ok h := by
  have husize : ¬usizeMax < t + o := by rw [u32Max] at hu32; rw [usizeMax]; omega
  rw [scanField, if_neg husize, if_neg (by omega)]
  cases hchild : fromRawU32 (h.memory.readU32 (t + o)) with
  | none => rfl
  | some child =>
    rw [fromRawU32_eq_some] at hchild
    have hi31 : child.isI31 = true := by
      have := child.raw_ne_zero
      rw [isHeapRef, decide_eq_false_iff_not] at href
      rw [isI31, i31RefDiscriminant, decide_eq_true_eq]
      omega
    exact if_pos hi31

/-- A field with a heap reference is forwarded. -/
theorem scanField_eq_scanChild (hu32 : t + o ≤ u32Max)
    (hn : t + o + 4 ≤ h.memory.len) (hr : r.raw = h.memory.readU32 (t + o)) (h2 : 2 ∣ r.raw) :
    h.scanField t o = h.scanChild (t + o) r := by
  have husize : ¬usizeMax < t + o := by rw [u32Max] at hu32; rw [usizeMax]; omega
  rw [scanField, if_neg husize, if_neg (by omega), fromRawU32_eq_some.mpr hr.symm]
  simp [isI31_eq_false h2]

theorem ty_eq (hr : 8 ∣ r.raw) (hn : r.raw + 16 ≤ h.memory.len) :
    h.ty r = .ok (if isExtern h.memory r.raw then none else some (objTy h.memory r.raw)) := by
  rw [ty, index_eq hr hn]
  by_cases hty : objTy h.memory r.raw = u32Max
  · rw [isExtern, decide_eq_true hty]
    exact congrArg Except.ok (if_pos hty)
  · rw [isExtern, decide_eq_false hty]
    exact congrArg Except.ok (if_neg hty)

theorem arrayLen_eq (hr : 8 ∣ r.raw) (hn : r.raw + 24 ≤ h.memory.len)
    (hk : h.memory.readU32 r.raw = VMGcKind.arrayRef.asU32) :
    h.arrayLen r = .ok (h.memory.readU32 (r.raw + 16)) := by
  have hass : h.assertIsArray r = .ok () :=
    debug_eq fun _ => by rw [kind_eq hr (by omega) hk, ok_bind, ensure_of rfl]
  rw [arrayLen, hass, index_eq hr hn]
  rfl

/-- The elements of an array are scanned like fields. -/
theorem foldlM_scanElem {is : List ℕ}
    (his : ∀ i ∈ is, i * 4 + copyingGcRefArrayElemsOffset ≤ u32Max) :
    is.foldlM (scanElem t) h =
      (is.map fun i => i * 4 + copyingGcRefArrayElemsOffset).foldlM
        (fun h o => h.scanField t o) h := by
  induction is generalizing h with
  | nil => rfl
  | cons i is ih =>
    have hi := his i (.head _)
    rw [foldlM_cons, scanElem, if_neg (by omega)]
    exact congrArg _ (funext fun h => ih fun j hj => his j (.tail i hj))

theorem isInActiveSpace_iff {i : ℕ} :
    h.isInActiveSpace i = true ↔ h.activeSpaceStart ≤ i ∧ i < h.activeSpaceEnd := by
  simp [isInActiveSpace]

/-- `worklist_pop` takes the next copy and moves behind it. -/
theorem worklistPop_eq (hr : r.raw = h.worklistPtr) (h8 : 8 ∣ r.raw)
    (hst : h.activeSpaceStart ≤ r.raw) (hpos : 0 < objSize h.memory r.raw)
    (hbump : r.raw + objSize h.memory r.raw ≤ h.bumpPtr) (hend : h.bumpPtr ≤ h.activeSpaceEnd)
    (hu32 : h.activeSpaceEnd ≤ u32Max) (hn : r.raw + 16 ≤ h.memory.len) :
    h.worklistPop = .ok ({ h with worklistPtr := r.raw + objSize h.memory r.raw }, some r) := by
  have h2 : r.raw % 2 ≠ i31RefDiscriminant := by
    rw [i31RefDiscriminant]
    omega
  have hfrom : fromHeapIndex r.raw = some r := (if_neg h2).trans (fromRawU32_eq_some.mpr rfl)
  have hin : h.isInActiveSpace r.raw = true := isInActiveSpace_iff.mpr (by omega)
  have hbin : h.isInActiveSpace h.bumpPtr = true ∨ h.bumpPtr = h.activeSpaceEnd := by
    rw [isInActiveSpace_iff]
    omega
  rw [worklistPop, ← hr, debugAssert_eq fun _ => .inl hin, ok_bind,
    debugAssert_eq fun _ => hbin, ok_bind, debugAssert_eq fun _ => by omega, ok_bind,
    if_neg (by omega), if_neg r.raw_ne_zero, hfrom, okOr_some, ok_bind, objectSize_eq h8 hn,
    ok_bind, addU32_of_le (by omega), ok_bind, debugAssert_eq fun _ => hbump]
  rfl

/-- The worklist is empty once it has reached the bump pointer. -/
theorem worklistPop_eq_none (heq : h.worklistPtr = h.bumpPtr)
    (hst : h.activeSpaceStart ≤ h.bumpPtr) (hend : h.bumpPtr ≤ h.activeSpaceEnd) :
    h.worklistPop = .ok (h, none) := by
  have hbin : h.isInActiveSpace h.bumpPtr = true ∨ h.bumpPtr = h.activeSpaceEnd := by
    rw [isInActiveSpace_iff]
    omega
  rw [worklistPop, heq, debugAssert_eq fun _ => hbin, debugAssert_eq fun _ => hbin,
    ok_bind, debugAssert_eq fun _ => le_refl _, if_pos rfl]
  rfl

end CopyingHeap

end WasmDeps.Gc
