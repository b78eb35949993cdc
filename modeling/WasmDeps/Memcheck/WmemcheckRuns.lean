import Mathlib.Order.Interval.Finset.Nat
import WasmDeps.Memcheck.Wmemcheck

/-!
# The memory checker and its reference model

The reference model is the history of what the checker has accepted: which allocations are
live, and which bytes were written since their allocation.  It gives every byte of the memory
a state, and the checker's metadata is that state, as long as no allocation of length zero
shares its base with another.
-/

namespace WasmDeps.Memcheck

open WasmDeps.Lib List Exec Wmemcheck

def bytes (addr len : ℕ) : Finset ℕ := Finset.Ico addr (addr + len)

theorem mem_bytes {i addr len : ℕ} : i ∈ bytes addr len ↔ addr ≤ i ∧ i < addr + len :=
  Finset.mem_Ico

/-! ## Loops over the metadata -/

variable {m : List MemState} {addr len i : ℕ} {h h' : History} {w : Wmemcheck}

section Loops

variable {metadata : List MemState}

theorem allGood_eq {f : ℕ → MemState} (h : ∀ i ∈ bytes addr len, metadata[i]? = some (f i))
    (good : MemState → Prop) [DecidablePred good] :
    allGood good metadata addr len = .ok (decide (∀ i ∈ bytes addr len, good (f i))) := by
  induction len generalizing addr with
  | zero => simp [allGood, bytes]
  | succ n ih =>
    have hspl : ∀ i, i ∈ bytes addr (n + 1) ↔ i = addr ∨ i ∈ bytes (addr + 1) n := by
      intro i
      simp only [mem_bytes]
      omega
    have hrest := ih fun i hi => h i ((hspl i).mpr (.inr hi))
    rw [allGood, h addr ((hspl addr).mpr (.inl rfl)), unwrap_some]
    by_cases hgood : good (f addr) <;> simp [hspl, hgood, hrest]

/-- The metadata with another state for a range. -/
structure Filled (metadata m : List MemState) (state : MemState) (addr len : ℕ) : Prop where
  length_eq : m.length = metadata.length
  get_eq : ∀ i, m[i]? = if i ∈ bytes addr len then some state else metadata[i]?

theorem fill_spec (state : MemState) (h : addr + len ≤ metadata.length) :
    ∃ m, fill state metadata addr len = .ok m ∧ Filled metadata m state addr len := by
  induction len generalizing addr metadata with
  | zero => exact ⟨metadata, rfl, rfl, by simp [bytes]⟩
  | succ n ih =>
    have hle : addr + 1 + n ≤ (metadata.set addr state).length := by
      rw [length_set]
      omega
    obtain ⟨m, hrun, hlen, hget⟩ := ih hle
    refine ⟨m, ?_, by rw [hlen, length_set], fun i => ?_⟩
    · rw [fill, ensure_of (by omega)]
      exact hrun
    rw [hget, getElem?_set]
    simp only [mem_bytes]
    split
    · rw [if_pos (by omega)]
    · split
      · rw [if_pos (by omega), if_pos (by omega)]
      · rw [if_neg (by omega)]

end Loops

/-! ## The reference model -/

/-- An allocation that has not been freed. -/
structure Allocation where
  base : ℕ
  len : ℕ
  deriving DecidableEq

def Allocation.bytes (a : Allocation) : Finset ℕ := Memcheck.bytes a.base a.len

def Allocation.Apart (a b : Allocation) : Prop := Disjoint a.bytes b.bytes

instance : Std.Symm Allocation.Apart := ⟨fun _ _ h => Disjoint.symm h⟩

/-- What the checker has accepted. -/
structure History where
  /-- The size of the stack, which is at the bottom of the memory. -/
  stack : ℕ
  live : List Allocation
  /-- The bytes that were written since their allocation. -/
  written : Finset ℕ

/-- The operations that the checker sees. -/
inductive Op
  | malloc (addr len : ℕ)
  | free (addr : ℕ)
  | read (addr len : ℕ)
  | write (addr len : ℕ)
  | grow (numBytes : ℕ)

namespace History

def IsAllocated (h : History) (i : ℕ) : Prop := ∃ a ∈ h.live, i ∈ a.bytes

instance (h : History) (i : ℕ) : Decidable (h.IsAllocated i) :=
  inferInstanceAs (Decidable (∃ a ∈ h.live, i ∈ a.bytes))

/-- The state that a byte should have. -/
def state (h : History) (i : ℕ) : MemState :=
  if i < h.stack then .validToReadWrite
  else if h.IsAllocated i then if i ∈ h.written then .validToReadWrite else .validToWrite
  else .unallocated

/-- The history after an operation that was accepted. -/
def after (h : History) : Op → History
  | .malloc addr len =>
    { h with live := ⟨addr, len⟩ :: h.live, written := h.written \ bytes addr len }
  | .free addr => { h with live := h.live.filter (·.base ≠ addr) }
  | .write addr len => { h with written := h.written ∪ bytes addr len }
  | .read _ _ | .grow _ => h

theorem state_eq_unallocated : h.state i = .unallocated ↔ h.stack ≤ i ∧ ¬h.IsAllocated i := by
  rw [state]
  split
  · simp [*]
  · split
    · split <;> simp [*]
    · simp_all

theorem state_eq_validToReadWrite :
    h.state i = .validToReadWrite ↔ i < h.stack ∨ h.IsAllocated i ∧ i ∈ h.written := by
  rw [state]
  split
  · simp [*]
  · split
    · split <;> simp [*]
    · simp_all

theorem state_congr (hs : h'.stack = h.stack) (ha : h'.IsAllocated i ↔ h.IsAllocated i)
    (hw : i ∈ h'.written ↔ i ∈ h.written) : h'.state i = h.state i := by
  simp [state, hs, ha, hw]

end History

/-- The checker with the history of its operations. -/
structure Session where
  checker : Wmemcheck
  history : History

def Op.call (w : Wmemcheck) : Op → Checked
  | .malloc addr len => w.malloc addr len
  | .free addr => w.free addr
  | .read addr len => w.read addr len
  | .write addr len => w.write addr len
  | .grow numBytes => pure (.ok (), w.updateMemSize numBytes)

/-- One operation; the history grows if it is accepted. -/
def Session.step (s : Session) (op : Op) : Exec Session := do
  let (result, w) ← op.call s.checker
  match result with
  | .ok () => pure ⟨w, s.history.after op⟩
  | .error _ => pure ⟨w, s.history⟩

/-- Runs from a memory that is larger than the stack. -/
def wmemcheckMachine : Machine Session Op where
  start := fun s => ∃ memSize stackSize, stackSize < memSize ∧ memSize ≤ usizeMax ∧
    (Wmemcheck.new memSize).setStackSize stackSize = .ok s.checker ∧
    s.history = ⟨stackSize, [], ∅⟩
  allowed := fun _ _ => True
  step := Session.step

/-- Ranges are ranges of `usize`, and an allocation of length zero does not share its base. -/
def Session.Separate (s : Session) : Op → Prop
  | .malloc addr len => addr + len ≤ usizeMax ∧
      ∀ a ∈ s.history.live, a.base = addr → 0 < a.len ∧ 0 < len
  | .read addr len | .write addr len => addr + len ≤ usizeMax
  | .free _ | .grow _ => True

/-! ## The checker follows the reference model -/

def Wmemcheck.InHeap (w : Wmemcheck) (addr len : ℕ) : Prop :=
  w.maxStackSize ≤ addr ∧ addr + len ≤ w.metadata.length

instance (w : Wmemcheck) (addr len : ℕ) : Decidable (w.InHeap addr len) :=
  inferInstanceAs (Decidable (_ ∧ _))

def Wmemcheck.InBounds (w : Wmemcheck) (addr len : ℕ) : Prop :=
  addr + len < w.maxStackSize ∨ w.InHeap addr len

instance (w : Wmemcheck) (addr len : ℕ) : Decidable (w.InBounds addr len) :=
  inferInstanceAs (Decidable (_ ∨ _))

/-- The checker accepts the operation. -/
def Accepts (c : Checked) : Prop := ∃ w, c = .ok (.ok (), w)

/-- The call accepts exactly if `p`, and leaves a checker with `Q`; otherwise it gives an
error and leaves the checker as it is. -/
def Decides (c : Checked) (w : Wmemcheck) (p : Prop) (Q : Wmemcheck → Prop) : Prop :=
  (p ∧ ∃ w', c = .ok (.ok (), w') ∧ Q w') ∨ (¬p ∧ ∃ e, c = .ok (.error e, w))

variable {c : Checked} {p : Prop} {Q : Wmemcheck → Prop}

theorem Decides.accepts_iff (h : Decides c w p Q) : Accepts c ↔ p := by
  rcases h with ⟨hp, w', hc, -⟩ | ⟨hp, e, rfl⟩
  · exact ⟨fun _ => hp, fun _ => ⟨w', hc⟩⟩
  · refine ⟨?_, fun h => absurd h hp⟩
    rintro ⟨_, hw⟩
    cases hw

theorem Decides.of_iff {p' : Prop}
    (h : Decides c w p Q) (hp : p ↔ p') : Decides c w p' Q := propext hp ▸ h

theorem decides_bounds {b : Prop} [Decidable b] (e : AccessError) (h : b → Decides c w p Q) :
    Decides (do
      let inBounds ← (.ok (decide b) : Exec Bool)
      if inBounds then c else pure (.error e, w)) w (b ∧ p) Q := by
  by_cases hb : b
  · simpa [hb] using h hb
  · exact .inr ⟨fun hbp => hb hbp.1, e, by simp [hb]⟩

/-- The metadata is that of the reference model.  The byte between the stack and the heap can
be accessed as neither. -/
structure Tracks (w : Wmemcheck) (h : History) : Prop where
  flag : w.flag = true
  stackPointer : w.stackPointer = 0
  maxStackSize : w.maxStackSize = h.stack + 1
  stack_lt : h.stack < w.metadata.length
  recorded : ∀ addr len, w.mallocs.get? addr = some len ↔ ⟨addr, len⟩ ∈ h.live
  inHeap : ∀ a ∈ h.live, w.InHeap a.base a.len
  le_usizeMax : ∀ a ∈ h.live, a.base + a.len ≤ usizeMax
  disjoint : h.live.Pairwise Allocation.Apart
  states : ∀ i, i ≠ h.stack → i < w.metadata.length → w.metadata[i]? = some (h.state i)

namespace Tracks

variable {st : MemState}

theorem isInBoundsHeap_eq (hu : addr + len ≤ usizeMax) :
    w.isInBoundsHeap addr len = .ok (decide (w.InHeap addr len)) := by
  rw [isInBoundsHeap]
  split
  · rw [addUsize_of_le hu]
    simp [InHeap, *]
  · simp [InHeap, *]

variable (ht : Tracks w h)
include ht

theorem isInBounds_eq (hu : addr + len ≤ usizeMax) :
    w.isInBounds addr len = .ok (decide (w.InBounds addr len)) := by
  unfold isInBounds isInBoundsStack
  rw [if_pos (by simp [ht.stackPointer]), addUsize_of_le hu, isInBoundsHeap_eq hu]
  by_cases hlt : addr + len < w.maxStackSize <;> simp [InBounds, hlt]

theorem length_le (hb : w.InBounds addr len) : addr + len ≤ w.metadata.length := by
  have hmax := ht.maxStackSize
  have hstk := ht.stack_lt
  rcases hb with hlt | hin
  · omega
  · exact hin.2

theorem scan_decides {good : MemState → Prop} [DecidablePred good] {next : ℕ → Checked}
    (hu : addr + len ≤ usizeMax) (hb : w.InBounds addr len) (e : AccessError)
    (hnext : (∀ i ∈ bytes addr len, good (h.state i)) →
      ∃ w', next len = .ok (.ok (), w') ∧ Q w') :
    Decides (w.scan good e addr len next) w (∀ i ∈ bytes addr len, good (h.state i)) Q := by
  have hsts : ∀ i ∈ bytes addr len, w.metadata[i]? = some (h.state i) := by
    intro i hi
    have hi := mem_bytes.mp hi
    have hmax := ht.maxStackSize
    refine ht.states i ?_ (hi.2.trans_le (ht.length_le hb))
    rcases hb with hlt | ⟨hlow, -⟩ <;> omega
  rw [scan, addUsize_of_le hu, ok_bind, Nat.add_sub_cancel_left, allGood_eq hsts good]
  by_cases hall : ∀ i ∈ bytes addr len, good (h.state i)
  · rw [decide_eq_true hall]
    exact .inl ⟨hall, hnext hall⟩
  · rw [decide_eq_false hall]
    exact .inr ⟨hall, e, rfl⟩

theorem fill {x : SortedMap ℕ ℕ} (hm : Filled w.metadata m st addr len)
    (hstk : h'.stack = h.stack) (hrec : ∀ b l, x.get? b = some l ↔ ⟨b, l⟩ ∈ h'.live)
    (hlive : ∀ a ∈ h'.live, a ∈ h.live ∨ w.InHeap a.base a.len ∧ a.base + a.len ≤ usizeMax)
    (hdisj : h'.live.Pairwise Allocation.Apart) (hnew : ∀ i ∈ bytes addr len, h'.state i = st)
    (hold : ∀ i, i ∉ bytes addr len → h'.state i = h.state i) :
    Tracks { w with metadata := m, mallocs := x } h' where
  flag := ht.flag
  stackPointer := ht.stackPointer
  maxStackSize := hstk ▸ ht.maxStackSize
  stack_lt := by
    rw [hstk, hm.length_eq]
    exact ht.stack_lt
  recorded := hrec
  inHeap := by
    intro a ha
    rw [InHeap, hm.length_eq]
    exact (hlive a ha).elim (ht.inHeap a) And.left
  le_usizeMax := fun a ha => (hlive a ha).elim (ht.le_usizeMax a) And.right
  disjoint := hdisj
  states := by
    intro i hne hi
    rw [hm.get_eq]
    split
    · rw [hnew i ‹_›]
    · rw [hold i ‹_›, ht.states i (hstk ▸ hne) (hi.trans_eq hm.length_eq)]

section

variable (hu : addr + len ≤ usizeMax)
include hu

theorem malloc_decides : Decides (w.malloc addr len) w
      (w.InHeap addr len ∧ ∀ i ∈ bytes addr len, h.state i = .unallocated)
      fun w' => (∀ a ∈ h.live, a.base = addr → 0 < a.len ∧ 0 < len) →
        Tracks w' (h.after (.malloc addr len)) := by
  rw [malloc, isInBoundsHeap_eq hu]
  refine decides_bounds _ fun hin => ht.scan_decides hu (.inr hin) _ fun hnone => ?_
  obtain ⟨m, hfill, hm⟩ := fill_spec .validToWrite hin.2
  refine ⟨_, by rw [hfill]; rfl, fun hsep => ?_⟩
  have hnone := fun i hi => History.state_eq_unallocated.mp (hnone i hi)
  have hother : ∀ a ∈ h.live, a.base ≠ addr := by
    intro a ha hbase
    obtain ⟨hpos, hlen⟩ := hsep a ha hbase
    exact (hnone addr (mem_bytes.mpr (by omega))).2 ⟨a, ha, mem_bytes.mpr (by omega)⟩
  refine ht.fill hm rfl (fun b l => ?_) (fun a ha => ?_) ?_ (fun i hi => ?_) fun i hi => ?_
  · rw [SortedMap.get?_insert, History.after, mem_cons, Allocation.mk.injEq]
    split
    · rename_i hb
      refine ⟨fun hl => .inl ⟨hb, (Option.some.inj hl).symm⟩, ?_⟩
      rintro (⟨-, rfl⟩ | hl)
      · rfl
      · exact absurd hb (hother _ hl)
    · rename_i hb
      simp [hb, ht.recorded]
  · rcases mem_cons.mp ha with rfl | ha
    · exact .inr ⟨hin, hu⟩
    · exact .inl ha
  · refine pairwise_cons.mpr ⟨fun a ha => Finset.disjoint_left.mpr fun i hi hia => ?_, ht.disjoint⟩
    exact (hnone i hi).2 ⟨a, ha, hia⟩
  · have hstk : ¬i < (h.after (.malloc addr len)).stack := not_lt.mpr (hnone i hi).1
    have hall : (h.after (.malloc addr len)).IsAllocated i := ⟨⟨addr, len⟩, .head _, hi⟩
    rw [History.state, if_neg hstk, if_pos hall, if_neg (by simp [History.after, hi])]
  refine History.state_congr rfl ⟨?_, ?_⟩ (by simp [History.after, hi])
  · rintro ⟨a, ha, hia⟩
    rcases mem_cons.mp ha with rfl | ha
    · exact absurd hia hi
    · exact ⟨a, ha, hia⟩
  · exact fun ⟨a, ha, hia⟩ => ⟨a, .tail _ ha, hia⟩

theorem read_decides : Decides (w.read addr len) w
      (w.InBounds addr len ∧ ∀ i ∈ bytes addr len, h.state i = .validToReadWrite)
      fun w' => Tracks w' (h.after (.read addr len)) := by
  rw [Wmemcheck.read, if_pos ht.flag, ht.isInBounds_eq hu]
  exact decides_bounds _ fun hb => ht.scan_decides hu hb _ fun _ => ⟨w, rfl, ht⟩

theorem write_decides : Decides (w.write addr len) w
      (w.InBounds addr len ∧ ∀ i ∈ bytes addr len, h.state i ≠ .unallocated)
      fun w' => Tracks w' (h.after (.write addr len)) := by
  rw [write, if_pos ht.flag, ht.isInBounds_eq hu]
  refine decides_bounds _ fun hb => ht.scan_decides hu hb _ fun hall => ?_
  obtain ⟨m, hfill, hm⟩ := fill_spec .validToReadWrite (ht.length_le hb)
  refine ⟨_, by rw [hfill]; rfl, ht.fill hm rfl ht.recorded (fun _ => .inl) ht.disjoint
    (fun i hi => ?_) fun i hi => ?_⟩
  · have hne := hall i hi
    rw [Ne, History.state_eq_unallocated, not_and_or, not_le, not_not] at hne
    exact History.state_eq_validToReadWrite.mpr
      (hne.imp_right fun ha => ⟨ha, Finset.mem_union_right _ hi⟩)
  · exact History.state_congr rfl Iff.rfl (by simp [History.after, hi])

end

/-- The bytes of a live allocation belong to no other. -/
theorem state_free (ha : ⟨addr, len⟩ ∈ h.live) (hi : i ∈ bytes addr len) :
    (h.after (.free addr)).state i = .unallocated := by
  have hmax := ht.maxStackSize
  have hlow : w.maxStackSize ≤ addr := (ht.inHeap _ ha).1
  have hi' := (mem_bytes.mp hi).1
  refine History.state_eq_unallocated.mpr ⟨show h.stack ≤ i by omega, ?_⟩
  rintro ⟨b, hb, hib⟩
  obtain ⟨hb, hne⟩ := mem_filter.mp hb
  have hne : b ≠ ⟨addr, len⟩ := by
    rintro rfl
    simp at hne
  exact Finset.disjoint_left.mp (ht.disjoint.forall hb ha hne) hib hi

/-- The bytes of a live allocation are not marked unallocated, so only the base matters. -/
theorem free_decides (addr : ℕ) :
    Decides (w.free addr) w (∃ a ∈ h.live, a.base = addr)
      fun w' => Tracks w' (h.after (.free addr)) := by
  rw [free]
  cases hget : w.mallocs.get? addr with
  | none =>
    refine .inr ⟨?_, .invalidFree addr, rfl⟩
    rintro ⟨a, ha, rfl⟩
    cases hget.symm.trans ((ht.recorded a.base a.len).mpr ha)
  | some len =>
    have ha := (ht.recorded addr len).mp hget
    have hin := ht.inHeap _ ha
    have hall : ∀ i ∈ bytes addr len, h.state i ≠ .unallocated := fun i hi hst =>
      (History.state_eq_unallocated.mp hst).2 ⟨_, ha, hi⟩
    obtain ⟨m, hfill, hm⟩ := fill_spec .unallocated hin.2
    refine .of_iff (ht.scan_decides (ht.le_usizeMax _ ha) (.inr hin) _ fun _ =>
      ⟨_, by rw [hfill]; rfl, ?_⟩) (iff_of_true hall ⟨_, ha, rfl⟩)
    refine ht.fill hm rfl (fun b l => ?_) (fun b hb => .inl (mem_filter.mp hb).1)
      (ht.disjoint.filter _) (fun i hi => ht.state_free ha hi) fun i hi => ?_
    · rw [SortedMap.get?_erase, History.after]
      split
      · simp [*]
      · simp [*, ht.recorded]
    refine History.state_congr rfl ⟨?_, ?_⟩ Iff.rfl
    · exact fun ⟨b, hb, hib⟩ => ⟨b, (mem_filter.mp hb).1, hib⟩
    rintro ⟨b, hb, hib⟩
    refine ⟨b, mem_filter.mpr ⟨hb, decide_eq_true ?_⟩, hib⟩
    rintro rfl
    cases ((ht.recorded _ _).mpr hb).symm.trans ((ht.recorded _ _).mpr ha)
    exact hi hib

theorem grow (numBytes : ℕ) : Tracks (w.updateMemSize numBytes) h where
  flag := ht.flag
  stackPointer := ht.stackPointer
  maxStackSize := ht.maxStackSize
  stack_lt := ht.stack_lt.trans_le (by simp [updateMemSize])
  recorded := ht.recorded
  inHeap := fun a ha => ⟨(ht.inHeap a ha).1,
    (ht.inHeap a ha).2.trans (by simp [updateMemSize])⟩
  le_usizeMax := ht.le_usizeMax
  disjoint := ht.disjoint
  states := by
    intro i hne hlt
    by_cases hold : i < w.metadata.length
    · exact (getElem?_append_left hold).trans (ht.states i hne hold)
    have hnone : ¬h.IsAllocated i := by
      rintro ⟨a, ha, hia⟩
      exact hold (lt_of_lt_of_le (mem_bytes.mp hia).2 (ht.inHeap a ha).2)
    rw [History.state_eq_unallocated.mpr ⟨ht.stack_lt.le.trans (not_lt.mp hold), hnone⟩]
    simp only [updateMemSize, length_append, length_replicate] at hlt ⊢
    rw [getElem?_append_right (not_lt.mp hold), getElem?_replicate, if_pos (by omega)]

omit ht

theorem start {memSize stackSize : ℕ} (hlt : stackSize < memSize) (hmax : memSize ≤ usizeMax) :
    ∃ w, (new memSize).setStackSize stackSize = .ok w ∧
      Tracks w ⟨stackSize, [], ∅⟩ := by
  have hadd := addUsize_of_le (a := stackSize) (b := 1) (by omega)
  -- An empty stack is not filled.
  have hle : 0 + (if stackSize = 0 then 0 else stackSize + 1) ≤
      (replicate memSize MemState.unallocated).length := by
    rw [length_replicate]
    split <;> omega
  obtain ⟨m, hfill, hm⟩ := fill_spec .validToReadWrite hle
  have hlen := hm.length_eq.trans length_replicate
  refine ⟨⟨m, .empty, 0, stackSize + 1, true⟩, ?_, rfl, rfl, rfl, hlt.trans_eq hlen.symm, by simp,
    nofun, nofun, .nil, fun i hne hi => ?_⟩
  · simp only [setStackSize, new, hadd, ok_bind, updateStackPointer, Nat.not_lt_zero, if_false]
    by_cases hzero : stackSize = 0
    · rw [if_pos hzero] at hfill
      simp only [hzero, lt_irrefl, if_false, Nat.sub_self]
      cases hfill
      rfl
    · rw [if_neg hzero] at hfill
      simp [Nat.pos_of_ne_zero hzero, hfill]
  have hne : i ≠ stackSize := hne
  have hstate : (⟨stackSize, [], ∅⟩ : History).state i =
      if i < stackSize then .validToReadWrite else .unallocated := by
    simp [History.state, History.IsAllocated]
  have hbs : i ∈ bytes 0 (if stackSize = 0 then 0 else stackSize + 1) ↔ i < stackSize := by
    rw [mem_bytes]
    split <;> omega
  rw [hm.get_eq, hstate, getElem?_replicate, if_pos (hi.trans_eq hlen)]
  simp only [hbs]
  split <;> rfl

/-- No operation panics, and every operation keeps the metadata that of the reference model. -/
theorem step {s : Session} (ht : Tracks s.checker s.history) {op : Op} (hop : s.Separate op) :
    ∃ t, s.step op = .ok t ∧ Tracks t.checker t.history := by
  have hdone : ∀ {p}, Decides (op.call s.checker) s.checker p
      (fun w' => Tracks w' (s.history.after op)) →
      ∃ t, s.step op = .ok t ∧ Tracks t.checker t.history := by
    rintro p (⟨-, w', hcall, ht'⟩ | ⟨-, e, hcall⟩)
    · exact ⟨⟨w', s.history.after op⟩, by rw [Session.step, hcall]; rfl, ht'⟩
    · exact ⟨s, by rw [Session.step, hcall]; rfl, ht⟩
  cases op with
  | malloc addr len =>
    exact hdone ((ht.malloc_decides hop.1).imp_left fun ⟨hp, w', hcall, ht'⟩ =>
      ⟨hp, w', hcall, ht' hop.2⟩)
  | free addr => exact hdone (ht.free_decides addr)
  | read addr len => exact hdone (ht.read_decides hop)
  | write addr len => exact hdone (ht.write_decides hop)
  | grow numBytes => exact ⟨_, rfl, ht.grow numBytes⟩

theorem of_reaches {s : Session} (hs : (wmemcheckMachine.onlyWhen Session.Separate).Reaches s) :
    Tracks s.checker s.history := by
  apply hs.invariant (P := fun s => Tracks s.checker s.history)
  · rintro ⟨w, _⟩ ⟨memSize, stackSize, hlt, hmax, hw, rfl⟩
    obtain ⟨w', hw', ht⟩ := start hlt hmax
    cases hw'.symm.trans hw
    exact ht
  · rintro s op t hs ⟨-, hop⟩ hok
    obtain ⟨t', ht', htracks⟩ := hs.step hop
    cases ht'.symm.trans hok
    exact htracks

end Tracks

/-! ## What the checker accepts -/

/-- An access to the heap; an empty one lies within the memory. -/
def Wmemcheck.HeapAccess (w : Wmemcheck) (addr len : ℕ) : Prop :=
  w.maxStackSize ≤ addr ∧ addr + len ≤ usizeMax ∧ (len = 0 → addr ≤ w.metadata.length)

/-- The checker does what the reference model asks for. -/
structure Implements (w : Wmemcheck) (h : History) : Prop where
  recorded : ∀ addr len, w.mallocs.get? addr = some len ↔ ⟨addr, len⟩ ∈ h.live
  disjoint : h.live.Pairwise fun (a b : Allocation) => Disjoint a.bytes b.bytes
  outside_stack : ∀ a ∈ h.live, w.maxStackSize ≤ a.base
  covers : ∀ i, w.maxStackSize ≤ i → i < w.metadata.length →
    (w.metadata[i]? ≠ some .unallocated ↔ ∃ a ∈ h.live, i ∈ a.bytes)
  write_iff : ∀ addr len, w.HeapAccess addr len →
    (Accepts (w.write addr len) ↔ ∀ i ∈ bytes addr len, ∃ a ∈ h.live, i ∈ a.bytes)
  read_iff : ∀ addr len, w.HeapAccess addr len →
    (Accepts (w.read addr len) ↔
      ∀ i ∈ bytes addr len, (∃ a ∈ h.live, i ∈ a.bytes) ∧ i ∈ h.written)
  malloc_iff : ∀ addr len, addr + len ≤ usizeMax →
    (Accepts (w.malloc addr len) ↔
      w.InHeap addr len ∧ ∀ a ∈ h.live, Disjoint (bytes addr len) a.bytes)
  free_iff : ∀ addr, Accepts (w.free addr) ↔ ∃ a ∈ h.live, a.base = addr
  /-- No byte of a freed allocation can be read or written. -/
  freed : ∀ a ∈ h.live, ∀ w', w.free a.base = .ok (.ok (), w') →
    ∀ addr len, addr + len ≤ usizeMax → ∀ i ∈ bytes addr len, i ∈ a.bytes →
      ¬Accepts (w'.read addr len) ∧ ¬Accepts (w'.write addr len)

namespace Tracks

theorem inHeap_of_allocated (ht : Tracks w h) (ha : w.HeapAccess addr len)
    (hall : ∀ i ∈ bytes addr len, h.IsAllocated i) : w.InHeap addr len := by
  refine ⟨ha.1, ?_⟩
  rcases Nat.eq_zero_or_pos len with rfl | hpos
  · exact ha.2.2 rfl
  obtain ⟨a, ha, hmem⟩ := hall (addr + len - 1) (mem_bytes.mpr (by omega))
  have hlt := (mem_bytes.mp hmem).2
  have hle := (ht.inHeap a ha).2
  omega

theorem state_heap (ht : Tracks w h) (hi : w.maxStackSize ≤ i) :
    h.state i = .unallocated ↔ ¬h.IsAllocated i := by
  have hmax := ht.maxStackSize
  rw [History.state_eq_unallocated, and_iff_right (by omega)]

theorem implements (ht : Tracks w h) : Implements w h where
  recorded := ht.recorded
  disjoint := ht.disjoint
  outside_stack := fun a ha => (ht.inHeap a ha).1
  covers := by
    intro i hi hlt
    have hmax := ht.maxStackSize
    rw [ht.states i (by omega) hlt, Ne, Option.some.injEq, ht.state_heap hi, not_not]
    rfl
  write_iff := by
    intro addr len ha
    rw [(ht.write_decides ha.2.1).accepts_iff]
    have hstate : ∀ i ∈ bytes addr len, h.state i ≠ .unallocated ↔ h.IsAllocated i := by
      intro i hi
      rw [Ne, ht.state_heap (ha.1.trans (mem_bytes.mp hi).1), not_not]
    refine ⟨fun ⟨_, hall⟩ i hi => (hstate i hi).mp (hall i hi), fun hall => ⟨.inr ?_, ?_⟩⟩
    · exact ht.inHeap_of_allocated ha hall
    · exact fun i hi => (hstate i hi).mpr (hall i hi)
  read_iff := by
    intro addr len ha
    rw [(ht.read_decides ha.2.1).accepts_iff]
    have hstate : ∀ i ∈ bytes addr len, h.state i = .validToReadWrite ↔
        h.IsAllocated i ∧ i ∈ h.written := by
      intro i hi
      have hlow := ha.1.trans (mem_bytes.mp hi).1
      have hmax := ht.maxStackSize
      rw [History.state_eq_validToReadWrite, or_iff_right (by omega)]
    refine ⟨fun ⟨_, hall⟩ i hi => (hstate i hi).mp (hall i hi), fun hall => ⟨.inr ?_, ?_⟩⟩
    · exact ht.inHeap_of_allocated ha fun i hi => (hall i hi).1
    · exact fun i hi => (hstate i hi).mpr (hall i hi)
  malloc_iff := by
    intro addr len hu
    rw [(ht.malloc_decides hu).accepts_iff]
    refine and_congr_right fun hin => ⟨fun hall a ha => ?_, fun hall i hi => ?_⟩
    · refine Finset.disjoint_left.mpr fun i hi hia => ?_
      exact (History.state_eq_unallocated.mp (hall i hi)).2 ⟨a, ha, hia⟩
    · apply (ht.state_heap (hin.1.trans (mem_bytes.mp hi).1)).mpr
      exact fun ⟨a, ha, hia⟩ => Finset.disjoint_left.mp (hall a ha) hi hia
  free_iff := fun addr => (ht.free_decides addr).accepts_iff
  freed := by
    intro a ha w' hcall addr len hu i hi hia
    rcases ht.free_decides a.base with ⟨-, w1, hcall1, ht'⟩ | ⟨hno, -⟩
    · cases hcall1.symm.trans hcall
      have hstate := ht.state_free ha hia
      rw [(ht'.read_decides hu).accepts_iff, (ht'.write_decides hu).accepts_iff]
      refine ⟨fun ⟨_, hall⟩ => ?_, fun ⟨_, hall⟩ => hall i hi hstate⟩
      cases hstate.symm.trans (hall i hi)
    · exact absurd ⟨a, ha, rfl⟩ hno

end Tracks

/-- **The memory checker implements its reference model.**  In every state of every run from
a memory larger than the stack in which no allocation of length zero shares its base with
another: the recorded allocations are the live ones, they are disjoint and outside the stack,
and cover exactly the bytes of the heap that are not marked unallocated; accesses to the heap,
allocations and frees are accepted exactly when the reference model says so; and what was
freed cannot be accessed. -/
theorem wmemcheck_implements_reference {s : Session}
    (hs : (wmemcheckMachine.onlyWhen Session.Separate).Reaches s) :
    Implements s.checker s.history :=
  (Tracks.of_reaches hs).implements

theorem start_eight : wmemcheckMachine.start ⟨⟨[.validToReadWrite, .validToReadWrite] ++
    replicate 6 .unallocated, .empty, 0, 2, true⟩, ⟨1, [], ∅⟩⟩ :=
  ⟨8, 1, by decide, by decide, rfl, rfl⟩

/-- An allocation of which the first half is written. -/
theorem wmemcheck_implements_reference_half :
    ∃ s, (wmemcheckMachine.onlyWhen Session.Separate).Reaches s ∧ Accepts (s.checker.read 2 2) ∧
      ¬Accepts (s.checker.read 2 4) ∧ Accepts (s.checker.write 2 4) := by
  have hst : (wmemcheckMachine.onlyWhen Session.Separate).Reaches _ := .start start_eight
  have hmalloc := hst.step (i := Op.malloc 2 4) ⟨trivial, by decide, by simp⟩ rfl
  have hwr := hmalloc.step (i := Op.write 2 2) ⟨trivial, show 2 + 2 ≤ usizeMax by decide⟩ rfl
  have himp := wmemcheck_implements_reference hwr
  refine ⟨_, hwr, ?_⟩
  rw [himp.read_iff 2 2 ⟨by decide, by decide, nofun⟩,
    himp.read_iff 2 4 ⟨by decide, by decide, nofun⟩,
    himp.write_iff 2 4 ⟨by decide, by decide, nofun⟩]
  exact ⟨by decide, by decide, by decide⟩

/-- **A free that leaves the bytes behind.**  Four bytes are allocated, and then none at the
same base, which overwrites the recorded length.  The free is accepted, and the four bytes can
still be written. -/
theorem wmemcheck_free_leaves_bytes :
    ∃ s w, wmemcheckMachine.Reaches s ∧ ⟨2, 4⟩ ∈ s.history.live ∧
      s.checker.free 2 = .ok (.ok (), w) ∧ Accepts (w.write 2 4) := by
  have hfst := (Machine.Reaches.start start_eight).step (i := Op.malloc 2 4) trivial rfl
  have hsnd := hfst.step (i := Op.malloc 2 0) trivial rfl
  refine ⟨_, _, hsnd, .tail _ (.head _), rfl, ?_⟩
  exact ⟨_, rfl⟩

/-! ## Use after free -/

/-- The byte is not in memory that the operation allocates. -/
def Op.Leaves (i : ℕ) : Op → Prop
  | .malloc addr len => i ∉ bytes addr len
  | _ => True

theorem History.state_after {op : Op} (hop : op.Leaves i) (hi : h.state i = .unallocated) :
    (h.after op).state i = .unallocated := by
  rw [state_eq_unallocated] at hi ⊢
  obtain ⟨hstack, hnone⟩ := hi
  cases op with
  | malloc addr len =>
    refine ⟨hstack, ?_⟩
    rintro ⟨a, ha, hia⟩
    rcases mem_cons.mp ha with rfl | ha
    · exact hop hia
    · exact hnone ⟨a, ha, hia⟩
  | free addr => exact ⟨hstack, fun ⟨a, ha, hia⟩ => hnone ⟨a, mem_of_mem_filter ha, hia⟩⟩
  | _ => exact ⟨hstack, hnone⟩

/-- Runs from a session in which the byte is not allocated. -/
def withoutMalloc (i : ℕ) (s : Session) : Machine Session Op where
  start := fun t => t = s
  allowed := fun t op => t.Separate op ∧ op.Leaves i
  step := Session.step

/-- **Use after free is reported**, whatever happens between the free and the access, until the
byte is allocated again. -/
theorem freed_inaccessible {s s' t : Session} {a : Allocation}
    (hs : (wmemcheckMachine.onlyWhen Session.Separate).Reaches s) (ha : a ∈ s.history.live)
    (hfree : s.step (.free a.base) = .ok s') (hi : i ∈ a.bytes)
    (ht : (withoutMalloc i s').Reaches t) (hu : addr + len ≤ usizeMax) (hmem : i ∈ bytes addr len) :
    (∃ e, t.checker.read addr len = .ok (.error e, t.checker)) ∧
      ∃ e, t.checker.write addr len = .ok (.error e, t.checker) := by
  have T := Tracks.of_reaches hs
  obtain ⟨T', hstate⟩ : Tracks t.checker t.history ∧ t.history.state i = .unallocated := by
    apply ht.invariant (P := fun t => Tracks t.checker t.history ∧ t.history.state i = .unallocated)
    · rintro _ rfl
      rcases T.free_decides a.base with ⟨-, w, hcall, T'⟩ | ⟨hno, -⟩
      · rw [Session.step, Op.call, hcall] at hfree
        cases hfree
        exact ⟨T', T.state_free ha hi⟩
      · exact absurd ⟨a, ha, rfl⟩ hno
    · rintro t op t' ⟨T, hstate⟩ ⟨hsep, hleaves⟩ hstep
      obtain ⟨t₁, ht₁, T'⟩ := T.step hsep
      cases ht₁.symm.trans hstep
      refine ⟨T', ?_⟩
      obtain ⟨⟨result, w⟩, -, hend⟩ := bind_eq_ok.mp ht₁
      cases result with
      | ok => cases hend; exact History.state_after hleaves hstate
      | error => cases hend; exact hstate
  refine ⟨((T'.read_decides hu).resolve_left ?_).2, ((T'.write_decides hu).resolve_left ?_).2⟩
  · rintro ⟨⟨-, hall⟩, -⟩
    cases hstate.symm.trans (hall i hmem)
  · rintro ⟨⟨-, hall⟩, -⟩
    exact hall i hmem hstate

/-- The byte 3 is freed, and another byte of the old allocation is allocated and written. -/
theorem freed_inaccessible_reused : ∃ s t, (wmemcheckMachine.onlyWhen Session.Separate).Reaches s ∧
    (withoutMalloc 3 s).Reaches t ∧ Accepts (t.checker.read 2 1) ∧
      (∃ e, t.checker.read 2 2 = .ok (.error e, t.checker)) ∧
      ∃ e, t.checker.write 2 2 = .ok (.error e, t.checker) := by
  have hst : (wmemcheckMachine.onlyWhen Session.Separate).Reaches _ := .start start_eight
  have hmalloc := hst.step (i := Op.malloc 2 4) ⟨trivial, by decide, by simp⟩ rfl
  have hfree := hmalloc.step (i := Op.free 2) ⟨trivial, trivial⟩ rfl
  have hst' {s : Session} (_ : (wmemcheckMachine.onlyWhen Session.Separate).Reaches s) :
      (withoutMalloc 3 s).Reaches s := .start rfl
  have hagain := (hst' hfree).step (i := Op.malloc 2 1)
    ⟨⟨by decide, by decide⟩, show 3 ∉ bytes 2 1 by decide⟩ rfl
  have hwrite := hagain.step (i := Op.write 2 1) ⟨show 2 + 1 ≤ usizeMax by decide, trivial⟩ rfl
  exact ⟨_, _, hfree, hwrite, ⟨_, rfl⟩, freed_inaccessible hmalloc (a := ⟨2, 4⟩) (.head _) rfl
    (by decide) hwrite (by decide) (by decide)⟩

end WasmDeps.Memcheck
