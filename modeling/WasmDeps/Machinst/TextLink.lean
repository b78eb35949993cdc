import WasmDeps.Machinst.TextIsland

/-!
# Linking a text section

Runs of the text section builder: functions are appended and calls between them are resolved, in
any order, and the section is finished.  `append` decides with the size of a function whether an
island is needed and pads for the alignment of the function afterwards, so that a call may be left
behind the padding.  A run keeps the margin if before every call of the builder, and before the
section is finished, an island would still be in time.
-/

namespace WasmDeps.Machinst

open Lib List Exec MachTextSectionBuilder Text

/-- The builder, with what its caller knows: the offsets of the labeled functions, the start and
size of every appended body, and the offset and target of every resolved call. -/
structure LinkState where
  builder : MachTextSectionBuilder
  starts : List ℕ
  bodies : List (ℕ × ℕ)
  calls : List (ℕ × ℕ)

def LinkState.text (s : LinkState) : Text := s.builder.buf.text

/-- The operations of a builder, `finish` apart. -/
inductive LinkOp
  | append (labeled : Bool) (func : List UInt8) (align : ℕ)
  | resolveCall (offset target : ℕ)
  | forceVeneers

variable (s : LinkState)

/-- One operation of the linker. -/
def linkStep : LinkOp → Exec LinkState
  | .append labeled func align => do
    let (pos, builder) ← s.builder.append labeled func align
    pure { s with
      builder := builder
      starts := if labeled then s.starts ++ [pos] else s.starts
      bodies := s.bodies ++ [(pos, func.length)] }
  | .resolveCall offset target => do
    let (_, builder) ← s.builder.resolveReloc offset .arm64Call 0 target
    pure { s with builder := builder, calls := s.calls ++ [(offset, target)] }
  | .forceVeneers => pure { s with builder := s.builder.setForceVeneers }

/-- What the caller promises: alignments are powers of two, at most `numFuncs` functions are
labeled, and a resolved call is a branch instruction in a body, to one of these functions. -/
def linkAllowed (numFuncs : ℕ) (s : LinkState) : LinkOp → Prop
  | .append labeled _ align => align.isPowerOfTwo ∧ (labeled = true → s.starts.length < numFuncs)
  | .resolveCall offset target =>
    (∃ b ∈ s.bodies, b.1 ≤ offset ∧ offset + 4 ≤ b.1 + b.2) ∧ target < numFuncs ∧
      IsBranch (s.text.word offset)
  | .forceVeneers => True

instance (numFuncs : ℕ) (s : LinkState) (op : LinkOp) : Decidable (linkAllowed numFuncs s op) :=
  match op with
  | .append .. => inferInstanceAs (Decidable (_ ∧ _))
  | .resolveCall .. => inferInstanceAs (Decidable (_ ∧ _ ∧ _))
  | .forceVeneers => inferInstanceAs (Decidable True)

/-- Runs of a builder for `numFuncs` functions. -/
def linkMachine (numFuncs : ℕ) : Machine LinkState LinkOp where
  start s := s = ⟨.new numFuncs, [], [], []⟩
  allowed := linkAllowed numFuncs
  step := linkStep

instance (numFuncs : ℕ) (s : LinkState) (op : LinkOp) :
    Decidable ((linkMachine numFuncs).allowed s op) :=
  inferInstanceAs (Decidable (linkAllowed numFuncs s op))

/-- An island would still be in time, and functions start at instructions. -/
def LinkState.HasMargin : Prop :=
  s.builder.buf.islandNeeded 0 = false ∧ s.text.len < 2 ^ 31 ∧ ∀ d ∈ s.starts, d % 4 = 0

instance (s : LinkState) : Decidable s.HasMargin := inferInstanceAs (Decidable (_ ∧ _ ∧ _))

/-- A call is a whole instruction, resolved once. -/
def NewCall : LinkOp → Prop
  | .resolveCall offset _ => offset % 4 = 0 ∧ ∀ c ∈ s.calls, c.1 ≠ offset
  | _ => True

instance (s : LinkState) (op : LinkOp) : Decidable (NewCall s op) :=
  match op with
  | .append .. => inferInstanceAs (Decidable True)
  | .resolveCall .. => inferInstanceAs (Decidable (_ ∧ _))
  | .forceVeneers => inferInstanceAs (Decidable True)

/-- An island is still in time when the operation is asked for. -/
def KeepsMargin (op : LinkOp) : Prop := s.HasMargin ∧ NewCall s op

instance (s : LinkState) (op : LinkOp) : Decidable (KeepsMargin s op) :=
  inferInstanceAs (Decidable (_ ∧ _))

/-- All functions are appended, and there is room for the veneers of the recorded fixups. -/
def LinkState.Complete (numFuncs : ℕ) (s : LinkState) : Prop :=
  s.starts.length = numFuncs ∧ s.text.len + 20 * s.builder.buf.numRecords + 3 < 2 ^ 31

instance (numFuncs : ℕ) (s : LinkState) : Decidable (s.Complete numFuncs) :=
  inferInstanceAs (Decidable (_ ∧ _))

/-- The finished text leads every call to the function that it was resolved to. -/
def LinkState.FinishLinks : Prop :=
  ∃ text, s.builder.finish = Except.ok text ∧ ∀ c ∈ s.calls, ∃ d, s.starts[c.2]? = some d ∧
    Transfers text (fun o => ¬InBody s.bodies o) c.1 d

/-! ## Labels -/

/-- The labels, when the first functions are appended at `starts`. -/
def labelsOf (numFuncs : ℕ) (starts : List ℕ) : List (Option ℕ) :=
  starts.map some ++ List.replicate (numFuncs - starts.length) none

variable {starts : List ℕ} {numFuncs : ℕ}

theorem length_labelsOf (h : starts.length ≤ numFuncs) :
    (labelsOf numFuncs starts).length = numFuncs := by
  rw [labelsOf, length_append, length_map, length_replicate]
  omega

theorem labelsOf_getElem? {numFuncs i d : ℕ} :
    (labelsOf numFuncs starts)[i]? = some (some d) ↔ starts[i]? = some d := by
  rw [labelsOf, getElem?_append, length_map]
  split
  · simp
  · rename_i hi
    rw [getElem?_eq_none (by omega : starts.length ≤ i)]
    simp [getElem?_replicate]

theorem mem_labelsOf {numFuncs d : ℕ} : some d ∈ labelsOf numFuncs starts ↔ d ∈ starts := by
  simp [labelsOf, mem_replicate]

theorem labelsOf_next (h : starts.length < numFuncs) (p : ℕ) :
    (labelsOf numFuncs starts)[starts.length]? = some none ∧
      (labelsOf numFuncs starts).set starts.length (some p) =
        labelsOf numFuncs (starts ++ [p]) := by
  obtain ⟨k, hk⟩ : ∃ k, numFuncs - starts.length = k + 1 := ⟨numFuncs - starts.length - 1, by omega⟩
  have hk' : numFuncs - (starts ++ [p]).length = k := by
    rw [length_append, length_singleton]
    omega
  simp only [labelsOf, hk, hk', replicate_succ]
  constructor
  · simp
  · simp

/-! ## One step -/

/-- The invariant of the runs. -/
structure LinkInv (numFuncs : ℕ) (s : LinkState) : Prop where
  between : Between (labelsOf numFuncs s.starts) s.bodies s.calls s.builder.buf
  starts_le : s.starts.length ≤ numFuncs
  nextFunc : s.builder.nextFunc = s.starts.length
  notNeeded : s.builder.buf.islandNeeded 0 = false

section Step

variable {numFuncs : ℕ} {s : LinkState}

theorem LinkInv.islandBefore (h : LinkInv numFuncs s) (size : ℕ) :
    ∃ buf, s.builder.islandBefore size = .ok buf ∧ (buf.text.len < 2 ^ 31 →
      Between (labelsOf numFuncs s.starts) s.bodies s.calls buf) ∧
      buf.labelOffsets = labelsOf numFuncs s.starts := by
  rw [MachTextSectionBuilder.islandBefore]
  split
  · obtain ⟨buf, hok, hisland, -⟩ := h.between.emitIsland s.builder.forceVeneers size
      (h.between.inTime h.notNeeded)
    exact ⟨buf, hok, hisland.between, hisland.labels_eq⟩
  · exact ⟨_, rfl, fun _ => h.between, h.between.labels_eq⟩

theorem Between.grow {labels labels' : List (Option ℕ)} {bodies calls : List (ℕ × ℕ)}
    {buf : MachBuffer} (h : Between labels bodies calls buf) (p : ℕ) (func : List UInt8)
    (hp : buf.text.len ≤ p) (hlen : p + func.length < 2 ^ 31)
    (hlabs : ∀ i d : ℕ, labels[i]? = some (some d) → labels'[i]? = some (some d))
    (hlength : labels'.length = labels.length)
    (hlab : ∀ d, some d ∈ labels' → some d ∈ labels ∨ d = p ∧ p % 4 = 0) :
    Between labels' (bodies ++ [(p, func.length)]) calls
      { buf with
        labelOffsets := labels'
        text := (buf.text.appendSpace (p - buf.text.len)).putData func } where
  labels_eq := rfl
  linked := by
    obtain ⟨sites, hcalls, hlink⟩ := h.linked
    refine ⟨sites, hcalls, hlink.grow hp ?_ ?_ hlabs hlength ?_⟩
    · rw [len_putData, len_appendSpace]
      omega
    · intro w hw
      have hspc : w + 4 ≤ (buf.text.appendSpace (p - buf.text.len)).len := by
        rw [len_appendSpace]
        omega
      rw [putData, word_putBytes hspc, word_appendSpace_of_le _ hw]
    intro d hd
    rw [len_putData, len_appendSpace]
    rcases hlab d hd with hold | ⟨rfl, hmod⟩
    · have := hlink.label_le d hold
      omega
    · omega
  sorted := h.sorted
  deadline_le := h.deadline_le
  len_lt := by
    rw [len_putData, len_appendSpace]
    omega

/-- Appending a function keeps the invariant. -/
theorem LinkInv.append (h : LinkInv numFuncs s) {labeled : Bool} (func : List UInt8) {align : ℕ}
    (hal : align.isPowerOfTwo) (hnext : labeled = true → s.starts.length < numFuncs) :
    ∃ s', linkStep s (.append labeled func align) = .ok s' ∧
      (s'.HasMargin → LinkInv numFuncs s') := by
  obtain ⟨buf, hisland, hbetween, hlabs⟩ := h.islandBefore func.length
  have hpos := Nat.pos_of_isPowerOfTwo hal
  have hle := le_roundUp buf.text.len hpos
  generalize hp : roundUp buf.text.len align = p at *
  have hlen : (buf.text.appendSpace (p - buf.text.len)).len = p := by
    rw [len_appendSpace]
    omega
  have halignTo : buf.text.alignTo align = Except.ok (buf.text.appendSpace (p - buf.text.len)) := by
    rw [← hp]
    exact alignTo_of hal
  cases labeled with
  | false =>
    refine ⟨{ s with
      builder := { s.builder with
        buf := { buf with text := (buf.text.appendSpace (p - buf.text.len)).putData func } }
      bodies := s.bodies ++ [(p, func.length)] }, ?_, ?_⟩
    · simp only [linkStep, MachTextSectionBuilder.append, hisland, ok_bind, halignTo, hlen,
        bindNextFunc, pure_eq, Bool.false_eq_true, if_false]
    rintro ⟨hnd, hsize, -⟩
    have hsize : p + func.length < 2 ^ 31 := by
      simpa only [LinkState.text, len_putData, hlen] using hsize
    refine ⟨?_, h.starts_le, h.nextFunc, hnd⟩
    rw [← hlabs]
    exact (hlabs ▸ hbetween (by omega)).grow p func hle hsize (fun _ _ hl => hl) rfl
      fun _ hd => .inl hd
  | true =>
    have hlt := hnext rfl
    obtain ⟨hnone, hset⟩ := labelsOf_next hlt p
    have hbind : ({ buf with text := buf.text.appendSpace (p - buf.text.len) } :
        MachBuffer).bindLabel s.starts.length =
        Except.ok { buf with
          text := buf.text.appendSpace (p - buf.text.len)
          labelOffsets := labelsOf numFuncs (s.starts ++ [p]) } := by
      simp only [MachBuffer.bindLabel, MachBuffer.resolveLabelOffset, hlabs, hnone, unwrap_some,
        ok_bind, ensure_of, pure_eq, hlen, hset]
    refine ⟨{ s with
      builder := { s.builder with
        buf := { buf with
          text := (buf.text.appendSpace (p - buf.text.len)).putData func
          labelOffsets := labelsOf numFuncs (s.starts ++ [p]) }
        nextFunc := s.starts.length + 1 }
      starts := s.starts ++ [p]
      bodies := s.bodies ++ [(p, func.length)] }, ?_, ?_⟩
    · simp only [linkStep, MachTextSectionBuilder.append, hisland, ok_bind, halignTo, hlen,
        bindNextFunc, h.nextFunc, hbind, pure_eq, if_true]
    rintro ⟨hnd, hsize, hsts⟩
    have hsize : p + func.length < 2 ^ 31 := by
      simpa only [LinkState.text, len_putData, hlen] using hsize
    have hlength : (s.starts ++ [p]).length ≤ numFuncs := by
      rw [length_append, length_singleton]
      omega
    refine ⟨(hbetween (by omega)).grow p func hle hsize ?_ ?_ ?_, hlength, by simp, hnd⟩
    · intro i d hd
      rw [labelsOf_getElem?] at hd ⊢
      obtain ⟨hi, -⟩ := List.getElem?_eq_some_iff.mp hd
      rwa [getElem?_append_left hi]
    · rw [length_labelsOf hlength, length_labelsOf h.starts_le]
    intro d hd
    rw [mem_labelsOf] at hd
    rcases mem_append.mp hd with hold | hnew
    · exact .inl (mem_labelsOf.mpr hold)
    · obtain rfl := mem_singleton.mp hnew
      exact .inr ⟨rfl, hsts d hd⟩

/-- Resolving a call keeps the invariant. -/
theorem LinkInv.resolveCall (h : LinkInv numFuncs s) {offset target : ℕ}
    (hall : linkAllowed numFuncs s (.resolveCall offset target)) :
    ∃ s', linkStep s (.resolveCall offset target) = .ok s' ∧
      (NewCall s (.resolveCall offset target) → s'.HasMargin → LinkInv numFuncs s') := by
  obtain ⟨hbody, htgt, hbr⟩ := hall
  obtain ⟨sites, hcalls, hlink⟩ := h.between.linked
  have hlen := h.between.len_lt
  have hoff : offset ≤ u32Max := by
    obtain ⟨b, hb, -, hhi⟩ := hbody
    have := hlink.body_le b hb
    rw [u32Max]
    omega
  refine ⟨{ s with
    builder := { s.builder with
      buf := s.builder.buf.useLabelAtOffset offset target .branch26 }
    calls := s.calls ++ [(offset, target)] }, ?_, ?_⟩
  · simp [linkStep, resolveReloc, ensure_of hoff, LabelUse.fromReloc]
  rintro ⟨hmod, hnew⟩ ⟨hnd, -, -⟩
  have hfr : ∀ c ∈ sites, c.offset ≠ offset := fun c hc =>
    hnew c.call (hcalls.subset (mem_map_of_mem hc))
  have hadd := hlink.addCall hmod hbody
    ((length_labelsOf h.starts_le).symm ▸ htgt) hbr hfr
  refine ⟨⟨h.between.labels_eq, ⟨_, ?_, hadd.perm ?_ (.refl _)⟩, h.between.sorted, ?_, hlen⟩,
    h.starts_le, h.nextFunc, hnd⟩
  · exact (hcalls.cons _).trans (perm_append_singleton _ _).symm
  · rw [MachBuffer.useLabelAtOffset, ← append_assoc]
    exact perm_append_singleton _ _
  intro f hf hkind
  simp only [MachBuffer.useLabelAtOffset, LabelUse.align] at hf ⊢
  rcases mem_append.mp hf with hold | hlast
  · have := h.between.deadline_le f hold hkind
    omega
  · obtain rfl := mem_singleton.mp hlast
    rw [Fixup.deadline, LabelUse.maxPosRange, u32Max]
    omega

/-- **One step** of linking: no allowed operation fails, and the margin keeps the invariant. -/
theorem LinkInv.step (h : LinkInv numFuncs s) {op : LinkOp} (hall : linkAllowed numFuncs s op) :
    ∃ s', linkStep s op = .ok s' ∧ (NewCall s op → s'.HasMargin → LinkInv numFuncs s') := by
  cases op with
  | append labeled func align =>
    obtain ⟨s', hok, hinv⟩ := h.append func hall.1 hall.2
    exact ⟨s', hok, fun _ => hinv⟩
  | resolveCall offset target => exact h.resolveCall hall
  | forceVeneers =>
    exact ⟨_, rfl, fun _ _ => ⟨h.between, h.starts_le, h.nextFunc, h.notNeeded⟩⟩

theorem linkInv_new (numFuncs : ℕ) : LinkInv numFuncs ⟨.new numFuncs, [], [], []⟩ where
  between :=
    { labels_eq := rfl
      linked := by
        refine ⟨[], .refl _, .refl _, nodup_nil, ?_, ?_, ?_, ?_, ?_, ?_⟩ <;> simp [labelsOf]
      sorted := List.Pairwise.nil
      deadline_le := by simp [new]
      len_lt := by simp [new] }
  starts_le := Nat.zero_le _
  nextFunc := rfl
  notNeeded := rfl

/-- A complete text is finished with all calls linked. -/
theorem LinkInv.finish (h : LinkInv numFuncs s) (hcomp : s.Complete numFuncs) :
    s.FinishLinks := by
  obtain ⟨hall, hroom⟩ := hcomp
  have hbd : none ∉ labelsOf numFuncs s.starts := by
    simp [labelsOf, hall]
  obtain ⟨buf, hok, hlen, sites, hcalls, hlink⟩ := h.between.finishLoop s.builder.forceVeneers
    (s.builder.buf.fixupRecords.length + s.builder.buf.pendingFixupRecords.length)
    (h.between.inTime h.notNeeded) hbd hroom
  refine ⟨buf.text, ?_, ?_⟩
  · have hnext : s.builder.nextFunc = s.builder.buf.labelOffsets.length := by
      rw [h.nextFunc, h.between.labels_eq, length_labelsOf h.starts_le, hall]
    simp [MachTextSectionBuilder.finish, ensure_of hnext, hok]
  intro c hc
  obtain ⟨site, hsite, rfl⟩ := mem_map.mp (hcalls.symm.subset hc)
  have hdone : site.fixup? = none := by
    cases hfix : site.fixup? with
    | none => rfl
    | some f =>
      have := hlink.records_perm.symm.subset (mem_filterMap.mpr ⟨site, hsite, hfix⟩)
      cases this
  obtain ⟨d, hd, htransfers⟩ := hlink.transfers hsite hdone hlen
  exact ⟨d, labelsOf_getElem?.mp hd, htransfers⟩

end Step

/-! ## Runs -/

/-- The invariant holds in every state that is reached. -/
theorem linkInv_of_reaches {s : LinkState}
    (hs : ((linkMachine numFuncs).onlyWhen KeepsMargin).Reaches s) :
    s.HasMargin → LinkInv numFuncs s := by
  refine Machine.Reaches.invariant (P := fun s => s.HasMargin → LinkInv numFuncs s) ?_ ?_ hs
  · rintro s rfl -
    exact linkInv_new numFuncs
  rintro s op s' h ⟨hall, hbefore, hnew⟩ hstep hmargin
  obtain ⟨s1, hok, hinv⟩ := (h hbefore).step hall
  obtain rfl : s1 = s' := Except.ok.inj (hok.symm.trans hstep)
  exact hinv hnew hmargin

/-- **Linking reaches every callee.**  In every state with a margin that is reached by steps from
such states, no operation that the caller may ask for fails, and once all functions are appended
`finish` returns a text in which every resolved call transfers control, directly or through code
outside the functions, to the offset that `append` returned for its target. -/
theorem linking_reaches_callees {numFuncs : ℕ} {s : LinkState}
    (hs : ((linkMachine numFuncs).onlyWhen KeepsMargin).Reaches s) (hmargin : s.HasMargin) :
    (∀ op, linkAllowed numFuncs s op → ∃ s', linkStep s op = Except.ok s') ∧
      (s.Complete numFuncs → s.FinishLinks) := by
  have h := linkInv_of_reaches hs hmargin
  refine ⟨fun op hall => ?_, h.finish⟩
  obtain ⟨s', hok, -⟩ := h.step hall
  exact ⟨s', hok⟩

/-- Two functions `2 ^ 28` bytes apart; the second calls the first, which needs a veneer, and
itself. -/
def farCalls : List LinkOp :=
  [.append true [0, 0, 0, 0x94] 4,
    .append true [0, 0, 0, 0x94, 0, 0, 0, 0x94] (2 ^ 28),
    .resolveCall (2 ^ 28) 0, .resolveCall (2 ^ 28 + 4) 1]

theorem linking_reaches_far_callees :
    ∃ s, ((linkMachine 2).onlyWhen KeepsMargin).Reaches s ∧
      s.calls = [(2 ^ 28, 0), (2 ^ 28 + 4, 1)] ∧ s.starts = [0, 2 ^ 28] ∧ s.FinishLinks := by
  obtain ⟨s, hs, hp⟩ := Machine.reaches_of_run? (M := (linkMachine 2).onlyWhen KeepsMargin)
    (p := fun s => decide (s.calls = [(2 ^ 28, 0), (2 ^ 28 + 4, 1)] ∧ s.starts = [0, 2 ^ 28] ∧
      s.HasMargin ∧ s.Complete 2)) farCalls rfl (by decide +kernel)
  obtain ⟨hcalls, hsts, hmargin, hcomp⟩ := of_decide_eq_true hp
  exact ⟨s, hs, hcalls, hsts, (linking_reaches_callees hs hmargin).2 hcomp⟩

/-- The first function calls the second, which is aligned to `2 ^ 28` bytes. -/
def paddedCall : List LinkOp :=
  [.append true [0, 0, 0, 0x94] 4, .resolveCall 0 1, .append true [0, 0, 0, 0x94] (2 ^ 28)]

/-- **Padding passes a deadline.**  The island before the second function is not needed for the
four bytes of the function, and the padding puts it out of the reach of the call. -/
theorem padding_passes_deadline :
    ∃ s, (linkMachine 2).Reaches s ∧ s.Complete 2 ∧ s.builder.finish.fault? =
      some (.panic "assertion failed: (label_offset - offset) <= kind.max_pos_range()") := by
  obtain ⟨s, hs, hp⟩ := Machine.reaches_of_run? (M := linkMachine 2)
    (p := fun s => decide (s.Complete 2 ∧ s.builder.finish.fault? =
      some (.panic "assertion failed: (label_offset - offset) <= kind.max_pos_range()")))
    paddedCall rfl (by decide +kernel)
  exact ⟨s, hs, of_decide_eq_true hp⟩

end WasmDeps.Machinst
