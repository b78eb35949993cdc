import WasmDeps.Machinst.TextCalls

/-!
# Islands of a text section

An island handles the fixups that are recorded when it starts.  If an island at its start is in
time for every waiting call, as `island_needed` checks, then no assertion fails: each veneer is
emitted where its call still reaches it.  New fixups are those of veneer constants, which reach
everything.
-/

namespace WasmDeps.Machinst

open Lib List Exec CallSite Text LabelUse MachBuffer

/-! ## Veneers -/

theorem alignTo_of {text : Text} {align : ℕ} (h : align.isPowerOfTwo) :
    text.alignTo align = .ok (text.appendSpace (roundUp text.len align - text.len)) := by
  simp [alignTo, ensure_of h]

theorem roundUp_four (n : ℕ) : roundUp n 4 % 4 = 0 ∧ n ≤ roundUp n 4 ∧ roundUp n 4 ≤ n + 3 := by
  rw [roundUp, roundDown]
  omega

/-- The veneer of a call. -/
theorem generateVeneer_branch26 (text : Text) (v : ℕ) :
    ∃ text', LabelUse.branch26.generateVeneer text v = .ok (text', v + 16, .pcRel32) ∧
      text'.len = text.len ∧ IsVeneer text' v ∧ text'.word (v + 16) = text.word (v + 16) ∧
      ∀ w, w + 4 ≤ v → text'.word w = text.word w := by
  refine ⟨_, rfl, rfl, ⟨?_, ?_, ?_, ?_⟩, ?_, ?_⟩
  · simp (disch := omega) only [word_writeWord_of]
    exact word_writeWord (by decide)
  · simp (disch := omega) only [word_writeWord_of]
    exact word_writeWord (by decide)
  · rw [word_writeWord_of (by omega), word_writeWord (by decide)]
  · rw [word_writeWord (by decide)]
  · simp (disch := omega) only [word_writeWord_of]
  · intro w hw
    simp (disch := omega) only [word_writeWord_of]

/-- **A veneer.**  The branch goes to the veneer, whose constant waits for the label. -/
theorem emitVeneer_spec {buf : MachBuffer} (label : ℕ) {o : ℕ} (hlen : o + 4 ≤ buf.text.len)
    (hbr : IsBranch (buf.text.word o)) (ho : o % 4 = 0)
    (hpos : roundUp buf.text.len 4 ≤ o + (2 ^ 27 - 1)) :
    ∃ text', buf.emitVeneer label o .branch26 =
        Except.ok (({ buf with text := text' } : MachBuffer).useLabelAtOffset
          (roundUp buf.text.len 4 + 16) label .pcRel32) ∧
      text'.len = roundUp buf.text.len 4 + 20 ∧
      BranchesTo text' o (roundUp buf.text.len 4) ∧ IsVeneer text' (roundUp buf.text.len 4) ∧
      text'.word (roundUp buf.text.len 4 + 16) = 0 ∧
      ∀ w, w % 4 = 0 → w + 4 ≤ buf.text.len → w ≠ o → text'.word w = buf.text.word w := by
  obtain ⟨hmod, hle, -⟩ := roundUp_four buf.text.len
  generalize hv : roundUp buf.text.len 4 = v at *
  have hal : buf.text.alignTo align = Except.ok (buf.text.appendSpace (v - buf.text.len)) := by
    rw [← hv]
    exact alignTo_of ⟨2, rfl⟩
  have hlen1 : (buf.text.appendSpace (v - buf.text.len)).len = v := by
    rw [len_appendSpace]
    omega
  have hword1 : ∀ w, w + 4 ≤ buf.text.len →
      (buf.text.appendSpace (v - buf.text.len)).word w = buf.text.word w :=
    fun w hw => word_appendSpace_of_le _ hw
  generalize buf.text.appendSpace (v - buf.text.len) = text1 at *
  obtain ⟨w2, hpatch, hto⟩ := patch_branch26 (by omega)
    (hword1 o hlen ▸ hbr) ho hmod hpos (by omega)
  have hlen2 : (text1.writeWord o w2).len = v := hlen1
  obtain ⟨text', hgen, hlen', hven, hconst, hframe⟩ :=
    generateVeneer_branch26 ((text1.writeWord o w2).appendSpace 20) v
  have hkeep : ∀ w, w + 4 ≤ v → text'.word w = (text1.writeWord o w2).word w := by
    intro w hw
    rw [hframe w hw]
    exact word_appendSpace_of_le _ (by omega)
  refine ⟨text', ?_, ?_, ?_, hven, ?_, ?_⟩
  · have hsize : branch26.veneerSize = .ok 20 := rfl
    have hsup : branch26.supportsVeneer = true := rfl
    simp [emitVeneer, ensure_of hsup, hal, hlen1, hpatch, hsize, hgen]
  · rw [hlen', len_appendSpace, hlen2]
  · exact hto.congr (hkeep o (by omega))
  · rw [hconst]
    exact word_appendSpace (by omega) (by omega)
  · intro w hw hwlen hne
    rw [hkeep w (by omega), word_writeWord_of (by omega), hword1 w hwlen]

/-! ## Inside an island -/

/-- The state inside an island: `todo` is still to be handled, with the heap.  An island of the
remaining veneers ends at most three bytes, for alignment, after `limit`, which the waiting calls
reach; only if there are any (`near`) does the island add code and fixups. -/
structure Island (labels : List (Option ℕ)) (bodies : List (ℕ × ℕ)) (calls : List (ℕ × ℕ))
    (base limit : ℕ) (near : Prop) (todo : List Fixup) (buf : MachBuffer) : Prop where
  labels_eq : buf.labelOffsets = labels
  linked : ∃ sites : List CallSite, (sites.map CallSite.call).Perm calls ∧
    Linked labels bodies buf.text sites (todo ++ buf.fixupRecords ++ buf.pendingFixupRecords)
  room : roundUp buf.text.len 4 + 20 * (todo.length + buf.fixupRecords.length) ≤ limit + 3
  reach : ∀ f ∈ todo ++ buf.fixupRecords, f.kind = .branch26 →
    near ∧ limit ≤ f.offset + (2 ^ 27 - 1)
  small : ∀ f ∈ todo ++ buf.fixupRecords, f.offset < 2 ^ 31
  label_le : ∀ d, some d ∈ labels → d < 2 ^ 31 ∧ d ≤ limit
  fresh : ∀ f ∈ buf.pendingFixupRecords, f.kind = .pcRel32 ∧ near
  still : near ∨ buf.text.len = base
  sorted : buf.fixupRecords.Pairwise fun a b => a.deadline ≤ b.deadline

variable {labels : List (Option ℕ)} {bodies calls : List (ℕ × ℕ)} {near : Prop} {buf : MachBuffer}

section Handle

variable {base limit : ℕ} {f : Fixup} {todo : List Fixup}

/-- A handled fixup leaves the records, the heap stays, and there is text `text'` and records
`pending'` that keep the calls linked. -/
theorem Island.next {text' : Text} {pending' : List Fixup} {deadline' : ℕ}
    (h : Island labels bodies calls base limit near (f :: todo) buf)
    (hlink : ∃ sites, (sites.map CallSite.call).Perm calls ∧
      Linked labels bodies text' sites (todo ++ buf.fixupRecords ++ pending'))
    (hroom : roundUp text'.len 4 ≤ roundUp buf.text.len 4 + 20)
    (hstill : near ∨ text'.len = buf.text.len) (hfr : ∀ g ∈ pending', g.kind = .pcRel32 ∧ near) :
    Island labels bodies calls base limit near todo
      { buf with
        text := text', pendingFixupRecords := pending', pendingFixupDeadline := deadline' } where
  labels_eq := h.labels_eq
  linked := hlink
  room := by
    have := h.room
    simp only [length_cons] at this ⊢
    omega
  reach g hg := h.reach g (.tail _ hg)
  small g hg := h.small g (.tail _ hg)
  label_le := h.label_le
  fresh := hfr
  still := by
    rcases hstill with hnear | hlen
    · exact .inl hnear
    · exact h.still.imp_right hlen.trans
  sorted := h.sorted

/-- A veneer is emitted for a call. -/
theorem Island.emitVeneer {o t : ℕ}
    (h : Island labels bodies calls base limit near (⟨t, o, .branch26⟩ :: todo) buf) :
    ∃ buf', buf.emitVeneer t o .branch26 = .ok buf' ∧
      Island labels bodies calls base limit near todo buf' ∧
      buf'.fixupRecords = buf.fixupRecords := by
  obtain ⟨sites, hcalls, hlink⟩ := h.linked
  obtain ⟨c, others, hperm, hfix, hl⟩ := hlink.exists_site
  obtain ⟨hnear, hrch⟩ := h.reach ⟨t, o, .branch26⟩ (.head _) rfl
  obtain ⟨o', t', stage⟩ := c
  cases stage with
  | direct => cases hfix
  | linked v => cases hfix
  | veneer v => cases hfix
  | waiting =>
    obtain ⟨rfl, rfl⟩ : t = t' ∧ o = o' := by
      simpa [fixup?, eq_comm] using hfix
    have hin := hl.inside _ (.head _) o (offset_mem_words _)
    have hbr := hl.good _ (.head _)
    have hroom := h.room
    rw [length_cons] at hroom
    simp only at hrch
    obtain ⟨text', heq, hlen', hto, hven, hconst, hframe⟩ :=
      emitVeneer_spec t hin.2 hbr hin.1 (by omega)
    obtain ⟨hmod, hle, -⟩ := roundUp_four buf.text.len
    generalize hv : roundUp buf.text.len 4 = v at *
    refine ⟨_, heq, h.next ⟨⟨o, t, .veneer v⟩ :: others, ?_, ?_⟩ ?_ (.inl hnear) ?_, rfl⟩
    · exact ((hperm.map call).symm.trans hcalls)
    · refine (hl.update ⟨o, t, .veneer v⟩ text' rfl rfl (by omega) ?_ ?_ ?_
        ⟨hto, hven, hconst⟩ ?_ ?_).perm ?_ (.refl _)
      · simp [words, veneer?]
        omega
      · simp only [words, veneer?, mem_cons, not_mem_nil, or_false]
        omega
      · simp only [words, veneer?, mem_cons, not_mem_nil, or_false]
        omega
      · intro v' hv' p hp hp'
        cases hv'
        rintro ⟨b, hb, hlo, hhi⟩
        have := hl.body_le b hb
        omega
      · intro w hw hwlen hne
        refine hframe w hw hwlen fun heq => hne ?_
        simp [words, veneer?, heq]
      · rw [← append_assoc]
        exact perm_append_singleton _ _
    · rw [hlen']
      have := roundUp_four (v + 20)
      omega
    · intro g hg
      rcases mem_append.mp hg with hg | hg
      · exact h.fresh g hg
      · cases mem_singleton.mp hg
        exact ⟨rfl, hnear⟩

section

variable (h : Island labels bodies calls base limit near (f :: todo) buf)
include h

/-- A use is patched to its label. -/
theorem Island.patch {d : ℕ}
    (hd : labels[f.label]? = some (some d)) (hneg : f.kind = .branch26 → f.offset ≤ d + 2 ^ 27) :
    ∃ text', f.kind.patch buf.text f.offset d = .ok text' ∧
      Island labels bodies calls base limit near todo { buf with text := text' } := by
  obtain ⟨sites, hcalls, hlink⟩ := h.linked
  obtain ⟨c, others, hperm, hfix, hl⟩ := hlink.exists_site
  have hword := offset_mem_words_of_fixup hfix
  have hin := hl.inside _ (.head _) _ hword
  have hdmem := mem_of_getElem? hd
  have hdmod := (hl.label_le d hdmem).1
  have hsm := h.small f (.head _)
  have hrch := h.reach f (.head _)
  obtain ⟨hdlt, hdle⟩ := h.label_le d hdmem
  have hnd := (nodup_append'.mp hl.nodup).1
  -- writing the word of the fixup moves its call to the last stage
  have hnext : ∀ w stage, words ⟨c.offset, c.target, stage⟩ = c.words →
      veneer? ⟨c.offset, c.target, stage⟩ = c.veneer? →
      fixup? ⟨c.offset, c.target, stage⟩ = none →
      CallSite.Good labels (buf.text.writeWord f.offset w) ⟨c.offset, c.target, stage⟩ →
      Island labels bodies calls base limit near todo
        { buf with text := buf.text.writeWord f.offset w } := by
    intro w stage hws hveneer hnone hgood
    refine h.next ⟨⟨c.offset, c.target, stage⟩ :: others, ?_, ?_⟩ (by simp) (.inr rfl) h.fresh
    · exact (hperm.map call).symm.trans hcalls
    have hupd := hl.update ⟨c.offset, c.target, stage⟩ (buf.text.writeWord f.offset w) hfix rfl
      le_rfl (by rwa [hws]) (fun w hw => .inl (hws ▸ hw))
      (fun w hw => hl.inside c (.head _) w (hws ▸ hw)) hgood
      (fun v hv => hl.apart c (.head _) v (hveneer ▸ hv)) ?_
    · rwa [hnone] at hupd
    · intro w' hmod hle hne
      have : w' ≠ f.offset := fun heq => hne (heq ▸ hword)
      exact word_writeWord_of (by omega)
  have hgood := hl.good c (.head _)
  obtain ⟨o, t, stage⟩ := c
  cases stage with
  | direct => cases hfix
  | linked v => cases hfix
  | waiting =>
    cases hfix
    have hrch : limit ≤ o + (2 ^ 27 - 1) := (hrch rfl).2
    obtain ⟨w, hpatch, hto⟩ := patch_branch26 hin.2 hgood hin.1 hdmod
      (show d ≤ o + (2 ^ 27 - 1) by omega) (hneg rfl)
    exact ⟨_, hpatch, hnext w .direct rfl rfl rfl ⟨d, hd, hto⟩⟩
  | veneer v =>
    cases hfix
    obtain ⟨hto, hven, hconst⟩ := hgood
    refine ⟨_, patch_pcRel32 hin.2 hconst hsm hdlt, hnext _ (.linked v) rfl rfl rfl ?_⟩
    simp only [words, veneer?, nodup_cons, mem_cons, not_mem_nil, or_false, not_or] at hnd
    have hio := hl.inside _ (.head _) o (offset_mem_words _)
    have hiv : (v + 16) % 4 = 0 ∧ v + 16 + 4 ≤ buf.text.len := hin
    refine ⟨hto.congr (word_writeWord_of (show o + 4 ≤ v + 16 ∨ v + 16 + 4 ≤ o by omega)),
      hven.congr fun p hlo hhi => word_writeWord_of
        (show p + 4 ≤ v + 16 ∨ v + 16 + 4 ≤ p by omega), d, hd, ?_⟩
    exact word_writeWord (by omega)

theorem Island.kind_cases : f.kind = .branch26 ∨ f.kind = .pcRel32 := by
  obtain ⟨sites, -, hlink⟩ := h.linked
  exact (hlink.record (.head _)).1

theorem Island.exists_label : ∃ label, labels[f.label]? = some label ∧
      buf.resolveLabelOffset f.label = .ok label := by
  obtain ⟨sites, -, hlink⟩ := h.linked
  obtain ⟨⟨o, t, stage⟩, others, -, hfix, hl⟩ := hlink.exists_site
  have ht := hl.target_lt _ (.head _)
  have hlab : f.label = t := by
    cases stage <;> cases hfix <;> rfl
  refine ⟨labels.get ⟨t, ht⟩, ?_, ?_⟩
  · rw [hlab]
    exact getElem?_eq_getElem ht
  · rw [resolveLabelOffset, h.labels_eq, hlab, getElem?_eq_getElem ht]
    rfl

end

/-- **Handling one fixup** fails no assertion. -/
theorem Island.handleFixup {threshold : ℕ} (forceVeneers : Bool)
    (h : Island labels bodies calls base limit near (f :: todo) buf)
    (happ : labels[f.label]? = some none → f.deadline < threshold ∧ f.kind = .branch26) :
    ∃ buf', buf.handleFixup f forceVeneers threshold = .ok buf' ∧
      Island labels bodies calls base limit near todo buf' ∧
      buf'.fixupRecords = buf.fixupRecords := by
  obtain ⟨label, hlab, hreso⟩ := h.exists_label
  have hsm := h.small f (.head _)
  have hrch := h.reach f (.head _)
  have hkind := h.kind_cases
  obtain ⟨t, o, kind⟩ := f
  simp only at hlab hreso happ hsm hrch hkind
  cases label with
  | none =>
    obtain ⟨hdead, rfl⟩ := happ hlab
    have hsub : subU32 threshold o = .ok (threshold - o) := by
      apply subU32_of_le
      simp only [Fixup.deadline, maxPosRange, u32Max] at hdead
      omega
    have hass : branch26.maxPosRange < threshold - o := by
      simp only [Fixup.deadline, maxPosRange, u32Max] at hdead ⊢
      omega
    simp only [handleFixup, hreso, ok_bind, hsub, ensure_of hass]
    exact h.emitVeneer
  | some d =>
    obtain ⟨hdlt, hdle⟩ := h.label_le d (mem_of_getElem? hlab)
    have hass : o ≤ d → d - o ≤ kind.maxPosRange := by
      intro hle
      rcases hkind with rfl | rfl
      · have := (hrch rfl).2
        rw [maxPosRange]
        omega
      · rw [maxPosRange]
        omega
    simp only [handleFixup, hreso, ok_bind, ensure_of hass]
    by_cases hven : (forceVeneers && kind.supportsVeneer ||
        (d < o && kind.maxNegRange < o - d)) = true
    · obtain rfl : kind = .branch26 := by
        rcases hkind with rfl | rfl
        · rfl
        simp only [supportsVeneer, Bool.and_false, Bool.false_or, Bool.and_eq_true,
          decide_eq_true_eq] at hven
        rw [maxNegRange, maxPosRange] at hven
        omega
      rw [if_pos hven]
      exact h.emitVeneer
    rw [if_neg hven]
    obtain ⟨text', hpatch, hnext⟩ := h.patch hlab fun hk => by
      simp only at hk ⊢
      subst hk
      simp only [Bool.or_eq_true, Bool.and_eq_true, decide_eq_true_eq, not_or] at hven
      rw [maxNegRange, maxPosRange] at hven
      omega
    rw [hpatch]
    exact ⟨_, rfl, hnext, rfl⟩

theorem Island.shouldApplyFixup (threshold : ℕ)
    (h : Island labels bodies calls base limit near (f :: todo) buf) :
    ∃ apply, buf.shouldApplyFixup f threshold = .ok apply ∧
      (apply = true → labels[f.label]? = some none →
        f.deadline < threshold ∧ f.kind = .branch26) ∧
      (apply = false → labels[f.label]? = some none) := by
  obtain ⟨label, hlab, hreso⟩ := h.exists_label
  have hkind := h.kind_cases
  refine ⟨label.isSome || (f.deadline < threshold && f.kind.supportsVeneer), ?_, ?_, ?_⟩
  · simp [MachBuffer.shouldApplyFixup, hreso]
  · intro happ hnone
    obtain rfl : label = none := by simpa [hlab] using hnone
    rw [Option.isSome_none, Bool.false_or, Bool.and_eq_true, decide_eq_true_eq] at happ
    refine ⟨happ.1, hkind.resolve_right fun hk => ?_⟩
    rw [hk] at happ
    cases happ.2
  · intro happ
    rw [Bool.or_eq_false_iff, Option.isSome_eq_false_iff, Option.isNone_iff_eq_none] at happ
    rw [hlab, happ.1]

variable (forceVeneers : Bool)

/-- A fixup is dealt with, or waits. -/
theorem Island.handleOrDefer (threshold : ℕ)
    (h : Island labels bodies calls base limit near (f :: todo) buf) :
    ∃ buf', buf.handleOrDefer f forceVeneers threshold = .ok buf' ∧
      Island labels bodies calls base limit near todo buf' := by
  obtain ⟨apply, hshould, htrue, hfalse⟩ := h.shouldApplyFixup threshold
  rw [MachBuffer.handleOrDefer, hshould]
  cases apply with
  | true =>
    obtain ⟨buf', hok, hnext, -⟩ := h.handleFixup forceVeneers (htrue rfl)
    exact ⟨buf', hok, hnext⟩
  | false =>
    have hpush : (heapPush f buf.fixupRecords).Perm (f :: buf.fixupRecords) :=
      perm_orderedInsert _ _ _
    have hmid := (hpush.append_left todo).trans perm_middle
    refine ⟨_, rfl, ⟨h.labels_eq, ?_, ?_, ?_, ?_, h.label_le, h.fresh, h.still, ?_⟩⟩
    · obtain ⟨sites, hcalls, hlink⟩ := h.linked
      exact ⟨sites, hcalls, hlink.perm (hmid.append_right _) (.refl _)⟩
    · have hroom := h.room
      have hlen := hpush.length_eq
      simp only [length_cons] at hroom hlen ⊢
      omega
    · exact fun g hg => h.reach g (hmid.subset hg)
    · exact fun g hg => h.small g (hmid.subset hg)
    · exact h.sorted.orderedInsert f buf.fixupRecords

/-- All pending fixups are dealt with. -/
theorem Island.handlePending (threshold : ℕ)
    (h : Island labels bodies calls base limit near todo buf) :
    ∃ buf', handlePending forceVeneers threshold todo buf = .ok buf' ∧
      Island labels bodies calls base limit near [] buf' := by
  induction todo generalizing buf with
  | nil => exact ⟨buf, rfl, h⟩
  | cons f todo ih =>
    obtain ⟨buf1, hok, h1⟩ := h.handleOrDefer forceVeneers threshold
    obtain ⟨buf', hrest, h'⟩ := ih h1
    refine ⟨buf', ?_, h'⟩
    simp [handlePending, hok, hrest]

theorem Island.pop (h : Island labels bodies calls base limit near [] buf) {rest : List Fixup}
    (hheap : buf.fixupRecords = f :: rest) :
    Island labels bodies calls base limit near [f] { buf with fixupRecords := rest } where
  labels_eq := h.labels_eq
  linked := by
    obtain ⟨sites, hcalls, hlink⟩ := h.linked
    rw [hheap] at hlink
    exact ⟨sites, hcalls, hlink⟩
  room := by
    have := h.room
    simp only [hheap, length_cons, length_nil] at this ⊢
    omega
  reach := by
    have := h.reach
    rwa [hheap] at this
  small := by
    have := h.small
    rwa [hheap] at this
  label_le := h.label_le
  fresh := h.fresh
  still := h.still
  sorted := by
    have := h.sorted
    rw [hheap] at this
    exact this.of_cons

/-- All fixups that are due are dealt with. -/
theorem Island.handleHeap (threshold : ℕ) {fuel : ℕ}
    (h : Island labels bodies calls base limit near [] buf)
    (hfuel : buf.fixupRecords.length ≤ fuel) :
    ∃ buf', handleHeap forceVeneers threshold fuel buf = .ok buf' ∧
      Island labels bodies calls base limit near [] buf' ∧
      (buf'.fixupRecords = [] ∨ none ∈ labels) := by
  induction fuel generalizing buf with
  | zero =>
    have hnil := length_eq_zero_iff.mp (Nat.le_zero.mp hfuel)
    exact ⟨buf, if_pos hnil, h, .inl hnil⟩
  | succ fuel ih =>
    cases hheap : buf.fixupRecords with
    | nil =>
      refine ⟨buf, ?_, h, .inl hheap⟩
      rw [handleHeap, hheap]
      rfl
    | cons f rest =>
      have hpop := h.pop hheap
      have hshould : buf.shouldApplyFixup f threshold =
          ({ buf with fixupRecords := rest } : MachBuffer).shouldApplyFixup f threshold := rfl
      obtain ⟨apply, happ, htrue, hfalse⟩ := hpop.shouldApplyFixup threshold
      rw [handleHeap, hheap]
      simp only [hshould, happ, ok_bind]
      cases apply with
      | true =>
        obtain ⟨buf1, hok, h1, hrec⟩ := hpop.handleFixup forceVeneers (htrue rfl)
        obtain ⟨buf', hrest, h'⟩ := ih h1 (by
          rw [hrec]
          rw [hheap] at hfuel
          exact Nat.le_of_succ_le_succ hfuel)
        refine ⟨buf', ?_, h'⟩
        simp [hok, hrest]
      | false =>
        refine ⟨buf, rfl, h, .inr ?_⟩
        exact mem_of_getElem? (hfalse rfl)

end Handle

/-! ## Between islands -/

/-- The state of a buffer whose calls are `calls` and whose functions start at `labels`. -/
structure Between (labels : List (Option ℕ)) (bodies calls : List (ℕ × ℕ))
    (buf : MachBuffer) : Prop where
  labels_eq : buf.labelOffsets = labels
  linked : ∃ sites : List CallSite, (sites.map CallSite.call).Perm calls ∧
    Linked labels bodies buf.text sites (buf.fixupRecords ++ buf.pendingFixupRecords)
  sorted : buf.fixupRecords.Pairwise fun a b => a.deadline ≤ b.deadline
  deadline_le : ∀ f ∈ buf.pendingFixupRecords, f.kind = .branch26 →
    buf.pendingFixupDeadline + 4 ≤ f.deadline
  len_lt : buf.text.len < 2 ^ 31

def MachBuffer.numRecords (buf : MachBuffer) : ℕ :=
  buf.fixupRecords.length + buf.pendingFixupRecords.length

/-- The waiting calls reach an island at the end of the text. -/
def InTime (buf : MachBuffer) : Prop :=
  ∀ f ∈ buf.fixupRecords ++ buf.pendingFixupRecords, f.kind = .branch26 →
    buf.text.len + 20 * buf.numRecords ≤ f.offset + (2 ^ 27 - 1)

section Between

theorem Between.deadline_le_of_mem (h : Between labels bodies calls buf) {f : Fixup}
    (hf : f ∈ buf.fixupRecords ++ buf.pendingFixupRecords) (hkind : f.kind = .branch26) :
    buf.deadline ≤ f.deadline := by
  have hsort := h.sorted
  rcases mem_append.mp hf with hf | hf
  · cases hheap : buf.fixupRecords with
    | nil => simp [hheap] at hf
    | cons top rest =>
      rw [hheap] at hf hsort
      have htop : top.deadline ≤ f.deadline := by
        rcases mem_cons.mp hf with rfl | hf
        · exact le_rfl
        · exact rel_of_pairwise_cons hsort hf
      simp only [deadline, hheap]
      omega
  · have hpend := h.deadline_le f hf hkind
    rw [deadline]
    split <;> omega

/-- `island_needed` at distance zero tells whether an island is still in time. -/
theorem Between.inTime (h : Between labels bodies calls buf)
    (hnd : buf.islandNeeded 0 = false) : InTime buf := by
  intro f hf hkind
  obtain ⟨sites, -, hlink⟩ := h.linked
  have hin := (hlink.record hf).2
  have hlen := h.len_lt
  have hle := h.deadline_le_of_mem hf hkind
  simp only [islandNeeded, Bool.and_eq_false_iff, decide_eq_false_iff_not] at hnd
  simp only [Fixup.deadline, hkind, maxPosRange, u32Max, worstCaseEndOfIsland,
    worstCaseVeneerSize, numRecords] at hnd hle ⊢
  omega

/-- **An island** fails no assertion.  It ends at most three bytes after its veneers, and it
leaves fixups of veneer constants; the heap is empty if every label is bound. -/
theorem Between.emitIsland (forceVeneers : Bool) (distance : ℕ)
    (h : Between labels bodies calls buf) (htime : InTime buf) :
    ∃ buf', buf.emitIslandMaybeForced forceVeneers distance = .ok buf' ∧
      Island labels bodies calls buf.text.len
        (buf.text.len + 20 * buf.numRecords)
        (∃ f ∈ buf.fixupRecords ++ buf.pendingFixupRecords, f.kind = .branch26) [] buf' ∧
      (buf'.fixupRecords = [] ∨ none ∈ labels) := by
  obtain ⟨sites, hcalls, hlink⟩ := h.linked
  have hlen := h.len_lt
  have hcomm : (buf.pendingFixupRecords ++ buf.fixupRecords).Perm
      (buf.fixupRecords ++ buf.pendingFixupRecords) := perm_append_comm
  have hst : Island labels bodies calls buf.text.len (buf.text.len + 20 * buf.numRecords)
      (∃ f ∈ buf.fixupRecords ++ buf.pendingFixupRecords, f.kind = .branch26)
      buf.pendingFixupRecords { buf with pendingFixupRecords := [] } := by
    refine ⟨h.labels_eq, ⟨sites, hcalls, ?_⟩, ?_, ?_, ?_, ?_, ?_, .inr rfl, h.sorted⟩
    · rw [append_nil]
      exact hlink.perm hcomm (.refl _)
    · have := roundUp_four buf.text.len
      simp only [numRecords]
      omega
    · intro f hf hkind
      have hmem := hcomm.subset hf
      exact ⟨⟨f, hmem, hkind⟩, htime f hmem hkind⟩
    · intro f hf
      have := (hlink.record (hcomm.subset hf)).2
      omega
    · intro d hd
      have := (hlink.label_le d hd).2
      omega
    · intro f hf
      cases hf
  generalize hthr : buf.worstCaseEndOfIsland distance = threshold
  obtain ⟨buf1, hpend, h1⟩ := hst.handlePending forceVeneers threshold
  have h2 : Island labels bodies calls buf.text.len (buf.text.len + 20 * buf.numRecords)
      (∃ f ∈ buf.fixupRecords ++ buf.pendingFixupRecords, f.kind = .branch26)
      [] { buf1 with pendingFixupDeadline := u32Max } :=
    { h1 with }
  obtain ⟨buf', hheap, h', hend⟩ := h2.handleHeap forceVeneers threshold le_rfl
  refine ⟨buf', ?_, h', hend⟩
  rw [emitIslandMaybeForced, hthr, hpend]
  exact hheap

variable {forceVeneers : Bool} {fuel : ℕ}

/-- After an island the invariant between operations holds again. -/
theorem Island.between {base limit : ℕ}
    (h : Island labels bodies calls base limit near [] buf) (hlen : buf.text.len < 2 ^ 31) :
    Between labels bodies calls buf where
  labels_eq := h.labels_eq
  linked := h.linked
  sorted := h.sorted
  deadline_le f hf hkind := by
    have := (h.fresh f hf).1
    rw [hkind] at this
    cases this
  len_lt := hlen

theorem Island.len_le {base limit : ℕ}
    (h : Island labels bodies calls base limit near [] buf) : buf.text.len ≤ limit + 3 := by
  have hroom := h.room
  have := (roundUp_four buf.text.len).2.1
  omega

/-! ## The end of the section -/

theorem finishLoop_of_empty (hheap : buf.fixupRecords = []) (hpend : buf.pendingFixupRecords = []) :
    finishLoop forceVeneers fuel buf = .ok buf := by
  cases fuel <;> exact if_pos ⟨hheap, hpend⟩

theorem finishLoop_of_island {buf' : MachBuffer}
    (hne : ¬(buf.fixupRecords = [] ∧ buf.pendingFixupRecords = []))
    (hok : buf.emitIslandMaybeForced forceVeneers 0 = .ok buf') :
    finishLoop forceVeneers (fuel + 1) buf =
      finishLoop forceVeneers fuel buf' := by
  rw [finishLoop, if_neg hne]
  simp [hok]

/-- **The last islands.**  With every function appended, two islands handle all fixups: one for
the calls and the constants that wait, and one for the constants of new veneers. -/
theorem Between.finishLoop (forceVeneers : Bool) (fuel : ℕ) (h : Between labels bodies calls buf)
    (htime : InTime buf) (hbd : none ∉ labels)
    (hroom : buf.text.len + 20 * buf.numRecords + 3 < 2 ^ 31) :
    ∃ buf', finishLoop forceVeneers (fuel + 2) buf = .ok buf' ∧
      buf'.text.len < 2 ^ 31 ∧ ∃ sites, (sites.map CallSite.call).Perm calls ∧
        Linked labels bodies buf'.text sites [] := by
  have hdone : ∀ b, Between labels bodies calls b → b.fixupRecords = [] →
      b.pendingFixupRecords = [] → ∃ sites,
        (sites.map call).Perm calls ∧ Linked labels bodies b.text sites [] := by
    intro b hb hheap hpend
    have := hb.linked
    rwa [hheap, hpend] at this
  by_cases hemp : buf.fixupRecords = [] ∧ buf.pendingFixupRecords = []
  · exact ⟨buf, finishLoop_of_empty hemp.1 hemp.2, h.len_lt, hdone buf h hemp.1 hemp.2⟩
  obtain ⟨buf1, hok1, h1, hend1⟩ := h.emitIsland forceVeneers 0 htime
  have hheap1 := hend1.resolve_right hbd
  have hlen1 := h1.len_le
  have hb1 := h1.between (by omega)
  rw [finishLoop_of_island hemp hok1]
  by_cases hemp1 : buf1.fixupRecords = [] ∧ buf1.pendingFixupRecords = []
  · exact ⟨buf1, finishLoop_of_empty hemp1.1 hemp1.2, hb1.len_lt,
      hdone buf1 hb1 hemp1.1 hemp1.2⟩
  -- the fixups that are left are those of constants, so that the next island adds nothing
  have hconst : ∀ f ∈ buf1.fixupRecords ++ buf1.pendingFixupRecords, f.kind ≠ .branch26 := by
    intro f hf hkind
    rw [hheap1] at hf
    have := (h1.fresh f hf).1
    rw [hkind] at this
    cases this
  obtain ⟨buf2, hok2, h2, hend2⟩ := hb1.emitIsland forceVeneers 0
    fun f hf hkind => absurd hkind (hconst f hf)
  have hheap2 := hend2.resolve_right hbd
  have hpend2 : buf2.pendingFixupRecords = [] := by
    refine eq_nil_iff_forall_not_mem.mpr fun f hf => ?_
    obtain ⟨g, hg, hkind⟩ := (h2.fresh f hf).2
    exact hconst g hg hkind
  have hlen2 := h2.still.resolve_left fun ⟨g, hg, hkind⟩ => hconst g hg hkind
  have hb2 := h2.between (by omega)
  rw [finishLoop_of_island hemp1 hok2, finishLoop_of_empty hheap2 hpend2]
  exact ⟨buf2, rfl, hb2.len_lt, hdone buf2 hb2 hheap2 hpend2⟩

end Between

end WasmDeps.Machinst
