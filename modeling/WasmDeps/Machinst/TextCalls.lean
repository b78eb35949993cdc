import WasmDeps.Machinst.TextPatch

/-!
# Calls of a text section

Each resolved call is at one of four stages: its fixup waits, it branches to its function, it
branches to a veneer whose constant waits, or it branches to a veneer that goes to its function.
`Linked` says that the recorded fixups are those of the calls that wait, and that the words of
different calls are apart, so that a patch for one call leaves the others alone.
-/

namespace WasmDeps.Machinst

open Lib List

/-- How far a call has been linked. -/
inductive Stage
  | waiting
  | direct
  | veneer (v : ℕ)
  | linked (v : ℕ)
  deriving DecidableEq, Repr

structure CallSite where
  offset : ℕ
  target : ℕ
  stage : Stage
  deriving DecidableEq, Repr

namespace CallSite

variable (c : CallSite)

def call : ℕ × ℕ := (c.offset, c.target)

def fixup? : Option Fixup :=
  match c.stage with
  | .waiting => some ⟨c.target, c.offset, .branch26⟩
  | .veneer v => some ⟨c.target, v + 16, .pcRel32⟩
  | _ => none

def veneer? : Option ℕ :=
  match c.stage with
  | .veneer v | .linked v => some v
  | _ => none

/-- The words of the call: its instruction, and its veneer. -/
def words : List ℕ :=
  match c.veneer? with
  | some v => [c.offset, v, v + 4, v + 8, v + 12, v + 16]
  | none => [c.offset]

/-- What the text holds for the call, when the labels are bound at `labels`. -/
def Good (labels : List (Option ℕ)) (text : Text) (c : CallSite) : Prop :=
  match c.stage with
  | .waiting => IsBranch (text.word c.offset)
  | .direct => ∃ d, labels[c.target]? = some (some d) ∧ BranchesTo text c.offset d
  | .veneer v => BranchesTo text c.offset v ∧ IsVeneer text v ∧ text.word (v + 16) = 0
  | .linked v => BranchesTo text c.offset v ∧ IsVeneer text v ∧
      ∃ d, labels[c.target]? = some (some d) ∧
        text.word (v + 16) = (((d : ℤ) - (v + 16 : ℕ)) % 2 ^ 32).toNat

theorem offset_mem_words (c : CallSite) : c.offset ∈ c.words := by
  rw [words]
  split <;> simp

theorem offset_mem_words_of_fixup {c : CallSite} {f : Fixup} (h : c.fixup? = some f) :
    f.offset ∈ c.words := by
  obtain ⟨o, t, stage⟩ := c
  cases stage <;> simp_all [fixup?, words, veneer?] <;> subst h <;> simp

theorem Good.congr {labels labels' : List (Option ℕ)} {text text' : Text} {c : CallSite}
    (h : c.Good labels text) (hws : ∀ w ∈ c.words, text'.word w = text.word w)
    (hlabs : ∀ d, labels[c.target]? = some (some d) → labels'[c.target]? = some (some d)) :
    c.Good labels' text' := by
  obtain ⟨o, t, stage⟩ := c
  cases stage with
  | waiting =>
    simp only [Good, words, veneer?, mem_singleton, forall_eq] at h hws ⊢
    rwa [hws]
  | direct =>
    simp only [Good, words, veneer?, mem_singleton, forall_eq] at h hws hlabs ⊢
    obtain ⟨d, hd, hb⟩ := h
    exact ⟨d, hlabs d hd, hb.congr hws⟩
  | veneer v =>
    simp only [Good, words, veneer?, mem_cons, not_mem_nil, or_false, forall_eq_or_imp,
      forall_eq] at h hws ⊢
    obtain ⟨ho, h0, h4, h8, h12, h16⟩ := hws
    obtain ⟨hb, hv, hc⟩ := h
    exact ⟨hb.congr ho, ⟨h0.trans hv.ldr, h4.trans hv.adr, h8.trans hv.add, h12.trans hv.br⟩,
      h16.trans hc⟩
  | linked v =>
    simp only [Good, words, veneer?, mem_cons, not_mem_nil, or_false, forall_eq_or_imp,
      forall_eq] at h hws hlabs ⊢
    obtain ⟨ho, h0, h4, h8, h12, h16⟩ := hws
    obtain ⟨hb, hv, d, hd, hc⟩ := h
    exact ⟨hb.congr ho, ⟨h0.trans hv.ldr, h4.trans hv.adr, h8.trans hv.add, h12.trans hv.br⟩,
      d, hlabs d hd, h16.trans hc⟩

end CallSite

/-- An offset in one of the bodies, which are given by their start and size. -/
def InBody (bodies : List (ℕ × ℕ)) (o : ℕ) : Prop := ∃ b ∈ bodies, b.1 ≤ o ∧ o < b.1 + b.2

/-- **The calls of a text**, with the fixups recorded for them. -/
structure Linked (labels : List (Option ℕ)) (bodies : List (ℕ × ℕ)) (text : Text)
    (sites : List CallSite) (records : List Fixup) : Prop where
  records_perm : records.Perm (sites.filterMap CallSite.fixup?)
  nodup : (sites.flatMap CallSite.words).Nodup
  inside : ∀ c ∈ sites, ∀ w ∈ c.words, w % 4 = 0 ∧ w + 4 ≤ text.len
  good : ∀ c ∈ sites, c.Good labels text
  target_lt : ∀ c ∈ sites, c.target < labels.length
  apart : ∀ c ∈ sites, ∀ v, c.veneer? = some v → ∀ o, v ≤ o → o < v + 20 → ¬InBody bodies o
  label_le : ∀ d, some d ∈ labels → d % 4 = 0 ∧ d ≤ text.len
  body_le : ∀ b ∈ bodies, b.1 + b.2 ≤ text.len

namespace Linked

variable {labels labels' : List (Option ℕ)} {bodies : List (ℕ × ℕ)} {text text' : Text}
  {sites sites' : List CallSite} {c : CallSite} {records records' rest : List Fixup}
  {f : Fixup}

theorem perm (h : Linked labels bodies text sites records) (hr : records'.Perm records)
    (hs : sites'.Perm sites) : Linked labels bodies text sites' records' where
  records_perm := hr.trans (h.records_perm.trans (hs.filterMap _).symm)
  nodup := (hs.flatMap_right _).nodup_iff.mpr h.nodup
  inside c hc := h.inside c (hs.subset hc)
  good c hc := h.good c (hs.subset hc)
  target_lt c hc := h.target_lt c (hs.subset hc)
  apart c hc := h.apart c (hs.subset hc)
  label_le := h.label_le
  body_le := h.body_le

theorem exists_site (h : Linked labels bodies text sites (f :: rest)) :
    ∃ c others, sites.Perm (c :: others) ∧ c.fixup? = some f ∧
      Linked labels bodies text (c :: others) (f :: rest) := by
  have hmem := h.records_perm.subset (.head _)
  obtain ⟨c, hc, hf⟩ := mem_filterMap.mp hmem
  obtain ⟨pre, post, rfl⟩ := append_of_mem hc
  exact ⟨c, pre ++ post, perm_middle, hf, h.perm (.refl _) perm_middle.symm⟩

theorem record (h : Linked labels bodies text sites records) (hf : f ∈ records) :
    (f.kind = .branch26 ∨ f.kind = .pcRel32) ∧ f.offset + 4 ≤ text.len := by
  obtain ⟨c, hc, hfix⟩ := mem_filterMap.mp (h.records_perm.subset hf)
  refine ⟨?_, (h.inside c hc _ (CallSite.offset_mem_words_of_fixup hfix)).2⟩
  obtain ⟨o, t, stage⟩ := c
  cases stage with
  | direct => cases hfix
  | linked v => cases hfix
  | waiting =>
    cases hfix
    exact .inl rfl
  | veneer v =>
    cases hfix
    exact .inr rfl

/-- **One call moves on.**  The text changes at the words of one call and at its end only. -/
theorem update (c' : CallSite) (text' : Text)
    (h : Linked labels bodies text (c :: sites) (f :: rest)) (hf : c.fixup? = some f)
    (htgt : c'.target = c.target) (hlen : text.len ≤ text'.len) (hnd : c'.words.Nodup)
    (hws : ∀ w ∈ c'.words, w ∈ c.words ∨ text.len ≤ w)
    (hinside : ∀ w ∈ c'.words, w % 4 = 0 ∧ w + 4 ≤ text'.len) (hgood : c'.Good labels text')
    (hapart : ∀ v, c'.veneer? = some v → ∀ o, v ≤ o → o < v + 20 → ¬InBody bodies o)
    (hframe : ∀ w, w % 4 = 0 → w + 4 ≤ text.len → w ∉ c.words → text'.word w = text.word w) :
    Linked labels bodies text' (c' :: sites) (c'.fixup?.toList ++ rest) := by
  have hspl := nodup_append'.mp h.nodup
  have hother : ∀ d ∈ sites, ∀ w ∈ d.words, w ∉ c.words := fun d hd w hw hc =>
    hspl.2.2 hc (mem_flatMap.mpr ⟨d, hd, hw⟩)
  refine ⟨?_, ?_, ?_, ?_, ?_, ?_, ?_, ?_⟩
  · have hrest : rest.Perm (sites.filterMap CallSite.fixup?) := by
      have := h.records_perm
      rw [filterMap_cons_some hf] at this
      exact this.cons_inv
    cases hfix : c'.fixup? with
    | none => rwa [filterMap_cons_none hfix]
    | some g =>
      rw [filterMap_cons_some hfix]
      exact hrest.cons g
  · refine nodup_append'.mpr ⟨hnd, hspl.2.1, ?_⟩
    intro w hw hmem
    obtain ⟨d, hd, hwd⟩ := mem_flatMap.mp hmem
    rcases hws w hw with hold | hnew
    · exact hother d hd w hwd hold
    · have := h.inside d (.tail _ hd) w hwd
      omega
  · intro d hd w hw
    rcases mem_cons.mp hd with rfl | hd
    · exact hinside w hw
    · have := h.inside d (.tail _ hd) w hw
      omega
  · intro d hd
    rcases mem_cons.mp hd with rfl | hd
    · exact hgood
    · refine (h.good d (.tail _ hd)).congr (fun w hw => ?_) fun _ hl => hl
      have hin := h.inside d (.tail _ hd) w hw
      exact hframe w hin.1 hin.2 (hother d hd w hw)
  · intro d hd
    rcases mem_cons.mp hd with rfl | hd
    · exact htgt ▸ h.target_lt c (.head _)
    · exact h.target_lt d (.tail _ hd)
  · intro d hd
    rcases mem_cons.mp hd with rfl | hd
    · exact hapart
    · exact h.apart d (.tail _ hd)
  · intro d hd
    exact ⟨(h.label_le d hd).1, (h.label_le d hd).2.trans hlen⟩
  · intro b hb
    exact (h.body_le b hb).trans hlen

section

variable (h : Linked labels bodies text sites records)
include h

/-- **More text.**  Text is appended, with a body at its end, and labels are bound. -/
theorem grow {p n : ℕ} (hp : text.len ≤ p)
    (hlen : text'.len = p + n) (hword : ∀ w, w + 4 ≤ text.len → text'.word w = text.word w)
    (hlabs : ∀ i d : ℕ, labels[i]? = some (some d) → labels'[i]? = some (some d))
    (hlength : labels'.length = labels.length)
    (hlab : ∀ d, some d ∈ labels' → d % 4 = 0 ∧ d ≤ text'.len) :
    Linked labels' (bodies ++ [(p, n)]) text' sites records where
  records_perm := h.records_perm
  nodup := h.nodup
  inside c hc w hw := by
    have := h.inside c hc w hw
    omega
  good c hc := (h.good c hc).congr (fun w hw => hword w (h.inside c hc w hw).2) (hlabs _)
  target_lt c hc := hlength ▸ h.target_lt c hc
  apart c hc v hv o hle hlt := by
    rintro ⟨b, hb, hin⟩
    rcases mem_append.mp hb with hb | hb
    · exact h.apart c hc v hv o hle hlt ⟨b, hb, hin⟩
    obtain rfl : b = (p, n) := mem_singleton.mp hb
    have hlast : v + 16 ∈ c.words := by
      simp [CallSite.words, hv]
    have := (h.inside c hc _ hlast).2
    omega
  label_le := hlab
  body_le b hb := by
    rcases mem_append.mp hb with hb | hb
    · have := h.body_le b hb
      omega
    · obtain rfl : b = (p, n) := mem_singleton.mp hb
      exact hlen.ge

/-- **A new call**, in a body. -/
theorem addCall {o t : ℕ} (ho : o % 4 = 0)
    (hbody : ∃ b ∈ bodies, b.1 ≤ o ∧ o + 4 ≤ b.1 + b.2) (ht : t < labels.length)
    (hbr : IsBranch (text.word o)) (hnew : ∀ c ∈ sites, c.offset ≠ o) :
    Linked labels bodies text (⟨o, t, .waiting⟩ :: sites) (⟨t, o, .branch26⟩ :: records) := by
  obtain ⟨b, hb, hlo, hhi⟩ := hbody
  have hle := h.body_le b hb
  -- the words of the other calls are their own instructions and veneers outside the bodies
  have hfr : ∀ c ∈ sites, o ∉ c.words := by
    intro c hc hw
    cases hv : c.veneer? with
    | none =>
      rw [CallSite.words, hv, mem_singleton] at hw
      exact hnew c hc hw.symm
    | some v =>
      simp only [CallSite.words, hv, mem_cons, not_mem_nil, or_false] at hw
      rcases hw with hw | hw
      · exact hnew c hc hw.symm
      · exact h.apart c hc v hv o (by omega) (by omega) ⟨b, hb, hlo, by omega⟩
  refine ⟨h.records_perm.cons _, ?_, ?_, ?_, ?_, ?_, h.label_le, h.body_le⟩
  · refine nodup_cons.mpr ⟨fun hmem => ?_, h.nodup⟩
    obtain ⟨c, hc, hw⟩ := mem_flatMap.mp hmem
    exact hfr c hc hw
  · intro c hc w hw
    rcases mem_cons.mp hc with rfl | hc
    · obtain rfl : w = o := mem_singleton.mp hw
      omega
    · exact h.inside c hc w hw
  · intro c hc
    rcases mem_cons.mp hc with rfl | hc
    · exact hbr
    · exact h.good c hc
  · intro c hc
    rcases mem_cons.mp hc with rfl | hc
    · exact ht
    · exact h.target_lt c hc
  · intro c hc v hv
    rcases mem_cons.mp hc with rfl | hc
    · cases hv
    · exact h.apart c hc v hv

theorem transfers (hc : c ∈ sites) (hdone : c.fixup? = none) (hlen : text.len < 2 ^ 31) :
    ∃ d, labels[c.target]? = some (some d) ∧
      Transfers text (fun o => ¬InBody bodies o) c.offset d := by
  have hgood := h.good c hc
  have hin := h.inside c hc
  have hapart := h.apart c hc
  obtain ⟨o, t, stage⟩ := c
  cases stage with
  | waiting => cases hdone
  | veneer v => cases hdone
  | direct =>
    obtain ⟨d, hd, hb⟩ := hgood
    have := (h.label_le d (mem_of_getElem? hd)).2
    exact ⟨d, hd, hb.transfers (by omega) _⟩
  | linked v =>
    obtain ⟨hb, hv, d, hd, hword⟩ := hgood
    have := (h.label_le d (mem_of_getElem? hd)).2
    have hv16 := (hin (v + 16) (by simp [CallSite.words, CallSite.veneer?])).2
    exact ⟨d, hd, hv.transfers hb hword (by omega) (by omega)
      fun o hlo hhi => hapart v rfl o hlo (by omega)⟩

end

end Linked

end WasmDeps.Machinst
