import WasmDeps.Frontend.SwitchPieces

/-!
# A lowered switch dispatches

The ranges collected from the cases are sorted and do not overlap, and have the blocks of the
cases.  The linear search goes through them from the highest to the lowest, so that a value
that is not less than the first index of a range cannot be in a later one; the binary search
splits them by the same argument.

For 128-bit values, a jump table whose first index is above `2 ^ 63` and fits 64 bits is
rebased by an immediate that is sign extended to a positive number, so that its cases go to the
default block.  The lowering of a switch is right just when this loses no case and no range is
too long for a jump table.
-/

namespace WasmDeps.Frontend

open List ContiguousCaseRange

open Lib

variable {firstNew val : ℕ} {ty : Ty} {bx : FunctionBuilder} {otherwise : Block}

/-! ## Ranges in order -/

/-- The block of an index. -/
def lookupRanges (ranges : List ContiguousCaseRange) (n : ℕ) : Option Block :=
  ranges.findSome? fun range => range.target n

/-- The one range ends where the other one starts, or before. -/
def ContiguousCaseRange.Before (range range' : ContiguousCaseRange) : Prop :=
  range.firstIndex + range.blocks.length ≤ range'.firstIndex

/-- A range that the search may be given. -/
structure ContiguousCaseRange.Ok (ty : Ty) (range : ContiguousCaseRange) : Prop where
  nonempty : range.blocks ≠ []
  fits : range.firstIndex < 2 ^ ty.bits
  length_le : 1 < range.blocks.length → range.blocks.length ≤ u32Max

variable {range : ContiguousCaseRange}

variable {n : ℕ} {blocks : List Block} {done : List (ℕ × Block)} {last : Option ℕ} {switch : Switch}

theorem target_eq_none_of_lt (h : n < range.firstIndex) :
    range.target n = none := if_neg (not_le.2 h)

theorem lt_of_target {b : Block} (h : range.target n = some b) :
    range.firstIndex ≤ n ∧ n < range.firstIndex + range.blocks.length := by
  rw [target] at h
  split at h
  · have hlt := lt_of_getElem? h
    omega
  · cases h

theorem ContiguousCaseRange.Before.target_eq_none {range range' : ContiguousCaseRange}
    (h : range.Before range') (hle : range'.firstIndex ≤ n) : range.target n = none := by
  cases ht : range.target n with
  | none => rfl
  | some b =>
    have hlt := lt_of_target ht
    rw [Before] at h
    omega

variable {ranges : List ContiguousCaseRange}

theorem lookupRanges_eq_none (h : ∀ range ∈ ranges, range.target n = none) :
    lookupRanges ranges n = none :=
  findSome?_eq_none_iff.2 h

/-- The order of ranges that are apart does not matter. -/
theorem lookupRanges_reverse (n : ℕ) (h : ranges.Pairwise Before) :
    lookupRanges ranges.reverse n = lookupRanges ranges n := by
  induction ranges with
  | nil => rfl
  | cons range ranges ih =>
    obtain ⟨hbefore, hrest⟩ := pairwise_cons.1 h
    have ih := ih hrest
    unfold lookupRanges at ih ⊢
    rw [reverse_cons, findSome?_append, ih, findSome?_cons, findSome?_cons]
    cases ht : range.target n with
    | none => simp
    | some b =>
      have hnone := lookupRanges_eq_none fun range' hmem =>
        target_eq_none_of_lt ((lt_of_target ht).2.trans_le (hbefore range' hmem))
      rw [lookupRanges] at hnone
      rw [hnone]
      rfl

/-! ## Linear search -/

/-- Where the code for the ranges sends a value: to its target if no range is defective, and to
the default block if a defective range has it. -/
def Found (ty : Ty) (otherwise : Block) (ranges : List ContiguousCaseRange) (n : ℕ) (b : Block) :
    Prop :=
  ((∀ r ∈ ranges, ¬r.Defective ty otherwise) → b = (lookupRanges ranges n).getD otherwise) ∧
    ∀ r ∈ ranges, r.Defective ty otherwise → (r.target n).isSome → b = otherwise

/-- The code sends every value to a block that `f` allows. -/
def Sends (firstNew val : ℕ) (ty : Ty) (f : ℕ → Block → Prop) (code : Block → List Inst)
    (l : List Inst) : Prop :=
  ∀ e : Env, (e val).ty = ty → (e val).n < 2 ^ ty.bits →
    ∃ e' b, Arrives code firstNew l e e' b ∧ f (e val).n b

theorem lookupRanges_cons (n : ℕ) : lookupRanges (range :: ranges) n =
    (range.target n).or (lookupRanges ranges n) := by
  rw [lookupRanges, findSome?_cons]
  cases range.target n <;> rfl

/-- A value that no lower range has stays where its range keeps it. -/
theorem Found.of_keeps {b : Block} (hbefore : ∀ r ∈ ranges, r.Before range)
    (hle : range.firstIndex ≤ n) (hkeeps : range.Keeps ty otherwise n b) :
    Found ty otherwise (range :: ranges) n b := by
  have hrest : ∀ r ∈ ranges, r.target n = none := fun r hmem =>
    (hbefore r hmem).target_eq_none hle
  refine ⟨fun hdef => ?_, fun r hmem hdef hcase => ?_⟩
  · rw [lookupRanges_cons, lookupRanges_eq_none hrest, Option.or_none]
    exact hkeeps.1 (hdef range (by simp))
  · obtain rfl | hmem := mem_cons.1 hmem
    · exact hkeeps.2 hdef hcase
    · simp [hrest r hmem] at hcase

/-- A value that the range does not have is found in the others. -/
theorem Found.cons {b : Block} (hnone : range.target n = none)
    (h : Found ty otherwise ranges n b) : Found ty otherwise (range :: ranges) n b := by
  refine ⟨fun hdef => ?_, fun r hmem hdef hcase => ?_⟩
  · rw [lookupRanges_cons, hnone, Option.none_or]
    exact h.1 fun r hmem => hdef r (.tail _ hmem)
  · obtain rfl | hmem := mem_cons.1 hmem
    · simp [hnone] at hcase
    · exact h.2 r hmem hdef hcase

theorem found_nil : Found ty otherwise [] n otherwise := ⟨fun _ => rfl, by simp⟩

theorem found_reverse {b : Block} (h : ranges.Pairwise Before) :
    Found ty otherwise ranges.reverse n b ↔ Found ty otherwise ranges n b := by
  simp only [Found, lookupRanges_reverse n h, mem_reverse]

/-- **The linear search, over ranges from the highest to the lowest.** -/
theorem searchBranches_spec (hother : otherwise < firstNew) (h : Ready firstNew val ty bx)
    (hsort : (range :: ranges).Pairwise fun a b => b.Before a)
    (hok : ∀ r ∈ range :: ranges, r.Ok ty) :
    ∃ bx', searchBranches val otherwise (range :: ranges) bx = .ok bx' ∧
      Piece bx bx' (Sends firstNew val ty (Found ty otherwise (range :: ranges))) := by
  induction ranges generalizing range bx with
  | nil =>
    have hr := hok range (by simp)
    obtain ⟨bx', heq, hpiece⟩ := buildRange_spec h otherwise otherwise hr.nonempty hr.fits
      hr.length_le fun _ => rfl
    refine ⟨bx', by simp [searchBranches, heq], hpiece.mono ?_⟩
    intro code l harr e hty hn
    obtain ⟨e', b, harr, hleads⟩ := harr e hty hn
    refine ⟨e', b, harr, ?_⟩
    obtain ⟨hnone, rfl, -⟩ | ⟨hle, hkeeps⟩ := hleads
    · exact found_nil.cons hnone
    · exact .of_keeps (by simp) hle hkeeps
  | cons next ranges ih =>
    obtain ⟨hbefore, hrest⟩ := pairwise_cons.1 hsort
    have hr := hok range (by simp)
    have hnext := hok next (by simp)
    -- only the lowest range can start at zero
    have hpos : range.firstIndex ≠ 0 := by
      have hb : next.firstIndex + next.blocks.length ≤ range.firstIndex := hbefore next (by simp)
      have hlen := length_pos_of_ne_nil hnext.nonempty
      omega
    obtain ⟨bx1, heq, hpiece⟩ := buildRange_spec h.createBlock otherwise bx.nextBlock
      hr.nonempty hr.fits hr.length_le fun hzero => absurd hzero hpos
    have hrdy := h.createBlock.switchToBlock hpiece (Nat.lt_succ_self bx.nextBlock)
    obtain ⟨bx', heq', hpiece'⟩ := ih hrdy hrest fun r hmem => hok r (.tail _ hmem)
    have hne := (hother.trans_le h.firstNew_le).ne'
    refine ⟨bx', ?_, (Piece.alternate h.position hpiece hpiece').mono ?_⟩
    · rw [searchBranches]
      simp only [isEmpty_cons, Bool.false_eq_true, if_false, heq, Exec.ok_bind, ne_eq,
        hne, not_false_eq_true, if_true]
      exact heq'
    rintro code l ⟨hrange, hsends⟩ e hty hn
    obtain ⟨e1, b, harr, hleads⟩ := hrange e hty hn
    obtain ⟨hnone, rfl, hval⟩ | ⟨hle, hkeeps⟩ := hleads
    · obtain ⟨e', b, hrest, hfound⟩ := hsends e1 (hval ▸ hty) (hval ▸ hn)
      exact ⟨e', b, harr.trans h.firstNew_le hrest, .cons hnone (hval ▸ hfound)⟩
    · exact ⟨e1, b, harr, .of_keeps hbefore hle hkeeps⟩

/-- The tests of the ranges send a value to its block. -/
theorem buildSearchBranches_spec (hother : otherwise < firstNew)
    (hne : ranges ≠ []) (h : Ready firstNew val ty bx)
    (hsort : ranges.Pairwise Before) (hok : ∀ r ∈ ranges, r.Ok ty) :
    ∃ bx', buildSearchBranches bx val otherwise ranges = .ok bx' ∧
      Piece bx bx' (Sends firstNew val ty (Found ty otherwise ranges)) := by
  obtain ⟨range, rest, hrev⟩ := exists_cons_of_ne_nil (reverse_ne_nil_iff.2 hne)
  have hdesc := pairwise_reverse.2 hsort
  have hokrev : ∀ r ∈ ranges.reverse, r.Ok ty := fun r hmem => hok r (mem_reverse.1 hmem)
  rw [hrev] at hdesc hokrev
  obtain ⟨bx', heq, hpiece⟩ := searchBranches_spec hother h hdesc hokrev
  refine ⟨bx', by rw [buildSearchBranches, hrev, heq], hpiece.mono ?_⟩
  intro code l hsends e hty hn
  obtain ⟨e', b, harr, hfound⟩ := hsends e hty hn
  rw [← hrev, found_reverse hsort] at hfound
  exact ⟨e', b, harr, hfound⟩

/-! ## Binary search -/

/-- Ranges split in two: a value is on the side that its comparison with the first index of the
right side says. -/
theorem found_split {left right : List ContiguousCaseRange} {first : ContiguousCaseRange}
    {b : Block} (hsort : (left ++ first :: right).Pairwise Before)
    (h : if first.firstIndex ≤ n then Found ty otherwise (first :: right) n b
      else Found ty otherwise left n b) : Found ty otherwise (left ++ first :: right) n b := by
  obtain ⟨_, hright, hcross⟩ := pairwise_append.1 hsort
  have happ : lookupRanges (left ++ first :: right) n =
      (lookupRanges left n).or (lookupRanges (first :: right) n) := findSome?_append
  by_cases hle : first.firstIndex ≤ n
  · rw [if_pos hle] at h
    have hnone : ∀ r ∈ left, r.target n = none := fun r hmem =>
      (hcross r hmem first (by simp)).target_eq_none hle
    refine ⟨fun hdef => ?_, fun r hmem hdef hcase => ?_⟩
    · rw [happ, lookupRanges_eq_none hnone, Option.none_or]
      exact h.1 fun r hmem => hdef r (mem_append_right _ hmem)
    · obtain hmem | hmem := mem_append.1 hmem
      · simp [hnone r hmem] at hcase
      · exact h.2 r hmem hdef hcase
  · rw [if_neg hle] at h
    have hnone : ∀ r ∈ first :: right, r.target n = none := by
      refine fun r hmem => target_eq_none_of_lt ?_
      obtain rfl | hmem := mem_cons.1 hmem
      · omega
      · have hb : first.firstIndex + first.blocks.length ≤ r.firstIndex :=
          (pairwise_cons.1 hright).1 r hmem
        omega
    refine ⟨fun hdef => ?_, fun r hmem hdef hcase => ?_⟩
    · rw [happ, lookupRanges_eq_none hnone, Option.or_none]
      exact h.1 fun r hmem => hdef r (mem_append_left _ hmem)
    · obtain hmem | hmem := mem_append.1 hmem
      · exact h.2 r hmem hdef hcase
      · simp [hnone r hmem] at hcase

def atEntry (bx : FunctionBuilder) : Option Block → FunctionBuilder
  | some block => bx.switchToBlock block
  | none => bx

/-- **The binary search handles the entry on top of the stack completely before it goes on with
the rest.** -/
theorem searchTree_spec (hother : otherwise < firstNew) (size : ℕ) (hsize : ranges.length ≤ size)
    (hne : ranges ≠ []) (block : Option Block) (h : Ready firstNew val ty (atEntry bx block))
    (hsort : ranges.Pairwise Before) (hok : ∀ r ∈ ranges, r.Ok ty) :
    ∃ bx', Piece (atEntry bx block) bx' (Sends firstNew val ty (Found ty otherwise ranges)) ∧
      ∃ steps, steps + 1 ≤ 2 * ranges.length ∧ ∀ fuel stack,
        searchTree val otherwise (fuel + steps) ((block, ranges) :: stack) bx =
          searchTree val otherwise fuel stack bx' := by
  induction size generalizing ranges bx block with
  | zero => exact absurd (length_eq_zero_iff.1 (Nat.le_zero.1 hsize)) hne
  | succ size ih =>
    have hlen := length_pos_of_ne_nil hne
    by_cases hfew : ranges.length ≤ 3
    · obtain ⟨bx', heq, hpiece⟩ := buildSearchBranches_spec hother hne h hsort hok
      refine ⟨bx', hpiece, 1, by omega, fun fuel stack => ?_⟩
      cases block <;> rw [atEntry] at heq <;> simp [searchTree, hfew, heq]
    -- split, and find the two sides again in the list
    obtain ⟨left, first, right, hspl, hleft, hright⟩ : ∃ left first right,
        ranges = left ++ first :: right ∧ ranges.take (ranges.length / 2) = left ∧
          ranges.drop (ranges.length / 2) = first :: right := by
      obtain ⟨first, right, hdrop⟩ := exists_cons_of_ne_nil
        (show ranges.drop (ranges.length / 2) ≠ [] by simp [drop_eq_nil_iff]; omega)
      exact ⟨_, first, right, by rw [← hdrop, take_append_drop], rfl, hdrop⟩
    have hlens : left.length = ranges.length / 2 ∧
        left.length + (first :: right).length = ranges.length := by
      rw [← hleft, ← hright]
      rw [length_take, length_drop]
      omega
    have hleftne : left ≠ [] := by
      rintro rfl
      rw [length_nil] at hlens
      omega
    rw [hspl] at hsort hok
    obtain ⟨hsl, hsr, _⟩ := pairwise_append.1 hsort
    have hokl : ∀ r ∈ left, r.Ok ty := fun r hm => hok r (mem_append_left _ hm)
    have hokr : ∀ r ∈ first :: right, r.Ok ty := fun r hm => hok r (mem_append_right _ hm)
    -- the comparison and the branch
    generalize hbx : atEntry bx block = bx0 at h
    have h2 := h.createBlock.createBlock
    obtain ⟨bx1, c, ops, hcmp, hadd, hgv⟩ :=
      icmpImmU128_spec h2 .unsignedGreaterThanOrEqual (hokr first (by simp)).fits
    have hbranch := hadd.trans (.append bx1 (.brif c (bx0.nextBlock + 1) bx0.nextBlock))
    -- the right side is on top of the stack
    have hrr := h2.switchToBlock hbranch.piece (Nat.lt_succ_self (bx0.nextBlock + 1))
    obtain ⟨bx2, hpr, stepsr, hstepsr, hrunr⟩ := ih (by omega) (cons_ne_nil _ _)
      (some (bx0.nextBlock + 1)) hrr hsr hokr
    have hpright := Piece.alternate h.createBlock.position hbranch.piece hpr
    have hrl := h.createBlock.switchToBlock hpright (Nat.lt_succ_self bx0.nextBlock)
    obtain ⟨bx3, hpl, stepsl, hstepsl, hrunl⟩ := ih (by omega) hleftne
      (some bx0.nextBlock) hrl hsl hokl
    refine ⟨bx3, (Piece.alternate h.position hpright hpl).mono ?_, stepsl + stepsr + 1, by omega,
      fun fuel stack => ?_⟩
    · rintro code l ⟨⟨rfl, hsr⟩, hsl⟩ e hty hn
      obtain ⟨e1, hcomp, hval, hc⟩ := hgv e hty hn
      have hbr := hcomp.brif hc (bx0.nextBlock + 1) bx0.nextBlock
      have hle0 := h.firstNew_le
      rw [hspl]
      by_cases hle : first.firstIndex ≤ (e val).n
      · obtain ⟨e', b, harr, hfound⟩ := hsr e1 (hval ▸ hty) (hval ▸ hn)
        rw [hval] at hfound
        exact ⟨e', b, .step (hbr.trans (by simp [IntCC.holds, hle])) (Nat.le_succ_of_le hle0) harr,
          found_split hsort (by rwa [if_pos hle])⟩
      · obtain ⟨e', b, harr, hfound⟩ := hsl e1 (hval ▸ hty) (hval ▸ hn)
        rw [hval] at hfound
        exact ⟨e', b, .step (hbr.trans (by simp [IntCC.holds, hle])) hle0 harr,
          found_split hsort (by rwa [if_neg hle])⟩
    · rw [show fuel + (stepsl + stepsr + 1) = (fuel + stepsl + stepsr) + 1 by omega,
        ← hrunl fuel stack, ← hrunr (fuel + stepsl)]
      cases block <;> rw [atEntry] at hbx <;> subst hbx <;>
        simp only [searchTree, hfew, if_false, hleft, hright, head?_cons, unwrap,
          Exec.ok_bind, Exec.pure_eq, hcmp] <;> rfl

/-! ## Collecting ranges -/

/-- The ranges collected from the cases handled so far, which end with `last`. -/
structure Collected (done : List (ℕ × Block)) (ranges : List ContiguousCaseRange)
    (last : Option ℕ) : Prop where
  sorted : ranges.Pairwise ContiguousCaseRange.Before
  nonempty : ∀ r ∈ ranges, r.blocks ≠ []
  target : ∀ n b, (∃ r ∈ ranges, r.target n = some b) ↔ (n, b) ∈ done
  last_none : last = none → ranges = []
  last_some : ∀ i, last = some i → ∃ init r, ranges = init ++ [r] ∧
    r.firstIndex + r.blocks.length = i + 1

theorem target_push {first : ℕ} {block b : Block} :
    (ContiguousCaseRange.mk first (blocks ++ [block])).target n = some b ↔
      (ContiguousCaseRange.mk first blocks).target n = some b ∨
        (n, b) = (first + blocks.length, block) := by
  simp only [target, Prod.mk.injEq]
  by_cases hle : first ≤ n
  · simp only [if_pos hle, getElem?_append]
    by_cases hlt : n - first < blocks.length
    · have hne : n ≠ first + blocks.length := by omega
      simp [hlt, hne]
    have hnone : blocks[n - first]? = none := getElem?_eq_none (by omega)
    simp only [hlt, if_false, hnone, getElem?_singleton, reduceCtorEq, false_or]
    by_cases heq : n = first + blocks.length
    · simp [heq, eq_comm]
    · simp [heq, show n - first - blocks.length ≠ 0 by omega]
  · have hne : n ≠ first + blocks.length := by omega
    simp [hle, hne]

/-- A case that continues the last range. -/
theorem Collected.push {init : List ContiguousCaseRange} {first index : ℕ} {block : Block}
    (hsort : (init ++ [ContiguousCaseRange.mk first blocks]).Pairwise Before)
    (hinit : ∀ r ∈ init, r.blocks ≠ [])
    (htgt : ∀ n b, (∃ r ∈ init ++ [⟨first, blocks⟩], r.target n = some b) ↔ (n, b) ∈ done)
    (hidx : first + blocks.length = index) :
    Collected (done ++ [(index, block)]) (init ++ [⟨first, blocks ++ [block]⟩])
      (some index) where
  sorted := by
    rw [pairwise_append] at hsort ⊢
    refine ⟨hsort.1, pairwise_singleton _ _, fun r hr r' hr' => ?_⟩
    rw [mem_singleton.1 hr']
    exact hsort.2.2 r hr ⟨first, blocks⟩ (by simp)
  nonempty r hr := by
    obtain hr | hr := mem_append.1 hr
    · exact hinit r hr
    · rw [mem_singleton.1 hr]
      simp
  target n b := by
    have h := htgt n b
    simp only [mem_append, mem_singleton, or_and_right, exists_or, exists_eq_left] at h ⊢
    rw [target_push, hidx, ← or_assoc, h]
  last_none h := by cases h
  last_some i h := by
    cases h
    exact ⟨init, _, rfl, by simp only [length_append, length_singleton]; omega⟩

/-- **One case**: the ranges go on to be those of the cases handled. -/
theorem collectStep_spec (h : Collected done ranges last) {index : ℕ} (block : Block)
    (hlt : ∀ i, last = some i → i < index) :
    ∃ ranges', collectStep (ranges, last) (index, block) = .ok (ranges', some index) ∧
      Collected (done ++ [(index, block)]) ranges' (some index) := by
  -- a range that is started for the case has no block yet
  have hst : ∀ init, init = ranges →
      (∀ r ∈ init, r.firstIndex + r.blocks.length ≤ index) →
      Collected (done ++ [(index, block)]) (init ++ [⟨index, [] ++ [block]⟩]) (some index) := by
    rintro init rfl hend
    refine .push ?_ h.nonempty (fun n b => ?_) (Nat.add_zero index)
    · refine pairwise_append.2 ⟨h.sorted, pairwise_singleton _ _, fun r hr r' hr' => ?_⟩
      rw [mem_singleton.1 hr']
      exact hend r hr
    · rw [← h.target n b]
      simp [target, or_and_right, exists_or]
  cases hlast : last with
  | none =>
    have hnil := h.last_none hlast
    refine ⟨_, ?_, hst ranges rfl (by simp [hnil])⟩
    simp [collectStep, hnil, unwrap]
  | some i =>
    obtain ⟨init, r, rfl, hend⟩ := h.last_some i hlast
    have hi := hlt i hlast
    by_cases hgap : index > i + 1
    · refine ⟨_, ?_, hst _ rfl fun r' hr' => ?_⟩
      · simp [collectStep, hgap, unwrap]
      obtain hr' | hr' := mem_append.1 hr'
      · have hb : r'.firstIndex + r'.blocks.length ≤ r.firstIndex :=
          (pairwise_append.1 h.sorted).2.2 r' hr' r (by simp)
        omega
      · rw [mem_singleton.1 hr']
        omega
    · refine ⟨_, ?_, .push h.sorted (fun r' hr' => h.nonempty r' (by simp [hr'])) h.target
        (by omega)⟩
      simp [collectStep, hgap, unwrap]

/-- The ranges hold the cases read so far. -/
theorem foldlM_collectStep {cases : List (ℕ × Block)}
    (h : Collected done ranges last) (hsort : cases.Pairwise fun a b => a.1 < b.1)
    (hlt : ∀ i, last = some i → ∀ c ∈ cases, i < c.1) :
    ∃ ranges' last', cases.foldlM collectStep (ranges, last) = .ok (ranges', last') ∧
      Collected (done ++ cases) ranges' last' := by
  induction cases generalizing done ranges last with
  | nil => exact ⟨ranges, last, rfl, by rwa [append_nil]⟩
  | cons c cases ih =>
    obtain ⟨hc, hrest⟩ := pairwise_cons.1 hsort
    obtain ⟨ranges1, heq, h1⟩ := collectStep_spec h c.2 fun i hi => hlt i hi c (by simp)
    obtain ⟨ranges', last', heq', h'⟩ := ih h1 hrest fun i hi c' hc' => by
      cases hi
      exact hc c' hc'
    refine ⟨ranges', last', ?_, by simpa using h'⟩
    rw [foldlM_cons, heq, Exec.ok_bind, heq']

theorem Collected.nil : Collected [] [] none :=
  ⟨.nil, by simp, by simp, fun _ => rfl, by simp⟩

/-- **The ranges are sorted, do not overlap and have the blocks of the cases.** -/
theorem collectContiguousCaseRanges_spec (hdistinct : (switch.cases.map Prod.fst).Nodup) :
    ∃ ranges, switch.collectContiguousCaseRanges = .ok ranges ∧
      ranges.Pairwise Before ∧ (∀ r ∈ ranges, r.blocks ≠ []) ∧
      ∀ n b, (∃ r ∈ ranges, r.target n = some b) ↔ (n, b) ∈ switch.cases := by
  have hperm := perm_insertionSort (fun a b : ℕ × Block => a.1 ≤ b.1) switch.cases
  have hle : (switch.cases.insertionSort fun a b => a.1 ≤ b.1).Pairwise fun a b => a.1 ≤ b.1 :=
    pairwise_insertionSort _ _
  have hnd := (hperm.map Prod.fst).nodup_iff.2 hdistinct
  have hsort := (hle.and (pairwise_map.1 hnd)).imp fun hab => lt_of_le_of_ne hab.1 hab.2
  obtain ⟨ranges, last, heq, h⟩ := foldlM_collectStep Collected.nil hsort (by simp)
  refine ⟨ranges, by rw [Switch.collectContiguousCaseRanges, heq]; rfl, h.sorted, h.nonempty,
    fun n b => (h.target n b).trans ?_⟩
  exact hperm.mem_iff

/-! ## The whole switch -/

/-- **`build_search_tree` emits code that finds the range of every value.** -/
theorem buildSearchTree_spec (hother : otherwise < firstNew) (h : Ready firstNew val ty bx)
    (hsort : ranges.Pairwise Before) (hok : ∀ r ∈ ranges, r.Ok ty) :
    ∃ bx', buildSearchTree bx val otherwise ranges = .ok bx' ∧
      Piece bx bx' (Sends firstNew val ty (Found ty otherwise ranges)) := by
  by_cases hnil : ranges = []
  · subst hnil
    refine ⟨_, by simp [buildSearchTree], (AddsOps.append bx (.jump otherwise)).piece.mono ?_⟩
    rintro code _ rfl e _ _
    exact ⟨e, otherwise, .last rfl, found_nil⟩
  by_cases hfew : ranges.length ≤ 3
  · obtain ⟨bx', heq, hpiece⟩ := buildSearchBranches_spec hother hnil h hsort hok
    exact ⟨bx', by simp [buildSearchTree, hnil, hfew, heq], hpiece⟩
  obtain ⟨bx', hpiece, steps, hstp, hrun⟩ :=
    searchTree_spec hother ranges.length le_rfl hnil none h hsort hok
  refine ⟨bx', ?_, hpiece⟩
  have hfuel : 2 * ranges.length = (2 * ranges.length - steps) + steps := by omega
  rw [buildSearchTree, if_neg (by simpa using hnil), if_neg hfew, hfuel, hrun]
  cases 2 * ranges.length - steps <;> rfl

/-- The ranges of the switch get jump tables that lose no case, and that are not too long. -/
def Switch.Supported (switch : Switch) (ty : Ty) (otherwise : Block) : Prop :=
  ∀ ranges, switch.collectContiguousCaseRanges = .ok ranges →
    ∀ r ∈ ranges, r.Supported ty otherwise

/-- The block that a value is to go to: the block of its case, or the default block. -/
def Switch.Target (switch : Switch) (otherwise : Block) (n : ℕ) (t : Block) : Prop :=
  (n, t) ∈ switch.cases ∨ t = otherwise ∧ ∀ b, (n, b) ∉ switch.cases

/-- The lowering of the switch returns and only appends code to the current block, and with
enough fuel this code sends every value of the type to its target. -/
def Switch.Dispatches (switch : Switch) (bx : FunctionBuilder) (val : ℕ) (otherwise : Block) :
    Prop :=
  ∃ bx' added, switch.emit bx val otherwise = .ok bx' ∧
    bx'.insts bx.position = bx.insts bx.position ++ added ∧
    (∀ b : ℕ, b < bx.nextBlock → b ≠ bx.position → bx'.insts b = bx.insts b) ∧
    ∀ e : Env, (e val).ty = bx.valueType val → (e val).n < 2 ^ (bx.valueType val).bits →
      ∃ t, switch.Target otherwise (e val).n t ∧ ∃ enough, ∀ fuel, enough ≤ fuel →
        run bx'.insts bx.nextBlock fuel added e = some t

theorem foldl_max_lt {l : List ℕ} {m a : ℕ} (ha : a < m) (h : ∀ x ∈ l, x < m) :
    l.foldl max a < m := by
  induction l generalizing a with
  | nil => exact ha
  | cons x l ih =>
    exact ih (max_lt ha (h x (by simp))) fun y hy => h y (.tail _ hy)

/-- The block of the ranges is the case's block. -/
theorem target_lookupRanges (otherwise : Block)
    (htgt : ∀ n b, (∃ r ∈ ranges, r.target n = some b) ↔ (n, b) ∈ switch.cases) (n : ℕ) :
    switch.Target otherwise n ((lookupRanges ranges n).getD otherwise) := by
  cases hl : lookupRanges ranges n with
  | some b =>
    obtain ⟨r, hr, ht⟩ := exists_of_findSome?_eq_some hl
    exact .inl ((htgt n b).1 ⟨r, hr, ht⟩)
  | none =>
    refine .inr ⟨rfl, fun b hb => ?_⟩
    obtain ⟨r, hr, ht⟩ := (htgt n b).2 hb
    rw [findSome?_eq_none_iff.1 hl r hr] at ht
    cases ht

/-! ### Ranges that are too long -/

/-- A range that was built has a table that is not too long. -/
theorem length_le_of_buildRange {alternate : Block} {bx' : FunctionBuilder}
    (h : buildRange bx val otherwise alternate range = .ok bx') (hlen : 1 < range.blocks.length) :
    range.blocks.length ≤ u32Max := by
  have hsingle : range.singleBlock = none := if_neg (by omega)
  have htable : ∃ bx first, buildJumpTable bx val otherwise first range.blocks = .ok bx' := by
    rw [buildRange, hsingle] at h
    split at h
    · obtain ⟨_, -, h⟩ := Exec.bind_eq_ok.mp h
      exact ⟨_, _, h⟩
    · obtain ⟨_, -, h⟩ := Exec.bind_eq_ok.mp h
      exact ⟨_, _, h⟩
  obtain ⟨bx, first, htable⟩ := htable
  by_contra hmax
  simp [buildJumpTable, hmax] at htable

theorem length_le_of_searchBranches {bx' : FunctionBuilder}
    (h : searchBranches val otherwise ranges bx = .ok bx') :
    ∀ r ∈ ranges, 1 < r.blocks.length → r.blocks.length ≤ u32Max := by
  induction ranges generalizing bx with
  | nil => simp
  | cons range ranges ih =>
    obtain ⟨bx1, hrange, hrest⟩ := Exec.bind_eq_ok.mp h
    exact forall_mem_cons.2 ⟨length_le_of_buildRange hrange, ih hrest⟩

/-- The same for all ranges on the stack. -/
theorem length_le_of_searchTree {bx' : FunctionBuilder} {fuel : ℕ}
    {stack : List (Option Block × List ContiguousCaseRange)}
    (h : searchTree val otherwise fuel stack bx = .ok bx') :
    ∀ entry ∈ stack, ∀ r ∈ entry.2, 1 < r.blocks.length → r.blocks.length ≤ u32Max := by
  induction fuel generalizing stack bx with
  | zero => cases stack <;> simp_all [searchTree]
  | succ fuel ih =>
    obtain _ | ⟨⟨block, ranges⟩, stack⟩ := stack
    · simp
    simp only [searchTree] at h
    split at h
    · obtain ⟨bx1, hbranches, hrest⟩ := Exec.bind_eq_ok.mp h
      refine forall_mem_cons.2 ⟨fun r hmem => ?_, ih hrest⟩
      exact length_le_of_searchBranches hbranches r (mem_reverse.2 hmem)
    · obtain ⟨first, -, h⟩ := Exec.bind_eq_ok.mp h
      obtain ⟨bx1, -, h⟩ := Exec.bind_eq_ok.mp h
      have hentries := ih h
      simp only [forall_mem_cons] at hentries ⊢
      obtain ⟨hright, hleft, hstack⟩ := hentries
      refine ⟨fun r hmem => ?_, hstack⟩
      rw [← take_append_drop (ranges.length / 2) ranges] at hmem
      obtain hmem | hmem := mem_append.1 hmem
      · exact hleft r hmem
      · exact hright r hmem

/-- **A lowering that returns has found no range too long.** -/
theorem length_le_of_buildSearchTree {bx' : FunctionBuilder}
    (h : buildSearchTree bx val otherwise ranges = .ok bx') :
    ∀ r ∈ ranges, 1 < r.blocks.length → r.blocks.length ≤ u32Max := by
  rw [buildSearchTree] at h
  split at h
  · simp_all
  split at h
  · exact fun r hmem => length_le_of_searchBranches h r (mem_reverse.2 hmem)
  · exact length_le_of_searchTree h _ (mem_singleton.2 rfl)

/-! ### When the switch dispatches -/

section

variable (hdistinct : (switch.cases.map Prod.fst).Nodup)
  (hfit : ∀ c ∈ switch.cases, c.1 < 2 ^ (bx.valueType val).bits)
  (hval : val < bx.nextValue) (hpos : bx.position < bx.nextBlock)
  (hother : otherwise < bx.nextBlock)
include hdistinct hfit

variable (otherwise) in
/-- The lowering, once its ranges are collected. -/
theorem emit_eq : ∃ ranges, switch.collectContiguousCaseRanges = .ok ranges ∧
    ranges.Pairwise Before ∧ (∀ r ∈ ranges, r.blocks ≠ []) ∧
    (∀ n b, (∃ r ∈ ranges, r.target n = some b) ↔ (n, b) ∈ switch.cases) ∧
    switch.emit bx val otherwise = buildSearchTree bx val otherwise ranges := by
  obtain ⟨ranges, hcol, hsort, hne, htgt⟩ := collectContiguousCaseRanges_spec hdistinct
  have hmax : (switch.cases.map Prod.fst).foldl max 0 < 2 ^ (bx.valueType val).bits := by
    refine foldl_max_lt (Nat.two_pow_pos _) fun x hx => ?_
    obtain ⟨c, hc, rfl⟩ := mem_map.1 hx
    exact hfit c hc
  exact ⟨ranges, hcol, hsort, hne, htgt, by simp [Switch.emit, hmax, hcol]⟩

include hval hpos hother

/-- The code that is emitted when no range is too long. -/
theorem emit_spec (hlen : ∀ ranges, switch.collectContiguousCaseRanges = .ok ranges →
      ∀ r ∈ ranges, 1 < r.blocks.length → r.blocks.length ≤ u32Max) :
    ∃ ranges bx' added, switch.collectContiguousCaseRanges = .ok ranges ∧
      (∀ n b, (∃ r ∈ ranges, r.target n = some b) ↔ (n, b) ∈ switch.cases) ∧
      switch.emit bx val otherwise = .ok bx' ∧
      bx'.insts bx.position = bx.insts bx.position ++ added ∧
      (∀ b : ℕ, b < bx.nextBlock → b ≠ bx.position → bx'.insts b = bx.insts b) ∧
      Sends bx.nextBlock val (bx.valueType val) (Found (bx.valueType val) otherwise ranges)
        bx'.insts added := by
  obtain ⟨ranges, hcol, hsort, hne, htgt, hemit⟩ := emit_eq otherwise hdistinct hfit
  have hok : ∀ r ∈ ranges, r.Ok (bx.valueType val) := fun r hr => by
    refine ⟨hne r hr, ?_, hlen ranges hcol r hr⟩
    obtain ⟨b, rest, hb⟩ := exists_cons_of_ne_nil (hne r hr)
    exact hfit _ ((htgt r.firstIndex b).1 ⟨r, hr, by simp [target, hb]⟩)
  obtain ⟨bx', hbuild, hpiece⟩ := buildSearchTree_spec hother ⟨hpos, le_rfl, hval, rfl⟩ hsort hok
  obtain ⟨added, hadd, hsends⟩ := hpiece.added
  exact ⟨ranges, bx', added, hcol, htgt, hemit.trans hbuild, hadd, hpiece.other,
    hsends bx'.insts fun _ _ _ => rfl⟩

/-- **Supported switches dispatch.** -/
theorem dispatches_of_supported (hblocks : ∀ c ∈ switch.cases, c.2 < bx.nextBlock)
    (hsup : switch.Supported (bx.valueType val) otherwise) :
    switch.Dispatches bx val otherwise := by
  obtain ⟨ranges, bx', added, hcol, htgt, hemit, hadd, hframe, hsends⟩ :=
    emit_spec hdistinct hfit hval hpos hother fun ranges hcol r hr => (hsup ranges hcol r hr).1
  refine ⟨bx', added, hemit, hadd, hframe, fun e hty hn => ?_⟩
  obtain ⟨e', b, harr, hfound⟩ := hsends e hty hn
  obtain rfl := hfound.1 fun r hr => (hsup ranges hcol r hr).2
  have ht := target_lookupRanges otherwise htgt (e val).n
  refine ⟨_, ht, harr.run_eq ?_⟩
  obtain hmem | ⟨heq, _⟩ := ht
  · exact hblocks _ hmem
  · exact lt_of_eq_of_lt heq hother

/-- **Switches that dispatch are supported**: a case of a defective range, with a block that is
not the default block, would go there. -/
theorem supported_of_dispatches (h : switch.Dispatches bx val otherwise) :
    switch.Supported (bx.valueType val) otherwise := by
  obtain ⟨bx', added, hemit, hadd, hframe, hrun⟩ := h
  have hlen : ∀ ranges, switch.collectContiguousCaseRanges = .ok ranges →
      ∀ r ∈ ranges, 1 < r.blocks.length → r.blocks.length ≤ u32Max := by
    intro ranges hcol
    obtain ⟨ranges', hcol', -, -, -, heq⟩ := emit_eq otherwise hdistinct hfit
    obtain rfl := Except.ok.inj (hcol.symm.trans hcol')
    exact length_le_of_buildSearchTree (heq.symm.trans hemit)
  intro ranges hcol r hr
  refine ⟨hlen ranges hcol r hr, fun hdef => ?_⟩
  obtain ⟨ranges', bx'', added', hcol', htgt, hemit', hadd', -, hsends⟩ :=
    emit_spec hdistinct hfit hval hpos hother hlen
  obtain rfl := Except.ok.inj (hcol.symm.trans hcol')
  obtain rfl := Except.ok.inj (hemit.symm.trans hemit')
  obtain rfl := append_cancel_left (hadd.symm.trans hadd')
  obtain ⟨b, hb, hne⟩ := hdef.2.2
  obtain ⟨i, hi⟩ := mem_iff_getElem?.1 hb
  have htarget : r.target (r.firstIndex + i) = some b := by
    rw [target, if_pos (Nat.le_add_right _ _), Nat.add_sub_cancel_left, hi]
  have hcase := (htgt _ b).1 ⟨r, hr, htarget⟩
  -- run the code on the case
  obtain ⟨t, ht, enough, hfuel⟩ :=
    hrun (fun _ => ⟨bx.valueType val, r.firstIndex + i⟩) rfl (hfit _ hcase)
  obtain ⟨e', b', harr, hfound⟩ :=
    hsends (fun _ => ⟨bx.valueType val, r.firstIndex + i⟩) rfl (hfit _ hcase)
  obtain rfl : b' = otherwise := hfound.2 r hr hdef (by simp [htarget])
  obtain ⟨enough', hfuel'⟩ := harr.run_eq hother
  have heq := (hfuel _ (le_max_left enough enough')).symm.trans (hfuel' _ (le_max_right _ _))
  obtain rfl : t = b' := Option.some.inj heq
  obtain hmem | ⟨-, hnot⟩ := ht
  · have := inj_on_of_nodup_map hdistinct hcase hmem rfl
    exact hne (Prod.mk.inj this).2
  · exact hnot b hcase

end

/-- **The code emitted for a switch sends every value of the type to the block of its case, or to
the default block if it has none**, just when the switch is supported. -/
theorem Switch.emit_dispatches_iff (switch : Switch) (bx : FunctionBuilder) (val : ℕ)
    (otherwise : Block) (hdistinct : (switch.cases.map Prod.fst).Nodup)
    (hfit : ∀ c ∈ switch.cases, c.1 < 2 ^ (bx.valueType val).bits)
    (hval : val < bx.nextValue) (hpos : bx.position < bx.nextBlock)
    (hother : otherwise < bx.nextBlock) (hblocks : ∀ c ∈ switch.cases, c.2 < bx.nextBlock) :
    switch.Dispatches bx val otherwise ↔ switch.Supported (bx.valueType val) otherwise :=
  ⟨supported_of_dispatches hdistinct hfit hval hpos hother,
    dispatches_of_supported hdistinct hfit hval hpos hother hblocks⟩

/-- A builder with four blocks, at the first one, and one value of the given type. -/
def startBuilder (ty : Ty) : FunctionBuilder where
  insts _ := []
  valueType _ := ty
  nextBlock := 4
  nextValue := 1
  position := 0

/-- Cases of 64 bits, two of them in a jump table with an index that looks negative. -/
def sparseSwitch : Switch := ⟨[(2 ^ 63 + 1, 1), (7, 2), (2 ^ 63 + 2, 2)]⟩

/-- Cases of 128 bits that all go to the default block. -/
def defaultSwitch : Switch := ⟨[(2 ^ 63 + 1, 3), (2 ^ 63 + 2, 3)]⟩

theorem Switch.emit_dispatches_iff_sparse :
    sparseSwitch.Dispatches (startBuilder .i64) 0 3 ∧
      defaultSwitch.Dispatches (startBuilder .i128) 0 3 := by
  refine ⟨(Switch.emit_dispatches_iff sparseSwitch (startBuilder .i64) 0 3 (by decide) (by decide)
    (by decide) (by decide) (by decide) (by decide)).2 fun ranges hcol => ?_,
    (Switch.emit_dispatches_iff defaultSwitch (startBuilder .i128) 0 3 (by decide) (by decide)
    (by decide) (by decide) (by decide) (by decide)).2 fun ranges hcol => ?_⟩
  all_goals
    cases hcol
    decide

/-- Cases of 128 bits whose jump table starts above `2 ^ 63`. -/
def wideSwitch : Switch := ⟨[(2 ^ 63 + 1, 1), (2 ^ 63 + 2, 2)]⟩

/-- The immediate that rebases the index is sign extended to a positive number, so that the
first case goes to the default block. -/
theorem Switch.emit_wide_misses :
    (wideSwitch.cases.map Prod.fst).Nodup ∧ (∀ c ∈ wideSwitch.cases, c.1 < 2 ^ 128) ∧
      (2 ^ 63 + 1, 1) ∈ wideSwitch.cases ∧
      ∃ bx', wideSwitch.emit (startBuilder .i128) 0 3 = .ok bx' ∧
        run bx'.insts 4 4 (bx'.insts 0) (fun _ => ⟨.i128, 2 ^ 63 + 1⟩) = some 3 :=
  ⟨by decide, by decide, by decide, _, rfl, by decide +kernel⟩

end WasmDeps.Frontend
