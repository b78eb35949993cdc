import WasmDeps.Codegen.SemiNca

/-!
# The preorder of the dominator tree

Linking the blocks in postorder builds the dominator tree as a forest of children for every
block.  The traversal over child and sibling links numbers it in preorder.  The greatest number
in a subtree is propagated in postorder, so that a query compares intervals.
-/

namespace WasmDeps.Codegen

open Lib Relation List Function DominatorTree Forest

/-- The links from `o` on represent a forest. -/
def LinkedForest (nodes : DomNodes) : Option Block → Forest Block → Prop
  | o, .nil => o = none
  | o, .node b children rest =>
    o = some b ∧ LinkedForest nodes (nodes b).child children ∧
      LinkedForest nodes (nodes b).sibling rest

def roots : Forest Block → List Block
  | .nil => []
  | .node b _ rest => b :: roots rest

/-- The roots have the immediate dominator `o`, and all others that above them. -/
def HasParent (idom : Block → Option Block) : Forest Block → Option Block → Prop
  | .nil, _ => True
  | .node b children rest, o =>
    idom b = o ∧ HasParent idom children (some b) ∧ HasParent idom rest o

variable {T : Forest Block} {o : Option Block}

variable {nodes : DomNodes} {idom : Block → Option Block} {b d a : Block}

variable {K : Block → Forest Block}

theorem LinkedForest.congr {nodes' : DomNodes} (h : LinkedForest nodes o T)
    (heq : ∀ b ∈ T.pre, (nodes' b).child = (nodes b).child ∧
      (nodes' b).sibling = (nodes b).sibling) : LinkedForest nodes' o T := by
  induction T generalizing o with
  | nil => exact h
  | node b C R ihc ihr =>
    obtain ⟨ho, hC, hR⟩ := h
    obtain ⟨hchild, hsib⟩ := heq b (.head _)
    refine ⟨ho, ihc (hchild.symm ▸ hC) ?_, ihr (hsib.symm ▸ hR) ?_⟩
    · exact fun c hc => heq c (.tail b (mem_append_left _ hc))
    · exact fun c hc => heq c (.tail b (mem_append_right _ hc))

theorem LinkedForest.childIter (h : LinkedForest nodes o T) {fuel : ℕ}
    (hfuel : (roots T).length ≤ fuel) : childIter nodes fuel o = .ok (roots T) := by
  induction T generalizing o fuel with
  | nil =>
    rw [show o = none from h]
    cases fuel <;> rfl
  | node b C R _ ihr =>
    obtain ⟨rfl, -, hR⟩ := h
    cases fuel with
    | zero => simp [roots] at hfuel
    | succ fuel =>
      have hfuel : (roots R).length ≤ fuel := by simpa [roots] using hfuel
      rw [childIter, ihr hR hfuel]
      rfl

/-! ## Linking -/

/-- The dominator tree while the blocks of a prefix `P` of the postorder have been linked; `K`
has the forest of children of each block. -/
structure Building (base : DomNodes) (P : List Block) (K : Block → Forest Block)
    (nodes : DomNodes) : Prop where
  frame : ∀ b, nodes b =
    { base b with child := (nodes b).child, sibling := (nodes b).sibling }
  forest : ∀ d, LinkedForest nodes (nodes d).child (K d)
  roots_eq : ∀ d, roots (K d) = P.reverse.filter fun b => (base b).idom = some d
  hasParent : ∀ d, HasParent (fun b => (base b).idom) (K d) (some d)
  mem : ∀ d, ∀ b ∈ (K d).pre, b ∈ P
  nodup : ∀ d, (K d).pre.Nodup
  disjoint : ∀ d e, d ∉ P → e ∉ P → d ≠ e → ∀ b ∈ (K d).pre, b ∉ (K e).pre
  cover : ∀ b ∈ P, ∃ d, d ∉ P ∧ b ∈ (K d).pre
  sibling : ∀ b, b ∉ P → (nodes b).sibling = none

theorem Building.start (base : DomNodes)
    (h : ∀ b, (base b).child = none ∧ (base b).sibling = none) :
    Building base [] (fun _ => .nil) base where
  frame := fun _ => rfl
  forest := fun d => (h d).1
  roots_eq := fun _ => rfl
  hasParent := fun _ => trivial
  mem := fun _ _ hb => hb
  nodup := fun _ => nodup_nil
  disjoint := fun _ _ _ _ _ _ hb => absurd hb not_mem_nil
  cover := fun _ hb => absurd hb not_mem_nil
  sibling := fun b _ => (h b).2

/-- The links after a block has been put first under its immediate dominator. -/
def linkNodes (nodes : DomNodes) (d b : Block) : DomNodes :=
  let nodes' := update nodes d { nodes d with child := some b }
  update nodes' b { nodes' b with sibling := (nodes d).child }

theorem child_linkNodes (hdb : d ≠ b) (c : Block) :
    (linkNodes nodes d b c).child = if c = d then some b else (nodes c).child := by
  by_cases hcb : c = b
  · subst hcb
    simp [linkNodes, hdb.symm]
  by_cases hcd : c = d
  · subst hcd
    simp [linkNodes, hcb]
  · simp [linkNodes, hcb, hcd]

theorem sibling_linkNodes (c : Block) :
    (linkNodes nodes d b c).sibling = if c = b then (nodes d).child else (nodes c).sibling := by
  by_cases hcb : c = b
  · simp [linkNodes, hcb]
  by_cases hcd : c = d
  · subst hcd
    simp [linkNodes, hcb]
  · simp [linkNodes, hcb, hcd]

/-- **Linking a block** puts its tree first under its immediate dominator, which comes later. -/
theorem Building.step {base : DomNodes} {P : List Block} (h : Building base P K nodes)
    (hb : b ∉ P) (hd : d ∉ P) (hdb : d ≠ b) (hidom : (base b).idom = some d) :
    Building base (P ++ [b]) (update K d (.node b (K b) (K d)))
      (linkNodes nodes d b) := by
  have hP' : ∀ c, c ∉ P ++ [b] → c ∉ P ∧ c ≠ b := by
    intro c hc
    simpa using hc
  have hbd := h.disjoint b d hb hd hdb.symm
  -- The links of what was linked before do not change.
  have hsame : ∀ c, ∀ x ∈ (K c).pre, (linkNodes nodes d b x).child = (nodes x).child ∧
      (linkNodes nodes d b x).sibling = (nodes x).sibling := by
    intro c x hx
    have hxP := h.mem c x hx
    rw [child_linkNodes hdb, sibling_linkNodes, if_neg (ne_of_mem_of_not_mem hxP hd),
      if_neg (ne_of_mem_of_not_mem hxP hb)]
    exact ⟨rfl, rfl⟩
  refine ⟨?_, ?_, ?_, ?_, ?_, ?_, ?_, ?_, ?_⟩
  · intro c
    have hframe := h.frame c
    by_cases hcb : c = b
    · subst hcb
      rw [linkNodes, update_self, update_of_ne hdb.symm]
      rw [h.frame c]
    by_cases hcd : c = d
    · subst hcd
      simp only [linkNodes, update_self, update_of_ne hcb]
      rw [h.frame c]
    · rw [linkNodes, update_of_ne hcb, update_of_ne hcd]
      exact hframe
  · intro c
    rw [child_linkNodes hdb]
    by_cases hcd : c = d
    · subst hcd
      rw [if_pos rfl, update_self]
      refine ⟨rfl, ?_, ?_⟩
      · rw [child_linkNodes hdb, if_neg hdb.symm]
        exact (h.forest b).congr (hsame b)
      · rw [sibling_linkNodes, if_pos rfl]
        exact (h.forest c).congr (hsame c)
    · rw [if_neg hcd, update_of_ne hcd]
      exact (h.forest c).congr (hsame c)
  · intro c
    by_cases hcd : c = d
    · subst hcd
      simp [roots, hidom, h.roots_eq]
    have hne : (base b).idom ≠ some c := by
      rw [hidom]
      exact fun heq => hcd (Option.some.inj heq).symm
    rw [update_of_ne hcd, h.roots_eq c]
    simp [hne]
  · intro c
    by_cases hcd : c = d
    · subst hcd
      rw [update_self]
      exact ⟨hidom, h.hasParent b, h.hasParent c⟩
    · rw [update_of_ne hcd]
      exact h.hasParent c
  · intro c x hx
    by_cases hcd : c = d
    · subst hcd
      rw [update_self] at hx
      rcases mem_cons.mp hx with rfl | hx
      · exact mem_append_right _ (.head _)
      apply mem_append_left _
      rcases mem_append.mp hx with hx | hx
      · exact h.mem b x hx
      · exact h.mem c x hx
    · rw [update_of_ne hcd] at hx
      exact mem_append_left _ (h.mem c x hx)
  · intro c
    by_cases hcd : c = d
    · subst hcd
      rw [update_self]
      refine nodup_cons.mpr ⟨fun hmem => ?_, nodup_append.mpr ⟨h.nodup b, h.nodup c, ?_⟩⟩
      · rcases mem_append.mp hmem with hmem | hmem
        · exact hb (h.mem b b hmem)
        · exact hb (h.mem c b hmem)
      · rintro x hx y hy rfl
        exact hbd x hx hy
    · rw [update_of_ne hcd]
      exact h.nodup c
  · intro c e hc he hce x hx
    obtain ⟨hcP, hcb⟩ := hP' c hc
    obtain ⟨heP, heb⟩ := hP' e he
    -- A forest other than that of `d` has nothing in common with the new one.
    have hnew : ∀ g, g ∉ P → g ≠ b → g ≠ d → ∀ y ∈ (K g).pre,
        y ∉ (node b (K b) (K d)).pre := by
      intro g hg hgb hgd y hy hmem
      rcases mem_cons.mp hmem with rfl | hmem
      · exact hb (h.mem g y hy)
      · rcases mem_append.mp hmem with hmem | hmem
        · exact h.disjoint g b hg hb hgb y hy hmem
        · exact h.disjoint g d hg hd hgd y hy hmem
    by_cases hcd : c = d
    · subst hcd
      rw [update_of_ne hce.symm]
      rw [update_self] at hx
      exact fun hmem => hnew e heP heb hce.symm x hmem hx
    rw [update_of_ne hcd] at hx
    by_cases hed : e = d
    · subst hed
      rw [update_self]
      exact hnew c hcP hcb hcd x hx
    · rw [update_of_ne hed]
      exact h.disjoint c e hcP heP hce x hx
  · intro x hx
    have hd' : d ∉ P ++ [b] := by simpa using ⟨hd, hdb⟩
    rcases mem_append.mp hx with hx | hx
    · obtain ⟨e, he, hxe⟩ := h.cover x hx
      by_cases heb : e = b
      · subst heb
        refine ⟨d, hd', ?_⟩
        rw [update_self]
        exact .tail _ (mem_append_left _ hxe)
      by_cases hed : e = d
      · subst hed
        refine ⟨e, hd', ?_⟩
        rw [update_self]
        exact .tail _ (mem_append_right _ hxe)
      · refine ⟨e, by simpa using ⟨he, heb⟩, ?_⟩
        rwa [update_of_ne hed]
    · obtain rfl : x = b := by simpa using hx
      refine ⟨d, hd', ?_⟩
      rw [update_self]
      exact .head _
  · intro c hc
    obtain ⟨hcP, hcb⟩ := hP' c hc
    rw [sibling_linkNodes, if_neg hcb, h.sibling c hcP]

/-- **The first loop builds the dominator tree.** -/
theorem Building.loop {base : DomNodes} {P Q L : List Block}
    (h : Building base P K nodes) (dt : DominatorTree) (hdt : dt.nodes = nodes) (hL : L = P ++ Q)
    (hnd : L.Nodup) (hidom : ∀ b ∈ Q, ∃ d, (base b).idom = some d ∧
      ∀ P' Q', L = P' ++ b :: Q' → d ∉ P' ++ [b]) :
    ∃ K' nodes', Building base L K' nodes' ∧
      Q.foldl linkStep dt = { dt with nodes := nodes' } := by
  induction Q generalizing P K nodes dt with
  | nil =>
    rw [append_nil] at hL
    subst hL hdt
    exact ⟨K, dt.nodes, h, rfl⟩
  | cons b Q ih =>
    obtain ⟨d, hbd, hlater⟩ := hidom b (.head _)
    have hd : d ∉ P ∧ d ≠ b := by simpa using hlater P Q hL
    have hb : b ∉ P := by
      rw [hL] at hnd
      exact fun hbP => (nodup_append.mp hnd).2.2 b hbP b (.head _) rfl
    have hstep : linkStep dt b = { dt with nodes := linkNodes nodes d b } := by
      have hdom : dt.idom b = some d := by
        rw [idom, hdt, h.frame b]
        exact hbd
      rw [linkStep, hdom, ← hdt]
      rfl
    obtain ⟨K', nodes', h', heq⟩ := ih (h.step hb hd.1 hd.2 hbd)
      { dt with nodes := linkNodes nodes d b } rfl (by rw [hL]; simp)
      (fun c hc => hidom c (.tail b hc))
    refine ⟨K', nodes', h', ?_⟩
    rw [foldl_cons, hstep, heq]

/-! ## Numbering -/

namespace DominatorTree

/-- The state after the blocks of a forest have been numbered. -/
def numbered (dt : DominatorTree) (T : Forest Block) (n : ℕ) (rest : List TraversalEvent) :
    DominatorTree :=
  { dt with
    nodes := fun b =>
      if b ∈ T.pre then
        { dt.nodes b with
          domPreNumber := n + 1 + T.pre.idxOf b
          domPreMax := n + 1 + T.pre.idxOf b }
      else dt.nodes b
    dfsWorklist := rest }

/-- The state after `Enter(_, block)`. -/
def numberedBlock (dt : DominatorTree) (b : Block) (n : ℕ) (rest : List TraversalEvent) :
    DominatorTree :=
  { dt with
    nodes := update dt.nodes b
      { dt.nodes b with domPreNumber := n + 1, domPreMax := n + 1 }
    dfsWorklist := (dt.nodes b).child.toList.map (.enter 0) ++
      (dt.nodes b).sibling.toList.map (.enter 0) ++ rest }

theorem numbered_node (dt : DominatorTree) (b : Block) (C R : Forest Block) (n : ℕ)
    (W W' rest : List TraversalEvent) (hnd : (Forest.node b C R).pre.Nodup) :
    (((dt.numberedBlock b n W).numbered C (n + 1) W').numbered R (n + 1 + C.pre.length) rest) =
      dt.numbered (.node b C R) n rest := by
  obtain ⟨hb, hCR⟩ := nodup_cons.mp hnd
  obtain ⟨-, -, hdisj⟩ := nodup_append.mp hCR
  rw [mem_append, not_or] at hb
  simp only [numbered, numberedBlock, mk.injEq, and_true, true_and]
  funext c
  by_cases hR : c ∈ R.pre
  · have hC : c ∉ C.pre := fun h => hdisj c h c hR rfl
    have hcb : b ≠ c := fun h => hb.2 (h ▸ hR)
    simp [pre, hR, hC, hcb.symm, idxOf_cons_ne _ hcb, idxOf_append_of_notMem hC]
    omega
  by_cases hC : c ∈ C.pre
  · have hcb : b ≠ c := fun h => hb.1 (h ▸ hC)
    simp [pre, hR, hC, hcb.symm, idxOf_cons_ne _ hcb, idxOf_append_of_mem hC]
    omega
  by_cases hcb : c = b
  · subst hcb
    simp [pre, hR, hC]
  · simp [pre, hR, hC, hcb]

/-- **The second loop numbers a forest in preorder.** -/
theorem preorderLoop_forest (hnd : T.pre.Nodup) :
    ∀ dt n o rest,
      LinkedForest dt.nodes o T → dt.dfsWorklist = o.toList.map (.enter 0) ++ rest →
      ∀ fuel, preorderLoop (T.pre.length + fuel) n dt =
        preorderLoop fuel (n + T.pre.length) (dt.numbered T n rest) := by
  induction T with
  | nil =>
    intro dt n o rest ho hW fuel
    obtain rfl : o = none := ho
    subst hW
    simp [numbered, pre]
  | node b C R ihc ihr =>
    intro dt n o rest ho hW fuel
    obtain ⟨rfl, hC, hR⟩ := ho
    obtain ⟨-, hCR⟩ := nodup_cons.mp hnd
    obtain ⟨hCnodup, hRnodup, -⟩ := nodup_append.mp hCR
    let dt1 := dt.numberedBlock b n rest
    let W := (dt.nodes b).sibling.toList.map (.enter 0) ++ rest
    -- Numbering does not change the links.
    have hlinks : ∀ (dt' : DominatorTree) T m V c,
        ((dt'.numbered T m V).nodes c).child = (dt'.nodes c).child ∧
          ((dt'.numbered T m V).nodes c).sibling = (dt'.nodes c).sibling := by
      intro dt' T m V c
      by_cases hc : c ∈ T.pre <;> simp [numbered, hc]
    have hlinks1 : ∀ c, (dt1.nodes c).child = (dt.nodes c).child ∧
        (dt1.nodes c).sibling = (dt.nodes c).sibling := by
      intro c
      by_cases hc : c = b
      · subst hc
        simp [dt1, numberedBlock]
      · simp [dt1, numberedBlock, hc]
    have hloopC := ihc hCnodup dt1 (n + 1) (dt.nodes b).child W (hC.congr fun c _ => hlinks1 c)
      (by simp [dt1, numberedBlock, W]) (R.pre.length + fuel)
    have hloopR := ihr hRnodup (dt1.numbered C (n + 1) W) (n + 1 + C.pre.length)
      (dt.nodes b).sibling rest
      (hR.congr fun c _ => ⟨(hlinks dt1 C _ W c).1.trans (hlinks1 c).1,
        (hlinks dt1 C _ W c).2.trans (hlinks1 c).2⟩)
      rfl fuel
    have hlen : (node b C R).pre.length = C.pre.length + R.pre.length + 1 := by
      simp [pre]
    calc preorderLoop ((node b C R).pre.length + fuel) n dt
        = preorderLoop (C.pre.length + (R.pre.length + fuel) + 1) n dt := by
          congr 1
          omega
      _ = preorderLoop (C.pre.length + (R.pre.length + fuel)) (n + 1) dt1 := by
          rw [preorderLoop, hW]
          rfl
      _ = preorderLoop fuel (n + 1 + C.pre.length + R.pre.length)
            ((dt1.numbered C (n + 1) W).numbered R (n + 1 + C.pre.length) rest) := by
          rw [hloopC, hloopR]
      _ = preorderLoop fuel (n + (node b C R).pre.length)
            (dt.numbered (.node b C R) n rest) := by
          rw [dt.numbered_node b C R n rest W rest hnd]
          congr 1
          omega

end DominatorTree

/-! ## Greatest numbers -/

/-- A block is reached from another one by going up immediate dominators. -/
def IdomChain (idom : Block → Option Block) : Block → Block → Prop :=
  ReflTransGen fun x y => idom y = some x

/-- The greatest numbers when the blocks of a prefix `P` of the postorder have passed theirs on. -/
structure MaxOk (idom : Block → Option Block) (num : Block → ℕ) (P : List Block) (M : Block → ℕ) :
    Prop where
  le : ∀ b, num b ≤ M b
  attained : ∀ b, ∃ c, IdomChain idom b c ∧ M b = num c
  children : ∀ c ∈ P, ∀ d, idom c = some d → M c ≤ M d

namespace MaxOk

variable {num M : Block → ℕ} {P Q L : List Block}

theorem start (h : ∀ b, M b = num b) : MaxOk idom num [] M :=
  ⟨fun b => (h b).ge, fun b => ⟨b, .refl, h b⟩, fun _ hc => absurd hc not_mem_nil⟩

theorem step (h : MaxOk idom num P M) (hidom : idom b = some d) (hd : d ∉ P) (hdb : d ≠ b) :
    MaxOk idom num (P ++ [b]) (update M d (max (M b) (M d))) := by
  refine ⟨?_, ?_, ?_⟩
  · intro c
    have := h.le c
    by_cases hcd : c = d
    · subst hcd
      rw [update_self]
      omega
    · rwa [update_of_ne hcd]
  · intro c
    by_cases hcd : c = d
    · subst hcd
      rw [update_self]
      rcases le_total (M b) (M c) with hle | hle
      · rw [max_eq_right hle]
        exact h.attained c
      · rw [max_eq_left hle]
        obtain ⟨e, hbe, heq⟩ := h.attained b
        exact ⟨e, .head hidom hbe, heq⟩
    · rw [update_of_ne hcd]
      exact h.attained c
  · intro c hc e hce
    -- A block that has passed its number on is not changed any more.
    have hcd : c ≠ d := by
      rintro rfl
      rcases mem_append.mp hc with hc | hc
      · exact hd hc
      · exact hdb (mem_singleton.mp hc)
    rw [update_of_ne hcd]
    have hle : M c ≤ if e = d then max (M b) (M d) else M e := by
      rcases mem_append.mp hc with hc | hc
      · have := h.children c hc e hce
        split
        · rename_i heq
          subst heq
          omega
        · exact this
      · obtain rfl := mem_singleton.mp hc
        obtain rfl : d = e := Option.some.inj (hidom.symm.trans hce)
        rw [if_pos rfl]
        omega
    rwa [update_apply]

/-- **The third loop** propagates the greatest numbers. -/
theorem loop (nodes : DomNodes) (h : MaxOk idom num P fun b => (nodes b).domPreMax)
    (hns : ∀ b, (nodes b).idom = idom b) (hL : L = P ++ Q)
    (hlater : ∀ b ∈ Q, ∀ d, idom b = some d → ∀ P' Q', L = P' ++ b :: Q' → d ∉ P' ++ [b]) :
    ∃ M, MaxOk idom num L M ∧
      Q.foldl maxStep nodes = fun b => { nodes b with domPreMax := M b } := by
  induction Q generalizing P nodes with
  | nil =>
    rw [append_nil] at hL
    subst hL
    exact ⟨_, h, rfl⟩
  | cons b Q ih =>
    have hrest := fun c hc => hlater c (.tail b hc)
    have hL' : L = P ++ [b] ++ Q := by rw [hL]; simp
    cases hb : idom b with
    | none =>
      have hstep : maxStep nodes b = nodes := by
        rw [maxStep, hns, hb]
      have h' : MaxOk idom num (P ++ [b]) fun b => (nodes b).domPreMax := by
        refine { h with children := fun c hc d hcd => ?_ }
        rcases mem_append.mp hc with hc | hc
        · exact h.children c hc d hcd
        · rw [mem_singleton.mp hc, hb] at hcd
          cases hcd
      rw [foldl_cons, hstep]
      exact ih nodes h' hns hL' hrest
    | some d =>
      have hd : d ∉ P ∧ d ≠ b := by simpa using hlater b (.head _) d hb P Q hL
      let preMax := max (nodes b).domPreMax (nodes d).domPreMax
      have hstep : maxStep nodes b = update nodes d { nodes d with domPreMax := preMax } := by
        rw [maxStep, hns, hb]
      have hfield : ∀ c, (update nodes d { nodes d with domPreMax := preMax } c) = { nodes c with
            domPreMax := update (fun b => (nodes b).domPreMax) d preMax c } := by
        intro c
        by_cases hcd : c = d
        · subst hcd
          simp
        · simp [hcd]
      obtain ⟨M, hM, heq⟩ := ih (update nodes d { nodes d with domPreMax := preMax })
        (by simpa only [hfield] using h.step hb hd.1 hd.2)
        (fun c => by rw [hfield c]; exact hns c) hL' hrest
      refine ⟨M, hM, ?_⟩
      rw [foldl_cons, hstep, heq]
      funext c
      rw [hfield c]

theorem le_of_chain (h : MaxOk idom num L M) (hmem : ∀ b d, idom b = some d → b ∈ L)
    (hab : IdomChain idom a b) : M b ≤ M a := by
  induction hab with
  | refl => exact le_rfl
  | @tail x y _ hxy ih => exact (h.children y (hmem y x hxy) x hxy).trans ih

end MaxOk

/-! ## Chains of immediate dominators -/

section Chains

variable {func : Func} {F : Forest Block} {r : Block}

theorem IsIdomMap.mem (h : IsIdomMap func F r idom) (hb : idom b = some d) : b ∈ F.pre ∧ b ≠ r := by
  constructor
  · by_contra hnot
    rw [h.not_mem b hnot] at hb
    cases hb
  · rintro rfl
    rw [h.root] at hb
    cases hb

theorem IsIdomMap.isImmediateDominator (h : IsIdomMap func F r idom) (hb : idom b = some d) :
    IsImmediateDominator (Succ func.blockSuccessors) r d b := by
  obtain ⟨hmem, hbr⟩ := h.mem hb
  obtain ⟨d', hd', himm⟩ := h.idom b hmem hbr
  obtain rfl : d = d' := Option.some.inj (hb.symm.trans hd')
  exact himm

/-- **Dominators are what a chain of immediate dominators leads to.** -/
theorem IsIdomMap.dominates_iff (hdfs : Dfs func.blockSuccessors [] [r] F)
    (h : IsIdomMap func F r idom) (hb : b ∈ F.pre) :
    Dominates (Succ func.blockSuccessors) r a b ↔ IdomChain idom a b := by
  have hF := numbered_blockNumber hdfs.nodup
  have hp := isDepthFirst hdfs
  constructor
  · -- The immediate dominator has a smaller number.
    intro hab
    induction hn : blockNumber F b using Nat.strong_induction_on generalizing b with
    | _ n ih =>
      by_cases heq : a = b
      · subst heq
        exact .refl
      have hbr : b ≠ r := by
        rintro rfl
        exact heq hab.eq_root
      obtain ⟨d, hd, himm⟩ := h.idom b hb hbr
      have hdmem := hdfs.mem_of_dominates himm.1.1 hb
      have hlt : blockNumber F d < blockNumber F b := by
        have hbn := hF.num_mem hb
        refine hp.lt_of_strictlyDominates ⟨?_, fun hnum => ?_⟩ (by omega)
        · exact (hdfs.dominates_num hF hdmem hb).mpr himm.1.1
        · exact himm.1.2 (hF.num_inj hdmem hb hnum)
      exact (ih _ (hn ▸ hlt) hdmem (himm.2 a ⟨hab, heq⟩) rfl).tail hd
  · intro hchain
    clear hb
    induction hchain with
    | refl => exact .refl _ _ _
    | tail _ hstep ih => exact ih.trans (h.isImmediateDominator hstep).1.1

theorem IsIdomMap.later (hdfs : Dfs func.blockSuccessors [] [r] F) (h : IsIdomMap func F r idom)
    (hb : idom b = some d) {P Q : List Block} (hL : F.post = P ++ b :: Q) : d ∉ P ++ [b] := by
  have hF := numbered_blockNumber hdfs.nodup
  have hp := isDepthFirst hdfs
  obtain ⟨hmem, -⟩ := h.mem hb
  have himm := h.isImmediateDominator hb
  have hdmem := hdfs.mem_of_dominates himm.1.1 hmem
  have hbn := hF.num_mem hmem
  have hanc := hp.isAncestor_of_dominates ((hdfs.dominates_num hF hdmem hmem).mpr himm.1.1)
    (by omega)
  have hpost := postNumbered_idxOf hdfs.nodup [] [] fun _ _ => not_mem_nil
  have hlt := hpost.lt_of_isAncestor hF hp.toIsPreorder one_pos (by omega) hdmem hmem himm.1.2 hanc
  have hnd := F.post_perm_pre.nodup_iff.mpr hdfs.nodup
  have hbP : b ∉ P := by
    rw [hL] at hnd
    exact fun hbP => (nodup_append.mp hnd).2.2 b hbP b (.head _) rfl
  rw [nil_append, append_nil, hL, idxOf_append_of_notMem hbP] at hlt
  intro hd
  rcases mem_append.mp hd with hdP | hdb
  · rw [idxOf_append_of_mem hdP] at hlt
    have := idxOf_lt_length_of_mem hdP
    omega
  · exact himm.1.2 (mem_singleton.mp hdb)

end Chains

theorem numbered_of_hasParent {num : Block → ℕ} {par : ℕ → ℕ} {k : ℕ}
    (h : HasParent idom T o) (hnum : ∀ i b, T.pre[i]? = some b → num b = k + i)
    (hpar : ∀ b ∈ T.pre, par (num b) = (idom b).elim 0 num) :
    T.Numbered num par (o.elim 0 num) k := by
  induction T generalizing o k with
  | nil => trivial
  | node b C R ihc ihr =>
    obtain ⟨hb, hC, hR⟩ := h
    have hbk : num b = k := hnum 0 b rfl
    refine ⟨hbk, ?_, ?_, ihr hR ?_ ?_⟩
    · rw [← hbk, hpar b mem_cons_self, hb]
    · rw [← hbk]
      refine ihc hC ?_ fun c hc => hpar c (.tail b (mem_append_left _ hc))
      intro i c hi
      have hlt := lt_of_getElem? hi
      rw [hnum (i + 1) c (by rw [pre, getElem?_cons_succ, getElem?_append_left hlt, hi])]
      omega
    · intro i c hi
      rw [hnum (i + C.pre.length + 1) c (by rw [pre, getElem?_cons_succ,
        getElem?_append_right (by omega), Nat.add_sub_cancel, hi])]
      omega
    · exact fun c hc => hpar c (.tail b (mem_append_right _ hc))

/-- **Intervals of numbers decide dominance.** -/
theorem MaxOk.le_iff_chain {num M : Block → ℕ} {L : List Block} (h : MaxOk idom num L M)
    (hT : HasParent idom T none) (hnum : ∀ i b, T.pre[i]? = some b → num b = 1 + i)
    (hL : ∀ b d, idom b = some d → b ∈ L) (hTL : ∀ b d, idom b = some d → b ∈ T.pre ∧ d ∈ T.pre)
    (ha : a ∈ T.pre) (hb : b ∈ T.pre) :
    num a ≤ num b ∧ M b ≤ M a ↔ IdomChain idom a b := by
  -- Parents by number, as the library has them.
  let par : ℕ → ℕ := fun v => (T.pre[v - 1]?.bind idom).elim 0 num
  have hpar : ∀ c ∈ T.pre, par (num c) = (idom c).elim 0 num := by
    intro c hc
    obtain ⟨i, hi⟩ := mem_iff_getElem?.mp hc
    simp [par, hnum i c hi, hi]
  have hF := numbered_of_hasParent hT hnum hpar
  have hp := hF.isPreorder
  have hpos : ∀ c ∈ T.pre, num c ≠ 0 := fun c hc => by have := hF.num_mem hc; omega
  have hle : ∀ c ∈ T.pre, num c ≤ T.pre.length := fun c hc => by have := hF.num_mem hc; omega
  have hto : ∀ {x y}, IdomChain idom x y → IsAncestor par (num x) (num y) := by
    intro x y hxy
    induction hxy with
    | refl => exact .refl
    | @tail y z _ hyz ih =>
      have hz := (hTL z y hyz).1
      exact ih.tail ⟨hpos z hz, by rw [hpar z hz, hyz]; rfl⟩
  have hfrom : ∀ {u : ℕ} {y}, y ∈ T.pre → IsAncestor par u (num y) → u ≠ 0 →
      ∃ x ∈ T.pre, num x = u ∧ IdomChain idom x y := by
    intro u y hy hanc hu
    induction hn : num y using Nat.strong_induction_on generalizing y with
    | _ n ih =>
      rcases hanc.eq_or_par with rfl | ⟨-, hup⟩
      · exact ⟨y, hy, rfl, .refl⟩
      rw [hpar y hy] at hup
      cases hd : idom y with
      | none =>
        rw [hd] at hup
        exact absurd (Nat.le_zero.mp (hp.le hup (Nat.zero_le _))) hu
      | some d =>
        rw [hd] at hup
        have hdT := (hTL y d hd).2
        have hlt : num d < n := by
          have hlt := hp.par_lt (num y) (hpos y hy) (hle y hy)
          rw [hpar y hy, hd, hn] at hlt
          exact hlt
        obtain ⟨x, hx, hxu, hchain⟩ := ih _ hlt hdT hup rfl
        exact ⟨x, hx, hxu, hchain.tail hd⟩
  constructor
  · rintro ⟨hab, hmax⟩
    obtain ⟨c, hac, hMa⟩ := h.attained a
    have hc : c ∈ T.pre := by
      cases hac with
      | refl => exact ha
      | tail _ hstep => exact (hTL _ _ hstep).1
    have hbc : num b ≤ num c := by
      have := h.le b
      omega
    obtain ⟨x, hx, hxa, hchain⟩ := hfrom hb (hp.interval (hto hac) (hle c hc) hab hbc) (hpos a ha)
    obtain rfl := hF.num_inj hx ha hxa
    exact hchain
  · intro hab
    exact ⟨hp.le (hto hab) (hle b hb), h.le_of_chain hL hab⟩

end WasmDeps.Codegen
