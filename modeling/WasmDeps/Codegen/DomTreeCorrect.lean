import WasmDeps.Codegen.DomPreorder

/-!
# The dominator tree is correct

All phases together: what the computed tree says about the paths of the function.
-/

namespace WasmDeps.Codegen

open Lib Relation List DominatorTree Option

def Func.Reachable (func : Func) (b : Block) : Prop :=
  ∃ r, func.entryBlock = some r ∧ ReflTransGen (Succ func.blockSuccessors) r b

/-- Every path from the entry block to `b` goes through `a`. -/
def Func.Dominates (func : Func) (a b : Block) : Prop :=
  ∀ r, func.entryBlock = some r → Lib.Dominates (Succ func.blockSuccessors) r a b

def Func.IsImmediateDominator (func : Func) (d b : Block) : Prop :=
  ∀ r, func.entryBlock = some r → Lib.IsImmediateDominator (Succ func.blockSuccessors) r d b

/-- What a computed tree says about its function. -/
structure DominatorTree.IsCorrect (func : Func) (dt : DominatorTree) : Prop where
  /-- The postorder is that of a depth-first search. -/
  cfgPostorder : ∃ F, Dfs func.blockSuccessors [] func.entryBlock.toList F ∧
    dt.cfgPostorder = .ok F.post
  nodup : dt.postorder.Nodup
  mem_postorder : ∀ b, b ∈ dt.postorder ↔ func.Reachable b
  isReachable : ∀ b, dt.isReachable b = true ↔ func.Reachable b
  idom_eq_none : ∀ b, ¬func.Reachable b ∨ func.entryBlock = some b → dt.idom b = none
  /-- The immediate dominator of any other block is its closest strict dominator. -/
  idom : ∀ b, func.Reachable b → func.entryBlock ≠ some b →
    ∃ d, dt.idom b = some d ∧ func.IsImmediateDominator d b ∧
      ∀ d', func.IsImmediateDominator d' b → d' = d
  blockDominates : ∀ a b, func.Reachable a → func.Reachable b →
    (dt.blockDominates a b = true ↔ func.Dominates a b)
  /-- The children are the blocks with the immediate dominator, in reverse postorder. -/
  children : ∀ b, dt.children b = .ok (dt.postorder.reverse.filter fun c => dt.idom c = some b)

namespace DominatorTree

variable {func : Func} {F : Forest Block} {r : Block} {idom : Block → Option Block}

section

variable (hdfs : Dfs func.blockSuccessors [] [r] F)
include hdfs

theorem exists_node : ∃ C, F = .node r C .nil := by
  cases hdfs with
  | skip hb => cases hb
  | @visit _ _ _ C R _ _ hr =>
    cases hr
    exact ⟨C, rfl⟩

theorem mem_tree {C : Forest Block} {K : Block → Forest Block} {nodes : DomNodes}
    (h : IsIdomMap func F r idom)
    (hpost : F.post = C.post ++ [r]) (hK : Building (idomNodes F idom) C.post K nodes) (b : Block) :
    b ∈ r :: (K r).pre ↔ b ∈ F.post := by
  rw [hpost, mem_cons, mem_append, mem_singleton]
  constructor
  · rintro (rfl | hb)
    · exact .inr rfl
    · exact .inl (hK.mem r b hb)
  rintro (hb | rfl)
  · right
    obtain ⟨d, hd, hbd⟩ := hK.cover b hb
    -- A block that is not linked below another one is the entry block.
    obtain ⟨c, hc⟩ : ∃ c, idom c = some d := by
      cases hKd : K d with
      | nil => rw [hKd] at hbd; cases hbd
      | node c _ _ =>
        have hpar := hK.hasParent d
        rw [hKd] at hpar
        exact ⟨c, hpar.1⟩
    have hdF := hdfs.mem_of_dominates (h.isImmediateDominator hc).1.1 (h.mem hc).1
    have hdL := hpost ▸ Forest.mem_post.mpr hdF
    rcases mem_append.mp hdL with hdC | hdr
    · exact absurd hdC hd
    · exact mem_singleton.mp hdr ▸ hbd
  · exact .inl rfl

/-- **The preorder phase**: the tree is linked, and its intervals decide dominance. -/
theorem computeDomtreePreorder_eq (h : IsIdomMap func F r idom) (t : SpanningTree) :
    ∃ nodes, computeDomtreePreorder { spanned F with stree := t, nodes := idomNodes F idom } =
        .ok { spanned F with stree := t, nodes := nodes } ∧
      (∀ b, (nodes b).idom = idom b ∧ (nodes b).preNumber = blockNumber F b) ∧
      (∀ a ∈ F.pre, ∀ b ∈ F.pre,
        ((nodes a).domPreNumber ≤ (nodes b).domPreNumber ∧
          (nodes b).domPreMax ≤ (nodes a).domPreMax ↔ IdomChain idom a b)) ∧
      ∀ d, childIter nodes F.post.length (nodes d).child =
        .ok (F.post.reverse.filter fun b => idom b = some d) := by
  obtain ⟨C, hC⟩ := exists_node hdfs
  have hpost : F.post = C.post ++ [r] := by rw [hC]; rfl
  have hnd := F.post_perm_pre.nodup_iff.mpr hdfs.nodup
  have hCnodup := (nodup_append.mp (hpost ▸ hnd)).1
  have hrC : r ∉ C.post := fun hmem =>
    (nodup_append.mp (hpost ▸ hnd)).2.2 r hmem r (.head _) rfl
  have hlater : ∀ b d, idom b = some d → ∀ P Q, F.post = P ++ b :: Q → d ∉ P ++ [b] :=
    fun b d hb P Q hL => h.later hdfs hb hL
  let dt0 : DominatorTree := { spanned F with stree := t, nodes := idomNodes F idom }
  -- Linking the blocks before the entry block, and then the entry block.
  obtain ⟨K, nodes1, hK, hlink⟩ := (Building.start (idomNodes F idom)
    fun _ => ⟨rfl, rfl⟩).loop dt0 (L := C.post) rfl rfl hCnodup (by
      intro b hb
      have hbF := Forest.mem_post.mp (hpost ▸ mem_append_left _ hb)
      obtain ⟨d, hd, -⟩ := h.idom b hbF fun heq => hrC (heq ▸ hb)
      refine ⟨d, hd, fun P Q hL => hlater b d hd P (Q ++ [r]) ?_⟩
      rw [hpost, hL, append_assoc, cons_append])
  have hidom1 : ∀ b, (nodes1 b).idom = idom b ∧ (nodes1 b).preNumber = blockNumber F b := by
    intro b
    rw [hK.frame b]
    exact ⟨rfl, rfl⟩
  let dt1 : DominatorTree := { dt0 with nodes := nodes1, dfsWorklist := [.enter 0 r] }
  have hfold : F.post.foldl linkStep dt0 = dt1 := by
    rw [hpost, foldl_append, hlink, foldl_cons, linkStep]
    have hroot := (hidom1 r).1.trans h.root
    rw [DominatorTree.idom, hroot]
    rfl
  -- The tree of the entry block has all blocks.
  let T : Forest Block := .node r (K r) .nil
  have hpre : T.pre = r :: (K r).pre := by simp [T, Forest.pre]
  have hTmem := hpre ▸ mem_tree hdfs h hpost hK
  have hTnodup : T.pre.Nodup := by
    rw [hpre]
    exact nodup_cons.mpr ⟨fun hr => hrC (hK.mem r r hr), hK.nodup r⟩
  have hTlen := ((perm_ext_iff_of_nodup hTnodup hnd).mpr hTmem).length_eq
  -- Numbering the tree.
  have hloop := preorderLoop_forest hTnodup dt1 0 (some r) []
    ⟨rfl, hK.forest r, hK.sibling r hrC⟩ rfl 0
  let dt2 := dt1.numbered T 0 []
  have hpreorder : preorderLoop F.post.length 0 dt1 = .ok dt2 := by
    rw [← hTlen]
    exact hloop
  have hsame2 : ∀ b, (dt2.nodes b).idom = idom b ∧ (dt2.nodes b).preNumber = blockNumber F b ∧
      (dt2.nodes b).child = (nodes1 b).child ∧ (dt2.nodes b).sibling = (nodes1 b).sibling := by
    intro b
    by_cases hb : b ∈ T.pre <;> simp [dt2, dt1, numbered, hb, hidom1]
  have hnum2 : ∀ b ∈ T.pre, (dt2.nodes b).domPreNumber = 1 + T.pre.idxOf b := by
    intro b hb
    simp [dt2, numbered, hb]
  -- Propagating the greatest numbers.
  have hmax : ∀ b, (dt2.nodes b).domPreMax = (dt2.nodes b).domPreNumber := by
    intro b
    by_cases hb : b ∈ T.pre
    · simp [dt2, numbered, hb]
    · simp only [dt2, numbered, hb, if_false, dt1]
      rw [hK.frame b]
      rfl
  obtain ⟨M, hM, hmaxfold⟩ := MaxOk.loop dt2.nodes (.start hmax) (fun b => (hsame2 b).1) rfl
    fun b _ d hb P Q hL => hlater b d hb P Q hL
  refine ⟨fun b => { dt2.nodes b with domPreMax := M b }, ?_, ?_, ?_, ?_⟩
  · have hlen : dt1.dfsWorklist.length ≤ 1 := le_rfl
    have hpo : dt1.postorder = F.post ∧ dt2.postorder = F.post := ⟨rfl, rfl⟩
    have hpo0 : dt0.postorder = F.post := rfl
    change computeDomtreePreorder dt0 = _
    simp only [computeDomtreePreorder, hpo0, hfold, ensure_of hlen, Exec.ok_bind, hpo.1, hpreorder,
      hpo.2, hmaxfold, Exec.pure_eq]
    rfl
  · exact fun b => ⟨(hsame2 b).1, (hsame2 b).2.1⟩
  · intro a ha b hb
    have haT := (hTmem a).mpr (Forest.mem_post.mpr ha)
    have hbT := (hTmem b).mpr (Forest.mem_post.mpr hb)
    have hpar : HasParent idom T none := ⟨h.root, hK.hasParent r, trivial⟩
    refine hM.le_iff_chain hpar ?_ ?_ ?_ haT hbT
    · intro i c hi
      obtain ⟨hlt, rfl⟩ := List.getElem?_eq_some_iff.mp hi
      rw [hnum2 _ (getElem_mem hlt), hTnodup.idxOf_getElem]
    · exact fun c d hc => Forest.mem_post.mpr (h.mem hc).1
    · intro c d hc
      have hcF := (h.mem hc).1
      have hdF := hdfs.mem_of_dominates (h.isImmediateDominator hc).1.1 hcF
      exact ⟨(hTmem c).mpr (Forest.mem_post.mpr hcF), (hTmem d).mpr (Forest.mem_post.mpr hdF)⟩
  · intro d
    have hrts : roots (K d) = F.post.reverse.filter fun b => idom b = some d := by
      rw [hK.roots_eq d, hpost, reverse_append, reverse_singleton,
        singleton_append, filter_cons, if_neg (by simp [h.root])]
      rfl
    have hlinked : LinkedForest (fun b => { dt2.nodes b with domPreMax := M b })
        (nodes1 d).child (K d) :=
      (hK.forest d).congr fun c _ => ⟨(hsame2 c).2.2.1, (hsame2 c).2.2.2⟩
    rw [← hrts, (hsame2 d).2.2.1]
    apply hlinked.childIter
    rw [hrts]
    exact (length_filter_le _ _).trans (by rw [length_reverse])

end

theorem compute_none (hr : func.entryBlock = none) (cfg : ControlFlowGraph func) :
    compute cfg new = .ok { new with valid := true } := by
  have hspan : computeSpanningTree func new.clear = .ok new := by
    rw [computeSpanningTree, hr]
    rfl
  rw [compute, hspan]
  rfl

theorem isCorrect_none (hr : func.entryBlock = none) :
    IsCorrect func { new with valid := true } where
  cfgPostorder := ⟨.nil, hr ▸ Dfs.nil [], rfl⟩
  nodup := nodup_nil
  mem_postorder := fun b => by simp [Func.Reachable, hr, new]
  isReachable := fun b => by simp [Func.Reachable, hr, isReachable, new, notVisited, default]
  idom_eq_none := fun _ _ => rfl
  idom := fun b hb => by simp [Func.Reachable, hr] at hb
  blockDominates := fun a b ha => by simp [Func.Reachable, hr] at ha
  children := fun b => rfl

end DominatorTree

/-- **Semi-NCA is correct.**  For every function and its control-flow graph, computing the
dominator tree ends without a panic and gives a correct tree, which may be computed again. -/
theorem semiNca_correct {func : Func} (cfg : ControlFlowGraph func) {dt : DominatorTree}
    (hdt : dt.IsIdle) :
    ∃ dt', dt.compute cfg = .ok dt' ∧ dt'.IsIdle ∧ dt'.IsCorrect func := by
  have hnew : dt.compute cfg = new.compute cfg := by
    rw [compute, compute, hdt.clear_eq, isIdle_new.clear_eq]
  cases hr : func.entryBlock with
  | none =>
    exact ⟨_, hnew.trans (compute_none hr cfg), ⟨rfl, rfl⟩, isCorrect_none hr⟩
  | some r =>
    obtain ⟨F, hdfs, hspan⟩ := computeSpanningTree_eq func
    obtain ⟨t, idom, hdomtree, ht, hidom⟩ := computeDomtree_eq hdfs hr cfg
    have hdfs' : Dfs func.blockSuccessors [] [r] F := by rwa [hr] at hdfs
    obtain ⟨nodes, hpreorder, hns, hinterval, hch⟩ :=
      computeDomtreePreorder_eq hdfs' hidom t
    have hrch : ∀ b, func.Reachable b ↔ b ∈ F.pre := by
      intro b
      rw [hdfs'.mem_iff]
      constructor
      · rintro ⟨r', hr', hpath⟩
        obtain rfl : r = r' := some.inj (hr.symm.trans hr')
        exact hpath
      · exact fun hpath => ⟨r, hr, hpath⟩
    let dt' : DominatorTree := { spanned F with stree := t, nodes := nodes, valid := true }
    refine ⟨dt', ?_, ⟨ht, rfl⟩, ?_⟩
    · rw [hnew, compute, isIdle_new.clear_eq, hspan, Exec.ok_bind,
        hdomtree, Exec.ok_bind, hpreorder]
      rfl
    refine ⟨⟨F, hdfs, rfl⟩, F.post_perm_pre.nodup_iff.mpr hdfs.nodup, ?_, ?_, ?_, ?_, ?_, ?_⟩
    · exact fun b => Forest.mem_post.trans (hrch b).symm
    · intro b
      simp only [isReachable, dt', (hns b).2, decide_eq_true_eq, blockNumber]
      split <;> simp_all [notVisited]
    · intro b hb
      have hbnone : idom b = none := by
        rcases hb with hb | hb
        · exact hidom.not_mem b fun hmem => hb ((hrch b).mpr hmem)
        · rw [hr] at hb
          exact some.inj hb ▸ hidom.root
      exact (hns b).1.trans hbnone
    · intro b hb hbr
      obtain ⟨d, hd, himm⟩ := hidom.idom b ((hrch b).mp hb) fun heq => hbr (heq ▸ hr)
      refine ⟨d, (hns b).1.trans hd, ?_, ?_⟩
      · intro r' hr'
        obtain rfl : r = r' := some.inj (hr.symm.trans hr')
        exact himm
      · intro d' hd'
        obtain ⟨r', hr', hpath⟩ := hb
        obtain rfl : r = r' := some.inj (hr.symm.trans hr')
        exact (hd' r hr).unique himm hpath
    · intro a b ha hb
      have hiff := hinterval a ((hrch a).mp ha) b ((hrch b).mp hb)
      have hdom : func.Dominates a b ↔ Dominates (Succ func.blockSuccessors) r a b := by
        refine ⟨fun h => h r hr, fun h r' hr' => ?_⟩
        obtain rfl : r = r' := some.inj (hr.symm.trans hr')
        exact h
      rw [hdom, hidom.dominates_iff hdfs' ((hrch b).mp hb), ← hiff]
      simp [blockDominates, dt']
    · intro b
      have heq : ∀ c, dt'.idom c = idom c := fun c => (hns c).1
      simp only [heq]
      exact hch b

def twoEntryLoop : Func where
  layout := [0, 1, 2]
  blockSuccessors := fun b => if b = 0 then [1, 2] else if b = 1 then [2] else [1]
  succ_mem := by decide

def twoEntryLoopCfg : ControlFlowGraph twoEntryLoop where
  predIter := fun b => twoEntryLoop.layout.filter fun p => b ∈ twoEntryLoop.blockSuccessors p
  mem_predIter := fun p b => by simp

theorem semiNca_correct_twoEntryLoop :
    ∃ dt', DominatorTree.new.compute twoEntryLoopCfg = .ok dt' ∧ dt'.IsIdle ∧
      dt'.IsCorrect twoEntryLoop :=
  semiNca_correct twoEntryLoopCfg isIdle_new

/-- **Dominators are visited first** in reverse postorder: a strict dominator of a reachable block
is behind it in the postorder. -/
theorem dominators_visited_first {func : Func} (cfg : ControlFlowGraph func)
    {dt dt' : DominatorTree} (hdt : dt.IsIdle) (hok : dt.compute cfg = .ok dt') {a b : Block}
    (hb : func.Reachable b) (hab : func.Dominates a b) (hne : a ≠ b) :
    ∃ l : List Block, dt'.cfgRpo = .ok l.reverse ∧ l.Nodup ∧ a ∈ l ∧ l.idxOf b < l.idxOf a := by
  obtain ⟨r, hr, hpath⟩ := hb
  obtain ⟨F, hdfs, hspan⟩ := computeSpanningTree_eq func
  obtain ⟨t, idom, hdomtree, -, hidom⟩ := computeDomtree_eq hdfs hr cfg
  rw [hr] at hdfs
  obtain ⟨nodes, hpreorder, -⟩ := computeDomtreePreorder_eq hdfs hidom t
  rw [compute, hdt.clear_eq, hspan, Exec.ok_bind, hdomtree, Exec.ok_bind, hpreorder] at hok
  cases hok
  have hF := numbered_blockNumber hdfs.nodup
  have hp := isDepthFirst hdfs
  have hbF := hdfs.mem_iff.mpr hpath
  have haF := hdfs.mem_of_dominates (hab r hr) hbF
  refine ⟨F.post, rfl, F.post_perm_pre.nodup_iff.mpr hdfs.nodup, Forest.mem_post.mpr haF, ?_⟩
  have hbn := hF.num_mem hbF
  have hanc := hp.isAncestor_of_dominates ((hdfs.dominates_num hF haF hbF).mpr (hab r hr))
    (by omega)
  have hpost := Forest.postNumbered_idxOf hdfs.nodup [] [] fun _ _ => not_mem_nil
  simpa using hpost.lt_of_isAncestor hF hp.toIsPreorder one_pos (by omega) haF hbF hne hanc

theorem dominators_visited_first_twoEntryLoop : ∃ dt' : DominatorTree, ∃ l : List Block,
    new.compute twoEntryLoopCfg = .ok dt' ∧ dt'.cfgRpo = .ok l.reverse ∧ l.Nodup ∧ 0 ∈ l ∧
      l.idxOf 2 < l.idxOf 0 := by
  have hok : new.compute twoEntryLoopCfg = .ok _ := rfl
  have hdom : twoEntryLoop.Dominates 0 2 := by
    rintro r ⟨⟩
    exact dominates_root _ _ _
  obtain ⟨l, hl, hlt⟩ := dominators_visited_first twoEntryLoopCfg isIdle_new hok
    ⟨0, rfl, .single (show 2 ∈ [1, 2] by decide)⟩ hdom (by decide)
  exact ⟨_, l, hok, hl, hlt⟩

end WasmDeps.Codegen
