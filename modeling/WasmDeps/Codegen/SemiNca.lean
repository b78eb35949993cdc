import WasmDeps.Codegen.SpanningTree

/-!
# Semidominators and immediate dominators

The first loop of `compute_domtree` goes through the numbers from the greatest to the
smallest.  When `w` is next, the nodes greater than `w` are linked: each one has a proper
ancestor in the spanning tree, and the smallest semidominator of the vertices between them as
its label.  `eval` compresses paths and keeps this.

The second loop goes through the numbers in increasing order and walks up from the parent over
immediate dominators that are final.
-/

namespace WasmDeps.Codegen

open Lib Relation List Exec DominatorTree Function
open SpanningTree (nodeAt_set)

/-- The node of `v` is linked to a proper ancestor, and its label is the smallest semidominator
of the vertices on the way. -/
structure LinkedNode (par sd : ℕ → ℕ) (w v : ℕ) (node : SpanningTreeNode) : Prop where
  isAncestor : IsAncestor par node.ancestor v
  lt : node.ancestor < v
  above : ∀ u, IsAncestor par u v → node.ancestor < u → w < u
  label_eq : ∃ u, IsAncestor par u v ∧ node.ancestor < u ∧ node.label = sd u
  label_le : ∀ u, IsAncestor par u v → node.ancestor < u → node.label ≤ sd u

/-- The spanning tree when the nodes greater than `w` are linked. -/
structure Linked (blocks : List Block) (par sd : ℕ → ℕ) (w : ℕ) (t : SpanningTree) : Prop where
  length : t.length = blocks.length + 1
  root : t.nodeAt 0 = default
  node : ∀ v, v ≠ 0 → v ≤ blocks.length →
    (t.nodeAt v).block = blocks[v - 1]? ∧ (t.nodeAt v).idom = par v
  low : ∀ v, v ≠ 0 → v ≤ w → v ≤ blocks.length →
    (t.nodeAt v).ancestor = par v ∧ (t.nodeAt v).label = v
  high : ∀ v, w < v → v ≤ blocks.length →
    (t.nodeAt v).semi = sd v ∧ LinkedNode par sd w v (t.nodeAt v)

/-- The values that `eval` takes the minimum of. -/
def EvalValue (par sd : ℕ → ℕ) (w v c : ℕ) : Prop :=
  v ≤ w ∧ c = v ∨ w < v ∧ ∃ u, IsAncestor par u v ∧ w < u ∧ c = sd u

def IsLeastValue (par sd : ℕ → ℕ) (w v c : ℕ) : Prop :=
  EvalValue par sd w v c ∧ ∀ c', EvalValue par sd w v c' → c ≤ c'

/-- A path down from `p` to `x` along ancestors that nodes are linked to. -/
inductive LinkPath (t : SpanningTree) : ℕ → List ℕ → ℕ → Prop
  | nil (x : ℕ) : LinkPath t x [] x
  | cons {p c x : ℕ} {path : List ℕ} (h : (t.nodeAt c).ancestor = p) (rest : LinkPath t c path x) :
      LinkPath t p (c :: path) x

variable {path : List ℕ}

theorem LinkPath.snoc {t : SpanningTree} {p x y : ℕ} (h : LinkPath t p path y)
    (hx : (t.nodeAt x).ancestor = y) : LinkPath t p (path ++ [x]) x := by
  induction h with
  | nil => exact .cons hx (.nil x)
  | cons h _ ih => exact .cons h (ih hx)

theorem LinkPath.congr {t t' : SpanningTree} {p x : ℕ} (h : LinkPath t p path x)
    (heq : ∀ y ∈ path, t'.nodeAt y = t.nodeAt y) : LinkPath t' p path x := by
  induction h with
  | nil => exact .nil _
  | cons h _ ih =>
    exact .cons ((heq _ (.head _)).symm ▸ h) (ih fun y hy => heq y (.tail _ hy))

variable {blocks : List Block} {par sd : ℕ → ℕ} {t : SpanningTree} {w v : ℕ} {func : Func}
  {F : Forest Block} {r : Block}

namespace Linked

variable (h : Linked blocks par sd w t)
include h

theorem index_eq (hv : v ≤ blocks.length) :
    t.index v = .ok (t.nodeAt v) := SpanningTree.index_eq (by rw [h.length]; omega)

theorem lt_of_ancestor (hp : IsPreorder blocks.length par)
    (hv : v ≠ 0) (hn : v ≤ blocks.length) (hanc : w < (t.nodeAt v).ancestor) : w < v := by
  by_contra hle
  have hlow := (h.low v hv (by omega) hn).1
  have := hp.par_lt v hv hn
  omega

theorem isLeastValue (hv : v ≠ 0) (hn : v ≤ blocks.length)
    (hanc : (t.nodeAt v).ancestor ≤ w) : IsLeastValue par sd w v (t.nodeAt v).label := by
  rcases lt_or_ge w v with hlt | hge
  · obtain ⟨-, hnode⟩ := h.high v hlt hn
    obtain ⟨u, hu, hlu, heq⟩ := hnode.label_eq
    refine ⟨.inr ⟨hlt, u, hu, hnode.above u hu hlu, heq⟩, ?_⟩
    rintro c' (⟨hle, -⟩ | ⟨-, u', hu', hwu, rfl⟩)
    · omega
    · exact hnode.label_le u' hu' (by omega)
  · rw [(h.low v hv hge hn).2]
    refine ⟨.inl ⟨hge, rfl⟩, ?_⟩
    rintro c' (⟨-, rfl⟩ | ⟨hlt, -⟩)
    · exact le_rfl
    · omega

section

variable (hp : IsPreorder blocks.length par)
include hp

theorem lt_of_link {p c : ℕ}
    (hc : c ≤ blocks.length) (hcp : (t.nodeAt c).ancestor = p) (hwp : w < p) : p < c := by
  have hc0 : c ≠ 0 := by
    rintro rfl
    rw [h.root] at hcp
    exact absurd hwp (hcp ▸ Nat.not_lt_zero w)
  exact hcp ▸ (h.high c (h.lt_of_ancestor hp hc0 hc (hcp ▸ hwp)) hc).2.lt

theorem compress {p c : ℕ}
    (hc : c ≤ blocks.length) (hcp : (t.nodeAt c).ancestor = p) (hwp : w < p) {label : ℕ}
    (hlab : label = min (t.nodeAt p).label (t.nodeAt c).label) :
    Linked blocks par sd w
      (t.set c { t.nodeAt c with label := label, ancestor := (t.nodeAt p).ancestor }) := by
  have hct : c < t.length := by rw [h.length]; omega
  have hlt := h.lt_of_link hp hc hcp hwp
  have hc0 : c ≠ 0 := by omega
  obtain ⟨-, hnode⟩ := h.high c (hwp.trans hlt) hc
  have hpc := hcp ▸ hnode.isAncestor
  obtain ⟨-, hprev⟩ := h.high p hwp (by omega)
  -- The vertices on the way up are those above `p` and those below it.
  have hspl : ∀ u, IsAncestor par u c → (t.nodeAt p).ancestor < u →
      p < u ∨ IsAncestor par u p := by
    intro u hu _
    rcases lt_or_ge p u with hpu | hpu
    · exact .inl hpu
    · exact .inr (hp.interval hu hc hpu (hp.le hpc hc))
  have hnew : LinkedNode par sd w c
      { t.nodeAt c with label := label, ancestor := (t.nodeAt p).ancestor } := by
    refine ⟨hprev.isAncestor.trans hpc, hprev.lt.trans hlt, ?_, ?_, ?_⟩
    · intro u hu hlu
      rcases hspl u hu hlu with hpu | hup
      · omega
      · exact hprev.above u hup hlu
    · rcases le_total (t.nodeAt p).label (t.nodeAt c).label with hle | hle
      · obtain ⟨u, hu, hlu, heq⟩ := hprev.label_eq
        exact ⟨u, hu.trans hpc, hlu, by simpa [hlab, hle] using heq⟩
      · obtain ⟨u, hu, hlu, heq⟩ := hnode.label_eq
        have hprev' := hprev.lt
        exact ⟨u, hu, by simp only; omega, by simpa [hlab, hle] using heq⟩
    intro u hu hlu
    rcases hspl u hu hlu with hpu | hup
    · have := hnode.label_le u hu (by omega)
      simp only [hlab]
      omega
    · have := hprev.label_le u hup hlu
      simp only [hlab]
      omega
  refine ⟨by rw [length_set]; exact h.length, ?_, ?_, ?_, ?_⟩
  · rw [nodeAt_set hct, if_neg (Ne.symm hc0), h.root]
  · intro v hv hn
    rw [nodeAt_set hct]
    split
    · rename_i heq
      subst heq
      exact h.node v hv hn
    · exact h.node v hv hn
  · intro v hv hvw hn
    rw [nodeAt_set hct, if_neg (by omega)]
    exact h.low v hv hvw hn
  intro v hwv hn
  rw [nodeAt_set hct]
  split
  · rename_i heq
    subst heq
    exact ⟨(h.high v hwv hn).1, hnew⟩
  · exact h.high v hwv hn

theorem lt_of_mem_path {p x : ℕ} (hpath : LinkPath t p path x)
    (hwp : w < p) (hle : ∀ c ∈ path, c ≤ blocks.length) : ∀ c ∈ path, p < c := by
  induction hpath with
  | nil => exact fun _ hc => nomatch hc
  | cons hcp _ ih =>
    have hlt := h.lt_of_link hp (hle _ (.head _)) hcp hwp
    intro c hc
    rcases mem_cons.mp hc with rfl | hc
    · exact hlt
    · have := ih (hwp.trans hlt) (fun c hc => hle c (.tail _ hc)) c hc
      omega

/-- Path compression keeps the invariant, and its last node is linked to the root. -/
theorem evalCompress
    {root p x : ℕ} (hroot : (t.nodeAt p).ancestor = root) (hwp : w < p) (hpn : p ≤ blocks.length)
    (hpath : LinkPath t p path x) (hle : ∀ c ∈ path, c ≤ blocks.length) :
    ∃ t', evalCompress root path p t = .ok t' ∧ Linked blocks par sd w t' ∧
      (t'.nodeAt x).ancestor = root := by
  induction path generalizing p t with
  | nil =>
    cases hpath
    exact ⟨t, rfl, h, hroot⟩
  | cons c path ih =>
    obtain ⟨hcp, hrest⟩ : (t.nodeAt c).ancestor = p ∧ LinkPath t c path x := by
      cases hpath with
      | cons hcp hrest => exact ⟨hcp, hrest⟩
    have hc := hle c (.head _)
    have hle' := fun y hy => hle y (.tail c hy)
    have hpc := h.lt_of_link hp hc hcp hwp
    have hct : c < t.length := by rw [h.length]; omega
    let label := if (t.nodeAt p).label < (t.nodeAt c).label then (t.nodeAt p).label
      else (t.nodeAt c).label
    have hlab : label = min (t.nodeAt p).label (t.nodeAt c).label := by
      simp only [label]
      split <;> omega
    have h' := h.compress hp hc hcp hwp hlab
    rw [hroot] at h'
    -- The nodes further down are not touched.
    have hrest' : LinkPath (t.set c { t.nodeAt c with label := label, ancestor := root })
        c path x := by
      have hgt := h.lt_of_mem_path hp hrest (hwp.trans hpc) hle'
      refine hrest.congr fun y hy => ?_
      rw [nodeAt_set hct, if_neg (ne_of_gt (hgt y hy))]
    obtain ⟨t', heq, ht', hanc⟩ := ih h' (by rw [nodeAt_set hct, if_pos rfl])
      (hwp.trans hpc) hc hrest' hle'
    refine ⟨t', ?_, ht', hanc⟩
    rw [evalCompress, h.index_eq hpn, h.index_eq hc]
    exact heq

/-- Climbing ends at a node whose ancestor is not linked, and stacks the path down from it. -/
theorem evalClimb {x : ℕ} (fuel : ℕ) (stack : List ℕ)
    (hfuel : x ≤ fuel) (hx : x ≤ blocks.length) (hanc : w < (t.nodeAt x).ancestor) :
    ∃ p path, evalClimb t (w + 1) fuel x stack = .ok (p, path ++ stack) ∧
      LinkPath t p path x ∧ (∀ c ∈ path, c ≤ blocks.length) ∧ w < p ∧ p ≤ blocks.length ∧
      (t.nodeAt p).ancestor ≤ w := by
  induction fuel generalizing x stack with
  | zero =>
    have := h.lt_of_link hp hx rfl hanc
    omega
  | succ fuel ih =>
    have hlt := h.lt_of_link hp hx rfl hanc
    rw [DominatorTree.evalClimb, h.index_eq hx, ok_bind, h.index_eq (by omega), ok_bind]
    split
    · rename_i hlast
      refine ⟨_, [x], rfl, .cons rfl (.nil x), ?_, hanc, by omega, by omega⟩
      simpa using hx
    obtain ⟨p, path, heq, hpath, hle, hrest⟩ := ih (x :: stack) (by omega) (by omega)
      (by omega : w < (t.nodeAt (t.nodeAt x).ancestor).ancestor)
    refine ⟨p, path ++ [x], ?_, hpath.snoc rfl, ?_, hrest⟩
    · rw [heq, append_assoc]
      rfl
    · intro c hc
      rcases mem_append.mp hc with hc | hc
      · exact hle c hc
      · exact (mem_singleton.mp hc) ▸ hx

/-- **`eval`** returns the smallest value and keeps the invariant. -/
theorem eval (hv : v ≠ 0) (hn : v ≤ blocks.length) :
    ∃ c t', eval t v (w + 1) = .ok (c, t') ∧ Linked blocks par sd w t' ∧
      IsLeastValue par sd w v c := by
  rw [DominatorTree.eval, h.index_eq hn, ok_bind]
  split
  · rename_i hlt
    exact ⟨_, t, rfl, h, h.isLeastValue hv hn (by omega)⟩
  obtain ⟨p, path, hclimb, hpath, hle, hwp, hpn, hanc⟩ := h.evalClimb hp v [] le_rfl hn (by omega)
  obtain ⟨t', hcompress, ht', hroot⟩ := h.evalCompress hp rfl hwp hpn hpath hle
  refine ⟨_, t', ?_, ht', ht'.isLeastValue hv hn (hroot ▸ hanc)⟩
  simp [hclimb, h.index_eq hpn, hcompress, ht'.index_eq hn]

end

end Linked

/-! ## The first loop -/

section Loops

variable {nodes : DomNodes}

def BlockEdge (func : Func) (F : Forest Block) (r : Block) : ℕ → ℕ → Prop :=
  NumEdge func.blockSuccessors F (blockNumber F) r

theorem isDepthFirst (h : Dfs func.blockSuccessors [] [r] F) :
    IsDepthFirst F.pre.length (treeParent F) (BlockEdge func F r) :=
  h.isDepthFirst (numbered_blockNumber h.nodup)

theorem semiCandidates (hp : IsPreorder F.pre.length (treeParent F))
    (hF : F.Numbered (blockNumber F) (treeParent F) 0 1)
    (hnodes : ∀ b, (nodes b).preNumber = blockNumber F b) (preds : List Block)
    (h : Linked F.pre (treeParent F) sd w t) (s0 : ℕ) :
    ∃ s t', preds.foldlM (semiCandidate nodes w) (s0, t) = .ok (s, t') ∧
      Linked F.pre (treeParent F) sd w t' ∧ s ≤ s0 ∧
      (∀ a ∈ preds, a ∈ F.pre → ∀ c, EvalValue (treeParent F) sd w (blockNumber F a) c → s ≤ c) ∧
      (s = s0 ∨ ∃ a ∈ preds, a ∈ F.pre ∧ EvalValue (treeParent F) sd w (blockNumber F a) s) := by
  induction preds generalizing s0 t with
  | nil => exact ⟨s0, t, rfl, h, le_rfl, nofun, .inl rfl⟩
  | cons a preds ih =>
    by_cases ha : a ∈ F.pre
    · have hnum := hF.num_mem ha
      obtain ⟨c, t1, heval, h1, hc, hmin⟩ := h.eval hp (v := blockNumber F a) (by omega) (by omega)
      obtain ⟨s, t', hfold, h', hle, hall, hex⟩ := ih h1 (min s0 c)
      refine ⟨s, t', ?_, h', by omega, ?_, ?_⟩
      · rw [foldlM_cons, ← hfold]
        have hstep : semiCandidate nodes w (s0, t) a = .ok (min s0 c, t1) := by
          have hne : blockNumber F a ≠ notVisited := by rw [notVisited]; omega
          simp [semiCandidate, hnodes, if_neg hne, heval]
        rw [hstep, ok_bind]
      · intro a' ha' hmem c' hc'
        rcases mem_cons.mp ha' with rfl | ha'
        · have := hmin c' hc'
          omega
        · exact hall a' ha' hmem c' hc'
      rcases hex with heq | ⟨a', ha', hrest⟩
      · rcases le_total s0 c with hsc | hsc
        · exact .inl (by omega)
        · refine .inr ⟨a, .head _, ha, ?_⟩
          rwa [heq, min_eq_right hsc]
      · exact .inr ⟨a', .tail a ha', hrest⟩
    obtain ⟨s, t', hfold, h', hle, hall, hex⟩ := ih h s0
    refine ⟨s, t', ?_, h', hle, ?_, ?_⟩
    · rw [foldlM_cons, ← hfold]
      have hstep : semiCandidate nodes w (s0, t) a = .ok (s0, t) := by
        simp [semiCandidate, hnodes, blockNumber, ha]
      rw [hstep, ok_bind]
    · intro a' ha' hmem
      rcases mem_cons.mp ha' with rfl | ha'
      · exact absurd hmem ha
      · exact hall a' ha' hmem
    · apply hex.imp_right
      rintro ⟨a', ha', hrest⟩
      exact ⟨a', .tail a ha', hrest⟩

theorem Linked.link (h : Linked blocks par sd (w + 1) t)
    (hp : IsPreorder blocks.length par) (hw : w + 1 ≤ blocks.length) :
    Linked blocks par sd w
      (t.set (w + 1) { t.nodeAt (w + 1) with label := sd (w + 1), semi := sd (w + 1) }) := by
  have hwt : w + 1 < t.length := by rw [h.length]; omega
  obtain ⟨hanc, -⟩ := h.low (w + 1) (by omega) le_rfl hw
  have hlt := hp.par_lt (w + 1) (by omega) hw
  -- Between the node and its parent there is nothing but the node.
  have honly : ∀ u, IsAncestor par u (w + 1) → par (w + 1) < u → u = w + 1 := by
    intro u hu hlu
    rcases hu.eq_or_par with heq | ⟨-, hpar⟩
    · exact heq
    · have := hp.le hpar (by omega)
      omega
  refine ⟨by rw [length_set]; exact h.length, ?_, ?_, ?_, ?_⟩
  · rw [nodeAt_set hwt, if_neg (by omega), h.root]
  · intro v hv hn
    rw [nodeAt_set hwt]
    split
    · rename_i heq
      subst heq
      exact h.node _ hv hn
    · exact h.node v hv hn
  · intro v hv hvw hn
    rw [nodeAt_set hwt, if_neg (by omega)]
    exact h.low v hv (by omega) hn
  intro v hwv hn
  rw [nodeAt_set hwt]
  split
  · rename_i heq
    subst heq
    refine ⟨rfl, ?_, ?_, ?_, ⟨w + 1, .refl, ?_, rfl⟩, ?_⟩
    · exact hanc ▸ isAncestor_par (by omega)
    · exact hanc ▸ hlt
    · intro u hu hlu
      rw [honly u hu (hanc ▸ hlu)]
      omega
    · exact hanc ▸ hlt
    · intro u hu hlu
      rw [honly u hu (hanc ▸ hlu)]
  · obtain ⟨hsemi, hnode⟩ := h.high v (by omega) hn
    refine ⟨hsemi, { hnode with above := fun u hu hlu => ?_ }⟩
    have := hnode.above u hu hlu
    omega

namespace DominatorTree

section

variable (hdfs : Dfs func.blockSuccessors [] func.entryBlock.toList F)
  (hr : func.entryBlock = some r) (cfg : ControlFlowGraph func)
  (hnodes : ∀ b, (nodes b).preNumber = blockNumber F b)
  (hsd : ∀ u, u ≠ 0 → u ≤ F.pre.length → IsSemidominator (BlockEdge func F r) u (sd u))
include hdfs hr cfg hnodes hsd

theorem semiStep_eq (h : Linked F.pre (treeParent F) sd (w + 1) t) (hw : w + 1 ≤ F.pre.length) :
    ∃ t', semiStep cfg nodes (w + 1) t = .ok t' ∧ Linked F.pre (treeParent F) sd w t' := by
  have hlay := fun b => mem_layout hdfs (b := b)
  rw [hr] at hdfs
  have hF := numbered_blockNumber hdfs.nodup
  have hp := isDepthFirst hdfs
  obtain ⟨b, hb, hbw⟩ := hF.exists_num (v := w + 1) (by omega) (by omega)
  have hblk : (t.nodeAt (w + 1)).block = some b := by
    rw [(h.node (w + 1) (by omega) hw).1, ← hbw, getElem?_blockNumber hb]
  obtain ⟨s, t', hfold, h', hle, hall, hex⟩ := semiCandidates hp.toIsPreorder hF hnodes
    (cfg.predIter b) h (t.nodeAt (w + 1)).ancestor
  rw [(h.low (w + 1) (by omega) le_rfl hw).1] at hle hex hfold
  have hparlt := hp.par_lt (w + 1) (by omega) hw
  -- The minimum over the parent and the predecessors is the smallest candidate.
  have hsemi : IsSemidominator (BlockEdge func F r) (w + 1) s := by
    apply hp.isSemidominator (fun u hu hn => hsd u (by omega) hn)
    · rcases hex with rfl | ⟨a, ha, hmem, hval⟩
      · exact ⟨treeParent F (w + 1), hp.edge_par _ (by omega) hw, .inl ⟨by omega, rfl⟩⟩
      · exact ⟨blockNumber F a, .inr ⟨a, hmem, b, ((cfg.mem_predIter a b).mp ha).2, rfl,
          hbw.symm⟩, hval⟩
    rintro c ⟨v, ⟨rfl, hroot⟩ | ⟨a, ha, b', hab, rfl, heq⟩, hval⟩
    · -- The virtual root is the parent of the first node.
      obtain rfl : c = 0 := by
        rcases hval with ⟨-, rfl⟩ | ⟨hlt, -⟩
        · rfl
        · omega
      have hone := hdfs.num_root hF
      omega
    · obtain rfl := hF.num_inj (hdfs.succ_mem_pre ha hab) hb (heq.symm.trans hbw.symm)
      exact hall a ((cfg.mem_predIter a b').mpr ⟨hlay a ha, hab⟩) ha c hval
  obtain rfl := hsemi.unique (hsd (w + 1) (by omega) hw)
  refine ⟨_, ?_, h'.link hp.toIsPreorder hw⟩
  simp [semiStep, h.index_eq hw, hblk, (h.low (w + 1) (by omega) le_rfl hw).1, hfold,
    h'.index_eq hw]

/-- **The first loop computes the semidominators.** -/
theorem semiLoop_eq (h : Linked F.pre (treeParent F) sd w t) (hw : w ≤ F.pre.length) :
    ∃ t', semiLoop cfg nodes w t = .ok t' ∧ Linked F.pre (treeParent F) sd 0 t' := by
  induction w generalizing t with
  | zero => exact ⟨t, rfl, h⟩
  | succ w ih =>
    obtain ⟨t1, hstep, h1⟩ := semiStep_eq hdfs hr cfg hnodes hsd h hw
    obtain ⟨t', hloop, h'⟩ := ih h1 (by omega)
    refine ⟨t', ?_, h'⟩
    rw [semiLoop, hstep, ok_bind, hloop]

end

theorem linked_spanned (F : Forest Block) (sd : ℕ → ℕ) :
    Linked F.pre (treeParent F) sd F.pre.length (spanned F).stree := by
  have hlen : (spanned F).stree.length = F.pre.length + 1 := by
    simp [spanned, visited, new, length_streeNodes]
  -- The node with a number is that of the forest.
  have hnode : ∀ v, v ≠ 0 → v ≤ F.pre.length →
      (streeNodes F 0 1)[v - 1]? = some ((spanned F).stree.nodeAt v) := by
    intro v hv hn
    have hget : (spanned F).stree[v]? = (streeNodes F 0 1)[v - 1]? := by
      obtain ⟨u, rfl⟩ : ∃ u, v = u + 1 := ⟨v - 1, by omega⟩
      simp [spanned, visited, new]
    rw [← hget, SpanningTree.nodeAt, getD_eq_getElem?_getD,
      getElem?_eq_getElem (by omega), Option.getD_some]
  refine ⟨hlen, rfl, ?_, ?_, fun v hlt hn => by omega⟩
  · intro v hv hn
    obtain ⟨hblk, -, hidom⟩ := streeNodes_getElem (hnode v hv hn)
    exact ⟨hblk, hidom⟩
  · intro v hv _ hn
    obtain ⟨-, hlab, -⟩ := streeNodes_getElem (hnode v hv hn)
    exact ⟨rfl, by omega⟩

end DominatorTree

end Loops

/-! ## The second loop -/

/-- The block with a number; the virtual root has none. -/
def blockAt (blocks : List Block) (v : ℕ) : Option Block :=
  if v = 0 then none else blocks[v - 1]?

/-- The spanning tree when the immediate dominators of the vertices less than `v` are final. -/
structure IdomsUpTo (blocks : List Block) (par sd : ℕ → ℕ) (E : ℕ → ℕ → Prop) (v : ℕ)
    (t : SpanningTree) : Prop where
  length : t.length = blocks.length + 1
  root : t.nodeAt 0 = default
  node : ∀ u, u ≠ 0 → u ≤ blocks.length →
    (t.nodeAt u).block = blocks[u - 1]? ∧ (t.nodeAt u).semi = sd u
  done : ∀ u, u ≠ 0 → u < v → u ≤ blocks.length → IsClosestDominator E u (t.nodeAt u).idom
  todo : ∀ u, u ≠ 0 → v ≤ u → u ≤ blocks.length → (t.nodeAt u).idom = par u

namespace IdomsUpTo

variable {E : ℕ → ℕ → Prop}

theorem index_eq (h : IdomsUpTo blocks par sd E v t) {u : ℕ} (hu : u ≤ blocks.length) :
    t.index u = .ok (t.nodeAt u) := SpanningTree.index_eq (by rw [h.length]; omega)

theorem block_eq (h : IdomsUpTo blocks par sd E v t) {u : ℕ} (hu : u ≤ blocks.length) :
    (t.nodeAt u).block = blockAt blocks u := by
  by_cases hu0 : u = 0
  · subst hu0
    rw [h.root]
    rfl
  · rw [blockAt, if_neg hu0]
    exact (h.node u hu0 hu).1

theorem of_linked (h : Linked blocks par sd 0 t) : IdomsUpTo blocks par sd E 1 t where
  length := h.length
  root := h.root
  node := fun u hu hn => ⟨(h.node u hu hn).1, (h.high u (by omega) hn).1⟩
  done := fun u hu hlt _ => absurd hlt (by omega)
  todo := fun u hu _ hn => (h.node u hu hn).2

section

variable (h : IdomsUpTo blocks par sd E v t) (hp : IsDepthFirst blocks.length par E)
  (hsd : IsSemidominator E v (sd v)) (hv : v ≠ 0) (hn : v ≤ blocks.length)
include h hp hsd hv hn

theorem idomClimb (fuel : ℕ) {c : ℕ} (hfuel : c ≤ fuel) (hcv : c < v) (hc : Dominates E 0 c (par v))
    (hle : ∀ x, StrictlyDominates E 0 x v → x ≤ c) :
    ∃ d, idomClimb t (sd v) fuel c = .ok d ∧ IsClosestDominator E v d := by
  induction fuel generalizing c with
  | zero =>
    refine ⟨c, ?_, hp.walk_end hsd hv hn hc hle (by omega)⟩
    rw [DominatorTree.idomClimb, if_neg (by omega)]
    rfl
  | succ fuel ih =>
    rw [DominatorTree.idomClimb]
    rcases lt_or_ge (sd v) c with hgt | hge
    · have hd := h.done c (by omega) hcv (by omega)
      obtain ⟨hdom, hle'⟩ := hp.walk_step hsd hv hn hc hle hgt hd
      have hlt := hp.lt_of_strictlyDominates hd.1 (by omega)
      obtain ⟨d, heq, hclosest⟩ := ih (by omega) (by omega) hdom hle'
      refine ⟨d, ?_, hclosest⟩
      rw [if_pos hgt, h.index_eq (by omega), ok_bind, heq]
    · refine ⟨c, ?_, hp.walk_end hsd hv hn hc hle hge⟩
      rw [if_neg (by omega)]
      rfl

theorem idomStep {b : Block} (hb : blocks[v - 1]? = some b) (nodes : DomNodes) :
    ∃ d t', IsClosestDominator E v d ∧
      DominatorTree.idomStep (t, nodes) v =
        .ok (t', update nodes b { nodes b with idom := blockAt blocks d }) ∧
      IdomsUpTo blocks par sd E (v + 1) t' := by
  have hvt : v < t.length := by rw [h.length]; omega
  obtain ⟨hblk, hsemi⟩ := h.node v hv hn
  have hidom := h.todo v hv le_rfl hn
  have hpar := hp.par_lt v hv hn
  obtain ⟨hst, hle⟩ := hp.walk_start hsd hv hn
  obtain ⟨d, hclimb, hd⟩ := h.idomClimb hp hsd hv hn v (le_of_lt hpar) hpar hst hle
  have hlt := hp.lt_of_strictlyDominates hd.1 hn
  let t' : SpanningTree := t.set v { t.nodeAt v with idom := d }
  have hother : ∀ u, u ≠ v → t'.nodeAt u = t.nodeAt u :=
    fun u hu => by rw [nodeAt_set hvt, if_neg hu]
  have hself : t'.nodeAt v = { t.nodeAt v with idom := d } := by
    rw [nodeAt_set hvt, if_pos rfl]
  refine ⟨d, t', hd, ?_, ?_, ?_, ?_, ?_, ?_⟩
  · have hidx : t'.index d = .ok (t.nodeAt d) := by
      rw [← hother d (by omega)]
      exact SpanningTree.index_eq (by rw [length_set]; omega)
    have hunwrap : ∀ msg, unwrap (t.nodeAt v).block msg = .ok b := by
      intro msg
      rw [hblk, hb, unwrap_some]
    rw [← hsemi, ← hidom] at hclimb
    simp [DominatorTree.idomStep, h.index_eq hn, hunwrap, hclimb, hidx,
      h.block_eq (show d ≤ blocks.length by omega), t']
  · rw [length_set]
    exact h.length
  · rw [hother 0 (.symm hv), h.root]
  · intro u hu hun
    by_cases huv : u = v
    · subst huv
      rw [hself]
      exact h.node u hu hun
    · rw [hother u huv]
      exact h.node u hu hun
  · intro u hu hlt' hun
    by_cases huv : u = v
    · subst huv
      rw [hself]
      exact hd
    · rw [hother u huv]
      exact h.done u hu (by omega) hun
  · intro u hu hge hun
    rw [hother u (by omega)]
    exact h.todo u hu (by omega) hun

end

/-- **The second loop computes the closest dominators.** -/
theorem idomLoop (hp : IsDepthFirst blocks.length par E) (hnd : blocks.Nodup)
    (hsd : ∀ u, u ≠ 0 → u ≤ blocks.length → IsSemidominator E u (sd u)) (k : ℕ)
    (h : IdomsUpTo blocks par sd E v t) (hv : v ≠ 0) (hn : v + k ≤ blocks.length + 1)
    (nodes : DomNodes) :
    ∃ t' nodes', (List.range' v k).foldlM DominatorTree.idomStep (t, nodes) = .ok (t', nodes') ∧
      IdomsUpTo blocks par sd E (v + k) t' ∧
      (∀ b, (∀ u, v ≤ u → u < v + k → blocks[u - 1]? ≠ some b) → nodes' b = nodes b) ∧
      ∀ u b, v ≤ u → u < v + k → blocks[u - 1]? = some b →
        ∃ d, IsClosestDominator E u d ∧
          nodes' b = { nodes b with idom := blockAt blocks d } := by
  induction k generalizing v t nodes with
  | zero => exact ⟨t, nodes, rfl, h, fun _ _ => rfl, fun u _ hge hlt => absurd hlt (by omega)⟩
  | succ k ih =>
    obtain ⟨b, hb⟩ : ∃ b, blocks[v - 1]? = some b := ⟨_, getElem?_eq_getElem (by omega)⟩
    obtain ⟨d, t1, hd, hstep, h1⟩ := h.idomStep hp (hsd v hv (by omega)) hv (by omega) hb nodes
    obtain ⟨t', nodes', hfold, h', hother, hall⟩ := ih h1 (by omega) (by omega)
      (update nodes b { nodes b with idom := blockAt blocks d })
    -- The block of `v` is not that of a later vertex.
    have hne : ∀ u, v + 1 ≤ u → u < v + 1 + k → blocks[u - 1]? ≠ some b := by
      intro u hge hlt heq
      have := (getElem?_inj (by omega) hnd).mp (heq.trans hb.symm)
      omega
    refine ⟨t', nodes', ?_, by rwa [show v + (k + 1) = v + 1 + k by omega], ?_, ?_⟩
    · rw [range'_succ, foldlM_cons, hstep, ok_bind, hfold]
    · intro c hc
      have hcb : c ≠ b := by
        rintro rfl
        exact hc v le_rfl (by omega) hb
      rw [hother c fun u hge hlt => hc u (by omega) (by omega), update_of_ne hcb]
    intro u c hge hlt hc
    by_cases huv : u = v
    · subst huv
      obtain rfl : b = c := Option.some.inj (hb.symm.trans hc)
      refine ⟨d, hd, ?_⟩
      rw [hother b hne, update_self]
    · obtain ⟨d', hd', heq⟩ := hall u c (by omega) (by omega) hc
      have hcb : c ≠ b := by
        rintro rfl
        exact hne u (by omega) (by omega) hc
      exact ⟨d', hd', by rw [heq, update_of_ne hcb]⟩

end IdomsUpTo

/-! ## Immediate dominators of blocks -/

/-- The nodes of the dominator tree after `compute_domtree`. -/
def idomNodes (F : Forest Block) (idom : Block → Option Block) : DomNodes :=
  fun b => ⟨idom b, blockNumber F b, none, none, 0, 0⟩

/-- The immediate dominators of the blocks that the search from `r` visits. -/
structure IsIdomMap (func : Func) (F : Forest Block) (r : Block) (idom : Block → Option Block) :
    Prop where
  not_mem : ∀ b, b ∉ F.pre → idom b = none
  root : idom r = none
  idom : ∀ b ∈ F.pre, b ≠ r →
    ∃ d, idom b = some d ∧ IsImmediateDominator (Succ func.blockSuccessors) r d b

theorem preNumber_spanned (F : Forest Block) (b : Block) :
    (spanned F).nodes b = idomNodes F (fun _ => none) b := by
  by_cases hb : b ∈ F.pre
  · simp [spanned, visited, new, idomNodes, blockNumber, hb, default]
  · simp [spanned, visited, new, idomNodes, blockNumber, hb, default, notVisited]

theorem exists_idom (hdfs : Dfs func.blockSuccessors [] [r] F) {b : Block} (hb : b ∈ F.pre)
    {d : ℕ} (hd : IsClosestDominator (BlockEdge func F r) (blockNumber F b) d) :
    (b = r → blockAt F.pre d = none) ∧
      (b ≠ r → ∃ a, blockAt F.pre d = some a ∧
        IsImmediateDominator (Succ func.blockSuccessors) r a b) := by
  have hF := numbered_blockNumber hdfs.nodup
  have hp := isDepthFirst hdfs
  have hbn := hF.num_mem hb
  have hlt := hp.lt_of_strictlyDominates hd.1 (by omega)
  have hone := hdfs.num_root hF
  refine ⟨?_, fun hbr => ?_⟩
  · rintro rfl
    rw [blockAt, if_pos (by omega)]
  -- The root is a strict dominator, so the closest one is a block.
  have hroot : StrictlyDominates (BlockEdge func F r) 0 (blockNumber F r) (blockNumber F b) := by
    refine ⟨(hdfs.dominates_num hF hdfs.root_mem hb).mpr (dominates_root _ _ _), fun heq => ?_⟩
    exact hbr (hF.num_inj hdfs.root_mem hb heq).symm
  have hle := hd.2 _ hroot
  obtain ⟨a, ha, rfl⟩ := hF.exists_num (v := d) (by omega) (by omega)
  refine ⟨a, ?_, ?_⟩
  · rw [blockAt, if_neg (by omega), getElem?_blockNumber ha]
  · exact hdfs.isImmediateDominator_of_num hF ha hb (hp.isImmediateDominator hd (by omega))

/-- **`compute_domtree` finds the immediate dominators.** -/
theorem DominatorTree.computeDomtree_eq
    (hdfs : Dfs func.blockSuccessors [] func.entryBlock.toList F) (hr : func.entryBlock = some r)
    (cfg : ControlFlowGraph func) :
    ∃ t idom, computeDomtree cfg (spanned F) =
        .ok { spanned F with stree := t, nodes := idomNodes F idom } ∧
      t.head? = some default ∧ IsIdomMap func F r idom := by
  have hdfs' : Dfs func.blockSuccessors [] [r] F := by rwa [hr] at hdfs
  have hF := numbered_blockNumber hdfs'.nodup
  have hp := isDepthFirst hdfs'
  obtain ⟨sd, hsd⟩ := hp.exists_semidominator
  have hlink := linked_spanned F sd
  have hnumber : ∀ b, ((spanned F).nodes b).preNumber = blockNumber F b :=
    fun b => by rw [preNumber_spanned]; rfl
  obtain ⟨t1, hsemi, h1⟩ := semiLoop_eq hdfs hr cfg hnumber hsd hlink le_rfl
  obtain ⟨t, nodes, hidom, h, hother, hall⟩ := IdomsUpTo.idomLoop
    hp hdfs'.nodup hsd F.pre.length (.of_linked h1) Nat.one_ne_zero (by omega)
    (spanned F).nodes
  refine ⟨t, fun b => (nodes b).idom, ?_, ?_, ?_, ?_, ?_⟩
  · have hnodes : nodes = idomNodes F fun b => (nodes b).idom := by
      funext b
      by_cases hb : b ∈ F.pre
      · have hbn := hF.num_mem hb
        obtain ⟨d, -, heq⟩ := hall _ b hbn.1 hbn.2 (getElem?_blockNumber hb)
        rw [heq, preNumber_spanned]
        simp [idomNodes, heq]
      · have heq := hother b fun u _ _ hget => hb (mem_of_getElem? hget)
        simp [idomNodes, heq, preNumber_spanned]
    rw [← hnodes]
    have hlen : (spanned F).stree.length - 1 = F.pre.length := by rw [hlink.length]; omega
    have hlen1 : t1.length - 1 = F.pre.length := by rw [h1.length]; omega
    simp [computeDomtree, hlen, hsemi, hlen1, hidom]
  · cases t with
    | nil => exact absurd h.length (by simp)
    | cons a t => exact congrArg some h.root
  · intro b hb
    have heq := hother b fun u _ _ hget => hb (mem_of_getElem? hget)
    rw [heq, preNumber_spanned, idomNodes]
  · have hbn := hF.num_mem hdfs'.root_mem
    obtain ⟨d, hd, heq⟩ := hall _ r hbn.1 hbn.2 (getElem?_blockNumber hdfs'.root_mem)
    rw [heq]
    exact (exists_idom hdfs' hdfs'.root_mem hd).1 rfl
  · intro b hb hbr
    have hbn := hF.num_mem hb
    obtain ⟨d, hd, heq⟩ := hall _ b hbn.1 hbn.2 (getElem?_blockNumber hb)
    rw [heq]
    exact (exists_idom hdfs' hb hd).2 hbr

end WasmDeps.Codegen
