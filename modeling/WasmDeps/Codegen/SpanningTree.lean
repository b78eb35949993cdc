import WasmDeps.Codegen.DominatorTree
import WasmDeps.Lib.DepthFirst
import Mathlib.Algebra.Order.BigOperators.Group.List
import Mathlib.Algebra.Order.Group.Nat

/-!
# The spanning tree is that of a depth-first search

The loop over the stack of events computes the depth-first search of the control-flow graph
from the entry block.  The forest that the search leaves determines the state at the end of
the loop.
-/

namespace WasmDeps.Codegen

open Lib List Forest

/-- The nodes of the spanning tree for a forest whose numbers start at `k` and whose roots have
the parent `p`. -/
def streeNodes : Forest Block → ℕ → ℕ → SpanningTree
  | .nil, _, _ => []
  | .node b children rest, p, k =>
    ⟨some b, p, k, k, p⟩ ::
      (streeNodes children k (k + 1) ++ streeNodes rest p (k + 1 + children.pre.length))

theorem length_streeNodes (F : Forest Block) (p k : ℕ) :
    (streeNodes F p k).length = F.pre.length := by
  induction F generalizing p k with
  | nil => rfl
  | node b children rest ihc ihr => simp [streeNodes, pre, ihc, ihr]

variable {F : Forest Block}

namespace DominatorTree

/-- The state after the blocks of a forest have been visited. -/
def visited (dt : DominatorTree) (F : Forest Block) (p : ℕ) (rest : List TraversalEvent) :
    DominatorTree where
  stree := dt.stree ++ streeNodes F p dt.stree.length
  postorder := dt.postorder ++ F.post
  nodes := fun b =>
    if b ∈ F.pre then { dt.nodes b with preNumber := dt.stree.length + F.pre.idxOf b }
    else dt.nodes b
  dfsWorklist := rest
  valid := dt.valid

theorem visited_nil (dt : DominatorTree) (p : ℕ) (rest : List TraversalEvent) :
    dt.visited .nil p rest = { dt with dfsWorklist := rest } := by
  simp [visited, streeNodes, post, pre]

/-- The state after `Enter(parent, block)`. -/
def entered (func : Func) (dt : DominatorTree) (p : ℕ) (b : Block) (rest : List TraversalEvent) :
    DominatorTree :=
  let nodes := Function.update dt.nodes b { dt.nodes b with preNumber := dt.stree.length }
  { dt with
    stree := dt.stree ++ [⟨some b, p, dt.stree.length, dt.stree.length, p⟩]
    nodes := nodes
    dfsWorklist := ((func.blockSuccessors b).filter fun s =>
      (nodes s).preNumber = notVisited).map (.enter dt.stree.length) ++ .exit b :: rest }

variable {func : Func}

theorem visited_node (dt : DominatorTree) (p : ℕ) (b : Block) (C R : Forest Block)
    (W W' rest : List TraversalEvent) (hnd : (Forest.node b C R).pre.Nodup) :
    let dt1 := (dt.entered func p b W).visited C dt.stree.length W'
    ({ dt1 with postorder := dt1.postorder ++ [b], dfsWorklist := W }).visited R p rest =
      dt.visited (.node b C R) p rest := by
  obtain ⟨hb, hCR⟩ := nodup_cons.mp hnd
  obtain ⟨-, -, hdisj⟩ := nodup_append.mp hCR
  rw [mem_append, not_or] at hb
  simp only [visited, entered, mk.injEq, and_true]
  refine ⟨?_, ?_, funext fun c => ?_⟩
  · simp [streeNodes, length_streeNodes, add_assoc, add_comm 1]
  · simp [post]
  -- The number of a block is found in the part that it belongs to.
  by_cases hR : c ∈ R.pre
  · have hC : c ∉ C.pre := fun h => hdisj c h c hR rfl
    have hcb : b ≠ c := fun h => hb.2 (h ▸ hR)
    simp [pre, hR, hC, hcb.symm, idxOf_cons_ne _ hcb,
      idxOf_append_of_notMem hC, length_streeNodes]
    omega
  by_cases hC : c ∈ C.pre
  · have hcb : b ≠ c := fun h => hb.1 (h ▸ hC)
    simp [pre, hR, hC, hcb.symm, idxOf_cons_ne _ hcb, idxOf_append_of_mem hC]
    omega
  by_cases hcb : c = b
  · subst hcb
    simp [pre, hR, hC]
  · simp [pre, hR, hC, hcb]

/-- How many iterations a search takes, besides one for each vertex of its list. -/
def searchCost (func : Func) (F : Forest Block) : ℕ :=
  (F.pre.map fun b => (func.blockSuccessors b).length + 1).sum

/-! ## The loop -/

theorem spanningLoop_cons {dt dt' : DominatorTree} {event : TraversalEvent}
    {rest : List TraversalEvent} (fuel : ℕ) (hW : dt.dfsWorklist = event :: rest)
    (hstep : spanningStep func dt rest event = .ok dt') :
    spanningLoop func (fuel + 1) dt = spanningLoop func fuel dt' := by
  rw [spanningLoop, hW]
  simp [hstep]

/-- **The loop follows the search.**  Of the vertices to visit, some that have been seen may be
missing on the stack. -/
theorem spanningLoop_dfs {seen todo : List Block} (h : Dfs func.blockSuccessors seen todo F) :
    ∀ dt p keep rest,
      dt.stree ≠ [] → (∀ b, (dt.nodes b).preNumber ≠ notVisited ↔ b ∈ seen) →
      (∀ b ∈ todo, keep b = false → b ∈ seen) →
      dt.dfsWorklist = (todo.filter keep).map (.enter p) ++ rest →
      ∃ k ≤ todo.length + searchCost func F, ∀ fuel,
        spanningLoop func (k + fuel) dt = spanningLoop func fuel (dt.visited F p rest) := by
  induction h with
  | nil seen =>
    intro dt p keep rest _ _ _ hW
    refine ⟨0, Nat.zero_le _, fun fuel => ?_⟩
    have hW : dt.dfsWorklist = rest := by simpa using hW
    rw [visited_nil, ← hW, zero_add]
  | @skip seen todo b F hb _ ih =>
    intro dt p keep rest hne hseen hkeep hW
    have hkeep' : ∀ c ∈ todo, keep c = false → c ∈ seen := fun c hc => hkeep c (.tail b hc)
    cases hkb : keep b with
    | false =>
      have hW : dt.dfsWorklist = (todo.filter keep).map (.enter p) ++ rest := by
        simpa [hkb] using hW
      obtain ⟨k, hk, hloop⟩ := ih dt p keep rest hne hseen hkeep' hW
      exact ⟨k, by rw [length_cons]; omega, hloop⟩
    | true =>
      have hW : dt.dfsWorklist = .enter p b :: ((todo.filter keep).map (.enter p) ++ rest) := by
        simpa [hkb] using hW
      obtain ⟨k, hk, hloop⟩ := ih
        { dt with dfsWorklist := (todo.filter keep).map (.enter p) ++ rest } p keep rest hne
        hseen hkeep' rfl
      refine ⟨k + 1, by rw [length_cons]; omega, fun fuel => ?_⟩
      have hb' := (hseen b).mpr hb
      rw [add_right_comm]
      refine (spanningLoop_cons (k + fuel) hW ?_).trans (hloop fuel)
      simp [spanningStep, hb']
  | @visit seen todo b C R hb hc hr ihc ihr =>
    intro dt p keep rest hne hseen hkeep hW
    have hkb : keep b = true := by
      by_contra h
      exact hb (hkeep b (.head _) (by simpa using h))
    have hb' : (dt.nodes b).preNumber = notVisited := by
      by_contra h
      exact hb ((hseen b).mp h)
    have hW : dt.dfsWorklist = .enter p b :: ((todo.filter keep).map (.enter p) ++ rest) := by
      simpa [hkb] using hW
    have hlen : dt.stree.length ≠ notVisited := by simpa [notVisited] using hne
    have hnd := (Dfs.visit hb hc hr).nodup
    generalize hW' : (todo.filter keep).map (.enter p) ++ rest = W at hW
    -- Enter the block, and visit its successors.
    have henter : spanningStep func dt W (.enter p b) = .ok (dt.entered func p b W) := by
      simp [spanningStep, hb', hne, entered]
    have hseen1 : ∀ c, ((dt.entered func p b W).nodes c).preNumber ≠ notVisited ↔
        c ∈ b :: seen := by
      intro c
      by_cases hcb : c = b
      · subst hcb
        simpa [entered] using hlen
      · simpa [entered, hcb] using hseen c
    obtain ⟨k1, hk1, hloop1⟩ := ihc (dt.entered func p b W) dt.stree.length
      (fun s => ((dt.entered func p b W).nodes s).preNumber = notVisited) (.exit b :: W)
      (by simp [entered])
      hseen1
      (fun c _ hc => (hseen1 c).mp (by simpa using hc))
      rfl
    -- Leave the block, and visit the rest.
    let dt1 := (dt.entered func p b W).visited C dt.stree.length (.exit b :: W)
    let dt2 : DominatorTree := { dt1 with postorder := dt1.postorder ++ [b], dfsWorklist := W }
    have hseen2 : ∀ c, (dt2.nodes c).preNumber ≠ notVisited ↔ c ∈ C.pre ++ b :: seen := by
      intro c
      by_cases hcC : c ∈ C.pre
      · simp [dt2, dt1, visited, entered, hcC, notVisited]
      · rw [mem_append, ← hseen1 c]
        simp [dt2, dt1, visited, hcC]
    obtain ⟨k2, hk2, hloop2⟩ := ihr dt2 p keep rest (by simp [dt2, dt1, visited, entered]) hseen2
      (fun c hc hkc => mem_append_right _ (.tail b (hkeep c (.tail b hc) hkc)))
      hW'.symm
    refine ⟨k1 + k2 + 2, ?_, fun fuel => ?_⟩
    · simp only [searchCost, pre, map_cons, map_append, sum_cons,
        sum_append, length_cons] at hk1 hk2 ⊢
      omega
    calc spanningLoop func (k1 + k2 + 2 + fuel) dt
        = spanningLoop func (k1 + (k2 + fuel + 1) + 1) dt := by congr 1; omega
      _ = spanningLoop func (k1 + (k2 + fuel + 1)) (dt.entered func p b W) :=
          spanningLoop_cons _ hW henter
      _ = spanningLoop func (k2 + fuel + 1) dt1 := hloop1 _
      _ = spanningLoop func (k2 + fuel) dt2 := spanningLoop_cons _ rfl rfl
      _ = spanningLoop func fuel (dt2.visited R p rest) := hloop2 fuel
      _ = spanningLoop func fuel (dt.visited (.node b C R) p rest) := by
          rw [← dt.visited_node p b C R W (.exit b :: W) rest hnd]

/-- The states in which `compute` is called: what it leaves, and a new tree. -/
structure IsIdle (dt : DominatorTree) : Prop where
  stree : dt.stree.head? = some default
  dfsWorklist : dt.dfsWorklist = []

theorem isIdle_new : new.IsIdle := ⟨rfl, rfl⟩

theorem IsIdle.clear_eq {dt : DominatorTree} (h : dt.IsIdle) : dt.clear = new := by
  obtain ⟨tail, htail⟩ := head?_eq_some_iff.mp h.stree
  simp [clear, new, htail, h.dfsWorklist]

theorem mem_layout (h : Dfs func.blockSuccessors [] func.entryBlock.toList F) {b : Block}
    (hb : b ∈ F.pre) : b ∈ func.layout := by
  obtain ⟨r, hr, hrb⟩ := h.reaches hb
  clear hb
  induction hrb with
  | refl => exact mem_of_head? (by simpa [Func.entryBlock] using hr)
  | tail _ hstep ih => exact func.succ_mem _ ih _ hstep

theorem searchCost_le (h : Dfs func.blockSuccessors [] func.entryBlock.toList F) :
    searchCost func F + 1 ≤ spanningFuel func := by
  obtain ⟨l, hperm, hsub⟩ := h.nodup.subperm fun b => mem_layout h
  have hle := (hsub.map fun b => (func.blockSuccessors b).length + 1).sum_le_sum
    fun _ _ => Nat.zero_le _
  rw [(hperm.map _).sum_eq] at hle
  exact Nat.succ_le_succ hle

/-- The state after the search from the entry block. -/
def spanned (F : Forest Block) : DominatorTree := new.visited F 0 []

/-- **The spanning tree is that of a depth-first search** from the entry block. -/
theorem computeSpanningTree_eq (func : Func) :
    ∃ F, Dfs func.blockSuccessors [] func.entryBlock.toList F ∧
      computeSpanningTree func new = .ok (spanned F) := by
  have hentry : ∀ b ∈ func.entryBlock.toList, b ∈ func.layout.toFinset := by
    intro b hb
    exact mem_toFinset.mpr (mem_of_head? (by simpa [Func.entryBlock] using hb))
  have hclo : ∀ b ∈ func.layout.toFinset, ∀ s ∈ func.blockSuccessors b,
      s ∈ func.layout.toFinset := fun b hb s hs =>
    mem_toFinset.mpr (func.succ_mem b (mem_toFinset.mp hb) s hs)
  obtain ⟨F, hF⟩ := Dfs.exists_of_finite hclo _ [] func.entryBlock.toList le_rfl hentry
  refine ⟨F, hF, ?_⟩
  let start : DominatorTree := { new with dfsWorklist := func.entryBlock.toList.map (.enter 0) }
  have hst : computeSpanningTree func new = spanningLoop func (spanningFuel func) start := by
    cases hr : func.entryBlock with
    | none => simp [computeSpanningTree, start, hr, new]
    | some r => simp [computeSpanningTree, start, hr, new]
  obtain ⟨k, hk, hloop⟩ := spanningLoop_dfs hF start 0 (fun _ => true) [] (by simp [start, new])
    (fun b => by simp [start, new, notVisited]; rfl) (by simp) (by simp [start])
  have hlen : func.entryBlock.toList.length ≤ 1 := by cases func.entryBlock <;> simp
  have hcost := searchCost_le hF
  obtain ⟨fuel, hfuel⟩ : ∃ fuel, spanningFuel func = k + fuel := ⟨spanningFuel func - k, by omega⟩
  rw [hst, hfuel, hloop]
  cases fuel <;> rfl

end DominatorTree

/-! ## Numbers -/

def SpanningTree.nodeAt (t : SpanningTree) (v : ℕ) : SpanningTreeNode := t.getD v default

variable {t : SpanningTree} {node : SpanningTreeNode}

theorem SpanningTree.index_eq {v : ℕ} (h : v < t.length) : t.index v = .ok (t.nodeAt v) := by
  simp [index, nodeAt, getD_eq_getElem?_getD, getElem?_eq_getElem h]

theorem SpanningTree.nodeAt_set {v u : ℕ} (h : v < t.length) :
    SpanningTree.nodeAt (t.set v node) u = if u = v then node else t.nodeAt u := by
  rw [nodeAt, getD_eq_getElem?_getD, getElem?_set_of_lt h]
  split <;> rfl

def blockNumber (F : Forest Block) (b : Block) : ℕ :=
  if b ∈ F.pre then 1 + F.pre.idxOf b else notVisited

theorem getElem?_blockNumber {b : Block} (hb : b ∈ F.pre) :
    F.pre[blockNumber F b - 1]? = some b := by
  rw [blockNumber, if_pos hb, Nat.add_sub_cancel_left, getElem?_idxOf hb]

def treeParent (F : Forest Block) (v : ℕ) : ℕ :=
  ((DominatorTree.spanned F).stree.nodeAt v).ancestor

theorem streeNodes_getElem {p k i : ℕ} (h : (streeNodes F p k)[i]? = some node) :
    node.block = F.pre[i]? ∧ node.label = k + i ∧ node.idom = node.ancestor := by
  induction F generalizing p k i with
  | nil => simp [streeNodes] at h
  | node b C R ihc ihr =>
    cases i with
    | zero =>
      obtain rfl : _ = node := by simpa [streeNodes] using h
      simp [pre]
    | succ i =>
      have hlen := length_streeNodes C k (k + 1)
      have h : (streeNodes C k (k + 1) ++ streeNodes R p (k + 1 + C.pre.length))[i]? =
          some node := by simpa [streeNodes] using h
      rw [pre, getElem?_cons_succ]
      rcases lt_or_ge i C.pre.length with hlt | hge
      · rw [getElem?_append_left (by omega)] at h ⊢
        obtain ⟨hblk, hlab, hidom⟩ := ihc h
        exact ⟨hblk, by omega, hidom⟩
      rw [getElem?_append_right (by omega)] at h ⊢
      rw [hlen] at h
      obtain ⟨hblk, hlab, hidom⟩ := ihr h
      exact ⟨hblk, by omega, hidom⟩

theorem numbered_streeNodes {num : Block → ℕ} {par : ℕ → ℕ} {p k : ℕ}
    (hnum : ∀ i b, F.pre[i]? = some b → num b = k + i)
    (hpar : ∀ i node, (streeNodes F p k)[i]? = some node → par (k + i) = node.ancestor) :
    F.Numbered num par p k := by
  induction F generalizing p k with
  | nil => trivial
  | node b C R ihc ihr =>
    have hlen := length_streeNodes C k (k + 1)
    refine ⟨hnum 0 b rfl, hpar 0 _ rfl, ihc ?_ ?_, ihr ?_ ?_⟩
    · intro i c hi
      have hlt := lt_of_getElem? hi
      rw [hnum (i + 1) c (by rw [pre, getElem?_cons_succ, getElem?_append_left hlt, hi])]
      omega
    · intro i node hi
      have hlt := lt_of_getElem? hi
      rw [← hpar (i + 1) node (by rw [streeNodes, getElem?_cons_succ,
        getElem?_append_left hlt, hi])]
      congr 1
      omega
    · intro i c hi
      rw [hnum (i + C.pre.length + 1) c (by rw [pre, getElem?_cons_succ,
        getElem?_append_right (by omega), Nat.add_sub_cancel, hi])]
      omega
    · intro i node hi
      rw [← hpar (i + C.pre.length + 1) node (by rw [streeNodes, getElem?_cons_succ,
        getElem?_append_right (by omega), hlen, Nat.add_sub_cancel, hi])]
      congr 1
      omega

/-- **The numbers of a search** are the preorder numbers of its forest. -/
theorem numbered_blockNumber (h : F.pre.Nodup) : F.Numbered (blockNumber F) (treeParent F) 0 1 := by
  apply numbered_streeNodes
  · intro i b hi
    obtain ⟨hlt, rfl⟩ := List.getElem?_eq_some_iff.mp hi
    rw [blockNumber, if_pos (getElem_mem hlt), h.idxOf_getElem]
  · intro i node hi
    have hget : (DominatorTree.spanned F).stree[1 + i]? = some node := by
      simp [DominatorTree.spanned, DominatorTree.visited, DominatorTree.new, add_comm 1, hi]
    rw [treeParent, SpanningTree.nodeAt, getD_eq_getElem?_getD, hget, Option.getD_some]

end WasmDeps.Codegen
