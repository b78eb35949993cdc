import WasmDeps.Lib.Exec

/-!
# The dominator tree of a function

The semi-NCA algorithm: a depth-first spanning tree of the control-flow graph with a
postorder of its blocks, semidominators by label propagation with path compression,
immediate dominators by walking up, and numbers of a preorder of the dominator tree that
answer queries in constant time.

A vector is a list; an index out of bounds is a panic.  A stack is a list with its top first.
A secondary map is a function, since reading it beyond its length gives the default.  Numbers
of blocks do not overflow, so `u32` is `ℕ`.  The stack of `eval` is empty between its calls; it
is an argument of the two loops and no field of the state.
-/

namespace WasmDeps.Codegen

open Lib

abbrev Block := ℕ

/-- What control-flow analyses see of a function. -/
structure Func where
  layout : List Block
  /-- The destinations of a block's terminator, in order. -/
  blockSuccessors : Block → List Block
  succ_mem : ∀ b ∈ layout, ∀ s ∈ blockSuccessors b, s ∈ layout

/-- The first block of the layout. -/
def Func.entryBlock (func : Func) : Option Block := func.layout.head?

/-- The control-flow graph of a function: the predecessors of each block, in any order. -/
structure ControlFlowGraph (func : Func) where
  /-- `pred_iter`, without the branch instructions. -/
  predIter : Block → List Block
  /-- The predecessors are the blocks in the layout that branch to the block. -/
  mem_predIter : ∀ p b, p ∈ predIter b ↔ p ∈ func.layout ∧ b ∈ func.blockSuccessors p

/-- A node of the spanning tree. -/
structure SpanningTreeNode where
  block : Option Block
  /-- The node's ancestor in the spanning tree; path compression changes it. -/
  ancestor : ℕ
  /-- The smallest semidominator found on the way to the ancestor. -/
  label : ℕ
  semi : ℕ
  /-- The node's immediate dominator, at first its ancestor. -/
  idom : ℕ
  deriving DecidableEq, Repr

/-- The default node, which is the virtual root. -/
instance : Inhabited SpanningTreeNode := ⟨⟨none, 0, 0, 0, 0⟩⟩

/-- The nodes by preorder number; the first one is not used. -/
abbrev SpanningTree := List SpanningTreeNode

/-- The node of a number. -/
def SpanningTree.index (t : SpanningTree) (i : ℕ) : Exec SpanningTreeNode :=
  unwrap t[i]? "index out of bounds"

/-- Preorder number of blocks that are not visited. -/
def notVisited : ℕ := 0

/-- The events of the depth-first search. -/
inductive TraversalEvent
  | enter (parent : ℕ) (block : Block)
  | exit (block : Block)
  deriving DecidableEq, Repr

/-- What is known of a block. -/
structure DominatorTreeNode where
  idom : Option Block
  /-- Preorder number in the spanning tree. -/
  preNumber : ℕ
  child : Option Block
  sibling : Option Block
  /-- Preorder number in the dominator tree. -/
  domPreNumber : ℕ
  /-- The greatest such number in the block's subtree. -/
  domPreMax : ℕ
  deriving DecidableEq, Repr

instance : Inhabited DominatorTreeNode := ⟨⟨none, 0, none, none, 0, 0⟩⟩

abbrev DomNodes := Block → DominatorTreeNode

/-- The dominator tree and the storage of its computation. -/
structure DominatorTree where
  stree : SpanningTree
  postorder : List Block
  nodes : DomNodes
  dfsWorklist : List TraversalEvent
  valid : Bool

namespace DominatorTree

/-! ## Queries -/

variable (dt : DominatorTree)

/-- The block was visited from the entry. -/
def isReachable (block : Block) : Bool :=
  (dt.nodes block).preNumber ≠ notVisited

/-- The reachable blocks in postorder. -/
def cfgPostorder : Exec (List Block) := do
  ensure (dt.valid = true) "self.is_valid()"
  pure dt.postorder

/-- The reachable blocks in reverse postorder. -/
def cfgRpo : Exec (List Block) := do
  ensure (dt.valid = true) "self.is_valid()"
  pure dt.postorder.reverse

def idom (dt : DominatorTree) (block : Block) : Option Block := (dt.nodes block).idom

/-- Dominance by the preorder numbers of the dominator tree. -/
def blockDominates (a b : Block) : Bool :=
  let na := dt.nodes a
  let nb := dt.nodes b
  decide (na.domPreNumber ≤ nb.domPreNumber) && decide (na.domPreMax ≥ nb.domPreMax)

/-- The blocks that a `ChildIter` gives, if it ends after `fuel` of them. -/
def childIter (nodes : DomNodes) : ℕ → Option Block → Exec (List Block)
  | _, none => pure []
  | 0, some _ => throw .outOfFuel
  | fuel + 1, some block => do
    let rest ← childIter nodes fuel (nodes block).sibling
    pure (block :: rest)

/-- The children of a block in the dominator tree. -/
def children (block : Block) : Exec (List Block) :=
  childIter dt.nodes dt.postorder.length (dt.nodes block).child

/-! ## The spanning tree -/

/-- The tree before it is computed. -/
def new : DominatorTree where
  stree := [default]
  postorder := []
  nodes := fun _ => default
  dfsWorklist := []
  valid := false

/-- `clear`; the spanning tree is resized to the virtual root. -/
def clear : DominatorTree :=
  { dt with
    stree := if dt.stree.isEmpty then [default] else dt.stree.take 1
    nodes := fun _ => default
    postorder := []
    valid := false }

/-- One iteration of the loop of `compute_spanning_tree` on a popped event. -/
def spanningStep (func : Func) (dt : DominatorTree) (rest : List TraversalEvent) :
    TraversalEvent → Exec DominatorTree
  | .enter parent block => do
    if (dt.nodes block).preNumber ≠ notVisited then
      pure { dt with dfsWorklist := rest }
    else
      ensure (dt.stree ≠ []) "!self.nodes.is_empty()"
      let preNumber := dt.stree.length
      let nodes := Function.update dt.nodes block
        { dt.nodes block with preNumber := preNumber }
      let successors := (func.blockSuccessors block).filter fun successor =>
        (nodes successor).preNumber = notVisited
      pure
        { dt with
          stree := dt.stree ++ [⟨some block, parent, preNumber, preNumber, parent⟩]
          nodes := nodes
          dfsWorklist := successors.map (.enter preNumber) ++ .exit block :: rest }
  | .exit block => pure { dt with postorder := dt.postorder ++ [block], dfsWorklist := rest }

/-- The loop of the depth-first search. -/
def spanningLoop (func : Func) : ℕ → DominatorTree → Exec DominatorTree
  | 0, dt => if dt.dfsWorklist.isEmpty then pure dt else throw .outOfFuel
  | fuel + 1, dt =>
    match dt.dfsWorklist with
    | [] => pure dt
    | event :: rest => do
      let dt ← spanningStep func dt rest event
      spanningLoop func fuel dt

/-- How many iterations are enough: every block in the layout is entered, its successors are
tried, and it is left. -/
def spanningFuel (func : Func) : ℕ :=
  (func.layout.map fun b => (func.blockSuccessors b).length + 1).sum + 1

/-- The depth-first search from the entry block. -/
def computeSpanningTree (func : Func) (dt : DominatorTree) : Exec DominatorTree :=
  let dt := match func.entryBlock with
    | some block => { dt with dfsWorklist := .enter 0 block :: dt.dfsWorklist }
    | none => dt
  spanningLoop func (spanningFuel func) dt

/-! ## Semidominators -/

/-- The first loop of `eval`: follow the semidominator path up to the first node whose ancestor
is not linked.  Returns that node and the stack of those before it. -/
def evalClimb (t : SpanningTree) (lastLinked : ℕ) : ℕ → ℕ → List ℕ → Exec (ℕ × List ℕ)
  | 0, _, _ => throw .outOfFuel
  | fuel + 1, root, worklist => do
    let node ← t.index root
    let next ← t.index node.ancestor
    if next.ancestor < lastLinked then pure (node.ancestor, root :: worklist)
    else evalClimb t lastLinked fuel node.ancestor (root :: worklist)

/-- The second loop of `eval`: path compression. -/
def evalCompress (root : ℕ) : List ℕ → ℕ → SpanningTree → Exec SpanningTree
  | [], _, t => pure t
  | curr :: worklist, prev, t => do
    let prevNode ← t.index prev
    let currNode ← t.index curr
    let label := if prevNode.label < currNode.label then prevNode.label else currNode.label
    evalCompress root worklist curr
      (t.set curr { currNode with label := label, ancestor := root })

/-- The smallest semidominator on the way up, with path compression. -/
def eval (t : SpanningTree) (v lastLinked : ℕ) : Exec (ℕ × SpanningTree) := do
  let node ← t.index v
  if node.ancestor < lastLinked then pure (node.label, t)
  else
    let (prev, worklist) ← evalClimb t lastLinked v v []
    let prevNode ← t.index prev
    let t ← evalCompress prevNode.ancestor worklist prev t
    let node ← t.index v
    pure (node.label, t)

/-- One predecessor in the first loop of `compute_domtree`. -/
def semiCandidate (nodes : DomNodes) (w : ℕ) (state : ℕ × SpanningTree) (pred : Block) :
    Exec (ℕ × SpanningTree) := do
  let (semi, t) := state
  if (nodes pred).preNumber = notVisited then pure (semi, t)
  else
    let (candidate, t) ← eval t (nodes pred).preNumber (w + 1)
    pure (min semi candidate, t)

/-- One iteration of the first loop of `compute_domtree`. -/
def semiStep {func : Func} (cfg : ControlFlowGraph func) (nodes : DomNodes) (w : ℕ)
    (t : SpanningTree) : Exec SpanningTree := do
  let node ← t.index w
  let block ← unwrap node.block "Virtual root must have been excluded"
  let (semi, t) ← (cfg.predIter block).foldlM (semiCandidate nodes w) (node.ancestor, t)
  let node ← t.index w
  pure (t.set w { node with label := semi, semi := semi })

/-- The first loop of `compute_domtree`, from `w` down to 1. -/
def semiLoop {func : Func} (cfg : ControlFlowGraph func) (nodes : DomNodes) :
    ℕ → SpanningTree → Exec SpanningTree
  | 0, t => pure t
  | w + 1, t => do
    let t ← semiStep cfg nodes (w + 1) t
    semiLoop cfg nodes w t

/-! ## Immediate dominators -/

/-- The inner loop of the second loop of `compute_domtree`. -/
def idomClimb (t : SpanningTree) (semi : ℕ) : ℕ → ℕ → Exec ℕ
  | 0, idom => if idom > semi then throw .outOfFuel else pure idom
  | fuel + 1, idom => do
    if idom > semi then
      let node ← t.index idom
      idomClimb t semi fuel node.idom
    else pure idom

/-- One iteration of the second loop of `compute_domtree`. -/
def idomStep (state : SpanningTree × DomNodes) (v : ℕ) : Exec (SpanningTree × DomNodes) := do
  let (t, nodes) := state
  let node ← t.index v
  let block ← unwrap node.block "Virtual root must have been excluded"
  let idom ← idomClimb t node.semi v node.idom
  let t : SpanningTree := t.set v { node with idom := idom }
  let idomNode ← t.index idom
  pure (t, Function.update nodes block { nodes block with idom := idomNode.block })

/-- The immediate dominators, by semidominators. -/
def computeDomtree {func : Func} (cfg : ControlFlowGraph func) (dt : DominatorTree) :
    Exec DominatorTree := do
  let t ← semiLoop cfg dt.nodes (dt.stree.length - 1) dt.stree
  let (t, nodes) ← (List.range' 1 (t.length - 1)).foldlM idomStep (t, dt.nodes)
  pure { dt with stree := t, nodes := nodes }

/-! ## Preorder of the dominator tree -/

/-- One iteration of the first loop of `compute_domtree_preorder`. -/
def linkStep (block : Block) : DominatorTree :=
  match dt.idom block with
  | some idom =>
    let sib := (dt.nodes idom).child
    let nodes := Function.update dt.nodes idom { dt.nodes idom with child := some block }
    { dt with nodes := Function.update nodes block { nodes block with sibling := sib } }
  | none => { dt with dfsWorklist := .enter 0 block :: dt.dfsWorklist }

/-- The second loop of `compute_domtree_preorder`. -/
def preorderLoop : ℕ → ℕ → DominatorTree → Exec DominatorTree
  | 0, _, dt => if dt.dfsWorklist.isEmpty then pure dt else throw .outOfFuel
  | fuel + 1, n, dt =>
    match dt.dfsWorklist with
    | [] => pure dt
    | .exit _ :: rest => preorderLoop fuel n { dt with dfsWorklist := rest }
    | .enter _ block :: rest =>
      let node := dt.nodes block
      let siblings := node.sibling.toList.map (.enter 0)
      let child := node.child.toList.map (.enter 0)
      preorderLoop fuel (n + 1)
        { dt with
          nodes := Function.update dt.nodes block
            { node with domPreNumber := n + 1, domPreMax := n + 1 }
          dfsWorklist := child ++ siblings ++ rest }

/-- One iteration of the third loop of `compute_domtree_preorder`. -/
def maxStep (nodes : DomNodes) (block : Block) : DomNodes :=
  match (nodes block).idom with
  | some idom =>
    let preMax := max (nodes block).domPreMax (nodes idom).domPreMax
    Function.update nodes idom { nodes idom with domPreMax := preMax }
  | none => nodes

/-- The preorder numbers of the dominator tree. -/
def computeDomtreePreorder : Exec DominatorTree := do
  let dt := dt.postorder.foldl linkStep dt
  ensure (dt.dfsWorklist.length ≤ 1) "self.dfs_worklist.len() <= 1"
  let dt ← preorderLoop dt.postorder.length 0 dt
  pure { dt with nodes := dt.postorder.foldl maxStep dt.nodes }

/-- The computation of the tree. -/
def compute {func : Func} (cfg : ControlFlowGraph func) (dt : DominatorTree) :
    Exec DominatorTree := do
  let dt ← computeSpanningTree func dt.clear
  let dt ← computeDomtree cfg dt
  let dt ← computeDomtreePreorder dt
  pure { dt with valid := true }

end DominatorTree

end WasmDeps.Codegen
