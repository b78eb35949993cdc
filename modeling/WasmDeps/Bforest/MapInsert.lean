import WasmDeps.Lib.Call

/-!
# Insertion in a map of a B+-tree forest

The maps of a forest share a pool of nodes.  `try_insert` finds the leaf for a key and splits
the full nodes on the path to it, from the leaf up; the other half of a node goes to a new
node, for which there may be no memory.  Of a node's arrays only the entries in use are modelled,
those of a leaf as one list of pairs; the path a cursor keeps after an insertion is not.
-/

namespace WasmDeps.Bforest

open Lib

variable {K V : Type}

/-- The most children of an inner node. -/
def innerSize : ℕ := 8

/-- The greatest depth of a tree. -/
def maxPath : ℕ := 16

/-- The content of a node. -/
inductive NodeData (K V : Type)
  | inner (keys : List K) (tree : List ℕ)
  | leaf (entries : List (K × V))
  | free (next : Option ℕ)

/-- A map with the pool of its forest.  `reserves n` says whether there is memory for one more
node when there are `n`. -/
structure MapForest (K V : Type) where
  root : Option ℕ
  nodes : List (NodeData K V)
  freelist : Option ℕ
  reserves : ℕ → Bool

section

variable (cmp : K → K → Ordering) (key : K)

/-- `Comparator::search` in sorted keys: where the key is or belongs, and whether it is there. -/
def search (keys : List K) : ℕ × Bool :=
  let i := keys.findIdx fun x => cmp x key ≠ .lt
  (i, keys[i]?.any fun x => cmp x key = .eq)

/-- `Path::find`: the entries of the path from the leaf up, and the value. -/
def find (nodes : List (NodeData K V)) : ℕ → ℕ → List (ℕ × ℕ) → Exec (List (ℕ × ℕ) × Option V)
  | 0, _, _ => throw (.panic "index out of bounds")
  | levels + 1, node, path => do
    match ← unwrap nodes[node]? "index out of bounds" with
    | .inner keys tree =>
      let (i, found) := search cmp key keys
      let i := if found then i + 1 else i
      find nodes levels (← unwrap tree[i]? "index out of bounds") ((node, i) :: path)
    | .leaf entries =>
      let (i, found) := search cmp key (entries.map Prod.fst)
      pure ((node, i) :: path, if found then entries[i]?.map Prod.snd else none)
    | .free _ => throw (.panic "Free node reached")

/-- The value of a key. -/
def MapForest.get (s : MapForest K V) : Exec (Option V) :=
  match s.root with
  | none => pure none
  | some root => Prod.snd <$> find cmp key s.nodes maxPath root []

end

/-- What iteration yields: the entries of the leaves from left to right. -/
def entriesFrom (nodes : List (NodeData K V)) : ℕ → ℕ → Exec (List (K × V))
  | 0, _ => throw (.panic "index out of bounds")
  | levels + 1, node => do
    match ← unwrap nodes[node]? "index out of bounds" with
    | .inner _ tree => return (← tree.mapM (entriesFrom nodes levels)).flatten
    | .leaf entries => pure entries
    | .free _ => throw (.panic "Free node reached")

/-- The entries in the order of the keys. -/
def MapForest.entries (s : MapForest K V) : Exec (List (K × V)) :=
  match s.root with
  | none => pure []
  | some root => entriesFrom s.nodes maxPath root

namespace NodeData

/-- The node after an insertion, or `none` if it is full. -/
def tryInnerInsert (index : ℕ) (key : K) (node : ℕ) : NodeData K V → Exec (Option (NodeData K V))
  | inner keys tree => do
    ensure (index ≤ keys.length) "Can't insert"
    pure (if keys.length < innerSize - 1 then
      some (inner (keys.insertIdx index key) (tree.insertIdx (index + 1) node)) else none)
  | _ => throw (.panic "Expected inner node")

/-- Inserts an entry into a leaf that has room. -/
def tryLeafInsert (index : ℕ) (key : K) (value : V) : NodeData K V → Exec (Option (NodeData K V))
  | leaf entries => do
    ensure (index ≤ entries.length) "assertion failed: index <= sz"
    pure (if entries.length < innerSize - 1 then
      some (leaf (entries.insertIdx index (key, value))) else none)
  | _ => throw (.panic "Expected leaf node")

theorem full_of_tryLeafInsert {index : ℕ} {key : K} {value : V} {data : NodeData K V}
    (h : data.tryLeafInsert index key value = .ok none) :
    ∃ entries, data = leaf entries ∧ innerSize - 1 ≤ entries.length := by
  cases data with
  | leaf entries =>
    refine ⟨entries, rfl, not_lt.mp fun hroom => ?_⟩
    by_cases hle : index ≤ entries.length <;> simp [tryLeafInsert, hle, hroom] at h
  | _ => cases h

/-- Replaces a value of a leaf. -/
def setValue (index : ℕ) (value : V) : NodeData K V → Exec (NodeData K V)
  | leaf entries => pure (leaf (entries.modify index fun e => (e.1, value)))
  | _ => throw (.panic "Expected leaf node")

/-- Where a full node of `len` entries is split after a failed insertion at `ins`. -/
def splitPos (len ins : ℕ) : ℕ := if ins ≤ len / 2 then len / 2 else (len + 1) / 2

/-- The right half of a node that was split. -/
structure SplitOff (K V : Type) where
  lhsEntries : ℕ
  rhsEntries : ℕ
  critKey : K
  rhsData : NodeData K V

/-- Splits a full node for an insertion at an index. -/
def split (insertIndex : ℕ) : NodeData K V → Exec (NodeData K V × SplitOff K V)
  | inner keys tree => do
    ensure (keys.length = innerSize - 1) "Node not full"
    let l := splitPos innerSize (insertIndex + 1)
    let crit ← unwrap keys[l - 1]? "index out of bounds"
    pure (inner (keys.take (l - 1)) (tree.take l),
      ⟨l, innerSize - l, crit, inner (keys.drop l) (tree.drop l)⟩)
  | leaf entries => do
    ensure (entries.length = innerSize - 1) "Node not full"
    let l := splitPos (innerSize - 1) insertIndex
    let (crit, _) ← unwrap entries[l]? "index out of bounds"
    pure (leaf (entries.take l), ⟨l, innerSize - 1 - l, crit, leaf (entries.drop l)⟩)
  | free _ => throw (.panic "Expected leaf node")

/-- The next node of the free list. -/
def unwrapFree : NodeData K V → Exec (Option ℕ)
  | free next => pure next
  | _ => throw (.panic "Invalid node on free list")

end NodeData

/-! ## Insertion -/

/-- The node at a place. -/
def node (n : ℕ) : Call (MapForest K V) (NodeData K V) := do
  Call.lift (unwrap (← Call.get).nodes[n]? "index out of bounds")

/-- Writes the node at a place. -/
def setNode (n : ℕ) (data : NodeData K V) : Call (MapForest K V) Unit := do
  let s ← Call.get
  Call.set { s with nodes := s.nodes.set n data }

/-- Takes a node of the free list, or a new one. -/
def allocNode (data : NodeData K V) : Call (MapForest K V) ℕ := do
  let s ← Call.get
  match s.freelist with
  | some n => do
    let next ← Call.lift (← node n).unwrapFree
    Call.set { s with nodes := s.nodes.set n data, freelist := next }
    pure n
  | none =>
    if s.reserves s.nodes.length then do
      Call.set { s with nodes := s.nodes ++ [data] }
      pure s.nodes.length
    else Call.bail "out of memory"

/-- `Path::split_and_insert` along the path from the leaf up; it returns the root. -/
def splitAndInsert (root : ℕ) (value : V) :
    List (ℕ × ℕ) → K → Option ℕ → Call (MapForest K V) ℕ
  | [], _, _ => Call.lift (throw (.panic "empty path"))
  | (n, entry) :: above, key, insNode => do
    let (lhs, split) ← Call.lift ((← node n).split entry)
    setNode n lhs
    let rhs ← allocNode split.rhsData
    let (n, entry) := if split.lhsEntries < entry ∨ entry = split.lhsEntries ∧
      (split.rhsEntries < split.lhsEntries ∨ insNode.isSome)
      then (rhs, entry - split.lhsEntries) else (n, entry)
    let data ← node n
    let inserted ← Call.lift (match insNode with
      | none => data.tryLeafInsert entry key value
      | some child => data.tryInnerInsert entry key child)
    setNode n (← Call.lift (unwrap inserted "assertion failed: inserted"))
    let key := if insNode.isNone ∧ entry = 0 ∧ n = rhs then key else split.critKey
    match above with
    | [] => allocNode (.inner [key] [root, rhs])
    | (parent, entry) :: _ => do
      match ← Call.lift ((← node parent).tryInnerInsert entry key rhs) with
      | some data => do
        setNode parent data
        pure root
      | none => splitAndInsert root value above key (some rhs)

section

variable (cmp : K → K → Ordering) (key : K)

/-- Inserts a value; an allocation on the way can fail. -/
def tryInsert (value : V) : Call (MapForest K V) (Option V) := do
  let s ← Call.get
  match s.root with
  | none => do
    let n ← allocNode (.leaf [(key, value)])
    Call.set { ← Call.get with root := some n }
    pure none
  | some root => do
    let (path, old) ← Call.lift (find cmp key s.nodes maxPath root [])
    let (leaf, entry) ← Call.lift (unwrap path.head? "empty path")
    let data ← node leaf
    if old.isSome then do
      setNode leaf (← Call.lift (data.setValue entry value))
      pure old
    else do
      Call.lift (ensure (0 < entry ∨ ∀ p ∈ path, p.2 = 0) "assertion failed: at_first_entry")
      match ← Call.lift (data.tryLeafInsert entry key value) with
      | some data => setNode leaf data
      | none => do
        let root ← splitAndInsert root value path key none
        Call.set { ← Call.get with root := some root }
      pure none

/-- The leaf for the key is full, and the key is not in it. -/
def MapForest.Splits (s : MapForest K V) : Prop :=
  ∃ root ∈ s.root, ∃ leaf entry above entries,
    find cmp key s.nodes maxPath root [] = .ok ((leaf, entry) :: above, none) ∧
      s.nodes[leaf]? = some (.leaf entries) ∧ innerSize - 1 ≤ entries.length

variable {s t : MapForest K V}

theorem clean_node_bind {α : Type} {n : ℕ} {f : NodeData K V → Call (MapForest K V) α}
    (h : ∀ data, s.nodes[n]? = some data → (f data).Clean s) : (node n >>= f).Clean s := by
  rw [node, Call.bind_assoc]
  refine Call.clean_get_bind (Call.clean_lift_bind fun data hdata => h data ?_)
  cases hn : s.nodes[n]? with
  | none => simp [hn, unwrap] at hdata
  | some data' => simpa [hn] using hdata

/-- An insertion that does not split writes only when nothing can fail any more. -/
theorem clean_tryInsert (value : V) (h : ¬s.Splits cmp key) :
    (tryInsert cmp key value).Clean s := by
  apply Call.clean_get_bind
  cases hroot : s.root with
  | none =>
    rw [allocNode, Call.bind_assoc]
    apply Call.clean_get_bind
    cases s.freelist with
    | none =>
      by_cases hres : s.reserves s.nodes.length = true
      · simp only [hres, if_true]
        exact Call.clean_of_ok rfl
      · simp only [hres]
        exact fun _ _ => rfl
    | some n =>
      simp only [Call.bind_assoc]
      refine clean_node_bind fun data _ => Call.clean_lift_bind fun next _ => ?_
      exact Call.clean_of_ok rfl
  | some root =>
    apply Call.clean_lift_bind
    rintro ⟨path, old⟩ hfind
    apply Call.clean_lift_bind
    rintro ⟨leaf, entry⟩ hhead
    refine clean_node_bind fun data hdata => ?_
    cases old with
    | some v => exact Call.clean_lift_bind fun _ _ => Call.clean_of_ok rfl
    | none =>
      refine Call.clean_lift_bind fun _ _ => Call.clean_lift_bind ?_
      rintro (_ | data') hins
      · obtain ⟨entries, rfl, hfull⟩ := NodeData.full_of_tryLeafInsert hins
        cases path with
        | nil => cases hhead
        | cons p above =>
          obtain rfl : p = (leaf, entry) := by simpa using hhead
          exact absurd ⟨root, hroot, leaf, entry, above, entries, hfind, hdata, hfull⟩ h
      · exact Call.clean_of_ok rfl

end

end WasmDeps.Bforest
