import Mathlib.Algebra.Order.BigOperators.Group.List
import Mathlib.Algebra.Order.Group.Nat
import WasmDeps.Bforest.MapInsert

/-!
# When a failed insertion leaves a map alone

Without a split nothing is written before an insertion can fail.  With one, every node that is
split has given half of its content away when the allocation of the other half, or of one above
it, fails.  What iteration yields is then less than before: the other half of the last node that
was split is in no node, or in one that no node has as a child.
-/

namespace WasmDeps.Bforest

open Lib List Call

variable {K V : Type} {s t u : List (NodeData K V)}

/-! ## The number of entries -/

/-- How many entries the leaves under a node have. -/
def weight (nodes : List (NodeData K V)) : ℕ → ℕ → ℕ
  | 0, _ => 0
  | levels + 1, n =>
    match nodes[n]? with
    | some (.inner _ tree) => (tree.map (weight nodes levels)).sum
    | some (.leaf entries) => entries.length
    | _ => 0

theorem length_flatten_of_mapM {α : Type} {f : ℕ → Exec (List α)} {g : ℕ → ℕ} {tree : List ℕ}
    (h : ∀ c es, f c = .ok es → es.length = g c) {ess : List (List α)}
    (hok : tree.mapM f = .ok ess) : ess.flatten.length = (tree.map g).sum := by
  induction tree generalizing ess with
  | nil =>
    obtain rfl := Except.ok.inj hok
    rfl
  | cons c tree ih =>
    rw [mapM_cons] at hok
    obtain ⟨es, hes, hok⟩ := Exec.bind_eq_ok.mp hok
    obtain ⟨rest, hrest, hok⟩ := Exec.bind_eq_ok.mp hok
    obtain rfl := Except.ok.inj hok
    simp [h c es hes, ← ih hrest]

/-- The number of entries is the weight of a tree. -/
theorem length_eq_weight {levels n : ℕ} {es : List (K × V)}
    (h : entriesFrom s levels n = .ok es) : es.length = weight s levels n := by
  induction levels generalizing n es with
  | zero => cases h
  | succ levels ih =>
    obtain ⟨data, hdata, h⟩ := Exec.bind_eq_ok.mp h
    have hn := unwrap_eq_ok.mp hdata
    rw [weight, hn]
    cases data with
    | inner keys tree =>
      obtain ⟨ess, hess, h⟩ := Exec.bind_eq_ok.mp h
      obtain rfl := Except.ok.inj h
      exact length_flatten_of_mapM (fun _ _ => ih) hess
    | leaf entries =>
      obtain rfl := Except.ok.inj h
      rfl
    | free next => cases h

/-- The nodes under a node form a tree of limited height, in which an inner node has a child more
than it has keys and no leaf is empty. -/
def Sound (nodes : List (NodeData K V)) : ℕ → ℕ → Prop
  | 0, _ => False
  | levels + 1, n =>
    match nodes[n]? with
    | some (.inner keys tree) => tree.length = keys.length + 1 ∧ ∀ c ∈ tree, Sound nodes levels c
    | some (.leaf entries) => entries ≠ []
    | _ => False

theorem exists_mapM_eq_ok {α : Type} {f : ℕ → Exec α} {tree : List ℕ}
    (h : ∀ c ∈ tree, ∃ a, f c = .ok a) : ∃ as, tree.mapM f = .ok as := by
  induction tree with
  | nil => exact ⟨[], rfl⟩
  | cons c tree ih =>
    obtain ⟨a, ha⟩ := h c (.head _)
    obtain ⟨as, has⟩ := ih fun c hc => h c (.tail _ hc)
    exact ⟨a :: as, by simp [mapM_cons, ha, has]⟩

/-- The entries of a sound tree can be read. -/
theorem Sound.entriesFrom {levels n : ℕ} (h : Sound s levels n) :
    ∃ es, entriesFrom s levels n = .ok es := by
  induction levels generalizing n with
  | zero => exact h.elim
  | succ levels ih =>
    rw [Sound] at h
    rw [Bforest.entriesFrom]
    split at h
    · rename_i keys tree hn
      obtain ⟨ess, hess⟩ := exists_mapM_eq_ok fun c hc => ih (h.2 c hc)
      exact ⟨ess.flatten, by simp [hn, hess]⟩
    · rename_i entries hn
      exact ⟨entries, by simp [hn]⟩
    · exact h.elim

theorem length_le_sum_map {f : ℕ → ℕ} {tree : List ℕ} (h : ∀ c ∈ tree, 0 < f c) :
    tree.length ≤ (tree.map f).sum := by
  induction tree with
  | nil => exact le_rfl
  | cons c tree ih =>
    have hc := h c (.head _)
    have hrest := ih fun c hc => h c (.tail _ hc)
    simp only [length_cons, map_cons, sum_cons]
    omega

/-- A sound tree has an entry. -/
theorem Sound.weight_pos {levels n : ℕ} (h : Sound s levels n) : 0 < weight s levels n := by
  induction levels generalizing n with
  | zero => exact h.elim
  | succ levels ih =>
    cases hn : s[n]? with
    | none => simp [Sound, hn] at h
    | some data =>
      cases data with
      | inner keys tree =>
        simp only [Sound, hn] at h
        have hlen : tree.length ≤ (tree.map (weight s levels)).sum :=
          length_le_sum_map fun c hc => ih (h.2 c hc)
        simp only [weight, hn]
        omega
      | leaf entries =>
        simp only [Sound, hn] at h
        simpa only [weight, hn] using length_pos_iff.mpr h
      | free next => simp [Sound, hn] at h

/-! ## Nodes that were split -/

/-- The node is a leaf or an inner node with room. -/
def Slim (nodes : List (NodeData K V)) (n : ℕ) : Prop :=
  match nodes[n]? with
  | some (.inner keys _) => keys.length < innerSize - 1
  | some (.leaf entries) => entries.length < innerSize - 1
  | _ => False

/-- Between `s` and `t` the node `q` was split, and its other half is the node `r`, if there was
memory for it.  The node that a child got from its split was inserted in one of the halves. -/
inductive Halved (s t : List (NodeData K V)) : ℕ → Option ℕ → Prop
  | leaf {q : ℕ} {r : Option ℕ} {entries left : List (K × V)} (hs : s[q]? = some (.leaf entries))
      (ht : t[q]? = some (.leaf left)) (hslim : Slim t q) (hlt : left.length < entries.length)
      (hr : ∀ n ∈ r, Slim t n ∧ ∃ right, t[n]? = some (.leaf right) ∧
        left.length + right.length ≤ entries.length + 1) : Halved s t q r
  | inner {q child new : ℕ} {r : Option ℕ} {keys keys' : List K} {tree left : List ℕ}
      (hchild : Halved s t child (some new)) (hs : s[q]? = some (.inner keys tree))
      (hkeys : keys.length = innerSize - 1) (hmem : child ∈ tree)
      (ht : t[q]? = some (.inner keys' left)) (hslim : Slim t q)
      (hleft : left = tree.take 4 ∨ child ∈ tree.take 4 ∧ left.Perm (new :: tree.take 4))
      (hr : ∀ n ∈ r, Slim t n ∧ ∃ keys'' right, t[n]? = some (.inner keys'' right) ∧
        (left ++ right).Perm (new :: tree)) : Halved s t q r

theorem Halved.slim {q : ℕ} {r : Option ℕ} (h : Halved s t q r) : Slim t q := by
  cases h with
  | leaf _ _ hslim => exact hslim
  | inner _ _ _ _ _ hslim => exact hslim

/-- Nodes with room are not touched again. -/
theorem Halved.frame {q : ℕ} {r : Option ℕ} (h : Halved s t q r)
    (hu : ∀ n, Slim t n → u[n]? = t[n]?) : Halved s u q r := by
  have hslim : ∀ n, Slim t n → Slim u n := fun n hn => by rw [Slim, hu n hn]; exact hn
  induction h with
  | leaf hs ht hq hlt hr =>
    refine .leaf hs ((hu _ hq).trans ht) (hslim _ hq) hlt fun n hn => ?_
    obtain ⟨hn, right, hright, hle⟩ := hr n hn
    exact ⟨hslim n hn, right, (hu n hn).trans hright, hle⟩
  | inner _ hs hkeys hmem ht hq hleft hr ih =>
    refine .inner ih hs hkeys hmem ((hu _ hq).trans ht) (hslim _ hq) hleft fun n hn => ?_
    obtain ⟨hn, keys'', right, hright, hperm⟩ := hr n hn
    exact ⟨hslim n hn, keys'', right, (hu n hn).trans hright, hperm⟩

/-- The nodes of `s` that are in use are the same in `t` or were split. -/
def Splitting (s t : List (NodeData K V)) : Prop :=
  ∀ n data, s[n]? = some data → (∀ next, data ≠ .free next) →
    t[n]? = some data ∨ ∃ r, Halved s t n r

/-- One child may give an entry more together with the node that it got. -/
theorem sum_add_le_of_mem {f g : ℕ → ℕ} {tree : List ℕ} {child new : ℕ} (hmem : child ∈ tree)
    (h : ∀ c ∈ tree, f c ≤ g c) (hpair : f child + f new ≤ g child + 1) :
    f new + (tree.map f).sum ≤ (tree.map g).sum + 1 := by
  obtain ⟨xs, ys, rfl⟩ := append_of_mem hmem
  have hxs := sum_le_sum fun c hc => h c (mem_append_left _ hc)
  have hys := sum_le_sum fun c hc => h c (mem_append_right _ (.tail _ hc))
  simp only [map_append, map_cons, sum_append, sum_cons]
  omega

/-- The children that a full node keeps, with a node that one of them got, have fewer entries than
all had. -/
theorem sum_left_lt {f g : ℕ → ℕ} {tree left : List ℕ} {child new : ℕ} (hlen : tree.length = 8)
    (hpos : ∀ c ∈ tree, 0 < g c) (h : ∀ c ∈ tree, f c ≤ g c)
    (hpair : f child + f new ≤ g child + 1)
    (hleft : left = tree.take 4 ∨ child ∈ tree.take 4 ∧ left.Perm (new :: tree.take 4)) :
    (left.map f).sum < (tree.map g).sum := by
  have hsplit : (tree.map g).sum = ((tree.take 4).map g).sum + ((tree.drop 4).map g).sum := by
    rw [← sum_append, ← map_append, take_append_drop]
  have hdrop : (tree.drop 4).length ≤ ((tree.drop 4).map g).sum :=
    length_le_sum_map fun c hc => hpos c (mem_of_mem_drop hc)
  rw [length_drop, hlen] at hdrop
  have htake : ∀ c ∈ tree.take 4, f c ≤ g c := fun c hc => h c (mem_of_mem_take hc)
  rcases hleft with rfl | ⟨hmem, hperm⟩
  · have := sum_le_sum htake
    omega
  · have := sum_add_le_of_mem hmem htake hpair
    rw [(hperm.map f).sum_eq, map_cons, sum_cons]
    omega

/-- **Splits lose entries.**  No node has more entries under it than before, one that was split has
fewer, and together with its other half at most the one more that is inserted. -/
theorem weight_le (H : Splitting s t) {levels n : ℕ} (hn : Sound s levels n) :
    weight t levels n ≤ weight s levels n ∧
      ∀ r, Halved s t n r → weight t levels n < weight s levels n ∧
        ∀ m ∈ r, weight t levels n + weight t levels m ≤ weight s levels n + 1 := by
  induction levels generalizing n with
  | zero => exact hn.elim
  | succ levels ih =>
    have hsplit : ∀ r, Halved s t n r → weight t (levels + 1) n < weight s (levels + 1) n ∧
        ∀ m ∈ r, weight t (levels + 1) n + weight t (levels + 1) m ≤
          weight s (levels + 1) n + 1 := by
      intro r hr
      cases hr with
      | leaf hs ht _ hlt hr =>
        simp only [weight, hs, ht]
        refine ⟨hlt, fun m hm => ?_⟩
        obtain ⟨-, right, hright, hle⟩ := hr m hm
        simpa only [hright] using hle
      | @inner _ child new _ keys _ tree left hchild hs hkeys hmem ht _ hleft hr =>
        simp only [Sound, hs, hkeys] at hn
        have hle : ∀ c ∈ tree, weight t levels c ≤ weight s levels c :=
          fun c hc => (ih (hn.2 c hc)).1
        have hpair := ((ih (hn.2 child hmem)).2 _ hchild).2 new rfl
        simp only [weight, hs, ht]
        refine ⟨sum_left_lt hn.1 (fun c hc => (hn.2 c hc).weight_pos) hle hpair hleft,
          fun m hm => ?_⟩
        obtain ⟨-, keys'', right, hright, hperm⟩ := hr m hm
        have hall := sum_add_le_of_mem hmem hle hpair
        rw [← sum_cons, ← map_cons, ← (hperm.map _).sum_eq, map_append, sum_append] at hall
        simpa only [hright] using hall
    refine ⟨?_, hsplit⟩
    cases hdata : s[n]? with
    | none => simp [Sound, hdata] at hn
    | some data =>
      have halive : ∀ next, data ≠ .free next := by
        rintro next rfl
        simp [Sound, hdata] at hn
      rcases H n data hdata halive with hsame | ⟨r, hr⟩
      · simp only [weight, hdata, hsame]
        cases data with
        | inner keys tree =>
          simp only [Sound, hdata] at hn
          exact sum_le_sum fun c hc => (ih (hn.2 c hc)).1
        | leaf entries => exact le_rfl
        | free next => exact absurd rfl (halive next)
      · exact (hsplit r hr).1.le

/-! ## The path to the leaf -/

/-- The entries of a path, from the leaf up to the root. -/
inductive IsPath (nodes : List (NodeData K V)) (root : ℕ) : List (ℕ × ℕ) → Prop
  | root (i : ℕ) : IsPath nodes root [(root, i)]
  | child {n i : ℕ} {above : List (ℕ × ℕ)} {keys : List K} {tree : List ℕ} {c : ℕ} (j : ℕ)
      (hpath : IsPath nodes root ((n, i) :: above)) (hn : nodes[n]? = some (.inner keys tree))
      (hc : tree[i]? = some c) : IsPath nodes root ((c, j) :: (n, i) :: above)

/-- A node on the path with fewer entries takes them away from all nodes above it. -/
theorem IsPath.weight_lt (H : Splitting s t) {root : ℕ} {path : List (ℕ × ℕ)}
    (hpath : IsPath s root path) {p : ℕ × ℕ} (hp : p ∈ path)
    (hlt : ∀ levels, Sound s levels p.1 → weight t levels p.1 < weight s levels p.1)
    {levels : ℕ} (hroot : Sound s levels root) : weight t levels root < weight s levels root := by
  induction hpath generalizing p with
  | root i =>
    obtain rfl := mem_singleton.mp hp
    exact hlt levels hroot
  | @child n i above keys tree c j hpath hn hc ih =>
    rcases mem_cons.mp hp with rfl | hp
    · refine ih (.head _) fun levels hsound => ?_
      cases levels with
      | zero => exact hsound.elim
      | succ levels =>
        rcases H n _ hn (by simp) with hsame | ⟨r, hr⟩
        · have hsound' := hsound
          simp only [Sound, hn] at hsound'
          have hmem := mem_of_getElem? hc
          simp only [weight, hn, hsame]
          exact sum_lt_sum _ _ (fun c hc => (weight_le H (hsound'.2 c hc)).1)
            ⟨c, hmem, hlt levels (hsound'.2 c hmem)⟩
        · exact ((weight_le H hsound).2 r hr).1
    · exact ih hp hlt

/-- The nodes on a path are sound. -/
theorem IsPath.sound {root levels : ℕ} {path : List (ℕ × ℕ)} (hpath : IsPath s root path)
    (hroot : Sound s levels root) : ∀ p ∈ path, ∃ levels, Sound s levels p.1 := by
  induction hpath with
  | root i => exact forall_mem_singleton.mpr ⟨levels, hroot⟩
  | child j _ hn hc ih =>
    refine forall_mem_cons.mpr ⟨?_, ih⟩
    obtain ⟨_ | levels, hsound⟩ := ih _ (.head _)
    · exact hsound.elim
    · simp only [Sound, hn] at hsound
      exact ⟨levels, hsound.2 _ (mem_of_getElem? hc)⟩

section

variable {cmp : K → K → Ordering} {key : K}

/-- `find` walks along a path, to a leaf. -/
theorem find_isPath {root levels n : ℕ} {acc path : List (ℕ × ℕ)} {old : Option V}
    (hacc : ∀ j, IsPath s root ((n, j) :: acc))
    (h : find cmp key s levels n acc = .ok (path, old)) :
    IsPath s root path ∧ ∃ leaf i above entries, path = (leaf, i) :: above ∧
      s[leaf]? = some (.leaf entries) := by
  induction levels generalizing n acc with
  | zero => cases h
  | succ levels ih =>
    obtain ⟨data, hdata, h⟩ := Exec.bind_eq_ok.mp h
    have hn := unwrap_eq_ok.mp hdata
    cases data with
    | inner keys tree =>
      obtain ⟨c, hc, h⟩ := Exec.bind_eq_ok.mp h
      refine ih (fun j => ?_) h
      exact .child j (hacc _) hn (unwrap_eq_ok.mp hc)
    | leaf entries =>
      obtain ⟨rfl, -⟩ := Prod.mk.inj (Except.ok.inj h)
      exact ⟨hacc _, n, _, acc, entries, rfl, hn⟩
    | free next => cases h

end

/-! ## A split that fails -/

section

variable {m m' : MapForest K V} {n : ℕ} {data : NodeData K V} {msg : String}

theorem run_node : (node n).run m = (unwrap m.nodes[n]? "index out of bounds", m) := rfl

theorem run_setNode : (setNode n data).run m = (.ok (), { m with nodes := m.nodes.set n data }) :=
  rfl

/-- A node is allocated from the free list or behind all others. -/
theorem allocNode_eq_ok {r : ℕ} (h : (allocNode data).run m = (.ok r, m')) :
    (∀ d, m.nodes[r]? = some d → ∃ next, d = .free next) ∧ m'.root = m.root ∧
      ∀ x, m'.nodes[x]? = if x = r then some data else m.nodes[x]? := by
  simp only [allocNode, run_bind, run_get] at h
  cases hfree : m.freelist with
  | some n =>
    simp only [hfree, run_bind, run_node] at h
    cases hn : m.nodes[n]? with
    | none => simp [hn, unwrap] at h
    | some d =>
      cases d with
      | free next =>
        obtain ⟨hr, rfl⟩ := Prod.mk.inj (by simpa [hn, NodeData.unwrapFree] using h)
        obtain rfl := hr
        refine ⟨fun d hd => ⟨next, Option.some.inj (hd.symm.trans hn)⟩, rfl, fun x => ?_⟩
        exact getElem?_set_of_lt (lt_of_getElem? hn) data x
      | inner keys tree => simp [hn, NodeData.unwrapFree] at h
      | leaf entries => simp [hn, NodeData.unwrapFree] at h
  | none =>
    by_cases hres : m.reserves m.nodes.length = true
    · simp only [hfree, hres, if_true] at h
      obtain ⟨hr, rfl⟩ := Prod.mk.inj h
      obtain rfl := Except.ok.inj hr
      refine ⟨fun d hd => ?_, rfl, getElem?_concat m.nodes data⟩
      simp at hd
    · simp [hfree, hres] at h

/-- An allocation that fails changes nothing. -/
theorem allocNode_eq_error (h : (allocNode data).run m = (.error (.error msg), m')) : m' = m := by
  simp only [allocNode, run_bind, run_get] at h
  cases hfree : m.freelist with
  | some n =>
    simp only [hfree, run_bind, run_node] at h
    cases hn : m.nodes[n]? with
    | none => simp [hn, unwrap] at h
    | some d => cases d <;> simp [hn, NodeData.unwrapFree] at h
  | none =>
    by_cases hres : m.reserves m.nodes.length = true
    · simp [hfree, hres, run_bind] at h
    · simp only [hfree, hres] at h
      exact (congrArg Prod.snd h).symm

end

section

variable {n entry : ℕ} {key : K} {value : V} {data lhs : NodeData K V}
  {sp : NodeData.SplitOff K V}

/-- What waits to be inserted in a node: the entry, in a leaf, or the node that a child got. -/
def Pending (s t : List (NodeData K V)) (n entry : ℕ) : Option ℕ → Prop
  | none => ∃ entries, s[n]? = some (.leaf entries)
  | some new => ∃ keys tree child, s[n]? = some (.inner keys tree) ∧ tree[entry]? = some child ∧
      Halved s t child (some new)

theorem splitPos_inner (ins : ℕ) : NodeData.splitPos innerSize ins = 4 := by
  rw [NodeData.splitPos, innerSize]
  split <;> rfl

theorem splitPos_leaf (ins : ℕ) : NodeData.splitPos (innerSize - 1) ins = 3 ∨
    NodeData.splitPos (innerSize - 1) ins = 4 := by
  rw [NodeData.splitPos, innerSize]
  split <;> simp

/-- The halves of a leaf. -/
theorem split_leaf_eq_ok {entries : List (K × V)}
    (h : (NodeData.leaf entries : NodeData K V).split entry = .ok (lhs, sp)) :
    ∃ l, (l = 3 ∨ l = 4) ∧ entries.length = innerSize - 1 ∧ lhs = .leaf (entries.take l) ∧
      sp.rhsData = .leaf (entries.drop l) := by
  obtain ⟨_, hfull, h⟩ := Exec.bind_eq_ok.mp h
  obtain ⟨crit, -, h⟩ := Exec.bind_eq_ok.mp h
  obtain ⟨rfl, rfl⟩ := Prod.mk.inj (Except.ok.inj h)
  refine ⟨_, splitPos_leaf entry, ?_, rfl, rfl⟩
  by_contra hne
  rw [ensure_of_not hne] at hfull
  cases hfull

/-- The halves of an inner node. -/
theorem split_inner_eq_ok {keys : List K} {tree : List ℕ}
    (h : (NodeData.inner keys tree : NodeData K V).split entry = .ok (lhs, sp)) :
    keys.length = innerSize - 1 ∧ lhs = .inner (keys.take 3) (tree.take 4) ∧
      sp.lhsEntries = 4 ∧ sp.rhsData = .inner (keys.drop 4) (tree.drop 4) := by
  obtain ⟨_, hfull, h⟩ := Exec.bind_eq_ok.mp h
  obtain ⟨crit, -, h⟩ := Exec.bind_eq_ok.mp h
  rw [splitPos_inner] at h
  obtain ⟨rfl, rfl⟩ := Prod.mk.inj (Except.ok.inj h)
  refine ⟨?_, rfl, rfl, rfl⟩
  by_contra hne
  rw [ensure_of_not hne] at hfull
  cases hfull

/-- The node keeps half of its content when there is no memory for the other half. -/
theorem halved_none {insNode : Option ℕ} (hp : Pending s t n entry insNode)
    (hs : s[n]? = some data) (hsplit : data.split entry = .ok (lhs, sp))
    (ht : t[n]? = some lhs) : Halved s t n none := by
  cases insNode with
  | none =>
    obtain ⟨entries, hleaf⟩ := hp
    obtain rfl := Option.some.inj (hs.symm.trans hleaf)
    obtain ⟨l, hl, hlen, rfl, -⟩ := split_leaf_eq_ok hsplit
    rw [innerSize] at hlen
    have hlt : (entries.take l).length < 7 := by
      rw [length_take]
      omega
    exact .leaf hs ht (by simpa only [Slim, ht, innerSize] using hlt) (by omega) nofun
  | some new =>
    obtain ⟨keys, tree, child, hinner, hchild, hhalved⟩ := hp
    obtain rfl := Option.some.inj (hs.symm.trans hinner)
    obtain ⟨hkeys, rfl, -, -⟩ := split_inner_eq_ok hsplit
    refine .inner hhalved hs hkeys (mem_of_getElem? hchild) ht ?_ (.inl rfl) nofun
    simp only [Slim, ht, length_take, innerSize]
    omega

/-- What an insertion into a leaf does. -/
theorem tryLeafInsert_eq_ok {entries : List (K × V)} {d : NodeData K V}
    (h : (NodeData.leaf entries).tryLeafInsert entry key value = .ok (some d)) :
    ∃ entries', d = .leaf entries' ∧ entries'.length = entries.length + 1 := by
  obtain ⟨_, hle, h⟩ := Exec.bind_eq_ok.mp h
  by_cases hroom : entries.length < innerSize - 1
  · rw [if_pos hroom] at h
    obtain rfl := Option.some.inj (Except.ok.inj h)
    refine ⟨_, rfl, length_insertIdx_of_le_length ?_ _⟩
    by_contra hne
    rw [ensure_of_not hne] at hle
    cases hle
  · rw [if_neg hroom] at h
    cases h

/-- What an insertion into an inner node does. -/
theorem tryInnerInsert_eq_ok {keys : List K} {tree : List ℕ} {new : ℕ} {d : NodeData K V}
    (h : (NodeData.inner keys tree).tryInnerInsert entry key new = .ok (some d)) :
    ∃ keys', d = .inner keys' (tree.insertIdx (entry + 1) new) ∧
      keys'.length = keys.length + 1 ∧ entry ≤ keys.length := by
  obtain ⟨_, hle, h⟩ := Exec.bind_eq_ok.mp h
  have hle : entry ≤ keys.length := by
    by_contra hne
    rw [ensure_of_not hne] at hle
    cases hle
  by_cases hroom : keys.length < innerSize - 1
  · rw [if_pos hroom] at h
    obtain rfl := Option.some.inj (Except.ok.inj h)
    exact ⟨_, rfl, length_insertIdx_of_le_length hle _, hle⟩
  · rw [if_neg hroom] at h
    cases h

/-- The two halves of a leaf, of which one has got the entry. -/
theorem halved_leaf (key : K) (value : V) {r : ℕ} {entries : List (K × V)} {dn dr : NodeData K V}
    (hs : s[n]? = some (.leaf entries))
    (hsplit : (NodeData.leaf entries).split entry = .ok (lhs, sp))
    (hins : (∃ i, sp.rhsData.tryLeafInsert i key value = .ok (some dr)) ∧ dn = lhs ∨
      (∃ i, lhs.tryLeafInsert i key value = .ok (some dn)) ∧ dr = sp.rhsData)
    (hn : t[n]? = some dn) (hr : t[r]? = some dr) : Halved s t n (some r) := by
  obtain ⟨l, hl, hlen, rfl, hrhs⟩ := split_leaf_eq_ok hsplit
  rw [innerSize] at hlen
  obtain ⟨left, right, rfl, rfl, hsum, hleft, hright⟩ : ∃ left right, dn = .leaf left ∧
      dr = .leaf right ∧ left.length + right.length = entries.length + 1 ∧ left.length < 7 ∧
      right.length < 7 := by
    have htake : (entries.take l).length = l := length_take_of_le (by omega)
    have hdrop := length_drop (i := l) (l := entries)
    rw [hrhs] at hins
    rcases hins with ⟨⟨i, hins⟩, rfl⟩ | ⟨⟨i, hins⟩, rfl⟩
    · obtain ⟨right, rfl, hright⟩ := tryLeafInsert_eq_ok hins
      exact ⟨_, right, rfl, rfl, by omega, by omega, by omega⟩
    · obtain ⟨left, rfl, hleft⟩ := tryLeafInsert_eq_ok hins
      exact ⟨left, _, rfl, rfl, by omega, by omega, by omega⟩
  refine .leaf hs hn (by simpa only [Slim, hn, innerSize] using hleft) (by omega) ?_
  rintro _ ⟨⟩
  exact ⟨by simpa only [Slim, hr, innerSize] using hright, right, hr, hsum.le⟩

/-- The two halves of an inner node, of which one has got the new child. -/
theorem halved_inner (key : K) {r new child : ℕ} {keys : List K} {tree : List ℕ}
    {dn dr : NodeData K V}
    (hs : s[n]? = some (.inner keys tree)) (htree : tree.length = keys.length + 1)
    (hc : tree[entry]? = some child) (hhalved : Halved s t child (some new))
    (hsplit : (NodeData.inner keys tree).split entry = .ok (lhs, sp))
    (hins : (∃ i, sp.rhsData.tryInnerInsert i key new = .ok (some dr)) ∧ dn = lhs ∨
      entry < 4 ∧ lhs.tryInnerInsert entry key new = .ok (some dn) ∧ dr = sp.rhsData)
    (hn : t[n]? = some dn) (hr : t[r]? = some dr) : Halved s t n (some r) := by
  obtain ⟨hkeys, rfl, -, hrhs⟩ := split_inner_eq_ok hsplit
  have hkeys7 : keys.length = 7 := hkeys
  have htake : (tree.take 4).length = 4 := length_take_of_le (by omega)
  have hdrop := length_drop (i := 4) (l := tree)
  have hktake : (keys.take 3).length = 3 := length_take_of_le (by omega)
  have hkdrop := length_drop (i := 4) (l := keys)
  rw [hrhs] at hins
  rcases hins with ⟨⟨i, hins⟩, rfl⟩ | ⟨hlt, hins, rfl⟩
  · obtain ⟨keys', rfl, hkeys', hi⟩ := tryInnerInsert_eq_ok hins
    refine .inner hhalved hs hkeys (mem_of_getElem? hc) hn ?_ (.inl rfl) ?_
    · simp only [Slim, hn, innerSize]
      omega
    · rintro _ ⟨⟩
      refine ⟨by simp only [Slim, hr, innerSize]; omega, keys', _, hr, ?_⟩
      have hperm := (perm_insertIdx new (tree.drop 4) (show i + 1 ≤ _ by omega)).append_left
        (tree.take 4)
      refine hperm.trans (perm_middle.trans ?_)
      rw [take_append_drop]
  · obtain ⟨keys', rfl, hkeys', -⟩ := tryInnerInsert_eq_ok hins
    have hperm := perm_insertIdx new (tree.take 4) (show entry + 1 ≤ _ by omega)
    have hmem : child ∈ tree.take 4 := by
      refine mem_of_getElem? (i := entry) ?_
      rw [getElem?_take_of_lt hlt, hc]
    refine .inner hhalved hs hkeys (mem_of_getElem? hc) hn ?_ (.inr ⟨hmem, hperm⟩) ?_
    · simp only [Slim, hn, innerSize]
      omega
    · rintro _ ⟨⟩
      refine ⟨by simp only [Slim, hr, innerSize]; omega, _, _, hr, ?_⟩
      refine (hperm.append_right (tree.drop 4)).trans ?_
      rw [cons_append, take_append_drop]

/-- The insertion of what is pending, in a half of the node. -/
def insertPending (value : V) (data : NodeData K V) (entry : ℕ) (key : K) :
    Option ℕ → Exec (Option (NodeData K V))
  | none => data.tryLeafInsert entry key value
  | some child => data.tryInnerInsert entry key child

/-- The node of a pending insertion is halved. -/
theorem halved_some {r i : ℕ} {insNode : Option ℕ} {half d dn dr : NodeData K V}
    (hp : Pending s t n entry insNode) (hs : s[n]? = some data)
    (hsound : ∃ levels, Sound s levels n) (hsplit : data.split entry = .ok (lhs, sp))
    (hins : insertPending value half i key insNode = .ok (some d))
    (hhalf : half = sp.rhsData ∧ dn = lhs ∧ dr = d ∨
      (i = entry ∧ (insNode.isSome → entry < sp.lhsEntries)) ∧ half = lhs ∧ dn = d ∧
        dr = sp.rhsData)
    (hn : t[n]? = some dn) (hr : t[r]? = some dr) : Halved s t n (some r) := by
  cases insNode with
  | none =>
    obtain ⟨entries, hleaf⟩ := hp
    obtain rfl := Option.some.inj (hs.symm.trans hleaf)
    refine halved_leaf key value hs hsplit ?_ hn hr
    rcases hhalf with ⟨rfl, rfl, rfl⟩ | ⟨-, rfl, rfl, rfl⟩
    · exact .inl ⟨⟨i, hins⟩, rfl⟩
    · exact .inr ⟨⟨i, hins⟩, rfl⟩
  | some new =>
    obtain ⟨keys, tree, child, hinner, hchild, hhalved⟩ := hp
    obtain rfl := Option.some.inj (hs.symm.trans hinner)
    obtain ⟨_ | levels, hsound⟩ := hsound
    · exact hsound.elim
    simp only [Sound, hinner] at hsound
    refine halved_inner key hs hsound.1 hchild hhalved hsplit ?_ hn hr
    rcases hhalf with ⟨rfl, rfl, rfl⟩ | ⟨⟨rfl, hlt⟩, rfl, rfl, rfl⟩
    · exact .inl ⟨⟨i, hins⟩, rfl⟩
    · have hlt := hlt rfl
      rw [(split_inner_eq_ok hsplit).2.2.1] at hlt
      exact .inr ⟨hlt, hins, rfl⟩

theorem noErr_tryLeafInsert : Exec.NoErr (data.tryLeafInsert entry key value) := by
  cases data with
  | leaf entries => exact (noErr_ensure _ _).bind fun _ => noErr_ok _
  | _ => nofun

theorem noErr_tryInnerInsert {new : ℕ} :
    Exec.NoErr (data.tryInnerInsert entry key new : Exec (Option (NodeData K V))) := by
  cases data with
  | inner keys tree => exact (noErr_ensure _ _).bind fun _ => noErr_ok _
  | _ => nofun

theorem noErr_insertPending (value : V) (insNode : Option ℕ) :
    Exec.NoErr (insertPending value data entry key insNode) := by
  cases insNode with
  | none => exact noErr_tryLeafInsert
  | some child => exact noErr_tryInnerInsert

/-- A node that can be split is full. -/
theorem not_slim_of_split (ht : t[n]? = some data) (hsplit : data.split entry = .ok (lhs, sp)) :
    ¬Slim t n := by
  rw [Slim, ht]
  cases data with
  | inner keys tree => exact fun hslim => absurd (split_inner_eq_ok hsplit).1 (ne_of_lt hslim)
  | leaf entries =>
    obtain ⟨l, -, hlen, -⟩ := split_leaf_eq_ok hsplit
    exact fun hslim => absurd hlen (ne_of_lt hslim)
  | free next => exact id

/-- A node on the path that is full has not been split yet. -/
theorem Splitting.eq_of_split (H : Splitting s t) {d : NodeData K V} (hs : s[n]? = some d)
    (hd : ∀ next, d ≠ .free next) (ht : t[n]? = some data)
    (hsplit : data.split entry = .ok (lhs, sp)) : data = d := by
  rcases H n d hs hd with hsame | ⟨r, hr⟩
  · exact Option.some.inj (ht.symm.trans hsame)
  · exact absurd hr.slim (not_slim_of_split ht hsplit)

/-- From `t` to `u` a full node was split, and its other half went to a free node. -/
structure SplitStep (t u : List (NodeData K V)) (n : ℕ) (r : Option ℕ) : Prop where
  full : ¬Slim t n
  free : ∀ m ∈ r, ∀ d, t[m]? = some d → ∃ next, d = .free next
  same : ∀ x, x ≠ n → x ∉ r → u[x]? = t[x]?

/-- Nodes with room are left alone. -/
theorem SplitStep.frame {r : Option ℕ} (S : SplitStep t u n r) {x : ℕ} (hx : Slim t x) :
    u[x]? = t[x]? := by
  refine S.same x (fun heq => S.full (heq ▸ hx)) fun hmem => ?_
  rw [Slim] at hx
  cases hd : t[x]? with
  | none => simp [hd] at hx
  | some d =>
    obtain ⟨next, rfl⟩ := S.free x hmem d hd
    simp [hd] at hx

/-- One more split keeps the invariant. -/
theorem Splitting.step (H : Splitting s t) {r : Option ℕ} (S : SplitStep t u n r)
    (hn : Halved s u n r) : Splitting s u := by
  intro x d hs hd
  by_cases hx : x = n
  · exact .inr ⟨r, hx ▸ hn⟩
  · rcases H x d hs hd with hsame | ⟨r', hr'⟩
    · by_cases hmem : x ∈ r
      · obtain ⟨next, rfl⟩ := S.free x hmem d hsame
        exact absurd rfl (hd next)
      · exact .inl ((S.same x hx hmem).trans hsame)
    · exact .inr ⟨r', hr'.frame fun _ => S.frame⟩

theorem Pending.frame {r insNode : Option ℕ} (hp : Pending s t n entry insNode) {n' : ℕ}
    (S : SplitStep t u n' r) : Pending s u n entry insNode := by
  cases insNode with
  | none => exact hp
  | some new =>
    obtain ⟨keys, tree, child, hs, hc, hh⟩ := hp
    exact ⟨keys, tree, child, hs, hc, hh.frame fun _ => S.frame⟩

theorem Pending.alive {insNode : Option ℕ} (hp : Pending s t n entry insNode) :
    ∃ d, s[n]? = some d ∧ ∀ next, d ≠ .free next := by
  cases insNode with
  | none =>
    obtain ⟨entries, hs⟩ := hp
    exact ⟨_, hs, nofun⟩
  | some new =>
    obtain ⟨keys, tree, child, hs, -⟩ := hp
    exact ⟨_, hs, nofun⟩

/-- Without memory for the other half, the node is left with what it keeps. -/
theorem Splitting.truncate (H : Splitting s t) {insNode : Option ℕ}
    (hp : Pending s t n entry insNode) (hs : s[n]? = some data) (ht : t[n]? = some data)
    (hsplit : data.split entry = .ok (lhs, sp)) :
    Splitting s (t.set n lhs) ∧ Halved s (t.set n lhs) n none := by
  have hnodes := getElem?_set_of_lt (lt_of_getElem? ht) lhs
  have S : SplitStep t (t.set n lhs) n none :=
    ⟨not_slim_of_split ht hsplit, nofun, fun x hx _ => by rw [hnodes, if_neg hx]⟩
  have hn := halved_none (hp.frame S) hs hsplit (by rw [hnodes, if_pos rfl])
  exact ⟨H.step S hn, hn⟩

/-- With memory for it, the other half goes to a free node, and one half gets what is pending. -/
theorem Splitting.share (H : Splitting s t) {insNode : Option ℕ} {r i : ℕ}
    {half d dn dr : NodeData K V} (hp : Pending s t n entry insNode) (hs : s[n]? = some data)
    (ht : t[n]? = some data) (hsound : ∃ levels, Sound s levels n)
    (hsplit : data.split entry = .ok (lhs, sp))
    (hins : insertPending value half i key insNode = .ok (some d))
    (hhalf : half = sp.rhsData ∧ dn = lhs ∧ dr = d ∨
      (i = entry ∧ (insNode.isSome → entry < sp.lhsEntries)) ∧ half = lhs ∧ dn = d ∧
        dr = sp.rhsData)
    (hfree : ∀ d, t[r]? = some d → ∃ next, d = .free next) (hrn : r ≠ n)
    (hnodes : ∀ x, u[x]? = if x = n then some dn else if x = r then some dr else t[x]?) :
    Splitting s u ∧ Halved s u n (some r) := by
  have S : SplitStep t u n (some r) := by
    refine ⟨not_slim_of_split ht hsplit, ?_, fun x hx hxr => ?_⟩
    · rintro _ ⟨⟩ d hd
      exact hfree d hd
    · have hne : x ≠ r := fun heq => hxr (congrArg some heq.symm)
      rw [hnodes, if_neg hx, if_neg hne]
  have hn := halved_some (hp.frame S) hs hsound hsplit hins hhalf
    (by rw [hnodes, if_pos rfl]) (by rw [hnodes, if_neg hrn, if_pos rfl])
  exact ⟨H.step S hn, hn⟩

theorem split_ne_free (hsplit : data.split entry = .ok (lhs, sp)) (next : Option ℕ) :
    lhs ≠ .free next := by
  cases data with
  | inner keys tree =>
    rw [(split_inner_eq_ok hsplit).2.1]
    nofun
  | leaf entries =>
    obtain ⟨l, -, -, rfl, -⟩ := split_leaf_eq_ok hsplit
    nofun
  | free next => cases hsplit

/-- The nodes after one of the halves was written, as `split_and_insert` chooses it. -/
theorem exists_halves {nodes : List (NodeData K V)} {insNode : Option ℕ} {r n' i : ℕ}
    {half : NodeData K V} (hrn : r ≠ n)
    (hnodes : ∀ x, nodes[x]? =
      if x = r then some sp.rhsData else if x = n then some lhs else t[x]?)
    (hside : (if sp.lhsEntries < entry ∨ entry = sp.lhsEntries ∧
      (sp.rhsEntries < sp.lhsEntries ∨ insNode.isSome = true)
      then (r, entry - sp.lhsEntries) else (n, entry)) = (n', i))
    (hhalf : nodes[n']? = some half) (d : NodeData K V) :
    ∃ dn dr, (∀ x, (nodes.set n' d)[x]? =
        if x = n then some dn else if x = r then some dr else t[x]?) ∧
      (half = sp.rhsData ∧ dn = lhs ∧ dr = d ∨
        (i = entry ∧ (insNode.isSome → entry < sp.lhsEntries)) ∧ half = lhs ∧ dn = d ∧
          dr = sp.rhsData) := by
  have hset := getElem?_set_of_lt (lt_of_getElem? hhalf) d
  split at hside
  · obtain ⟨rfl, rfl⟩ := Prod.mk.inj hside
    refine ⟨lhs, d, fun x => ?_, .inl ⟨?_, rfl, rfl⟩⟩
    · rw [hset, hnodes]
      grind
    · rw [hnodes, if_pos rfl] at hhalf
      exact (Option.some.inj hhalf).symm
  · rename_i hcond
    obtain ⟨rfl, rfl⟩ := Prod.mk.inj hside
    refine ⟨d, sp.rhsData, fun x => ?_, .inr ⟨⟨rfl, fun hsome => ?_⟩, ?_, rfl, rfl⟩⟩
    · rw [hset, hnodes]
      grind
    · grind
    · rw [hnodes, if_neg hrn.symm, if_pos rfl] at hhalf
      exact (Option.some.inj hhalf).symm

theorem noErr_split : Exec.NoErr (data.split entry) := by
  cases data with
  | inner keys tree =>
    refine (noErr_ensure _ _).bind fun _ => (noErr_unwrap _ _).bind fun _ => noErr_ok _
  | leaf entries =>
    refine (noErr_ensure _ _).bind fun _ => (noErr_unwrap _ _).bind fun _ => noErr_ok _
  | free next => nofun

end

theorem run_node_bind_error {α : Type} {n : ℕ} {f : NodeData K V → Call (MapForest K V) α}
    {m m' : MapForest K V} {msg : String}
    (h : (node n >>= f).run m = (.error (.error msg), m')) :
    ∃ data, m.nodes[n]? = some data ∧ (f data).run m = (.error (.error msg), m') := by
  obtain ⟨data, hdata, h⟩ := run_lift_bind_error (noErr_unwrap m.nodes[n]? _) h
  exact ⟨data, unwrap_eq_ok.mp hdata, h⟩

/-- **A split that fails loses entries**: the nodes that were split up to there have given their
other halves away. -/
theorem splitAndInsert_error {root : ℕ} {value : V} {msg : String} {path : List (ℕ × ℕ)}
    (hpath : IsPath s root path) (hsound : ∀ p ∈ path, ∃ levels, Sound s levels p.1) {key : K}
    {insNode : Option ℕ} {m m' : MapForest K V} (H : Splitting s m.nodes)
    (hp : ∀ n entry above, path = (n, entry) :: above → Pending s m.nodes n entry insNode)
    (h : (splitAndInsert root value path key insNode).run m = (.error (.error msg), m')) :
    m'.root = m.root ∧ Splitting s m'.nodes ∧ ∃ p ∈ path, ∃ r, Halved s m'.nodes p.1 r := by
  induction path generalizing key insNode m with
  | nil => cases hpath
  | cons p above ih =>
    obtain ⟨n, entry⟩ := p
    have hp := hp n entry above rfl
    obtain ⟨d, hd, halive⟩ := hp.alive
    simp only [splitAndInsert] at h
    obtain ⟨data, hdata, h⟩ := run_node_bind_error h
    obtain ⟨⟨lhs, sp⟩, hsplit, h⟩ := run_lift_bind_error noErr_split h
    obtain rfl := H.eq_of_split hd halive hdata hsplit
    rw [run_bind, run_setNode] at h
    dsimp only at h
    rcases run_bind_eq_error h with h | ⟨r, m₂, halloc, h⟩
    · obtain rfl := allocNode_eq_error h
      obtain ⟨H', hn⟩ := H.truncate hp hd hdata hsplit
      exact ⟨rfl, H', _, .head _, none, hn⟩
    obtain ⟨hfree, hroot₂, hnodes₂⟩ := allocNode_eq_ok halloc
    simp only [getElem?_set_of_lt (lt_of_getElem? hdata)] at hfree hnodes₂
    have hrn : r ≠ n := by
      rintro rfl
      obtain ⟨next, hlhs⟩ := hfree lhs (if_pos rfl)
      exact split_ne_free hsplit next hlhs
    generalize hside : (if sp.lhsEntries < entry ∨ entry = sp.lhsEntries ∧
      (sp.rhsEntries < sp.lhsEntries ∨ insNode.isSome = true)
      then (r, entry - sp.lhsEntries) else (n, entry)) = side at h
    obtain ⟨n', i⟩ := side
    obtain ⟨half, hhalf, h⟩ := run_node_bind_error h
    obtain ⟨inserted, hins, h⟩ := run_lift_bind_error
      (noErr_insertPending value insNode) h
    obtain ⟨d, hd', h⟩ := run_lift_bind_error (noErr_unwrap _ _) h
    rw [unwrap_eq_ok.mp hd'] at hins
    rw [run_bind, run_setNode] at h
    dsimp only at h
    obtain ⟨dn, dr, hnodes₃, hhalves⟩ := exists_halves hrn hnodes₂ hside hhalf d
    obtain ⟨H₃, hn⟩ := H.share hp hd hdata (hsound _ (.head _)) hsplit hins hhalves
      (fun d hd => hfree d (by rwa [if_neg hrn])) hrn hnodes₃
    cases above with
    | nil =>
      obtain rfl := allocNode_eq_error h
      exact ⟨hroot₂, H₃, _, .head _, some r, hn⟩
    | cons p tail =>
      obtain ⟨parent, e⟩ := p
      dsimp only at h
      obtain ⟨pdata, -, h⟩ := run_node_bind_error h
      obtain ⟨_ | pd, -, h⟩ := run_lift_bind_error noErr_tryInnerInsert h
      · cases hpath with
        | @child _ _ _ keys tree _ _ hpath hs hc =>
          obtain ⟨hroot', H', p, hp, hr⟩ := ih hpath (fun p hp => hsound p (.tail _ hp)) H₃
            (fun n entry above heq => by
              obtain ⟨⟨rfl, rfl⟩, rfl⟩ : (parent = n ∧ e = entry) ∧ tail = above := by
                simpa using heq
              exact ⟨keys, tree, _, hs, hc, hn⟩) h
          exact ⟨hroot'.trans hroot₂, H', p, .tail _ hp, hr⟩
      · cases h

/-- The nodes of the map form a tree without empty leaves. -/
def MapForest.IsTree (m : MapForest K V) : Prop := ∀ root ∈ m.root, Sound m.nodes maxPath root

section

variable {cmp : K → K → Ordering} {key : K} {m m' : MapForest K V} {value : V} {msg : String}

/-- An insertion that splits a leaf and fails has lost entries. -/
theorem entries_ne_of_splits (htree : m.IsTree) (h : m.Splits cmp key)
    (hrun : (tryInsert cmp key value).run m = (.error (.error msg), m')) :
    m'.entries ≠ m.entries := by
  obtain ⟨root, hroot, leaf, entry, above, entries, hfind, hleaf, hfull⟩ := h
  have hsound := htree root hroot
  have hpath := (find_isPath (fun j => .root j) hfind).1
  have hroot : m.root = some root := hroot
  simp only [tryInsert, run_bind, run_get, hroot, run_lift, hfind, head?_cons, unwrap_some,
    run_node, hleaf] at hrun
  rw [if_neg (by simp)] at hrun
  obtain ⟨_, -, hrun⟩ := run_lift_bind_error (noErr_ensure _ _) hrun
  obtain ⟨_ | data, -, hrun⟩ := run_lift_bind_error noErr_tryLeafInsert hrun
  · rcases run_bind_eq_error hrun with hsplit | ⟨_, _, -, hset⟩
    · have H : Splitting m.nodes m.nodes := fun _ _ hs _ => .inl hs
      obtain ⟨hroot', H', p, hp, r, hr⟩ := splitAndInsert_error hpath (hpath.sound hsound) H
        (fun n i above heq => by
          obtain ⟨⟨rfl, rfl⟩, rfl⟩ : (leaf = n ∧ entry = i) ∧ _ = above := by simpa using heq
          exact ⟨entries, hleaf⟩) hsplit
      have hlt := hpath.weight_lt H' hp (fun _ hs => ((weight_le H' hs).2 r hr).1) hsound
      obtain ⟨es, hes⟩ := hsound.entriesFrom
      intro heq
      simp only [MapForest.entries, hroot', hroot] at heq
      rw [← length_eq_weight hes, ← length_eq_weight (heq.trans hes)] at hlt
      exact lt_irrefl _ hlt
    · cases hset
  · cases hrun

/-- **A failed insertion leaves the map alone exactly if it does not split a leaf**: then every
answer and all entries are as before, and otherwise entries of the map are lost. -/
theorem tryInsert_atomic_iff (htree : m.IsTree)
    (hrun : (tryInsert cmp key value).run m = (.error (.error msg), m')) :
    ((∀ k, m'.get cmp k = m.get cmp k) ∧ m'.entries = m.entries) ↔ ¬m.Splits cmp key := by
  refine ⟨fun h hsplits => entries_ne_of_splits htree hsplits hrun h.2, fun h => ?_⟩
  have hclean := clean_tryInsert cmp key value h msg
  rw [hrun] at hclean
  obtain rfl : m' = m := hclean rfl
  exact ⟨fun _ => rfl, rfl⟩

end

def fullLeaf : MapForest ℕ ℕ :=
  ⟨some 0, [.leaf [(1, 10), (2, 20), (3, 30), (4, 40), (5, 50), (6, 60), (7, 70)]], none,
    fun _ => false⟩

/-- Every insertion in the full leaf that fails loses entries. -/
theorem tryInsert_atomic_iff_fullLeaf :
    ((tryInsert compare 8 80).run fullLeaf).1 = .error (.error "out of memory") ∧
      (((∀ k, ((tryInsert compare 8 80).run fullLeaf).2.get compare k = fullLeaf.get compare k) ∧
        ((tryInsert compare 8 80).run fullLeaf).2.entries = fullLeaf.entries) ↔
          ¬fullLeaf.Splits compare 8) := by
  refine ⟨rfl, @tryInsert_atomic_iff _ _ compare 8 fullLeaf _ 80 _ ?_ rfl⟩
  rintro _ ⟨⟩
  exact nofun

theorem tryInsert_loses_entries :
    ((tryInsert compare 8 80).run fullLeaf).1 = .error (.error "out of memory") ∧
      fullLeaf.get compare 7 = .ok (some 70) ∧
      ((tryInsert compare 8 80).run fullLeaf).2.get compare 7 = .ok none := by
  refine ⟨?_, ?_, ?_⟩ <;> rfl

end WasmDeps.Bforest
