import Mathlib.Algebra.Order.BigOperators.Group.Finset

/-!
# Reference counting on a finite graph

The nodes of a graph count the references to them: those of other nodes, those held
outside of the graph, and those that are dropped but not yet subtracted.  Dropping the
last reference to a node kills it, and its own references become pending in turn.  The
cascade ends when nothing is pending, and then exactly the nodes that nothing but dead
nodes refer to are dead.

The set of those nodes is the least solution of "everything that refers to me is
released", so a cycle that nothing else refers to is not part of it.
-/

namespace WasmDeps.Lib

open Function

universe u

/-- A finite set of nodes, each with the references it holds. -/
structure RefGraph (α : Type u) where
  nodes : Finset α
  /-- The references of a node, with repetitions. -/
  out : α → Multiset α

namespace RefGraph

variable {α : Type u}

/-- Nothing outside refers to the node, and every node that refers to it is released. -/
inductive Released (G : RefGraph α) (ext : α → ℕ) : α → Prop
  | intro {x : α} (hx : x ∈ G.nodes) (hext : ext x = 0)
      (hrefs : ∀ a ∈ G.nodes, x ∈ G.out a → Released G ext a) : Released G ext x

variable [DecidableEq α]

/-- The number of references to `x` from the nodes outside of `dead`. -/
def refsTo (G : RefGraph α) (dead : Finset α) (x : α) : ℕ :=
  ∑ a ∈ G.nodes \ dead, (G.out a).count x

/-- The graph after the references of one node changed. -/
def update (G : RefGraph α) (a : α) (refs : Multiset α) : RefGraph α where
  nodes := G.nodes
  out := Function.update G.out a refs

theorem refsTo_update {G : RefGraph α} {a : α} (ha : a ∈ G.nodes) (refs : Multiset α) (x : α) :
    (G.update a refs).refsTo ∅ x + (G.out a).count x = G.refsTo ∅ x + refs.count x := by
  have hrest : ∑ b ∈ G.nodes.erase a, ((G.update a refs).out b).count x =
      ∑ b ∈ G.nodes.erase a, (G.out b).count x := by
    refine Finset.sum_congr rfl fun b hb => ?_
    simp [update, update_of_ne (Finset.ne_of_mem_erase hb)]
  have hself : (G.update a refs).out a = refs := update_self ..
  have hns : (G.update a refs).nodes = G.nodes := rfl
  rw [refsTo, refsTo, Finset.sdiff_empty, Finset.sdiff_empty, hns, ← Finset.sum_erase_add _ _ ha,
    ← Finset.sum_erase_add _ (fun b => (G.out b).count x) ha, hself]
  omega

/-- **The counting equation** of a cascade that has killed `dead` and still has to
subtract the references `pending`. -/
structure Balanced (G : RefGraph α) (ext : α → ℕ) (dead : Finset α) (pending : Multiset α)
    (count : α → ℕ) : Prop where
  closed : ∀ a ∈ G.nodes, ∀ x ∈ G.out a, x ∈ G.nodes
  pending_mem : ∀ x ∈ pending, x ∈ G.nodes
  /-- The dead nodes are those with no reference. -/
  dead_iff : ∀ x, x ∈ dead ↔ x ∈ G.nodes ∧ count x = 0
  /-- A count is the number of references to its node. -/
  count_eq : ∀ x ∈ G.nodes, count x = G.refsTo dead x + ext x + pending.count x
  released : ∀ x ∈ dead, G.Released ext x

namespace Balanced

variable {G : RefGraph α} {ext : α → ℕ} {dead : Finset α} {pending : Multiset α}
  {count : α → ℕ} {x : α}

theorem start (closed : ∀ a ∈ G.nodes, ∀ x ∈ G.out a, x ∈ G.nodes)
    (pending_mem : ∀ x ∈ pending, x ∈ G.nodes) (count_pos : ∀ x ∈ G.nodes, 0 < count x)
    (count_eq : ∀ x ∈ G.nodes, count x = G.refsTo ∅ x + ext x + pending.count x) :
    G.Balanced ext ∅ pending count where
  closed := closed
  pending_mem := pending_mem
  dead_iff y := by
    constructor
    · simp
    · intro ⟨hy, h0⟩
      have := count_pos y hy
      omega
  count_eq := count_eq
  released := by simp

theorem count_pos (B : G.Balanced ext dead (x ::ₘ pending) count) : 0 < count x := by
  have hx := B.count_eq x (B.pending_mem x (Multiset.mem_cons_self x pending))
  rw [Multiset.count_cons_self] at hx
  omega

theorem drop_one (B : G.Balanced ext dead (x ::ₘ pending) count) (hcnt : 1 < count x) :
    G.Balanced ext dead pending (Function.update count x (count x - 1)) where
  closed := B.closed
  pending_mem y hy := B.pending_mem y (Multiset.mem_cons_of_mem hy)
  dead_iff y := by
    rw [B.dead_iff]
    by_cases hxy : y = x
    · subst hxy
      rw [update_self]
      omega
    · rw [update_of_ne hxy]
  count_eq y hy := by
    have h := B.count_eq y hy
    by_cases hxy : y = x
    · subst hxy
      rw [Multiset.count_cons_self] at h
      rw [update_self]
      omega
    · rw [Multiset.count_cons_of_ne hxy] at h
      rw [update_of_ne hxy, h]
  released := B.released

theorem refsTo_insert (hx : x ∈ G.nodes) (hdead : x ∉ dead) (y : α) :
    G.refsTo dead y = G.refsTo (insert x dead) y + (G.out x).count y := by
  have hmem := Finset.mem_sdiff.mpr ⟨hx, hdead⟩
  rw [refsTo, refsTo, ← Finset.sum_erase_add _ _ hmem, Finset.sdiff_insert]

/-- **Subtracting the last reference** kills the node: nothing outside refers to it, it
is released, and its own references become pending. -/
theorem drop_last (B : G.Balanced ext dead (x ::ₘ pending) count) (hcnt : count x = 1) :
    x ∈ G.nodes ∧ x ∉ dead ∧ ext x = 0 ∧
      G.Balanced ext (insert x dead) (G.out x + pending) (Function.update count x 0) := by
  have hx := B.pending_mem x (Multiset.mem_cons_self x pending)
  have hdead : x ∉ dead := by
    rw [B.dead_iff]
    omega
  have heq := B.count_eq x hx
  rw [Multiset.count_cons_self] at heq
  have hrefs : G.refsTo dead x = 0 := by omega
  refine ⟨hx, hdead, by omega, B.closed, fun y hy => ?_, fun y => ?_, fun y hy => ?_,
    fun y hy => ?_⟩
  · rcases Multiset.mem_add.mp hy with hy | hy
    · exact B.closed x hx y hy
    · exact B.pending_mem y (Multiset.mem_cons_of_mem hy)
  · rw [Finset.mem_insert, B.dead_iff]
    by_cases hxy : y = x
    · subst hxy
      simp [hx]
    · simp [hxy]
  · have h := B.count_eq y hy
    rw [refsTo_insert hx hdead] at h
    rw [Multiset.count_add]
    by_cases hxy : y = x
    · subst hxy
      rw [refsTo_insert hx hdead] at hrefs
      rw [update_self]
      omega
    · rw [Multiset.count_cons_of_ne hxy] at h
      rw [update_of_ne hxy]
      omega
  · rcases Finset.mem_insert.mp hy with rfl | hy
    · -- No living node refers to it.
      refine .intro hx (by omega) fun a ha hmem => ?_
      by_contra hrel
      have hda := Finset.mem_sdiff.mpr ⟨ha, fun h => hrel (B.released a h)⟩
      have := (Finset.sum_eq_zero_iff.mp hrefs) a hda
      exact Multiset.count_ne_zero.mpr hmem this
    · exact B.released y hy

/-- **A finished cascade has released exactly the right nodes.** -/
theorem mem_dead_iff (B : G.Balanced ext dead 0 count) (x : α) : x ∈ dead ↔ G.Released ext x := by
  constructor
  · exact B.released x
  intro hrel
  induction hrel with
  | @intro y hx hext _ ih =>
    rw [B.dead_iff, B.count_eq y hx, hext]
    refine ⟨hx, ?_⟩
    refine Finset.sum_eq_zero fun a ha => ?_
    obtain ⟨ha, hdead⟩ := Finset.mem_sdiff.mp ha
    exact Multiset.count_eq_zero.mpr fun hmem => hdead (ih a ha hmem)

end Balanced

end RefGraph

end WasmDeps.Lib
