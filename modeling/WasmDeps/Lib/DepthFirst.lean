import WasmDeps.Lib.Semidominator
import Mathlib.Data.Finset.Card

/-!
# Depth-first search

Depth-first search as a relation: visiting a list of vertices one after the other, when some
vertices have been seen before, leaves a forest.  The vertices of the forest in postorder are
a depth-first postorder.
-/

namespace WasmDeps.Lib

open Relation List

universe u

variable {α : Type u} {succ : α → List α}

/-- Depth-first search: the vertices of a list are visited in order.  A vertex that has been
seen is skipped; otherwise its successors are visited next, and then the rest of the list. -/
inductive Dfs (succ : α → List α) : List α → List α → Forest α → Prop
  | nil (seen : List α) : Dfs succ seen [] .nil
  | skip {seen todo : List α} {b : α} {F : Forest α} (hb : b ∈ seen)
      (h : Dfs succ seen todo F) : Dfs succ seen (b :: todo) F
  | visit {seen todo : List α} {b : α} {C R : Forest α} (hb : b ∉ seen)
      (hc : Dfs succ (b :: seen) (succ b) C) (hr : Dfs succ (C.pre ++ b :: seen) todo R) :
      Dfs succ seen (b :: todo) (.node b C R)

def Succ (succ : α → List α) (a b : α) : Prop := b ∈ succ a

variable {F : Forest α} {a b : α} {num : α → ℕ} {par : ℕ → ℕ}

namespace Dfs

variable {seen todo : List α}

/-! ## The result of a search -/

theorem exists_of_finite [DecidableEq α] {all : Finset α}
    (hsucc : ∀ x ∈ all, ∀ y ∈ succ x, y ∈ all) :
    ∀ n seen todo, (all.filter fun x => x ∉ seen).card ≤ n →
      (∀ x ∈ todo, x ∈ all) → ∃ F, Dfs succ seen todo F := by
  intro n
  induction n using Nat.strong_induction_on with
  | _ n ih =>
    intro seen todo hcard htodo
    induction todo with
    | nil => exact ⟨.nil, .nil seen⟩
    | cons b todo iht =>
      have hb := htodo b (.head _)
      have hrest := fun x hx => htodo x (.tail b hx)
      by_cases hbs : b ∈ seen
      · obtain ⟨F, hF⟩ := iht hrest
        exact ⟨F, .skip hbs hF⟩
      -- Fewer vertices are left once `b` has been seen.
      have hless : ∀ seen' : List α, (∀ x ∈ seen, x ∈ seen') → b ∈ seen' →
          (all.filter fun x => x ∉ seen').card < n := by
        intro seen' hsub hb'
        refine lt_of_lt_of_le (Finset.card_lt_card ?_) hcard
        refine Finset.ssubset_iff_subset_ne.mpr ⟨fun x hx => ?_, fun heq => ?_⟩
        · obtain ⟨hx, hns⟩ := Finset.mem_filter.mp hx
          exact Finset.mem_filter.mpr ⟨hx, fun h => hns (hsub x h)⟩
        · have hmem : b ∈ all.filter fun x => x ∉ seen := Finset.mem_filter.mpr ⟨hb, hbs⟩
          rw [← heq] at hmem
          exact (Finset.mem_filter.mp hmem).2 hb'
      obtain ⟨C, hC⟩ := ih _ (hless _ (fun x hx => .tail b hx) (.head _))
        (b :: seen) (succ b) le_rfl (hsucc b hb)
      obtain ⟨R, hR⟩ := ih _ (hless _ (fun x hx => mem_append_right _ (.tail b hx))
        (mem_append_right _ (.head _))) (C.pre ++ b :: seen) todo le_rfl hrest
      exact ⟨.node b C R, .visit hbs hC hR⟩

section

variable (h : Dfs succ seen todo F)
include h

theorem not_mem_seen (ha : a ∈ F.pre) : a ∉ seen := by
  induction h with
  | nil => cases ha
  | skip _ _ ih => exact ih ha
  | visit hb _ _ ihc ihr =>
    rcases mem_cons.mp ha with rfl | ha
    · exact hb
    · rcases mem_append.mp ha with ha | ha
      · exact fun hs => ihc ha (.tail _ hs)
      · exact fun hs => ihr ha (mem_append_right _ (.tail _ hs))

theorem nodup : F.pre.Nodup := by
  induction h with
  | nil => exact nodup_nil
  | skip _ _ ih => exact ih
  | visit _ hc hr ihc ihr =>
    refine nodup_cons.mpr ⟨fun hmem => ?_, nodup_append.mpr ⟨ihc, ihr, ?_⟩⟩
    · rcases mem_append.mp hmem with hmem | hmem
      · exact hc.not_mem_seen hmem (.head _)
      · exact hr.not_mem_seen hmem (mem_append_right _ (.head _))
    · rintro x hx y hy rfl
      exact hr.not_mem_seen hy (mem_append_left _ hx)

theorem todo_mem (ha : a ∈ todo) : a ∈ seen ∨ a ∈ F.pre := by
  induction h with
  | nil => cases ha
  | skip hb _ ih =>
    rcases mem_cons.mp ha with rfl | ha
    · exact .inl hb
    · exact ih ha
  | visit _ _ _ _ ihr =>
    rcases mem_cons.mp ha with rfl | ha
    · exact .inr (.head _)
    rcases ihr ha with hs | hs
    · rcases mem_append.mp hs with hs | hs
      · exact .inr (.tail _ (mem_append_left _ hs))
      · rcases mem_cons.mp hs with rfl | hs
        · exact .inr (.head _)
        · exact .inl hs
    · exact .inr (.tail _ (mem_append_right _ hs))

theorem succ_mem (ha : a ∈ F.pre) (hab : b ∈ succ a) : b ∈ seen ∨ b ∈ F.pre := by
  induction h with
  | nil => cases ha
  | skip _ _ ih => exact ih ha
  | @visit seen _ v C R _ hc _ ihc ihr =>
    -- What is seen or visited in a part of the search is seen or visited in the whole.
    have hpart : b ∈ v :: seen ∨ b ∈ C.pre → b ∈ seen ∨ b ∈ (Forest.node v C R).pre := by
      intro hs
      rcases hs with hs | hs
      · rcases mem_cons.mp hs with rfl | hs
        · exact .inr (.head _)
        · exact .inl hs
      · exact .inr (.tail _ (mem_append_left _ hs))
    rcases mem_cons.mp ha with rfl | ha
    · exact hpart (hc.todo_mem hab)
    rcases mem_append.mp ha with ha | ha
    · exact hpart (ihc ha)
    rcases ihr ha with hs | hs
    · rcases mem_append.mp hs with hs | hs
      · exact hpart (.inr hs)
      · exact hpart (.inl hs)
    · exact .inr (.tail _ (mem_append_right _ hs))

theorem reaches (ha : a ∈ F.pre) : ∃ b ∈ todo, ReflTransGen (Succ succ) b a := by
  induction h with
  | nil => cases ha
  | skip _ _ ih =>
    obtain ⟨b, hb, hba⟩ := ih ha
    exact ⟨b, .tail _ hb, hba⟩
  | visit _ _ _ ihc ihr =>
    rcases mem_cons.mp ha with rfl | ha
    · exact ⟨a, .head _, .refl⟩
    rcases mem_append.mp ha with ha | ha
    · obtain ⟨c, hc, hca⟩ := ihc ha
      exact ⟨_, .head _, .head hc hca⟩
    · obtain ⟨c, hc, hca⟩ := ihr ha
      exact ⟨c, .tail _ hc, hca⟩

end

/-- **The search from a vertex visits what is reachable from it.** -/
theorem mem_iff {r : α} (h : Dfs succ [] [r] F) : a ∈ F.pre ↔ ReflTransGen (Succ succ) r a := by
  constructor
  · intro ha
    obtain ⟨b, hb, hba⟩ := h.reaches ha
    obtain rfl : b = r := by simpa using hb
    exact hba
  · intro ha
    induction ha with
    | refl => exact (h.todo_mem (.head _)).resolve_left not_mem_nil
    | tail _ hedge ih => exact (h.succ_mem ih hedge).resolve_left not_mem_nil

/-! ## Edges and the forest -/

variable {pos : α → ℕ} {p k q : ℕ} {v : α} {C R : Forest α}

theorem not_mem_rest (hc : Dfs succ (v :: seen) (succ v) C)
    (hr : Dfs succ (C.pre ++ v :: seen) todo R) (ha : a = v ∨ a ∈ C.pre) (hab : b ∈ succ a) :
    b ∉ R.pre := by
  intro hb
  refine hr.not_mem_seen hb (mem_append.mpr (.symm ?_))
  rcases ha with rfl | ha
  · exact hc.todo_mem hab
  · exact hc.succ_mem ha hab

/-- **Edges to greater preorder numbers go down in the forest.** -/
theorem isAncestor_of_edge (h : Dfs succ seen todo F) (hF : F.Numbered num par p k) (hpk : p < k)
    (ha : a ∈ F.pre) (hb : b ∈ F.pre) (hab : b ∈ succ a) (hlt : num a < num b) :
    IsAncestor par (num a) (num b) := by
  induction h generalizing p k with
  | nil => cases ha
  | skip _ _ ih => exact ih hF hpk ha hb
  | @visit seen _ v C R _ hc hr ihc ihr =>
    obtain ⟨hv, -, hC, hR⟩ := hF
    have hnot := fun ha => not_mem_rest hc hr ha hab
    rcases mem_cons.mp ha with rfl | ha'
    · rcases mem_cons.mp hb with rfl | hb'
      · omega
      rcases mem_append.mp hb' with hb' | hb'
      · have hbC := hC.num_mem hb'
        rw [hv]
        exact (hC.par_mem (by omega) hbC.1 hbC.2).2
      · exact absurd hb' (hnot (.inl rfl))
    rcases mem_append.mp ha' with ha' | ha'
    · have haC := hC.num_mem ha'
      rcases mem_cons.mp hb with rfl | hb'
      · omega
      · rcases mem_append.mp hb' with hb' | hb'
        · exact ihc hC (by omega) ha' hb'
        · exact absurd hb' (hnot (.inr ha'))
    have haR := hR.num_mem ha'
    rcases mem_cons.mp hb with rfl | hb'
    · omega
    rcases mem_append.mp hb' with hb' | hb'
    · have := hC.num_mem hb'
      omega
    · exact ihr hR (by omega) ha' hb'

/-! ## The graph of the numbers -/

theorem exists_par (h : Dfs succ seen todo F) (hF : F.Numbered num par p k) {x : ℕ} (hk : k ≤ x)
    (hx : x < k + F.pre.length) :
    ∃ b ∈ F.pre, num b = x ∧ (b ∈ todo ∧ par x = p ∨ ∃ a ∈ F.pre, b ∈ succ a ∧ par x = num a) := by
  induction h generalizing p k with
  | nil => exact absurd hx (by simp [Forest.pre]; omega)
  | skip _ _ ih =>
    obtain ⟨b, hb, hbx, hpar⟩ := ih hF hk hx
    exact ⟨b, hb, hbx, hpar.imp_left fun h => ⟨.tail _ h.1, h.2⟩⟩
  | @visit seen todo v C R _ hc hr ihc ihr =>
    obtain ⟨hv, hp, hC, hR⟩ := hF
    rw [Forest.pre, length_cons, length_append] at hx
    by_cases hxk : x = k
    · subst hxk
      exact ⟨v, .head _, hv, .inl ⟨.head _, hp⟩⟩
    have hinC : ∀ {a}, a ∈ C.pre → a ∈ (Forest.node v C R).pre :=
      fun ha => .tail _ (mem_append_left _ ha)
    have hinR : ∀ {a}, a ∈ R.pre → a ∈ (Forest.node v C R).pre :=
      fun ha => .tail _ (mem_append_right _ ha)
    rcases Nat.lt_or_ge x (k + 1 + C.pre.length) with hlt | hge
    · obtain ⟨b, hb, hbx, ⟨hbv, hpar⟩ | ⟨a, ha, hab, hpar⟩⟩ := ihc hC (by omega) hlt
      · exact ⟨b, hinC hb, hbx, .inr ⟨v, .head _, hbv, hpar.trans hv.symm⟩⟩
      · exact ⟨b, hinC hb, hbx, .inr ⟨a, hinC ha, hab, hpar⟩⟩
    · obtain ⟨b, hb, hbx, ⟨hbt, hpar⟩ | ⟨a, ha, hab, hpar⟩⟩ := ihr hR hge (by omega)
      · exact ⟨b, hinR hb, hbx, .inl ⟨.tail _ hbt, hpar⟩⟩
      · exact ⟨b, hinR hb, hbx, .inr ⟨a, hinR ha, hab, hpar⟩⟩

end Dfs

/-- The edges between the numbers of visited vertices, and one from 0 to the root. -/
def NumEdge (succ : α → List α) (F : Forest α) (num : α → ℕ) (r : α) (x y : ℕ) : Prop :=
  x = 0 ∧ y = num r ∨ ∃ a ∈ F.pre, ∃ b ∈ succ a, x = num a ∧ y = num b

namespace Dfs

variable {r d : α}

variable (h : Dfs succ [] [r] F)
include h

theorem root_mem : r ∈ F.pre :=
  (h.todo_mem (.head _)).resolve_left not_mem_nil

theorem succ_mem_pre (ha : a ∈ F.pre) (hab : b ∈ succ a) : b ∈ F.pre :=
  (h.succ_mem ha hab).resolve_left not_mem_nil

section

variable (hF : F.Numbered num par 0 1)
include hF

theorem num_root : num r = 1 := by
  cases h with
  | skip hb => cases hb
  | visit => exact hF.1

/-- **The numbers of a search are depth-first numbers.** -/
theorem isDepthFirst : IsDepthFirst F.pre.length par (NumEdge succ F num r) := by
  refine { hF.isPreorder with edge_par := ?_, edge_le := ?_, edge_anc := ?_ }
  · intro v hv hn
    obtain ⟨b, hb, rfl, ⟨hbr, hpar⟩ | ⟨a, ha, hab, hpar⟩⟩ :=
      h.exists_par hF (x := v) (by omega) (by omega)
    · obtain rfl : b = r := by simpa using hbr
      exact .inl ⟨hpar, rfl⟩
    · exact .inr ⟨a, ha, b, hab, hpar, rfl⟩
  · rintro x y (⟨rfl, rfl⟩ | ⟨a, ha, b, hab, rfl, rfl⟩)
    · have := hF.num_mem h.root_mem
      omega
    · have := hF.num_mem ha
      have := hF.num_mem (h.succ_mem_pre ha hab)
      omega
  · rintro x y (⟨rfl, rfl⟩ | ⟨a, ha, b, hab, rfl, rfl⟩) hlt
    · have := hF.num_mem h.root_mem
      exact hF.isPreorder.isAncestor_zero _ (by omega)
    · exact h.isAncestor_of_edge hF Nat.one_pos ha (h.succ_mem_pre ha hab) hab hlt

theorem avoids_num (ha : a ∈ F.pre) (har : a ≠ r) (hav : Avoids (Succ succ) a r b) :
    b ∈ F.pre ∧ Avoids (NumEdge succ F num r) (num a) 0 (num b) := by
  induction hav with
  | refl =>
    refine ⟨h.root_mem, .single ⟨.inl ⟨rfl, rfl⟩, fun heq => har ?_⟩⟩
    exact (hF.num_inj h.root_mem ha heq).symm
  | @tail x y _ hstep ih =>
    obtain ⟨hx, hto⟩ := ih
    have hy := h.succ_mem_pre hx hstep.1
    refine ⟨hy, hto.tail ⟨.inr ⟨x, hx, y, hstep.1, rfl, rfl⟩, fun heq => hstep.2 ?_⟩⟩
    exact hF.num_inj hy ha heq

theorem exists_avoids {y : ℕ} (hav : Avoids (NumEdge succ F num r) (num a) 0 y) (hy : y ≠ 0) :
    a ≠ r ∧ ∃ b ∈ F.pre, num b = y ∧ Avoids (Succ succ) a r b := by
  induction hav with
  | refl => exact absurd rfl hy
  | @tail x y _ hstep ih =>
    obtain ⟨⟨rfl, rfl⟩ | ⟨c, hc, b, hcb, rfl, rfl⟩, hne⟩ := hstep
    · exact ⟨fun heq => hne (heq ▸ rfl), r, h.root_mem, rfl, .refl⟩
    · obtain ⟨har, c', hc', hcc, hto⟩ := ih (by have := hF.num_mem hc; omega)
      obtain rfl := hF.num_inj hc' hc hcc
      exact ⟨har, b, h.succ_mem_pre hc hcb, rfl, hto.tail ⟨hcb, fun heq => hne (heq ▸ rfl)⟩⟩

/-- **Dominance between vertices is dominance between their numbers.** -/
theorem dominates_num (ha : a ∈ F.pre) (hb : b ∈ F.pre) :
    Dominates (NumEdge succ F num r) 0 (num a) (num b) ↔ Dominates (Succ succ) r a b := by
  have ha0 : num a ≠ 0 := by have := hF.num_mem ha; omega
  have hb0 : num b ≠ 0 := by have := hF.num_mem hb; omega
  rw [dominates_iff, dominates_iff, or_iff_right ha0]
  constructor
  · intro hav
    by_cases har : a = r
    · exact .inl har
    · exact .inr fun hto => hav (h.avoids_num hF ha har hto).2
  · intro hor hto
    obtain ⟨har, b', hb', hbb, hto'⟩ := h.exists_avoids hF hto hb0
    obtain rfl := hF.num_inj hb' hb hbb
    exact hor.elim har fun hav => hav hto'

end

theorem mem_of_dominates (hdom : Dominates (Succ succ) r a b) (hb : b ∈ F.pre) : a ∈ F.pre :=
  h.mem_iff.mpr (hdom.reaches (h.mem_iff.mp hb)).1

theorem isImmediateDominator_of_num (hF : F.Numbered num par 0 1) (hd : d ∈ F.pre) (hb : b ∈ F.pre)
    (himm : IsImmediateDominator (NumEdge succ F num r) 0 (num d) (num b)) :
    IsImmediateDominator (Succ succ) r d b := by
  refine ⟨⟨(h.dominates_num hF hd hb).mp himm.1.1, fun heq => himm.1.2 (heq ▸ rfl)⟩, ?_⟩
  intro a hab
  have ha := h.mem_of_dominates hab.1 hb
  refine (h.dominates_num hF ha hd).mp (himm.2 _ ⟨(h.dominates_num hF ha hb).mpr hab.1, ?_⟩)
  exact fun heq => hab.2 (hF.num_inj ha hb heq)

end Dfs

end WasmDeps.Lib
