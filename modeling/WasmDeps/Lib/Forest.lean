import Mathlib.Data.List.Perm.Basic
import Mathlib.Data.Nat.Basic
import Mathlib.Order.Basic

/-!
# Ordered forests and their preorder numbers

A forest is given by its first tree and the rest, and a tree by its root and the forest of
its children.  The vertices of a forest have preorder numbers.  A numbering is kept as a
function of numbers to the numbers of their parents.  What makes it a preorder is local: the
parent of a number is an ancestor of the number before it.  From this it follows that the
descendants of a number are an interval.
-/

namespace WasmDeps.Lib

open Relation List

universe u

variable {α : Type u}

/-- An ordered forest: the root of the first tree, its children, and the other trees. -/
inductive Forest (α : Type u)
  | nil
  | node (a : α) (children rest : Forest α)
  deriving Repr

namespace Forest

def pre : Forest α → List α
  | nil => []
  | node a children rest => a :: (children.pre ++ rest.pre)

def post : Forest α → List α
  | nil => []
  | node a children rest => children.post ++ a :: rest.post

theorem post_perm_pre (F : Forest α) : F.post.Perm F.pre := by
  induction F with
  | nil => exact .nil
  | node a children rest ihc ihr =>
    refine perm_middle.trans (.cons a ?_)
    exact ihc.append ihr

theorem mem_post {F : Forest α} {a : α} : a ∈ F.post ↔ a ∈ F.pre := F.post_perm_pre.mem_iff

end Forest

/-! ## Preorder numbers -/

/-- An ancestor of a number, or the number itself; `par` gives the parents. -/
def IsAncestor (par : ℕ → ℕ) : ℕ → ℕ → Prop :=
  ReflTransGen fun x y => y ≠ 0 ∧ par y = x

/-- The numbers up to `n` are preorder numbers; 0 is the root, and `par` gives the parents. -/
structure IsPreorder (n : ℕ) (par : ℕ → ℕ) : Prop where
  par_lt : ∀ v, v ≠ 0 → v ≤ n → par v < v
  /-- A number is a child of an ancestor of the number before it. -/
  par_succ : ∀ v, v < n → IsAncestor par (par (v + 1)) v

variable {par : ℕ → ℕ} {n p k : ℕ} {num : α → ℕ} {F : Forest α} {a b : α}

section Ancestors

variable {x y z : ℕ}

theorem isAncestor_par (hy : y ≠ 0) : IsAncestor par (par y) y := .single ⟨hy, rfl⟩

theorem IsAncestor.eq_or_par (h : IsAncestor par x y) :
    x = y ∨ y ≠ 0 ∧ IsAncestor par x (par y) := by
  cases h with
  | refl => exact .inl rfl
  | tail h hstep =>
    obtain ⟨hy, rfl⟩ := hstep
    exact .inr ⟨hy, h⟩

namespace IsPreorder

theorem le (hp : IsPreorder n par) (h : IsAncestor par x y) (hy : y ≤ n) : x ≤ y := by
  induction h with
  | refl => exact le_rfl
  | tail _ hstep ih =>
    obtain ⟨hy', rfl⟩ := hstep
    have hlt := hp.par_lt _ hy' hy
    omega

theorem isAncestor_zero (hp : IsPreorder n par) : ∀ y ≤ n, IsAncestor par 0 y := by
  intro y
  induction y using Nat.strong_induction_on with
  | _ y ih =>
    intro hy
    by_cases hy0 : y = 0
    · subst hy0
      exact .refl
    · have hlt := hp.par_lt y hy0 hy
      exact (ih _ hlt (by omega)).tail ⟨hy0, rfl⟩

/-- **The descendants of a number are an interval.** -/
theorem interval (hp : IsPreorder n par) (h : IsAncestor par x y) (hy : y ≤ n) (hxz : x ≤ z)
    (hzy : z ≤ y) : IsAncestor par x z := by
  -- Going down from `y` one number at a time stays below `x`.
  have hdown : ∀ k, k ≤ y - z → IsAncestor par x (y - k) := by
    intro k
    induction k with
    | zero => exact fun _ => h
    | succ k ih =>
      intro hk
      have hprev := ih (by omega)
      have hsucc : y - k = y - (k + 1) + 1 := by omega
      rw [hsucc] at hprev
      rcases hprev.eq_or_par with heq | ⟨-, hpar⟩
      · omega
      · exact hpar.trans (hp.par_succ (y - (k + 1)) (by omega))
  have := hdown (y - z) le_rfl
  rwa [show y - (y - z) = z by omega] at this

end IsPreorder

end Ancestors

/-! ## Numbered forests -/

namespace Forest

/-- The vertices have the numbers from `k` on, in preorder, and `par` has their parents; those
of the roots are `p`. -/
def Numbered (num : α → ℕ) (par : ℕ → ℕ) : Forest α → ℕ → ℕ → Prop
  | nil, _, _ => True
  | node a children rest, p, k =>
    num a = k ∧ par k = p ∧ children.Numbered num par k (k + 1) ∧
      rest.Numbered num par p (k + 1 + children.pre.length)

namespace Numbered

variable {v : ℕ}

section

variable (h : F.Numbered num par p k)
include h

theorem num_eq {i : ℕ} (hi : F.pre[i]? = some a) : num a = k + i := by
  induction F generalizing p k i with
  | nil => simp [pre] at hi
  | node b children rest ihc ihr =>
    obtain ⟨hb, -, hc, hr⟩ := h
    cases i with
    | zero =>
      obtain rfl : b = a := by simpa [pre] using hi
      exact hb
    | succ i =>
      have hi : (children.pre ++ rest.pre)[i]? = some a := by simpa [pre] using hi
      rcases lt_or_ge i children.pre.length with hlt | hge
      · rw [getElem?_append_left hlt] at hi
        rw [ihc hc hi]
        omega
      · rw [getElem?_append_right hge] at hi
        rw [ihr hr hi]
        omega

theorem num_mem (ha : a ∈ F.pre) : k ≤ num a ∧ num a < k + F.pre.length := by
  obtain ⟨i, hi⟩ := mem_iff_getElem?.mp ha
  obtain ⟨hlt, -⟩ := List.getElem?_eq_some_iff.mp hi
  rw [h.num_eq hi]
  omega

theorem num_inj (ha : a ∈ F.pre) (hb : b ∈ F.pre) (hab : num a = num b) : a = b := by
  obtain ⟨i, hi⟩ := mem_iff_getElem?.mp ha
  obtain ⟨j, hj⟩ := mem_iff_getElem?.mp hb
  rw [h.num_eq hi, h.num_eq hj] at hab
  obtain rfl : i = j := by omega
  exact Option.some.inj (hi.symm.trans hj)

theorem exists_num (hk : k ≤ v) (hv : v < k + F.pre.length) : ∃ a ∈ F.pre, num a = v := by
  have hlt : v - k < F.pre.length := by omega
  refine ⟨F.pre.get ⟨v - k, hlt⟩, get_mem _ _, ?_⟩
  have hget : F.pre[v - k]? = some (F.pre.get ⟨v - k, hlt⟩) := getElem?_eq_getElem hlt
  rw [h.num_eq hget]
  omega

theorem par_mem (hpk : p < k) (hk : k ≤ v)
    (hv : v < k + F.pre.length) : par v < v ∧ IsAncestor par p v := by
  induction F generalizing p k with
  | nil => simp [pre] at hv; omega
  | node b children rest ihc ihr =>
    obtain ⟨-, hb, hc, hr⟩ := h
    have hk0 : k ≠ 0 := by omega
    have hpk' : IsAncestor par p k := hb ▸ isAncestor_par hk0
    rw [pre, length_cons, length_append] at hv
    by_cases hvk : v = k
    · subst hvk
      exact ⟨hb ▸ hpk, hpk'⟩
    rcases lt_or_ge v (k + 1 + children.pre.length) with hlt | hge
    · obtain ⟨hlt', hanc⟩ := ihc hc (by omega) (by omega) hlt
      exact ⟨hlt', hpk'.trans hanc⟩
    · exact ihr hr (by omega) hge (by omega)

/-- A number is a child of an ancestor of the number before it. -/
theorem par_succ (hpk : p < k) (hk : k ≤ v)
    (hv : v + 1 < k + F.pre.length) : IsAncestor par (par (v + 1)) v := by
  induction F generalizing p k with
  | nil => simp [pre] at hv; omega
  | node b children rest ihc ihr =>
    obtain ⟨-, hb, hc, hr⟩ := h
    rw [pre, length_cons, length_append] at hv
    have hk0 : k ≠ 0 := by omega
    have hpk' : IsAncestor par p k := hb ▸ isAncestor_par hk0
    -- The first number of a forest is a child of the parent of its roots.
    have hfst : ∀ (G : Forest α) q j, G.Numbered num par q j → 0 < G.pre.length →
        par j = q := by
      intro G q j hG hpos
      cases G with
      | nil => simp [pre] at hpos
      | node => exact hG.2.1
    rcases lt_trichotomy (v + 1) (k + 1 + children.pre.length) with hlt | heq | hgt
    · by_cases hvk : v = k
      · subst hvk
        rw [hfst children v (v + 1) hc (by omega)]
        exact .refl
      · exact ihc hc (by omega) (by omega) hlt
    · rw [heq, hfst rest p _ hr (by omega)]
      by_cases hvk : v = k
      · exact hvk ▸ hpk'
      · exact hpk'.trans (hc.par_mem (by omega) (by omega) (by omega)).2
    · exact ihr hr (by omega) (by omega) (by omega)

end

theorem isPreorder (h : F.Numbered num par 0 1) : IsPreorder F.pre.length par := by
  refine ⟨fun v hv0 hv => ?_, fun v hv => ?_⟩
  · exact (h.par_mem Nat.one_pos (by omega) (by omega)).1
  by_cases hv0 : v = 0
  · subst hv0
    have hlt := (h.par_mem Nat.one_pos le_rfl (by omega)).1
    rw [Nat.lt_one_iff.mp hlt]
    exact .refl
  · exact h.par_succ Nat.one_pos (by omega) (by omega)

end Numbered

/-- The vertices have the positions from `k` on, in postorder. -/
def PostNumbered (pos : α → ℕ) : Forest α → ℕ → Prop
  | nil, _ => True
  | node a children rest, k =>
    children.PostNumbered pos k ∧ pos a = k + children.pre.length ∧
      rest.PostNumbered pos (k + children.pre.length + 1)

namespace PostNumbered

variable {pos : α → ℕ} {q : ℕ}

theorem pos_mem (h : F.PostNumbered pos q) (ha : a ∈ F.pre) :
    q ≤ pos a ∧ pos a < q + F.pre.length := by
  induction F generalizing q with
  | nil => cases ha
  | node b children rest ihc ihr =>
    obtain ⟨hc, hb, hr⟩ := h
    rw [pre, length_cons, length_append]
    rcases mem_cons.mp ha with rfl | ha
    · omega
    rcases mem_append.mp ha with ha | ha
    · have := ihc hc ha
      omega
    · have := ihr hr ha
      omega

/-- **Ancestors come later in postorder.** -/
theorem lt_of_isAncestor (h : F.PostNumbered pos q) (hF : F.Numbered num par p k)
    (hp : IsPreorder n par) (hpk : p < k) (hn : k + F.pre.length ≤ n + 1) (ha : a ∈ F.pre)
    (hb : b ∈ F.pre) (hne : a ≠ b) (hanc : IsAncestor par (num a) (num b)) : pos b < pos a := by
  induction F generalizing p k q with
  | nil => cases ha
  | node v children rest ihc ihr =>
    have hin := fun x (hx : x ∈ (node v children rest).pre) => hF.num_mem hx
    obtain ⟨hc, hv, hr⟩ := h
    obtain ⟨hk, -, hC, hR⟩ := hF
    rw [pre, length_cons, length_append] at hn
    have hbn : num b ≤ n := by
      have := hin b hb
      rw [pre, length_cons, length_append] at this
      omega
    have hle := hp.le hanc hbn
    -- The numbers before the rest of the forest are not ancestors of those in the rest.
    have hrest : b ∈ rest.pre → num a < k + 1 + children.pre.length → k ≤ num a → False := by
      intro hb' hlt hge
      have hb'' := hR.num_mem hb'
      have hfst : par (k + 1 + children.pre.length) = p := by
        cases rest with
        | nil => cases hb'
        | node => exact hR.2.1
      have hj := hp.interval hanc hbn (le_of_lt hlt) hb''.1
      rcases hj.eq_or_par with heq | ⟨-, hpar⟩
      · omega
      · rw [hfst] at hpar
        have := hp.le hpar (by omega)
        omega
    rcases mem_cons.mp ha with rfl | ha'
    · rcases mem_cons.mp hb with rfl | hb'
      · exact absurd rfl hne
      rcases mem_append.mp hb' with hb' | hb'
      · have := hc.pos_mem hb'
        omega
      · exact (hrest hb' (by omega) (by omega)).elim
    rcases mem_append.mp ha' with ha' | ha'
    · have haC := hC.num_mem ha'
      rcases mem_cons.mp hb with rfl | hb'
      · omega
      · rcases mem_append.mp hb' with hb' | hb'
        · exact ihc hc hC (by omega) (by omega) ha' hb'
        · exact (hrest hb' (by omega) (by omega)).elim
    have haR := hR.num_mem ha'
    rcases mem_cons.mp hb with rfl | hb'
    · omega
    rcases mem_append.mp hb' with hb' | hb'
    · have := hC.num_mem hb'
      omega
    · exact ihr hr hR (by omega) (by omega) ha' hb'

end PostNumbered

theorem postNumbered_idxOf [DecidableEq α] (h : F.pre.Nodup) (l l' : List α)
    (hl : ∀ x ∈ F.pre, x ∉ l) : F.PostNumbered (fun a => (l ++ F.post ++ l').idxOf a) l.length := by
  induction F generalizing l l' with
  | nil => trivial
  | node a children rest ihc ihr =>
    obtain ⟨hnot, hnd⟩ := nodup_cons.mp h
    obtain ⟨hc, hr, hdisj⟩ := nodup_append.mp hnd
    have hlen := children.post_perm_pre.length_eq
    have hac : a ∉ children.pre := fun h => hnot (mem_append_left _ h)
    refine ⟨?_, ?_, ?_⟩
    · have := ihc hc l (a :: rest.post ++ l') fun x hx => hl x (.tail a (mem_append_left _ hx))
      simpa [post] using this
    · have ha : a ∉ l ++ children.post := by
        rw [mem_append, mem_post]
        exact fun h => h.elim (hl a (.head _)) hac
      have heq : l ++ (node a children rest).post ++ l' =
          (l ++ children.post) ++ (a :: rest.post ++ l') := by simp [post]
      change (l ++ (node a children rest).post ++ l').idxOf a = _
      rw [heq, idxOf_append_of_notMem ha, cons_append, idxOf_cons_self, length_append, hlen]
      rfl
    have hl' : ∀ x ∈ rest.pre, x ∉ l ++ children.post ++ [a] := by
      intro x hx hmem
      rcases mem_append.mp hmem with hmem | hmem
      · rcases mem_append.mp hmem with hmem | hmem
        · exact hl x (.tail a (mem_append_right _ hx)) hmem
        · exact hdisj x (mem_post.mp hmem) x hx rfl
      · obtain rfl : x = a := by simpa using hmem
        exact hnot (mem_append_right _ hx)
    have := ihr hr (l ++ children.post ++ [a]) l' hl'
    simpa [post, hlen, Nat.add_assoc] using this

end Forest

end WasmDeps.Lib
