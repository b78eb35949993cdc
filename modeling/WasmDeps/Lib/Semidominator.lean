import WasmDeps.Lib.Dominance
import WasmDeps.Lib.Forest
import Mathlib.Data.Nat.Find

/-!
# Semidominators

The vertices are the preorder numbers of a depth-first search, with 0 as a virtual root above
the first vertex.  A semidominator of `w` is the smallest number from which there is a path
to `w` whose inner vertices are all greater than `w`.

The strict dominators of a vertex are the dominators of its parent that are not greater than
its semidominator.  So the immediate dominator is found by walking up from the parent until
the semidominator is reached or passed.
-/

namespace WasmDeps.Lib

open Relation

/-- The numbers up to `n` are those of a depth-first search: each vertex is entered by an edge
from its parent, and edges to greater vertices go down in the tree. -/
structure IsDepthFirst (n : ℕ) (par : ℕ → ℕ) (E : ℕ → ℕ → Prop) : Prop
    extends IsPreorder n par where
  edge_par : ∀ v, v ≠ 0 → v ≤ n → E (par v) v
  edge_le : ∀ x y, E x y → x ≤ n ∧ y ≠ 0 ∧ y ≤ n
  edge_anc : ∀ x y, E x y → x < y → IsAncestor par x y

variable (E : ℕ → ℕ → Prop)

/-- A vertex is reached through vertices greater than `w`. -/
def Above (w : ℕ) : ℕ → ℕ → Prop :=
  ReflTransGen fun x y => E x y ∧ w < y

/-- There is a path from `s` to `w` whose inner vertices are greater than `w`. -/
def SemiPath (w s : ℕ) : Prop := ∃ y, Above E w s y ∧ E y w

def IsSemidominator (w s : ℕ) : Prop :=
  SemiPath E w s ∧ ∀ s', SemiPath E w s' → s ≤ s'

/-- What the semidominator of `w` is the minimum of: predecessors that are not greater, and
semidominators of the greater ancestors of the other predecessors. -/
def SemiCandidate (par sd : ℕ → ℕ) (w c : ℕ) : Prop :=
  ∃ v, E v w ∧ (v ≤ w ∧ c = v ∨ w < v ∧ ∃ u, IsAncestor par u v ∧ w < u ∧ c = sd u)

def IsClosestDominator (w d : ℕ) : Prop :=
  StrictlyDominates E 0 d w ∧ ∀ x, StrictlyDominates E 0 x w → x ≤ d

theorem Above.mono {E : ℕ → ℕ → Prop} {w w' x y : ℕ} (h : Above E w x y) (hw : w' ≤ w) :
    Above E w' x y := ReflTransGen.mono (fun _ _ h => ⟨h.1, by omega⟩) _ _ h

theorem IsSemidominator.unique {E : ℕ → ℕ → Prop} {w s s' : ℕ} (h : IsSemidominator E w s)
    (h' : IsSemidominator E w s') : s = s' := le_antisymm (h.2 _ h'.1) (h'.2 _ h.1)

namespace IsDepthFirst

variable {n : ℕ} {par : ℕ → ℕ} {E : ℕ → ℕ → Prop} {s u v w x y : ℕ}

/-! ## Paths and the tree -/

section

variable (hp : IsDepthFirst n par E)
include hp

theorem isAncestor_of_above
    (h : ReflTransGen (fun a b => E a b ∧ x ≤ b) x y) : IsAncestor par x y := by
  induction h with
  | refl => exact .refl
  | @tail b c _ hstep ih =>
    obtain ⟨hedge, hle⟩ := hstep
    have hb := (hp.edge_le _ _ hedge).1
    rcases lt_or_ge b c with hlt | hge
    · exact ih.trans (hp.edge_anc _ _ hedge hlt)
    · exact hp.interval ih hb hle hge

theorem above_of_isAncestor (h : IsAncestor par x y) (hy : y ≤ n) :
    Above E x x y := by
  induction h with
  | refl => exact .refl
  | @tail b c hprev hstep ih =>
    obtain ⟨hc, rfl⟩ := hstep
    have hlt := hp.par_lt c hc hy
    have hle := hp.le hprev (by omega)
    exact (ih (by omega)).tail ⟨hp.edge_par c hc hy, by omega⟩

theorem avoids_of_not_isAncestor (hx : ¬IsAncestor par x y)
    (hy : y ≤ n) : Avoids E x 0 y := by
  induction y using Nat.strong_induction_on with
  | _ y ih =>
    by_cases hy0 : y = 0
    · subst hy0
      exact .refl
    have hlt := hp.par_lt y hy0 hy
    have hx' : ¬IsAncestor par x (par y) := fun h => hx (h.trans (isAncestor_par hy0))
    refine (ih _ hlt hx' (by omega)).tail ⟨hp.edge_par y hy0 hy, ?_⟩
    rintro rfl
    exact hx .refl

theorem isAncestor_of_dominates (h : Dominates E 0 x y) (hy : y ≤ n) :
    IsAncestor par x y := by
  by_contra hx
  rcases dominates_iff.mp h with rfl | h
  · exact hx (hp.isAncestor_zero y hy)
  · exact h (hp.avoids_of_not_isAncestor hx hy)

theorem le_of_dominates (h : Dominates E 0 x y) (hy : y ≤ n) :
    x ≤ y := hp.le (hp.isAncestor_of_dominates h hy) hy

theorem lt_of_strictlyDominates (h : StrictlyDominates E 0 x y)
    (hy : y ≤ n) : x < y := lt_of_le_of_ne (hp.le_of_dominates h.1 hy) h.2

/-! ## Semidominators -/

theorem semiPath_par (hw : w ≠ 0) (hn : w ≤ n) :
    SemiPath E w (par w) := ⟨par w, .refl, hp.edge_par w hw hn⟩

theorem isAncestor_of_semiPath (h : SemiPath E w s) (hs : s < w) :
    IsAncestor par s w := by
  obtain ⟨y, hab, hedge⟩ := h
  refine hp.isAncestor_of_above (.tail (.mono ?_ _ _ hab) ⟨hedge, ?_⟩)
  · exact fun _ _ h => ⟨h.1, by omega⟩
  · omega

theorem semiPath_of_isAncestor (hs : SemiPath E u s) (hwu : w < u)
    (huv : IsAncestor par u v) (hedge : E v w) : SemiPath E w s := by
  obtain ⟨y, hab, hyu⟩ := hs
  have hv := (hp.edge_le _ _ hedge).1
  refine ⟨v, ?_, hedge⟩
  have hto := (hab.mono (by omega)).tail ⟨hyu, hwu⟩
  exact hto.trans ((hp.above_of_isAncestor huv hv).mono (by omega))

end

/-- The smallest inner vertex of such a path is an ancestor of its last inner vertex. -/
theorem exists_smallest (h : Above E w s y) (hne : s ≠ y) :
    ∃ u, w < u ∧ SemiPath E u s ∧ ReflTransGen (fun a b => E a b ∧ u ≤ b) u y := by
  induction h with
  | refl => exact absurd rfl hne
  | @tail b c hprev hstep ih =>
    obtain ⟨hedge, hwc⟩ := hstep
    by_cases hsb : s = b
    · subst hsb
      exact ⟨c, hwc, ⟨s, .refl, hedge⟩, .refl⟩
    obtain ⟨u, hwu, ⟨z, hsz, hzu⟩, hub⟩ := ih hsb
    rcases lt_or_ge c u with hlt | hge
    · -- The new vertex is the smallest one so far.
      refine ⟨c, hwc, ⟨b, ?_, hedge⟩, .refl⟩
      have hto := (hsz.mono (by omega)).tail ⟨hzu, hlt⟩
      exact hto.trans (.mono (fun _ _ h => ⟨h.1, by omega⟩) _ _ hub)
    · exact ⟨u, hwu, ⟨z, hsz, hzu⟩, hub.tail ⟨hedge, hge⟩⟩

/-- **The semidominator** is the smallest candidate. -/
theorem isSemidominator (hp : IsDepthFirst n par E) {sd : ℕ → ℕ}
    (hsd : ∀ u, w < u → u ≤ n → IsSemidominator E u (sd u)) (hs : SemiCandidate E par sd w s)
    (hmin : ∀ c, SemiCandidate E par sd w c → s ≤ c) : IsSemidominator E w s := by
  constructor
  · obtain ⟨v, hedge, ⟨-, rfl⟩ | ⟨-, u, huv, hwu, rfl⟩⟩ := hs
    · exact ⟨s, .refl, hedge⟩
    · have hu := hp.le huv (hp.edge_le _ _ hedge).1
      have hun := le_trans hu (hp.edge_le _ _ hedge).1
      exact hp.semiPath_of_isAncestor (hsd u hwu hun).1 hwu huv hedge
  rintro s' ⟨y, hab, hedge⟩
  by_cases hsy : s' = y
  · subst hsy
    rcases lt_or_ge w s' with hlt | hge
    · -- A start that is greater than `w` is not smaller than its own semidominator.
      have hn := (hp.edge_le _ _ hedge).1
      have hle := hmin (sd s') ⟨s', hedge, .inr ⟨hlt, s', .refl, hlt, rfl⟩⟩
      have hpar := (hsd s' hlt hn).2 _ (hp.semiPath_par (by omega) hn)
      have := hp.par_lt s' (by omega) hn
      omega
    · exact hmin s' ⟨s', hedge, .inl ⟨hge, rfl⟩⟩
  obtain ⟨u, hwu, hsemi, huy⟩ := exists_smallest hab hsy
  have hanc := hp.isAncestor_of_above huy
  have hyn := (hp.edge_le _ _ hedge).1
  have huy' := hp.le hanc hyn
  have hle := hmin (sd u) ⟨y, hedge, .inr ⟨by omega, u, hanc, hwu, rfl⟩⟩
  exact hle.trans ((hsd u hwu (by omega)).2 s' hsemi)

theorem exists_semidominator (hp : IsDepthFirst n par E) :
    ∃ sd : ℕ → ℕ, ∀ w, w ≠ 0 → w ≤ n → IsSemidominator E w (sd w) := by
  classical
  have hex : ∀ w, ∃ s, w ≠ 0 → w ≤ n → IsSemidominator E w s := by
    intro w
    by_cases hw : w ≠ 0 ∧ w ≤ n
    · have hpath : ∃ s, SemiPath E w s := ⟨par w, hp.semiPath_par hw.1 hw.2⟩
      exact ⟨.find hpath, fun _ _ => ⟨Nat.find_spec hpath, fun _ => Nat.find_min' hpath⟩⟩
    · exact ⟨0, fun h0 hn => absurd ⟨h0, hn⟩ hw⟩
  choose sd hsd using hex
  exact ⟨sd, hsd⟩

/-! ## Dominators -/

/-- Where a way around `x` last enters the vertices that are not smaller than `w`. -/
theorem exists_last_smaller (h : Avoids E x 0 y) (hw : w ≠ 0) :
    (y < w ∧ Avoids E x 0 y) ∨ (∃ s < w, Avoids E x 0 s ∧ SemiPath E w s) ∨
      ∃ s < w, Avoids E x 0 s ∧ Above E w s y := by
  induction h with
  | refl => exact .inl ⟨by omega, .refl⟩
  | @tail b c hprev hstep ih =>
    rcases lt_or_ge c w with hlt | hge
    · exact .inl ⟨hlt, .tail hprev hstep⟩
    obtain ⟨hbw, hb⟩ | hsemi | ⟨s, hsw, hs, hab⟩ := ih
    · rcases eq_or_lt_of_le hge with rfl | hgt
      · exact .inr (.inl ⟨b, hbw, hb, b, .refl, hstep.1⟩)
      · exact .inr (.inr ⟨b, hbw, hb, .single ⟨hstep.1, hgt⟩⟩)
    · exact .inr (.inl hsemi)
    · rcases eq_or_lt_of_le hge with rfl | hgt
      · exact .inr (.inl ⟨s, hsw, hs, b, hab, hstep.1⟩)
      · exact .inr (.inr ⟨s, hsw, hs, hab.tail ⟨hstep.1, hgt⟩⟩)

variable (hp : IsDepthFirst n par E)
include hp

/-- **The strict dominators** of a vertex are the dominators of its parent that are not greater
than its semidominator. -/
theorem strictlyDominates_iff (hs : IsSemidominator E w s) (hw : w ≠ 0) (hn : w ≤ n) :
    StrictlyDominates E 0 x w ↔ Dominates E 0 x (par w) ∧ x ≤ s := by
  have hpar := hp.par_lt w hw hn
  have hsw := lt_of_le_of_lt (hs.2 _ (hp.semiPath_par hw hn)) (hp.par_lt w hw hn)
  constructor
  · intro h
    have hxw := hp.lt_of_strictlyDominates h hn
    rcases dominates_iff.mp h.1 with rfl | hav
    · exact ⟨dominates_root _ _ _, Nat.zero_le s⟩
    refine ⟨dominates_iff.mpr (.inr fun hpath => hav ?_), ?_⟩
    · exact hpath.tail ⟨hp.edge_par w hw hn, fun heq => h.2 heq.symm⟩
    -- Otherwise the way over the semidominator goes around `x`.
    by_contra hlt
    obtain ⟨y, hab, hedge⟩ := hs.1
    have hto : Avoids E x 0 s := by
      refine hp.avoids_of_not_isAncestor (fun hanc => hlt ?_) (by omega)
      exact hp.le hanc (by omega)
    refine hav ((hto.trans (.mono ?_ _ _ hab)).tail ⟨hedge, fun h' => h.2 h'.symm⟩)
    exact fun _ _ h' => ⟨h'.1, by omega⟩
  rintro ⟨hdom, hxs⟩
  refine ⟨?_, by omega⟩
  rcases dominates_iff.mp hdom with rfl | hav
  · exact dominates_root _ _ _
  refine dominates_iff.mpr (.inr fun hpath => ?_)
  obtain ⟨hww, -⟩ | ⟨t, htw, ht, hsemi⟩ | ⟨t, htw, -, hab⟩ := exists_last_smaller hpath hw
  · exact absurd hww (by omega)
  · -- The way from `t` down the tree to the parent avoids `x`, which is not below `t`.
    have hst := hs.2 t hsemi
    have hanc : IsAncestor par t (par w) := by
      rcases (hp.isAncestor_of_semiPath hsemi htw).eq_or_par with rfl | ⟨-, h⟩
      · omega
      · exact h
    refine hav (ht.trans (.mono ?_ _ _ (hp.above_of_isAncestor hanc (by omega))))
    exact fun _ _ h => ⟨h.1, by omega⟩
  · cases hab with
    | refl => omega
    | tail _ h => exact absurd h.2 (by omega)

theorem dominates_of_le (hx : Dominates E 0 x w)
    (hy : Dominates E 0 y w) (hxy : x ≤ y) (hn : w ≤ n) : Dominates E 0 x y := by
  rcases dominates_iff.mp hx with rfl | hav
  · exact dominates_root _ _ _
  refine dominates_iff.mpr (.inr fun hpath => hav (hpath.trans ?_))
  have hanc := hp.isAncestor_of_dominates hy hn
  exact .mono (fun _ _ h => ⟨h.1, by omega⟩) _ _ (hp.above_of_isAncestor hanc hn)

/-- **The greatest strict dominator is the immediate dominator.** -/
theorem isImmediateDominator {d : ℕ} (h : IsClosestDominator E w d)
    (hn : w ≤ n) : IsImmediateDominator E 0 d w :=
  ⟨h.1, fun _ hx => hp.dominates_of_le hx.1 h.1.1 (h.2 _ hx) hn⟩

section

variable (hs : IsSemidominator E w s) (hw : w ≠ 0) (hn : w ≤ n)
include hs hw hn

/-- Walking up: if `c` dominates the parent of `w` and no strict dominator of `w` is greater,
then the same holds of the closest dominator of `c`, as long as `c` is not a strict dominator
itself. -/
theorem walk_step
    {c d : ℕ} (hc : Dominates E 0 c (par w)) (hle : ∀ x, StrictlyDominates E 0 x w → x ≤ c)
    (hcs : s < c) (hd : IsClosestDominator E c d) :
    Dominates E 0 d (par w) ∧ ∀ x, StrictlyDominates E 0 x w → x ≤ d := by
  have hpar := hp.par_lt w hw hn
  refine ⟨hd.1.1.trans hc, fun x hx => hd.2 x ?_⟩
  obtain ⟨hdom, hxs⟩ := (hp.strictlyDominates_iff hs hw hn).mp hx
  exact ⟨hp.dominates_of_le hdom hc (hle x hx) (by omega), by omega⟩

theorem walk_end {c : ℕ} (hc : Dominates E 0 c (par w))
    (hle : ∀ x, StrictlyDominates E 0 x w → x ≤ c) (hcs : c ≤ s) : IsClosestDominator E w c :=
  ⟨(hp.strictlyDominates_iff hs hw hn).mpr ⟨hc, hcs⟩, hle⟩

theorem walk_start : Dominates E 0 (par w) (par w) ∧
      ∀ x, StrictlyDominates E 0 x w → x ≤ par w := by
  have hpar := hp.par_lt w hw hn
  refine ⟨.refl _ _ _, fun x hx => ?_⟩
  exact hp.le_of_dominates ((hp.strictlyDominates_iff hs hw hn).mp hx).1 (by omega)

end

end IsDepthFirst

end WasmDeps.Lib
