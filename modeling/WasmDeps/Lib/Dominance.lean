import Mathlib.Logic.Relation
import Mathlib.Tactic.ByContra

/-!
# Dominance in directed graphs

A vertex dominates another if every path from the root to the latter goes through the
former.  Paths are lists of vertices, so that the definition can be read off; proofs use the
equivalent form that without the dominating vertex there is no way from the root.
-/

namespace WasmDeps.Lib

open Relation

universe u

variable {α : Type u} {E : α → α → Prop} {r a b c d : α}

/-- The vertices along a path between two vertices, both included. -/
inductive Walk (E : α → α → Prop) : α → List α → α → Prop
  | single (a : α) : Walk E a [a] a
  | cons {a b c : α} {l : List α} (h : E a b) (p : Walk E b l c) : Walk E a (a :: l) c

/-- A vertex is reached from another one through edges whose targets are not `a`. -/
def Avoids (E : α → α → Prop) (a : α) : α → α → Prop :=
  ReflTransGen fun x y => E x y ∧ y ≠ a

/-- Every path from the root `r` to `b` goes through `a`. -/
def Dominates (E : α → α → Prop) (r a b : α) : Prop :=
  ∀ l, Walk E r l b → a ∈ l

def StrictlyDominates (E : α → α → Prop) (r a b : α) : Prop :=
  Dominates E r a b ∧ a ≠ b

/-- The closest strict dominator: all strict dominators dominate it. -/
def IsImmediateDominator (E : α → α → Prop) (r d b : α) : Prop :=
  StrictlyDominates E r d b ∧ ∀ a, StrictlyDominates E r a b → Dominates E r a d

/-! ## Paths -/

namespace Walk

variable {l l' : List α}

theorem mem_head (p : Walk E a l b) : a ∈ l := by
  cases p with
  | single => exact List.mem_singleton_self a
  | cons => exact .head _

theorem reaches (p : Walk E a l b) : ReflTransGen E a b := by
  induction p with
  | single a => exact .refl
  | cons h _ ih => exact .head h ih

theorem avoids (p : Walk E a l b) (hd : d ∉ l) : Avoids E d a b := by
  induction p with
  | single a => exact .refl
  | cons h p ih =>
    have hrest := fun hmem => hd (.tail _ hmem)
    refine .head ⟨h, ?_⟩ (ih hrest)
    exact fun heq => hrest (heq ▸ p.mem_head)

end Walk

theorem Avoids.exists_path (h : Avoids E d a b) (ha : a ≠ d) : ∃ l, Walk E a l b ∧ d ∉ l := by
  induction h using ReflTransGen.head_induction_on with
  | refl =>
    refine ⟨[b], .single b, ?_⟩
    simpa using ha.symm
  | head hstep _ ih =>
    obtain ⟨l, p, hl⟩ := ih hstep.2
    refine ⟨_ :: l, .cons hstep.1 p, fun hmem => ?_⟩
    rcases List.mem_cons.mp hmem with rfl | hmem
    · exact ha rfl
    · exact hl hmem

theorem exists_path (h : ReflTransGen E a b) : ∃ l, Walk E a l b := by
  induction h using ReflTransGen.head_induction_on with
  | refl => exact ⟨[b], .single b⟩
  | head hstep _ ih =>
    obtain ⟨l, p⟩ := ih
    exact ⟨_ :: l, .cons hstep p⟩

/-! ## Reachability that avoids a vertex -/

theorem Avoids.ne (h : Avoids E d a b) (ha : a ≠ d) : b ≠ d := by
  cases h with
  | refl => exact ha
  | tail _ h => exact h.2

/-- **Dominance without paths**: the root dominates everything, and another vertex dominates
what cannot be reached while avoiding it. -/
theorem dominates_iff : Dominates E r a b ↔ a = r ∨ ¬Avoids E a r b := by
  constructor
  · intro h
    by_cases har : a = r
    · exact .inl har
    · refine .inr fun hav => ?_
      obtain ⟨l, p, hl⟩ := hav.exists_path fun h => har h.symm
      exact hl (h l p)
  · intro h l p
    rcases h with rfl | h
    · exact p.mem_head
    · by_contra hl
      exact h (p.avoids hl)

/-! ## Dominance -/

theorem Dominates.refl (E : α → α → Prop) (r a : α) : Dominates E r a a := by
  rw [dominates_iff]
  by_cases har : a = r
  · exact .inl har
  · exact .inr fun h => h.ne (fun h => har h.symm) rfl

theorem dominates_root (E : α → α → Prop) (r b : α) : Dominates E r r b :=
  dominates_iff.mpr (.inl rfl)

/-- Dominators of a dominator are dominators: take the path up to the last visit. -/
theorem Dominates.trans (hab : Dominates E r a b) (hbc : Dominates E r b c) :
    Dominates E r a c := by
  rw [dominates_iff] at hab ⊢
  rcases hab with har | hab
  · exact .inl har
  refine .inr fun hav => ?_
  rw [dominates_iff] at hbc
  rcases hbc with rfl | hbc
  · exact hab .refl
  -- Along the way to `c` either `b` is avoided so far, or it was reached.
  have hstep : ∀ x, Avoids E a r x → Avoids E b r x ∨ Avoids E a r b := by
    intro x hx
    induction hx with
    | refl => exact .inl .refl
    | @tail y z hprev hedge ih =>
      rcases ih with ih | ih
      · by_cases hz : z = b
        · exact .inr (hz ▸ hprev.tail hedge)
        · exact .inl (ih.tail ⟨hedge.1, hz⟩)
      · exact .inr ih
  rcases hstep c hav with h | h
  · exact hbc h
  · exact hab h

theorem Dominates.reaches (h : Dominates E r a b) (hb : ReflTransGen E r b) :
    ReflTransGen E r a ∧ ReflTransGen E a b := by
  obtain ⟨l, p⟩ := exists_path hb
  have hmem := h l p
  clear h hb
  induction p with
  | single x =>
    obtain rfl : a = x := by simpa using hmem
    exact ⟨.refl, .refl⟩
  | cons hedge p ih =>
    rcases List.mem_cons.mp hmem with rfl | hmem
    · exact ⟨.refl, .head hedge p.reaches⟩
    · exact ⟨.head hedge (ih hmem).1, (ih hmem).2⟩

theorem Dominates.eq_root (h : Dominates E r a r) : a = r := by
  simpa using h [r] (.single r)

theorem Dominates.antisymm (hab : Dominates E r a b) (hba : Dominates E r b a)
    (ha : ReflTransGen E r a) : a = b := by
  by_contra hne
  have har : a ≠ r := fun h => hne (by subst h; exact hba.eq_root.symm)
  have hbr : b ≠ r := fun h => hne (by subst h; exact hab.eq_root)
  have hab := (dominates_iff.mp hab).resolve_left har
  have hba := (dominates_iff.mp hba).resolve_left hbr
  -- The first of the two on a path from the root is reached without the other.
  have hboth : ∀ x, ReflTransGen E r x → ReflTransGen (fun y z => E y z ∧ z ≠ a ∧ z ≠ b) r x := by
    intro x hx
    induction hx with
    | refl => exact .refl
    | @tail y z _ hedge ih =>
      by_cases hza : z = a
      · subst hza
        refine absurd (.tail (.mono ?_ _ _ ih) ⟨hedge, hne⟩) hba
        exact fun _ _ h => ⟨h.1, h.2.2⟩
      by_cases hzb : z = b
      · subst hzb
        refine absurd (.tail (.mono ?_ _ _ ih) ⟨hedge, hza⟩) hab
        exact fun _ _ h => ⟨h.1, h.2.1⟩
      · exact .tail ih ⟨hedge, hza, hzb⟩
  cases hboth a ha with
  | refl => exact har rfl
  | tail _ h => exact h.2.1 rfl

theorem IsImmediateDominator.unique (h : IsImmediateDominator E r c b)
    (h' : IsImmediateDominator E r d b) (hb : ReflTransGen E r b) : c = d :=
  (h'.2 c h.1).antisymm (h.2 d h'.1) (h.1.1.reaches hb).1

end WasmDeps.Lib
