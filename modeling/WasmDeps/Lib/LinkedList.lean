import Mathlib.Data.List.Nodup

/-!
# Intrusive linked lists

The nodes of an intrusive list carry their own links; the list itself is only its
two ends.  `Linked link l xs` says that the ends `l` and the node links `link`
represent the sequence `xs`.  Links are read through a function, so one store can
hold several lists at once, each read through its own field.

A client proves what its code does to the links, one node at a time, and
`Linked.append` and `Linked.remove` give the represented sequence.

A singly linked list is a path along its `next` links; `Path next l xs l'` says that the
path from `l` goes through the nodes `xs` and continues at `l'`.
-/

namespace WasmDeps.Lib

open List

universe u

structure Link (ι : Type u) where
  prev : Option ι
  next : Option ι
  deriving DecidableEq, Repr

structure Ends (ι : Type u) where
  head : Option ι
  tail : Option ι
  deriving DecidableEq, Repr

variable {ι : Type u}

/-- The list with ends `l`, read through `link`, is the sequence `xs`. -/
structure Linked (link : ι → Option (Link ι)) (l : Ends ι) (xs : List ι) : Prop where
  nodup : xs.Nodup
  head_eq : l.head = xs.head?
  tail_eq : l.tail = xs.getLast?
  /-- Every node is linked to its neighbours. -/
  link_eq : ∀ pre x post, xs = pre ++ x :: post → link x = some ⟨pre.getLast?, post.head?⟩

namespace Linked

variable {link link' : ι → Option (Link ι)} {l : Ends ι} {xs pre post : List ι} {id : ι}

theorem nil : Linked link ⟨none, none⟩ [] where
  nodup := nodup_nil
  head_eq := rfl
  tail_eq := rfl
  link_eq := by simp

theorem congr (h : Linked link l xs) (hlink : ∀ x ∈ xs, link' x = link x) :
    Linked link' l xs where
  nodup := h.nodup
  head_eq := h.head_eq
  tail_eq := h.tail_eq
  link_eq := by
    intro pre x post hxs
    rw [hlink x (by simp [hxs]), h.link_eq pre x post hxs]

theorem eq_nil_of_head (h : Linked link l xs) (hl : l.head = none) : xs = [] := by
  rw [h.head_eq, head?_eq_none_iff] at hl
  exact hl

theorem mem_of_tail (h : Linked link l xs) (hl : l.tail = some id) : id ∈ xs :=
  mem_of_getLast? (h.tail_eq ▸ hl)

private theorem getLast?_ne_of_nodup {x y : ι} (h : (pre ++ x :: y :: post).Nodup) :
    (pre ++ x :: y :: post).getLast? ≠ some x := by
  intro hl
  have hmem : x ∈ y :: post := by
    apply mem_of_getLast?
    simpa [getLast?_append] using hl
  have := (nodup_append.mp h).2.1
  rw [nodup_cons] at this
  exact this.1 hmem

/-- **Appending a node.**  The old tail gets the new node as its next, the new node
gets the old tail as its previous. -/
theorem append [DecidableEq ι] (h : Linked link l xs) (hid : id ∉ xs)
    (hnew : link' id = some ⟨l.tail, none⟩) (hold : ∀ x ∈ xs, link' x = (link x).map fun k =>
      if l.tail = some x then { k with next := some id } else k) :
    Linked link' ⟨l.head.or (some id), some id⟩ (xs ++ [id]) where
  nodup := by
    rw [nodup_append]
    refine ⟨h.nodup, nodup_singleton id, ?_⟩
    rintro x hx y hy rfl
    exact hid (mem_singleton.mp hy ▸ hx)
  head_eq := by
    rw [h.head_eq]
    cases xs <;> simp
  tail_eq := by simp
  link_eq := by
    intro pre x post hxs
    rcases eq_nil_or_concat post with rfl | ⟨post', y, rfl⟩
    · obtain ⟨rfl, hx⟩ := append_inj' hxs rfl
      obtain rfl : id = x := by simpa using hx
      rw [hnew, h.tail_eq]
      rfl
    -- An old node keeps its previous; its next changes only if it was the tail.
    have hspl : xs ++ [id] = (pre ++ x :: post') ++ [y] := by simpa using hxs
    obtain ⟨hxs', hy⟩ := append_inj' hspl rfl
    obtain rfl : id = y := by simpa using hy
    rw [hold x (by simp [hxs']), h.link_eq pre x post' hxs', h.tail_eq]
    cases post' with
    | nil => simp [hxs']
    | cons z zs =>
      have hne : xs.getLast? ≠ some x := by
        have hnd := h.nodup
        rw [hxs'] at hnd ⊢
        exact getLast?_ne_of_nodup hnd
      simp [hne]

/-- **Removing a node.**  Its neighbours are linked to each other. -/
theorem remove [DecidableEq ι] (h : Linked link l (pre ++ id :: post))
    (hold : ∀ x ∈ pre ++ post, link' x = (link x).map fun k =>
      { prev := if post.head? = some x then pre.getLast? else k.prev
        next := if pre.getLast? = some x then post.head? else k.next }) :
    Linked link'
      { head := if pre.getLast?.isSome then l.head else post.head?
        tail := if post.head?.isSome then l.tail else pre.getLast? } (pre ++ post) where
  nodup := by
    have := h.nodup
    rw [nodup_middle, nodup_cons] at this
    exact this.2
  head_eq := by
    rw [h.head_eq]
    cases pre <;> simp
  tail_eq := by
    rw [h.tail_eq]
    cases post <;> simp [getLast?_append]
  link_eq := by
    intro p x q hspl
    have hnd := h.nodup
    rw [hold x (by simp [hspl])]
    rcases append_eq_append_iff.mp hspl with ⟨a, rfl, rfl⟩ | ⟨c, rfl, hc⟩
    · -- The node comes after the removed one.
      rw [h.link_eq (pre ++ id :: a) x q (by simp)]
      have hpre : pre.getLast? ≠ some x := by
        intro hl
        have hx := mem_of_getLast? hl
        exact (nodup_append.mp hnd).2.2 x hx x (by simp) rfl
      cases a with
      | nil => simp [hpre]
      | cons b a =>
        have hbx : b ≠ x := by
          rintro rfl
          simp [nodup_append] at hnd
        simp [hpre, hbx, getLast?_append, getLast?_cons]
    cases c with
    | nil =>
      -- The node is the first after the removed one.
      obtain rfl : x :: q = post := by simpa using hc
      rw [h.link_eq (p ++ [] ++ [id]) x q (by simp)]
      have hpre : p.getLast? ≠ some x := by
        intro hl
        have hx := mem_of_getLast? hl
        exact (nodup_append.mp hnd).2.2 x (by simpa using hx) x (by simp) rfl
      simp [hpre]
    | cons b c =>
      -- The node comes before the removed one.
      obtain ⟨rfl, rfl⟩ : x = b ∧ q = c ++ post := by simpa using hc
      rw [h.link_eq p x (c ++ id :: post) (by simp)]
      have hpost : post.head? ≠ some x := by
        intro hh
        have hx := mem_of_mem_head? hh
        exact (nodup_append.mp hnd).2.2 x (by simp) x (by simp [hx]) rfl
      cases c with
      | nil => simp [hpost]
      | cons d c =>
        have hne := getLast?_ne_of_nodup (nodup_append.mp hnd).1
        rw [Option.map_some, if_neg hne, if_neg hpost]
        simp

end Linked

/-! ## Singly linked lists -/

/-- Following `next` from `l` leads through the nodes `xs` to `l'`. -/
def Path {ι : Type u} (next : ι → Option ι) : Option ι → List ι → Option ι → Prop
  | l, [], l' => l = l'
  | l, x :: xs, l' => l = some x ∧ Path next (next x) xs l'

namespace Path

variable {ι : Type u} {next next' : ι → Option ι} {l l' l'' : Option ι} {xs ys : List ι}

instance decidable [DecidableEq ι] :
    (l : Option ι) → (xs : List ι) → (l' : Option ι) → Decidable (Path next l xs l')
  | l, [], l' => inferInstanceAs (Decidable (l = l'))
  | l, x :: xs, l' =>
    have := decidable (next x) xs l'
    inferInstanceAs (Decidable (l = some x ∧ Path next (next x) xs l'))

theorem append : Path next l (xs ++ ys) l'' ↔ ∃ l', Path next l xs l' ∧ Path next l' ys l'' := by
  induction xs generalizing l with
  | nil => simp [Path]
  | cons x xs ih => simp [Path, ih, and_assoc, exists_and_left]

theorem congr (h : Path next l xs l') (heq : ∀ x ∈ xs, next' x = next x) : Path next' l xs l' := by
  induction xs generalizing l with
  | nil => exact h
  | cons x xs ih =>
    refine ⟨h.1, ?_⟩
    rw [heq x mem_cons_self]
    exact ih h.2 fun y hy => heq y (.tail x hy)

theorem mem_of_some {x : ι} (h : Path next (some x) xs none) : x ∈ xs := by
  cases xs with
  | nil => exact absurd (show some x = none from h) (by simp)
  | cons y ys => exact Option.some.inj h.1 ▸ (.head _)

theorem remove {r : ι} [DecidableEq ι] (h : Path next l (xs ++ r :: ys) l')
    (hnd : (xs ++ r :: ys).Nodup)
    (hnext : ∀ x ∈ xs ++ ys, next' x = if xs.getLast? = some x then next r else next x) :
    Path next' (if xs = [] then next r else l) (xs ++ ys) l' := by
  induction xs generalizing l with
  | nil => exact h.2.congr fun x hx => by simpa using hnext x (by simpa using hx)
  | cons x xs ih =>
    have hnd' := (nodup_cons.mp hnd).2
    have hfst : next' x = if xs = [] then next r else next x := by
      rw [hnext x mem_cons_self]
      cases xs with
      | nil => simp
      | cons y xs =>
        have hne : ([] ++ x :: y :: xs).getLast? ≠ some x :=
          Linked.getLast?_ne_of_nodup (nodup_append.mp hnd).1
        exact (if_neg hne).trans (if_neg (cons_ne_nil y xs)).symm
    refine ⟨by simpa using h.1, ?_⟩
    rw [hfst]
    refine ih h.2 hnd' fun y hy => ?_
    rw [hnext y (.tail x hy)]
    cases xs with
    | nil =>
      have hyx : x ≠ y := by
        rintro rfl
        exact (nodup_cons.mp hnd).1 (mem_append_right [] (.tail r hy))
      simp [hyx]
    | cons z xs => simp [getLast?_cons_cons]

end Path

end WasmDeps.Lib
