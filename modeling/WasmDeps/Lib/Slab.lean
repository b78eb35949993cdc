import WasmDeps.Lib.Exec
import Mathlib.Data.List.Nodup

/-!
# Slabs

A `Slab` hands out small integers as names for the values put into it and reuses the
names of values taken out.  Vacant entries are kept on a free list; the entry freed last
is reused first.  That the free list holds vacant entries only, each of them once, is
part of the structure.

A slab is described by `Slab.get?`, the partial map from names to values.
-/

namespace WasmDeps.Lib

open List

/-- Entries that are occupied or vacant, and the vacant ones in the order of reuse. -/
structure Slab (α : Type) where
  /-- The entries; a vacant one is `none`. -/
  entries : List (Option α)
  free : List ℕ
  /-- The free list holds vacant entries. -/
  vacant : ∀ i ∈ free, entries[i]? = some none
  /-- No entry is on the free list twice. -/
  nodup : free.Nodup

namespace Slab

variable {α : Type} {s : Slab α} {i j : ℕ} {a : α}

def empty : Slab α where
  entries := []
  free := []
  vacant := by simp
  nodup := nodup_nil

def get? (s : Slab α) (i : ℕ) : Option α := s.entries[i]?.join

/-- The name that the next allocation hands out. -/
def nextId (s : Slab α) : ℕ := s.free.head?.getD s.entries.length

/-- Put a value into the first entry of the free list, or into a new entry at the end. -/
def alloc (s : Slab α) (a : α) : Slab α :=
  match h : s.free with
  | [] =>
    { entries := s.entries ++ [some a]
      free := []
      vacant := by simp
      nodup := nodup_nil }
  | i :: rest =>
    { entries := s.entries.set i (some a)
      free := rest
      vacant := by
        intro j hj
        have hnodup : (i :: rest).Nodup := h ▸ s.nodup
        have hne : i ≠ j := fun he => (nodup_cons.mp hnodup).1 (he ▸ hj)
        rw [getElem?_set_ne hne]
        exact s.vacant j (h ▸ mem_cons_of_mem i hj)
      nodup := (nodup_cons.mp (h ▸ s.nodup : (i :: rest).Nodup)).2 }

def dealloc (s : Slab α) (i : ℕ) : Exec (Slab α) :=
  match h : s.entries[i]? with
  | some (some _) =>
    pure
      { entries := s.entries.set i none
        free := i :: s.free
        vacant := by
          intro j hj
          have hlt : i < s.entries.length := (List.getElem?_eq_some_iff.mp h).1
          rw [getElem?_set]
          rcases mem_cons.mp hj with rfl | hj
          · simp [hlt]
          · split
            · simp
            · exact s.vacant j hj
        nodup := by
          refine nodup_cons.mpr ⟨fun hi => ?_, s.nodup⟩
          rw [s.vacant i hi] at h
          cases h }
  | some none => throw (.panic "attempt to deallocate an entry that is already vacant")
  | none => throw (.panic "id from a different slab")

def put (s : Slab α) (i : ℕ) (a : α) : Exec (Slab α) :=
  match h : s.entries[i]? with
  | some (some _) =>
    pure
      { entries := s.entries.set i (some a)
        free := s.free
        vacant := by
          intro j hj
          have hne : i ≠ j := by
            rintro rfl
            rw [s.vacant i hj] at h
            cases h
          rw [getElem?_set_ne hne]
          exact s.vacant j hj
        nodup := s.nodup }
  | _ => throw (.panic "id from different slab or value was deallocated")

@[simp] theorem get?_empty (i : ℕ) : (empty : Slab α).get? i = none := by
  simp [get?, empty]

theorem entries_of_get? (h : s.get? i = some a) : s.entries[i]? = some (some a) := by
  rw [get?] at h
  cases he : s.entries[i]? with
  | none => simp [he] at h
  | some x => simpa [he] using h

theorem get?_fresh (s : Slab α) : s.get? s.nextId = none := by
  unfold get? nextId
  cases h : s.free with
  | nil => simp
  | cons i rest => simp [s.vacant i (h ▸ mem_cons_self)]

theorem get?_alloc (s : Slab α) (a : α) (j : ℕ) :
    (s.alloc a).get? j = if j = s.nextId then some a else s.get? j := by
  unfold alloc nextId
  split
  · rename_i h
    rw [h, head?_nil, Option.getD_none, get?, getElem?_concat]
    split <;> rfl
  rename_i i rest h
  have hi := s.vacant i (h ▸ (.head _))
  have hlt := lt_of_getElem? hi
  simp only [h, head?_cons, Option.getD_some, get?, getElem?_set]
  by_cases hj : j = i
  · simp [hj, hlt]
  · rw [if_neg (Ne.symm hj), if_neg hj]

theorem dealloc_of (h : s.get? i = some a) :
    ∃ t, s.dealloc i = .ok t ∧ ∀ j, t.get? j = if j = i then none else s.get? j := by
  have he := entries_of_get? h
  have hlt := lt_of_getElem? he
  rw [dealloc]
  split
  · refine ⟨_, rfl, fun j => ?_⟩
    simp only [get?, getElem?_set]
    by_cases hj : j = i
    · simp [hj, hlt]
    · rw [if_neg (Ne.symm hj), if_neg hj]
  · rename_i hn
    rw [he] at hn
    cases hn
  · rename_i hn
    rw [he] at hn
    cases hn

theorem put_of {b : α} (h : s.get? i = some a) :
    ∃ t, s.put i b = .ok t ∧ ∀ j, t.get? j = if j = i then some b else s.get? j := by
  have he := entries_of_get? h
  have hlt := lt_of_getElem? he
  rw [put]
  split
  · refine ⟨_, rfl, fun j => ?_⟩
    simp only [get?, getElem?_set]
    by_cases hj : j = i
    · simp [hj, hlt]
    · rw [if_neg (Ne.symm hj), if_neg hj]
  · rename_i hn
    exact absurd he (hn _)

end Slab

end WasmDeps.Lib
