import Mathlib.Algebra.Order.Ring.Int
import Mathlib.Algebra.BigOperators.Group.Finset.Basic

/-!
# Finite maps with ordered keys

A `SortedMap K V` is a list of entries whose keys strictly increase; the ordering
is a field, so an entry list with a repeated or misplaced key is not a map.  The
operations are those of an ordered tree map: lookup, insertion, removal, the first
and last entries, and the nearest entries on either side of a key.

Every operation is described by what `get?` returns afterwards, and the ordered
queries by which entry they pick, so a client never looks at the entry list.
-/

namespace WasmDeps.Lib

open List

universe u v

/-- A finite map, as its entries in strictly increasing key order. -/
structure SortedMap (K : Type u) (V : Type v) [LinearOrder K] where
  entries : List (K × V)
  /-- Keys strictly increase, so no key occurs twice. -/
  sorted : entries.Pairwise (fun a b => a.1 < b.1)

abbrev SortedSet (K : Type u) [LinearOrder K] := SortedMap K Unit

namespace SortedMap

variable {K : Type u} {V : Type v} [LinearOrder K]

instance [DecidableEq V] : DecidableEq (SortedMap K V) := fun a b =>
  decidable_of_iff (a.entries = b.entries) (by cases a; cases b; simp)

def empty : SortedMap K V := ⟨[], List.Pairwise.nil⟩

def get? (m : SortedMap K V) (k : K) : Option V :=
  (m.entries.find? (fun e => decide (e.1 = k))).map Prod.snd

def isEmpty (m : SortedMap K V) : Bool := m.entries.isEmpty

def size (m : SortedMap K V) : ℕ := m.entries.length

def insert (m : SortedMap K V) (k : K) (v : V) : SortedMap K V where
  entries := m.entries.filter (fun e => decide (e.1 < k)) ++
    (k, v) :: m.entries.filter (fun e => decide (k < e.1))
  sorted := by
    rw [pairwise_append]
    refine ⟨m.sorted.filter _, ?_, ?_⟩
    · rw [pairwise_cons]
      refine ⟨fun e he => ?_, m.sorted.filter _⟩
      simpa using (mem_filter.mp he).2
    intro a ha b hb
    have hak : a.1 < k := by simpa using (mem_filter.mp ha).2
    rcases mem_cons.mp hb with rfl | hb
    · exact hak
    · have hkb : k < b.1 := by simpa using (mem_filter.mp hb).2
      exact hak.trans hkb

def erase (m : SortedMap K V) (k : K) : SortedMap K V where
  entries := m.entries.filter (fun e => decide (e.1 ≠ k))
  sorted := m.sorted.filter _

def first? (m : SortedMap K V) : Option (K × V) := m.entries.head?

def last? (m : SortedMap K V) : Option (K × V) := m.entries.getLast?

/-- The entry with the largest key below `k`. -/
def below? (m : SortedMap K V) (k : K) : Option (K × V) :=
  (m.entries.filter (fun e => decide (e.1 < k))).getLast?

/-- The entries whose key is at least `k`, in key order. -/
def rangeFrom (m : SortedMap K V) (k : K) : List (K × V) :=
  m.entries.filter (fun e => decide (k ≤ e.1))

/-- The entry with the smallest key that is at least `k`. -/
def atLeast? (m : SortedMap K V) (k : K) : Option (K × V) := (m.rangeFrom k).head?

/-! ## Lookup -/

variable {m : SortedMap K V} {k : K}

variable {w : V} {l : List (K × V)} {e : K × V}

theorem eq_of_mem {v : V} (hv : (k, v) ∈ m.entries) (hw : (k, w) ∈ m.entries) : v = w := by
  have hkeys : ∀ a b : K × V, a.1 < b.1 → a.1 = b.1 → a = b := fun a b hlt heq =>
    absurd heq hlt.ne
  have h := List.Pairwise.forall_of_forall_of_flip (fun _ _ _ => rfl) (m.sorted.imp (hkeys _ _))
    (m.sorted.imp fun {a b} hlt (heq : b.1 = a.1) => (hkeys a b hlt heq.symm).symm) hv hw rfl
  exact congrArg Prod.snd h

variable {v : V}

theorem get?_eq_some : m.get? k = some v ↔ (k, v) ∈ m.entries := by
  rw [get?, Option.map_eq_some_iff]
  constructor
  · rintro ⟨e, he, rfl⟩
    have hk : e.1 = k := by simpa using find?_some he
    simpa [← hk] using mem_of_find?_eq_some he
  intro hmem
  cases hf : m.entries.find? (fun e => decide (e.1 = k)) with
  | none =>
    have := find?_eq_none.mp hf _ hmem
    simp at this
  | some e =>
    have hk : e.1 = k := by simpa using find?_some hf
    have he := mem_of_find?_eq_some hf
    refine ⟨e, rfl, ?_⟩
    exact eq_of_mem (by simpa [← hk] using he) hmem

theorem get?_eq_none : m.get? k = none ↔ ∀ v, (k, v) ∉ m.entries := by
  constructor
  · intro h v hv
    rw [get?_eq_some.mpr hv] at h
    cases h
  · intro h
    cases hg : m.get? k with
    | none => rfl
    | some v => exact absurd (get?_eq_some.mp hg) (h v)

@[simp] theorem get?_empty (k : K) : (empty : SortedMap K V).get? k = none := rfl

@[simp] theorem get?_insert (m : SortedMap K V) (k j : K) (v : V) :
    (m.insert k v).get? j = if j = k then some v else m.get? j := by
  apply Option.ext
  intro w
  rw [get?_eq_some]
  by_cases hj : j = k
  · subst hj
    simp [insert, eq_comm]
  rw [if_neg hj, get?_eq_some]
  simp only [insert, mem_append, mem_filter, mem_cons, Prod.mk.injEq, hj,
    false_and, false_or, decide_eq_true_eq]
  rcases lt_or_gt_of_ne hj with h | h
  · simp [h, h.not_gt]
  · simp [h, h.not_gt]

@[simp] theorem get?_erase (m : SortedMap K V) (k j : K) :
    (m.erase k).get? j = if j = k then none else m.get? j := by
  apply Option.ext
  intro w
  rw [get?_eq_some]
  by_cases hj : j = k
  · simp [erase, hj]
  · rw [if_neg hj, get?_eq_some]
    simp [erase, hj]

/-! ## Keys -/

def keys (m : SortedMap K V) : Finset K := (m.entries.map Prod.fst).toFinset

theorem mem_keys : k ∈ m.keys ↔ ∃ v, m.get? k = some v := by
  simp [keys, mem_toFinset, Prod.exists, exists_and_right, get?_eq_some]

theorem mem_keys_of_get? (h : m.get? k = some v) : k ∈ m.keys := mem_keys.mpr ⟨v, h⟩

theorem nodup_map_fst (m : SortedMap K V) : (m.entries.map Prod.fst).Nodup :=
  pairwise_map.mpr (m.sorted.imp fun h => h.ne)

theorem keys_insert_of_mem (v : V) (h : k ∈ m.keys) : (m.insert k v).keys = m.keys := by
  ext j
  rw [mem_keys, mem_keys]
  by_cases hj : j = k
  · subst hj
    simp [mem_keys.mp h]
  · simp [hj]

theorem keys_insert (m : SortedMap K V) (k : K) (v : V) :
    (m.insert k v).keys = Insert.insert k m.keys := by
  ext j
  rw [Finset.mem_insert, mem_keys, mem_keys]
  by_cases hj : j = k
  · simp [hj]
  · simp [hj]

theorem keys_erase (m : SortedMap K V) (k : K) : (m.erase k).keys = m.keys.erase k := by
  ext j
  rw [Finset.mem_erase, mem_keys, mem_keys]
  by_cases hj : j = k
  · simp [hj]
  · simp [hj]

theorem nodup_entries (m : SortedMap K V) : m.entries.Nodup :=
  m.sorted.imp fun h heq => h.ne (congrArg Prod.fst heq)

theorem perm_erase (h : m.get? k = some v) : m.entries.Perm ((k, v) :: (m.erase k).entries) := by
  have hnot : (k, v) ∉ (m.erase k).entries := by simp [← get?_eq_some]
  rw [perm_ext_iff_of_nodup m.nodup_entries (nodup_cons.mpr ⟨hnot, (m.erase k).nodup_entries⟩)]
  rintro ⟨j, w⟩
  rw [mem_cons, ← get?_eq_some, ← get?_eq_some, get?_erase]
  by_cases hj : j = k
  · subst hj
    simp [h, eq_comm]
  · simp [hj]

theorem perm_insert (m : SortedMap K V) (k : K) (v : V) :
    (m.insert k v).entries.Perm ((k, v) :: (m.erase k).entries) := by
  have herase : ((m.insert k v).erase k).entries.Perm (m.erase k).entries := by
    rw [perm_ext_iff_of_nodup (nodup_entries _) (nodup_entries _)]
    rintro ⟨j, w⟩
    rw [← get?_eq_some, ← get?_eq_some]
    by_cases hj : j = k
    · simp [hj]
    · simp [hj]
  exact (perm_erase (by simp)).trans (herase.cons (k, v))

theorem erase_of_get?_eq_none (h : m.get? k = none) : (m.erase k).entries = m.entries := by
  rw [erase, filter_eq_self]
  rintro ⟨j, w⟩ hmem
  have hj : j ≠ k := fun heq => get?_eq_none.mp h w (heq ▸ hmem)
  simpa using hj

theorem sum_keys (m : SortedMap K V) (f : K → ℕ) :
    ∑ k ∈ m.keys, f k = (m.entries.map fun e => f e.1).sum := by
  rw [keys, sum_toFinset _ m.nodup_map_fst, map_map]
  rfl

/-! ## Ordered queries -/

private theorem le_getLast (h : l.Pairwise (fun a b => a.1 < b.1)) (he : l.getLast? = some e) :
    ∀ x ∈ l, x.1 ≤ e.1 := by
  intro x hx
  obtain ⟨l', rfl⟩ := getLast?_eq_some_iff.mp he
  rcases mem_append.mp hx with hx | hx
  · exact (pairwise_append.mp h).2.2 x hx e (by simp) |>.le
  · rw [mem_singleton] at hx
    exact hx ▸ le_rfl

private theorem head_le (h : l.Pairwise (fun a b => a.1 < b.1)) (he : l.head? = some e) :
    ∀ x ∈ l, e.1 ≤ x.1 := by
  intro x hx
  cases l with
  | nil => simp at he
  | cons a l =>
    obtain rfl : a = e := by simpa using he
    rcases mem_cons.mp hx with rfl | hx
    · exact le_rfl
    · exact (pairwise_cons.mp h).1 x hx |>.le

theorem first?_spec (h : m.first? = some (k, v)) :
    m.get? k = some v ∧ ∀ j w, m.get? j = some w → k ≤ j := by
  refine ⟨get?_eq_some.mpr (mem_of_mem_head? h), fun j w hj => ?_⟩
  exact head_le m.sorted h _ (get?_eq_some.mp hj)

theorem first?_eq_none (h : m.first? = none) (k : K) : m.get? k = none := by
  rw [get?_eq_none]
  intro v
  rw [first?, head?_eq_none_iff] at h
  simp [h]

theorem last?_spec (h : m.last? = some (k, v)) :
    m.get? k = some v ∧ ∀ j w, m.get? j = some w → j ≤ k := by
  refine ⟨get?_eq_some.mpr (mem_of_getLast? h), fun j w hj => ?_⟩
  exact le_getLast m.sorted h _ (get?_eq_some.mp hj)

theorem last?_eq_none (h : m.last? = none) (k : K) : m.get? k = none := by
  rw [get?_eq_none]
  intro v
  rw [last?, getLast?_eq_none_iff] at h
  simp [h]

theorem below?_spec {k j : K} (h : m.below? k = some (j, v)) :
    m.get? j = some v ∧ j < k ∧ ∀ i w, m.get? i = some w → i < k → i ≤ j := by
  have hmem := mem_of_getLast? h
  rw [mem_filter] at hmem
  refine ⟨get?_eq_some.mpr hmem.1, by simpa using hmem.2, fun i w hi hik => ?_⟩
  apply le_getLast (m.sorted.filter _) h (i, w)
  rw [mem_filter]
  exact ⟨get?_eq_some.mp hi, by simpa using hik⟩

theorem below?_eq_none (h : m.below? k = none) {i : K} (hi : m.get? i = some w) : k ≤ i := by
  rw [below?, getLast?_eq_none_iff, filter_eq_nil_iff] at h
  have := h _ (get?_eq_some.mp hi)
  simpa using this

theorem mem_rangeFrom {k j : K} : (j, v) ∈ m.rangeFrom k ↔ m.get? j = some v ∧ k ≤ j := by
  rw [rangeFrom, get?_eq_some]
  simp

theorem atLeast?_spec {k j : K} (h : m.atLeast? k = some (j, v)) :
    m.get? j = some v ∧ k ≤ j ∧ ∀ i w, m.get? i = some w → k ≤ i → j ≤ i := by
  have hmem := mem_rangeFrom.mp (mem_of_mem_head? h)
  refine ⟨hmem.1, hmem.2, fun i w hi hki => ?_⟩
  exact head_le (m.sorted.filter _) h (i, w) (mem_rangeFrom.mpr ⟨hi, hki⟩)

theorem atLeast?_eq_none (h : m.atLeast? k = none) {i : K} (hi : m.get? i = some w) : i < k := by
  rw [atLeast?, head?_eq_none_iff] at h
  by_contra hle
  have := mem_rangeFrom.mpr ⟨hi, not_lt.mp hle⟩
  simp [h] at this

/-! ## Few entries -/

theorem isEmpty_eq_false : m.isEmpty = false ↔ ∃ k v, m.get? k = some v := by
  rw [isEmpty, isEmpty_eq_false_iff_exists_mem]
  constructor
  · rintro ⟨⟨k, v⟩, hmem⟩
    exact ⟨k, v, get?_eq_some.mpr hmem⟩
  · rintro ⟨k, v, hget⟩
    exact ⟨(k, v), get?_eq_some.mp hget⟩

theorem isEmpty_eq_true : m.isEmpty = true ↔ ∀ k, m.get? k = none := by
  rw [← Bool.not_eq_false, isEmpty_eq_false]
  simp [not_exists, Option.eq_none_iff_forall_ne_some]

theorem entries_eq_nil (h : ∀ k v, m.get? k ≠ some v) : m.entries = [] := by
  rw [eq_nil_iff_forall_not_mem]
  rintro ⟨k, v⟩ hmem
  exact h k v (get?_eq_some.mpr hmem)

theorem entries_eq_singleton (h : m.get? k = some v) (huniq : ∀ j w, m.get? j = some w → j = k) :
    m.entries = [(k, v)] := by
  have hmem := get?_eq_some.mp h
  rcases hm : m.entries with _ | ⟨a, _ | ⟨b, l⟩⟩
  · simp [hm] at hmem
  · simpa [hm, eq_comm] using hmem
  have hlt : a.1 < b.1 := by
    have := m.sorted
    rw [hm] at this
    exact (pairwise_cons.mp this).1 b (by simp)
  have ha := huniq a.1 a.2 (get?_eq_some.mpr (by simp [hm]))
  have hb := huniq b.1 b.2 (get?_eq_some.mpr (by simp [hm]))
  exact absurd (ha.trans hb.symm) hlt.ne

end SortedMap

end WasmDeps.Lib
