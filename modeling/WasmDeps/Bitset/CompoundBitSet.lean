import WasmDeps.Lib.Call

/-!
# Compound bit sets

A set of indices is kept in words of `w` bits, with its largest index beside them.  To grow, a
set gives its words away before it allocates, so a failure leaves it without words but with its
maximum.  Removing an index leaves its word, so sets with the same indices may differ: they do
exactly if one of them has more words.
-/

namespace WasmDeps.Bitset

open Lib List Call

variable {w : ℕ}

/-- A search from the top of a range finds the last answer. -/
theorem findSome?_reverse_range {α : Type} {f : ℕ → Option α} {n : ℕ} {a : α} :
    (range n).reverse.findSome? f = some a ↔
      ∃ k < n, f k = some a ∧ ∀ j, k < j → j < n → f j = none := by
  induction n with
  | zero => simp
  | succ n ih =>
    rw [range_succ, reverse_append, reverse_singleton, singleton_append, findSome?_cons]
    cases hf : f n with
    | none =>
      simp only [ih]
      grind
    | some b =>
      simp only [Option.some.injEq]
      grind

/-- `ScalarBitSet<T>` for a type `T` of `w` bits. -/
abbrev ScalarBitSet (w : ℕ) := BitVec w

namespace ScalarBitSet

variable (x : ScalarBitSet w)

/-- The bit is set. -/
def contains (i : ℕ) : Bool := x.getLsbD i

def insert (i : ℕ) : ScalarBitSet w := x ||| 1#w <<< i

def remove (i : ℕ) : ScalarBitSet w := x &&& ~~~(1#w <<< i)

/-- The greatest bit that is set. -/
def max : Option ℕ := (range w).reverse.find? x.contains

variable {x} {i : ℕ}

theorem getLsbD_one_shiftLeft (hi : i < w) (j : ℕ) :
    (1#w <<< i).getLsbD j = decide (j = i) := by
  simp [← BitVec.twoPow_eq, BitVec.getLsbD_twoPow, hi, eq_comm]

theorem contains_insert (hi : i < w) (j : ℕ) :
    (x.insert i).contains j = if j = i then true else x.contains j := by
  rw [contains, insert, BitVec.getLsbD_or, getLsbD_one_shiftLeft hi]
  by_cases hj : j = i <;> simp [hj, contains]

theorem contains_remove (hi : i < w) (j : ℕ) :
    (x.remove i).contains j = if j = i then false else x.contains j := by
  by_cases hlt : j < w
  · rw [contains, remove, BitVec.getLsbD_and, BitVec.getLsbD_not, getLsbD_one_shiftLeft hi]
    by_cases hj : j = i <;> simp [hj, contains, hlt]
  · have hne : j ≠ i := fun h => hlt (h ▸ hi)
    rw [if_neg hne, contains, contains, BitVec.getLsbD_of_ge _ _ (not_lt.mp hlt),
      BitVec.getLsbD_of_ge _ _ (not_lt.mp hlt)]

theorem lt_of_contains (h : x.contains i = true) : i < w :=
  BitVec.lt_of_getLsbD h

/-- The greatest bit of a word, by its property. -/
theorem max_eq_some {b : ℕ} :
    x.max = some b ↔ x.contains b = true ∧ ∀ j, x.contains j = true → j ≤ b := by
  rw [ScalarBitSet.max, find?_eq_findSome?_guard, findSome?_reverse_range]
  simp only [Option.guard_eq_some_iff, Option.guard_eq_none_iff]
  constructor
  · rintro ⟨k, hk, ⟨rfl, hb⟩, hlast⟩
    refine ⟨hb, fun j hj => not_lt.mp fun hlt => ?_⟩
    exact Bool.false_ne_true ((hlast j hlt (lt_of_contains hj)).symm.trans hj)
  · rintro ⟨hb, hlast⟩
    refine ⟨b, lt_of_contains hb, ⟨rfl, hb⟩, fun j hlt _ => ?_⟩
    exact Bool.eq_false_iff.mpr fun hj => absurd (hlast j hj) (not_le.mpr hlt)

theorem exists_max (h : x.contains i = true) :
    ∃ b, x.max = some b ∧ i ≤ b := by
  cases hmax : x.max with
  | none =>
    rw [ScalarBitSet.max, find?_eq_none] at hmax
    exact absurd h (hmax i (by simpa using lt_of_contains h))
  | some b => exact ⟨b, rfl, (max_eq_some.mp hmax).2 i h⟩

end ScalarBitSet

/-- A bit set of any size: its words, and the greatest index. -/
structure CompoundBitSet (w : ℕ) where
  elems : List (ScalarBitSet w)
  max : Option ℕ
  deriving DecidableEq

namespace CompoundBitSet

def new : CompoundBitSet w := ⟨[], none⟩

/-- The index is in the set. -/
def contains (s : CompoundBitSet w) (i : ℕ) : Bool := s.elems[i / w]?.any (·.contains (i % w))

/-- `memory` says whether the allocation succeeds, if there is one. -/
def tryEnsureCapacity (memory : Bool) (n : ℕ) : Call (CompoundBitSet w) PUnit := do
  let s ← get
  if n = 0 ∨ (n - 1) / w < s.elems.length then pure ()
  else
    lift (ensure ((n - 1) / w < 2 ^ 63 - 1)
      "assertion failed: word < usize::try_from(isize::MAX).unwrap()")
    let toGrow := Max.max (Max.max ((n - 1) / w - s.elems.length + 1) s.elems.length) 4
    set { s with elems := [] }
    if memory then set { s with elems := s.elems ++ replicate toGrow 0#w }
    else bail "out of memory"

/-- Growth that panics when it fails. -/
def ensureCapacity (memory : Bool) (n : ℕ) : Call (CompoundBitSet w) PUnit :=
  ⟨fun s => match (tryEnsureCapacity memory n).run s with
    | (.error (.error msg), t) => (.error (.panic msg), t)
    | r => r⟩

/-- Inserts an index and says whether it is new. -/
def insert (memory : Bool) (i : ℕ) : Call (CompoundBitSet w) Bool := do
  ensureCapacity memory (← lift (addUsize i 1))
  let s ← get
  let x ← lift (unwrap s.elems[i / w]? "index out of bounds")
  let elems := s.elems.set (i / w) (x.insert (i % w))
  set { s with elems }
  -- The bit is set before the index is checked.
  lift (ensure (i ≤ u32Max)
    "called `Result::unwrap()` on an `Err` value: TryFromIntError(())")
  set { elems, max := some (s.max.elim i (Max.max · i)) }
  pure !x.contains (i % w)

/-- `TryEntitySet::insert`. -/
def tryInsert (memory : Bool) (i : ℕ) : Call (CompoundBitSet w) Bool := do
  tryEnsureCapacity memory (← lift (addUsize i 1))
  insert memory i

/-- The new maximum; the old one was in the given word. -/
def updateMax (elems : List (ScalarBitSet w)) (word : ℕ) : Exec (Option ℕ) := do
  let max := (range (word + 1)).reverse.findSome? fun k =>
    (elems[k]?.bind ScalarBitSet.max).map (k * w + ·)
  ensure (max.all (· ≤ u32Max))
    "called `Result::unwrap()` on an `Err` value: TryFromIntError(())"
  pure max

/-- Removes an index and says whether it was there. -/
def remove (i : ℕ) : Call (CompoundBitSet w) Bool := do
  let s ← get
  match s.elems[i / w]? with
  | none => pure false
  | some x =>
    let elems := s.elems.set (i / w) (x.remove (i % w))
    set { s with elems }
    if x.contains (i % w) ∧ s.max = some i then
      set { elems, max := ← lift (updateMax elems (i / w)) }
    pure (x.contains (i % w))

/-- Removes all indices; only the words up to the greatest index are written. -/
def clear : Call (CompoundBitSet w) PUnit := do
  let s ← get
  match s.max with
  | none => pure ()
  | some max =>
    lift (ensure (max / w < s.elems.length) "index out of bounds")
    let rest := s.elems.drop (max / w + 1)
    lift (ensure (∀ x ∈ rest, x = 0#w)
      "assertion failed: self.elems[word + 1..].iter().all(|sub| sub.is_empty())")
    set ⟨replicate (max / w + 1) 0#w ++ rest, none⟩

/-- Removes and returns the largest index. -/
def pop : Call (CompoundBitSet w) (Option ℕ) := do
  match (← get).max with
  | none => pure none
  | some max =>
    let _ ← remove max
    pure (some max)

variable {s t : CompoundBitSet w} {memory : Bool} {i : ℕ} {msg : String}

theorem ensureCapacity_no_err (n : ℕ) :
    ((ensureCapacity memory n).run s).1 ≠ .error (.error msg) := by
  rw [ensureCapacity]
  dsimp only
  split
  · simp
  · rename_i hno
    intro herr
    exact hno _ _ (Prod.ext herr rfl)

theorem insert_no_err : ((insert memory i).run s).1 ≠ .error (.error msg) := by
  simp only [insert, run_bind, run_lift, addUsize]
  split_ifs with hmax
  · have hno : ((ensureCapacity memory (i + 1)).run s).1 ≠ .error (.error msg) :=
      ensureCapacity_no_err (i + 1)
    simp only [Exec.pure_eq]
    generalize (ensureCapacity memory (i + 1)).run s = r at hno ⊢
    obtain ⟨e | _, t⟩ := r
    · simpa using hno
    · cases hx : t.elems[i / w]? with
      | none => simp [hx, unwrap]
      | some x => by_cases hi : i ≤ u32Max <;> simp [hx, hi]
  · simp

/-- The set allocates to have capacity for `n` indices. -/
def Grows (s : CompoundBitSet w) (n : ℕ) : Prop :=
  n ≠ 0 ∧ s.elems.length ≤ (n - 1) / w ∧ (n - 1) / w < 2 ^ 63 - 1

/-- Growth that is not needed does nothing. -/
theorem tryEnsureCapacity_of_not_grows (memory : Bool) {n : ℕ} (h : ¬s.Grows n) :
    (tryEnsureCapacity memory n).run s = (.ok ⟨⟩, s) ∨
      ∃ msg, (tryEnsureCapacity memory n).run s = (.error (.panic msg), s) := by
  by_cases hcap : n = 0 ∨ (n - 1) / w < s.elems.length
  · exact .inl (by simp [tryEnsureCapacity, run_bind, hcap])
  · obtain ⟨hn, hle⟩ := not_or.mp hcap
    have hmax : ¬(n - 1) / w < 2 ^ 63 - 1 := fun hmax => h ⟨hn, not_lt.mp hle, hmax⟩
    simp only [tryEnsureCapacity, run_bind, run_get, if_neg hcap, run_lift, ensure_of_not hmax]
    exact .inr ⟨_, rfl⟩

/-- Growth appends words, or drops all of them. -/
theorem tryEnsureCapacity_of_grows (memory : Bool) {n : ℕ} (h : s.Grows n) :
    ∃ k, (tryEnsureCapacity memory n).run s =
      if memory then (.ok ⟨⟩, ⟨s.elems ++ replicate k 0#w, s.max⟩)
      else (.error (.error "out of memory"), ⟨[], s.max⟩) := by
  obtain ⟨hn, hle, hmax⟩ := h
  have hcap : ¬(n = 0 ∨ (n - 1) / w < s.elems.length) := not_or.mpr ⟨hn, not_lt.mpr hle⟩
  simp only [tryEnsureCapacity, run_bind, run_get, if_neg hcap, run_lift, ensure_of hmax]
  refine ⟨Max.max (Max.max ((n - 1) / w - s.elems.length + 1) s.elems.length) 4, ?_⟩
  cases memory <;> rfl

/-- `try_ensure_capacity` fails cleanly if it has no words to drop. -/
theorem tryEnsureCapacity_clean_iff {n : ℕ} :
    (tryEnsureCapacity memory n).Clean s ↔ (s.Grows n → memory = true ∨ s.elems = []) := by
  by_cases hgrows : s.Grows n
  · obtain ⟨k, hk⟩ := tryEnsureCapacity_of_grows memory hgrows
    have hsame : (⟨[], s.max⟩ : CompoundBitSet w) = s ↔ s.elems = [] :=
      ⟨fun h => (congrArg elems h).symm, fun h => by rw [← h]⟩
    cases memory <;> simp [Clean, hk, hgrows, hsame]
  · obtain hk | ⟨msg, hk⟩ := tryEnsureCapacity_of_not_grows memory hgrows <;>
      simp [Clean, hk, hgrows]

/-- **Growth that fails changes the set exactly if it has words**: an `Err` of
`try_ensure_capacity`, or of an insertion built on it, leaves the set as it was exactly if the set
has capacity already, or the allocation succeeds, or there are no words to lose. -/
theorem growth_clean_iff (s : CompoundBitSet w) (memory : Bool) (n i : ℕ) :
    ((tryEnsureCapacity memory n).Clean s ↔ (s.Grows n → memory = true ∨ s.elems = [])) ∧
    ((tryInsert memory i).Clean s ↔
      (i + 1 ≤ usizeMax → s.Grows (i + 1) → memory = true ∨ s.elems = [])) := by
  refine ⟨tryEnsureCapacity_clean_iff, ?_⟩
  by_cases hi : i + 1 ≤ usizeMax
  · rw [imp_iff_right hi, ← tryEnsureCapacity_clean_iff]
    simp only [Clean, tryInsert, run_bind, run_lift, addUsize_of_le hi]
    refine forall_congr' fun msg => ?_
    generalize (tryEnsureCapacity memory (i + 1)).run s = r
    obtain ⟨e | _, t⟩ := r
    · simp
    · simp [insert_no_err]
  · simp [Clean, tryInsert, run_bind, addUsize, hi]

/-- The set of five loses it but keeps it as its maximum, and can then not be cleared. -/
theorem growth_drops_elements : ∃ s t : CompoundBitSet 64,
    (insert true 5).run new = (.ok true, s) ∧ s.contains 5 = true ∧
      (tryEnsureCapacity false 1000).run s = (.error (.error "out of memory"), t) ∧
      t.contains 5 = false ∧ t.max = some 5 ∧
      clear.run t = (.error (.panic "index out of bounds"), t) :=
  ⟨_, _, rfl, rfl, rfl, rfl, rfl, rfl⟩

/-! ## Runs

The indices of a set are what its words say.  Every call keeps its maximum the largest of them, so
of the two fields that `==` compares only the words can tell sets with the same indices apart. -/

/-- A call on a set. -/
inductive Op
  | insert (memory : Bool) (i : ℕ)
  | remove (i : ℕ)
  | pop
  | clear
  | ensureCapacity (memory : Bool) (n : ℕ)

/-- An operation on the set. -/
def Op.apply (s : CompoundBitSet w) : Op → Exec (CompoundBitSet w)
  | insert memory i => (CompoundBitSet.insert memory i).exec s
  | remove i => (CompoundBitSet.remove i).exec s
  | pop => CompoundBitSet.pop.exec s
  | clear => CompoundBitSet.clear.exec s
  | ensureCapacity memory n => (CompoundBitSet.ensureCapacity memory n).exec s

/-- Runs from the empty set. -/
def machine (w : ℕ) : Machine (CompoundBitSet w) Op where
  start s := s = new
  allowed _ _ := True
  step := Op.apply

/-- The maximum is the largest index. -/
structure MaxHolds (s : CompoundBitSet w) : Prop where
  mem : ∀ m ∈ s.max, s.contains m
  le : ∀ i, s.contains i → ∃ m ∈ s.max, i ≤ m

theorem contains_eq_any (hw : 0 < w) (k : ℕ) {b : ℕ} (hb : b < w) :
    s.contains (k * w + b) = s.elems[k]?.any (·.contains b) := by
  have hdiv : (k * w + b) / w = k := by
    rw [mul_comm, Nat.mul_add_div hw, Nat.div_eq_of_lt hb, add_zero]
  have hmod : (k * w + b) % w = b := by rw [mul_comm, Nat.mul_add_mod, Nat.mod_eq_of_lt hb]
  rw [contains, hdiv, hmod]

/-- Indices in the same word with the same bit are the same. -/
theorem eq_iff_word_and_bit {i j : ℕ} : i = j ↔ i / w = j / w ∧ i % w = j % w := by
  refine ⟨fun h => h ▸ ⟨rfl, rfl⟩, fun ⟨hdiv, hmod⟩ => ?_⟩
  rw [← Nat.div_add_mod i w, hdiv, hmod, Nat.div_add_mod]

/-- What `update_max` computes is the largest index, if there is none behind the word. -/
theorem maxHolds_updateMax (hw : 0 < w) {elems : List (ScalarBitSet w)} {word : ℕ} {max : Option ℕ}
    (hup : updateMax elems word = .ok max)
    (hle : ∀ j, contains ⟨elems, max⟩ j = true → j / w ≤ word) : MaxHolds ⟨elems, max⟩ := by
  obtain ⟨_, -, hpure⟩ := Exec.bind_eq_ok.mp hup
  obtain rfl := Except.ok.inj hpure
  constructor
  · intro m hm
    obtain ⟨k, -, hk, -⟩ := findSome?_reverse_range.mp hm
    obtain ⟨b, hb, rfl⟩ := Option.map_eq_some_iff.mp hk
    obtain ⟨x, hx, hb⟩ := Option.bind_eq_some_iff.mp hb
    have hb := (ScalarBitSet.max_eq_some.mp hb).1
    rw [contains_eq_any hw k (ScalarBitSet.lt_of_contains hb), hx]
    exact hb
  · intro j hj
    obtain ⟨x, hx, hxj⟩ := (Option.any_eq_true _ _).mp hj
    obtain ⟨b, hb, hjb⟩ := ScalarBitSet.exists_max hxj
    have hfound : (elems[j / w]?.bind ScalarBitSet.max).map (j / w * w + ·) =
        some (j / w * w + b) := by
      rw [hx, Option.bind_some, hb, Option.map_some]
    cases hmax : (range (word + 1)).reverse.findSome? fun k =>
        (elems[k]?.bind ScalarBitSet.max).map (k * w + ·) with
    | none =>
      have hnone := findSome?_eq_none_iff.mp hmax (j / w)
        (by simpa using Nat.lt_succ_of_le (hle j hj))
      rw [hfound] at hnone
      cases hnone
    | some m =>
      refine ⟨m, rfl, ?_⟩
      obtain ⟨k, hk, hm, hlast⟩ := findSome?_reverse_range.mp hmax
      have hjk : j / w ≤ k := not_lt.mp fun hlt => by
        have := hlast _ hlt (Nat.lt_succ_of_le (hle j hj))
        rw [hfound] at this
        cases this
      have hdiv := Nat.div_add_mod' j w
      rcases hjk.eq_or_lt with rfl | hlt
      · obtain rfl := Option.some.inj (hfound.symm.trans hm)
        omega
      · obtain ⟨c, -, rfl⟩ := Option.map_eq_some_iff.mp hm
        have hmod := Nat.mod_lt j hw
        have hmul := Nat.mul_le_mul_right w (Nat.succ_le_of_lt hlt)
        rw [Nat.succ_mul] at hmul
        omega

/-- Empty words contain nothing. -/
theorem contains_append_replicate (k : ℕ) (max : Option ℕ) (j : ℕ) :
    contains ⟨s.elems ++ replicate k 0#w, max⟩ j = s.contains j := by
  simp only [contains, getElem?_append, getElem?_replicate]
  split
  · rfl
  · rename_i hlt
    rw [getElem?_eq_none (not_lt.mp hlt)]
    split <;> simp [ScalarBitSet.contains]

/-- The indices after a word was changed at one bit. -/
theorem contains_set {elems : List (ScalarBitSet w)} {x y : ScalarBitSet w} (max max' : Option ℕ)
    (hx : elems[i / w]? = some x) {b : Bool}
    (hy : ∀ j, y.contains j = if j = i % w then b else x.contains j) (j : ℕ) :
    contains ⟨elems.set (i / w) y, max⟩ j = if j = i then b else contains ⟨elems, max'⟩ j := by
  simp only [contains, getElem?_set_of_lt (lt_of_getElem? hx)]
  by_cases hdiv : j / w = i / w
  · simp only [hdiv, if_true, Option.any_some, hy, hx]
    refine if_congr ?_ rfl rfl
    rw [eq_iff_word_and_bit (w := w) (i := j)]
    exact (and_iff_right hdiv).symm
  · have hne : j ≠ i := fun h => hdiv (h ▸ rfl)
    rw [if_neg hdiv, if_neg hne]

/-- What growth did, if it returned. -/
theorem ensureCapacity_eq_ok {n : ℕ} {u : PUnit}
    (h : (ensureCapacity memory n).run s = (.ok u, t)) :
    ∃ k, t = ⟨s.elems ++ replicate k 0#w, s.max⟩ := by
  have htry : (tryEnsureCapacity memory n).run s = (.ok u, t) := by
    rw [ensureCapacity] at h
    dsimp only at h
    split at h
    · cases h
    · exact h
  by_cases hgrows : s.Grows n
  · obtain ⟨k, hk⟩ := tryEnsureCapacity_of_grows memory hgrows
    rw [hk] at htry
    cases memory with
    | false => cases htry
    | true => exact ⟨k, (congrArg Prod.snd htry).symm⟩
  · obtain hk | ⟨msg, hk⟩ := tryEnsureCapacity_of_not_grows memory hgrows
    · rw [hk] at htry
      refine ⟨0, ?_⟩
      rw [replicate_zero, append_nil]
      exact (congrArg Prod.snd htry).symm
    · rw [hk] at htry
      cases htry

/-- What an insertion did, if it returned. -/
theorem insert_eq_ok {b : Bool} (h : (insert memory i).run s = (.ok b, t)) :
    ∃ k x, (s.elems ++ replicate k 0#w)[i / w]? = some x ∧
      t = ⟨(s.elems ++ replicate k 0#w).set (i / w) (x.insert (i % w)),
        some (s.max.elim i (Max.max · i))⟩ := by
  obtain ⟨n, _, hn, h⟩ := run_bind_eq_ok.mp h
  obtain rfl : s = _ := congrArg Prod.snd hn
  obtain ⟨_, u, hcap, h⟩ := run_bind_eq_ok.mp h
  obtain ⟨k, rfl⟩ := ensureCapacity_eq_ok hcap
  refine ⟨k, ?_⟩
  generalize s.elems ++ replicate k 0#w = elems at h ⊢
  simp only [run_bind, run_get, run_lift] at h
  cases hx : elems[i / w]? with
  | none => simp [hx, unwrap] at h
  | some x =>
    by_cases hi : i ≤ u32Max
    · simp only [hx, unwrap_some, ensure_of hi] at h
      exact ⟨x, rfl, (congrArg Prod.snd h).symm⟩
    · simp [hx, ensure_of_not hi] at h

namespace MaxHolds

theorem of_new : (new : CompoundBitSet w).MaxHolds where
  mem := nofun
  le := by simp [contains, new]

theorem append_replicate (H : s.MaxHolds) (k : ℕ) :
    MaxHolds ⟨s.elems ++ replicate k 0#w, s.max⟩ where
  mem m hm := by rw [contains_append_replicate, H.mem m hm]
  le i hi := H.le i (by rwa [contains_append_replicate] at hi)

/-- An insertion keeps the maximum right. -/
theorem insert (hw : 0 < w) (H : s.MaxHolds) {b : Bool}
    (h : (insert memory i).run s = (.ok b, t)) : t.MaxHolds := by
  obtain ⟨k, x, hx, rfl⟩ := insert_eq_ok h
  have H := H.append_replicate k
  have hmem := contains_set (some (s.max.elim i (Max.max · i))) s.max hx
    (ScalarBitSet.contains_insert (Nat.mod_lt i hw))
  constructor
  · rintro m ⟨⟩
    rw [hmem]
    split
    · rfl
    · rename_i hne
      cases hmax : s.max with
      | none => simp [hmax] at hne
      | some m =>
        refine hmax ▸ H.mem _ ?_
        rw [hmax] at hne ⊢
        grind
  · intro j hj
    refine ⟨_, rfl, ?_⟩
    rw [hmem] at hj
    split at hj
    · rename_i heq
      cases s.max <;> simp [heq]
    · obtain ⟨m, hm, hle⟩ := H.le j hj
      rw [hm]
      exact hle.trans (le_max_left m i)

/-- A removal keeps the maximum right. -/
theorem remove (hw : 0 < w) (H : s.MaxHolds) {b : Bool}
    (h : (remove i).run s = (.ok b, t)) : t.MaxHolds := by
  simp only [CompoundBitSet.remove, run_bind, run_get] at h
  cases hx : s.elems[i / w]? with
  | none =>
    simp only [hx] at h
    obtain rfl := congrArg Prod.snd h
    exact H
  | some x =>
    have hmem := fun max => contains_set max s.max hx
      (ScalarBitSet.contains_remove (Nat.mod_lt i hw))
    simp only [hx] at h
    by_cases hmax : x.contains (i % w) = true ∧ s.max = some i
    · rw [if_pos hmax] at h
      cases hup : updateMax (s.elems.set (i / w) (x.remove (i % w))) (i / w) with
      | error e => simp [hup, run_bind] at h
      | ok max =>
        simp only [hup, run_bind, run_lift] at h
        obtain rfl := congrArg Prod.snd h
        refine maxHolds_updateMax hw hup fun j hj => ?_
        rw [hmem] at hj
        split at hj
        · cases hj
        · obtain ⟨m, hm, hle⟩ := H.le j hj
          obtain rfl := Option.some.inj (hmax.2.symm.trans hm)
          exact Nat.div_le_div_right hle
    · rw [if_neg hmax] at h
      obtain rfl : ⟨s.elems.set (i / w) (x.remove (i % w)), s.max⟩ = t := congrArg Prod.snd h
      constructor
      · intro m hm
        have hne : m ≠ i := by
          rintro rfl
          refine hmax ⟨?_, hm⟩
          simpa [contains, hx] using H.mem m hm
        rw [hmem, if_neg hne]
        exact H.mem m hm
      · intro j hj
        rw [hmem] at hj
        split at hj
        · cases hj
        · exact H.le j hj

/-- `pop` keeps the maximum right. -/
theorem pop (hw : 0 < w) (H : s.MaxHolds) {m : Option ℕ} (h : pop.run s = (.ok m, t)) :
    t.MaxHolds := by
  simp only [CompoundBitSet.pop, run_bind, run_get] at h
  cases hmax : s.max with
  | none =>
    simp only [hmax] at h
    obtain rfl := congrArg Prod.snd h
    exact H
  | some max =>
    simp only [hmax] at h
    obtain ⟨b, u, hrem, h⟩ := run_bind_eq_ok.mp h
    obtain rfl := congrArg Prod.snd h
    exact H.remove hw hrem

/-- `clear` keeps the maximum right. -/
theorem clear (H : s.MaxHolds) {u : PUnit} (h : clear.run s = (.ok u, t)) :
    t.MaxHolds := by
  simp only [CompoundBitSet.clear, run_bind, run_get] at h
  cases hmax : s.max with
  | none =>
    simp only [hmax] at h
    obtain rfl := congrArg Prod.snd h
    exact H
  | some max =>
    simp only [hmax] at h
    obtain ⟨_, _, -, h⟩ := run_bind_eq_ok.mp h
    by_cases hrest : ∀ x ∈ s.elems.drop (max / w + 1), x = 0#w
    · simp only [run_bind, run_lift, ensure_of hrest] at h
      obtain rfl := congrArg Prod.snd h
      refine ⟨fun m hm => (by cases hm), fun j hj => ?_⟩
      obtain ⟨x, hx, hxj⟩ := (Option.any_eq_true _ _).mp hj
      have hzero : x = 0#w := by
        rcases mem_append.mp (mem_of_getElem? hx) with hmem | hmem
        · exact eq_of_mem_replicate hmem
        · exact hrest x hmem
      simp [hzero, ScalarBitSet.contains] at hxj
    · simp [run_bind, ensure_of_not hrest] at h

/-- Every operation keeps the maximum right. -/
theorem step (hw : 0 < w) (H : s.MaxHolds) {op : Op} (h : op.apply s = .ok t) : t.MaxHolds := by
  cases op with
  | insert memory i =>
    obtain ⟨b, h⟩ := exec_eq_ok.mp h
    exact H.insert hw h
  | remove i =>
    obtain ⟨b, h⟩ := exec_eq_ok.mp h
    exact H.remove hw h
  | pop =>
    obtain ⟨m, h⟩ := exec_eq_ok.mp h
    exact H.pop hw h
  | clear =>
    obtain ⟨u, h⟩ := exec_eq_ok.mp h
    exact H.clear h
  | ensureCapacity memory n =>
    obtain ⟨u, h⟩ := exec_eq_ok.mp h
    obtain ⟨k, rfl⟩ := ensureCapacity_eq_ok h
    exact H.append_replicate k

/-- The maximum depends on the indices only. -/
theorem max_eq (H : s.MaxHolds) (H' : t.MaxHolds) (h : ∀ i, s.contains i = t.contains i) :
    s.max = t.max := by
  cases hs : s.max with
  | none =>
    cases ht : t.max with
    | none => rfl
    | some m =>
      obtain ⟨k, hk, -⟩ := H.le m ((h m).trans (H'.mem m ht))
      rw [hs] at hk
      cases hk
  | some m =>
    obtain ⟨k, hk, hmk⟩ := H'.le m ((h m).symm.trans (H.mem m hs))
    obtain ⟨l, hl, hkl⟩ := H.le k ((h k).trans (H'.mem k hk))
    obtain rfl := Option.some.inj (hs.symm.trans hl)
    rw [hk, le_antisymm hmk hkl]

end MaxHolds

/-- The maximum is right in every set that is reached. -/
theorem reaches_maxHolds (hw : 0 < w) (hs : (machine w).Reaches s) : s.MaxHolds := by
  refine Machine.Reaches.invariant (P := MaxHolds) ?_ ?_ hs
  · rintro s rfl
    exact .of_new
  · intro s op t H _ hok
    exact H.step hw hok

/-- The words are what the indices say. -/
theorem elems_eq (hw : 0 < w) (hlen : s.elems.length = t.elems.length)
    (h : ∀ i, s.contains i = t.contains i) : s.elems = t.elems := by
  refine ext_getElem hlen fun k hx hy => ?_
  refine BitVec.eq_of_getLsbD_eq fun b hb => ?_
  have hk := h (k * w + b)
  rw [contains_eq_any hw k hb, contains_eq_any hw k hb] at hk
  simpa [getElem?_eq_getElem hx, getElem?_eq_getElem hy, ScalarBitSet.contains] using hk

/-- **Equality of sets.**  For two sets that runs of calls reach from the empty set, `==` is
equality of the indices exactly if sets of the same indices have as many words. -/
theorem eq_iff_contains_iff (hw : 0 < w) (hs : (machine w).Reaches s)
    (ht : (machine w).Reaches t) :
    (s = t ↔ ∀ i, s.contains i = t.contains i) ↔
      ((∀ i, s.contains i = t.contains i) → s.elems.length = t.elems.length) := by
  refine ⟨fun h hi => congrArg (length ∘ elems) (h.mpr hi), fun h => ?_⟩
  refine ⟨fun heq _ => heq ▸ rfl, fun hi => ?_⟩
  have hmax := (reaches_maxHolds hw hs).max_eq (reaches_maxHolds hw ht) hi
  exact congr (congrArg mk (elems_eq hw (h hi) hi)) hmax

/-- Five is inserted, and inserted after more words were allocated and nine was popped. -/
theorem eq_iff_contains_iff_five : ∃ s t : CompoundBitSet 64,
    (machine 64).Reaches s ∧ (machine 64).Reaches t ∧
      s.elems = t.elems ∧
      ((s = t ↔ ∀ i, s.contains i = t.contains i) ↔
        ((∀ i, s.contains i = t.contains i) → s.elems.length = t.elems.length)) := by
  have hs : (machine 64).Reaches _ :=
    .step (i := .insert true 5) (.start rfl) trivial rfl
  have ht : (machine 64).Reaches _ :=
    .step (i := .pop) (.step (i := .insert true 9) (.step (i := .insert true 5)
      (.step (i := .ensureCapacity true 100) (.start rfl) trivial rfl) trivial rfl) trivial rfl)
      trivial rfl
  exact ⟨_, _, hs, ht, rfl, eq_iff_contains_iff (by decide) hs ht⟩

/-- The word of an index that was removed stays. -/
theorem ne_of_same_contains : ∃ s : CompoundBitSet 64, (machine 64).Reaches s ∧
    (∀ i, s.contains i = (new : CompoundBitSet 64).contains i) ∧ s ≠ new := by
  refine ⟨⟨replicate 4 0#64, none⟩, ?_, fun i => ?_, by decide⟩
  · exact .step (i := .remove 0) (.step (i := .insert true 0) (.start rfl) trivial rfl) trivial rfl
  · simp only [contains, getElem?_replicate]
    split <;> simp [new, ScalarBitSet.contains]

end CompoundBitSet

end WasmDeps.Bitset
