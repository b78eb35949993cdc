import Mathlib.Data.List.Induction
import WasmDeps.Entity.ListPoolBlocks

/-!
# Operations on one entity list

`Owns held pool list xs` says that the list has the elements `xs` in a block of its own, beside
the blocks `held` of all other lists.  Every operation on the list gives it the elements that the
operation on a vector would, in a block of the size class of the new length, and leaves the
elements of the other blocks alone.
-/

namespace WasmDeps.Entity

open Lib List Exec EntityList

variable {T : Type} [EntityRef T]

/-- The list has the elements `xs` in a block of its own. -/
inductive Owns (held : List Region) : ListPool T → EntityList → List T → Prop
  | empty {pool : ListPool T} (h : PoolOk pool held) : Owns held pool ⟨0⟩ []
  | block {pool : ListPool T} {b : ℕ} {xs : List T} (hne : xs ≠ [])
      (h : PoolOk pool (⟨b, sclassForLength xs.length⟩ :: held))
      (hlt : xs.length < sclassSize (sclassForLength xs.length))
      (hstores : Stores pool.data b (EntityRef.new xs.length :: xs)) :
      Owns held pool ⟨b + 1⟩ xs

/-- The call returns a list with the elements `xs`, leaves all held blocks alone and takes at
most `room` new elements from the pool. -/
def Yields (held : List Region) (pool : ListPool T) (room : ℕ)
    (result : Exec (EntityList × ListPool T)) (xs : List T) : Prop :=
  ∃ list pool', result = .ok (list, pool') ∧ Owns held pool' list xs ∧
    SameOn held pool.data pool'.data ∧ pool'.data.length ≤ pool.data.length + room

variable {held : List Region} {pool : ListPool T} {list : EntityList} {xs : List T} {b c : ℕ}

/-! ## Writing to a block -/

variable {ys : List T} {changes : Bool}

theorem setLen_spec {y : T} (hne : xs ≠ []) (hmax : pool.data.length ≤ u32Max)
    (h : PoolOk pool (⟨b, sclassForLength xs.length⟩ :: held))
    (hlt : xs.length < sclassSize (sclassForLength xs.length))
    (hys : Stores pool.data b (y :: xs)) :
    ∃ pool', pool.setLen b xs.length = .ok pool' ∧ Owns held pool' ⟨b + 1⟩ xs ∧
      SameOn held pool.data pool'.data ∧ pool'.data.length = pool.data.length := by
  have hin := h.inside
  obtain ⟨data, hwr, hlen, h', hsame, hsts⟩ := writeSlice_block h hys 0
    [EntityRef.new xs.length] (Nat.zero_le _) (by rw [length_singleton]; omega)
  refine ⟨⟨data, pool.heads⟩, ?_, .block hne h' hlt hsts, hsame, hlen⟩
  rw [ListPool.setLen, newRef_of_lt (by omega), ok_bind, ← add_zero b, writeAt_of_writeSlice hwr]
  rfl

theorem ofBlock_eq (h : b + 1 ≤ u32Max) : ofBlock b = ⟨b + 1⟩ := by
  have hlt : b + 1 < 2 ^ 32 := by rw [u32Max] at h; omega
  rw [ofBlock, Nat.mod_eq_of_lt hlt]

variable {n : ℕ}

theorem length_lt_sclassSize (h : n < 2 ^ 32) : n < sclassSize (sclassForLength n) :=
  ((sclassForLength_eq_iff h _).1 rfl).1

theorem lenOf_block (hlen : xs.length < u32Max)
    (h : Stores pool.data b (EntityRef.new xs.length :: xs)) :
    pool.lenOf ⟨b + 1⟩ = some xs.length := by
  have h0 := h 0 (by simp)
  rw [add_zero] at h0
  simp [ListPool.lenOf, h0, EntityRef.index_new _ hlen]

theorem asSlice_block (hlen : xs.length < u32Max)
    (hin : b + (xs.length + 1) ≤ pool.data.length)
    (h : Stores pool.data b (EntityRef.new xs.length :: xs)) : asSlice ⟨b + 1⟩ pool = .ok xs := by
  rw [asSlice, lenOf_block hlen h]
  have hread := readSlice_of_stores h 1 (n := xs.length) (by simp; omega) (by simpa using hin)
  simpa using hread

theorem Owns.asSlice (h : Owns held pool list xs) (hmax : pool.data.length ≤ u32Max) :
    list.asSlice pool = .ok xs := by
  cases h with
  | empty h => rfl
  | block hne h hlt hsts =>
    have hin := h.inside
    exact asSlice_block (by omega) (by omega) hsts

theorem Owns.exists_block (h : Owns held pool list xs) (hne : xs ≠ []) :
    ∃ b, list = ⟨b + 1⟩ ∧ PoolOk pool (⟨b, sclassForLength xs.length⟩ :: held) ∧
      xs.length < sclassSize (sclassForLength xs.length) ∧
      Stores pool.data b (EntityRef.new xs.length :: xs) := by
  cases h with
  | empty h => exact absurd rfl hne
  | @block b _ _ h hlt hsts => exact ⟨b, rfl, h, hlt, hsts⟩

theorem Owns.eq_zero (h : Owns held pool list []) : list = ⟨0⟩ ∧ PoolOk pool held := by
  cases h with
  | empty h => exact ⟨rfl, h⟩
  | block hne => exact absurd rfl hne

theorem Owns.lenOf (h : Owns held pool list xs) (hmax : pool.data.length ≤ u32Max) (hne : xs ≠ []) :
    pool.lenOf list = some xs.length := by
  obtain ⟨b, rfl, hblk, hlt, hsts⟩ := h.exists_block hne
  have hin := hblk.inside
  exact lenOf_block (by omega) hsts

theorem Owns.readSlice (h : Owns held pool list xs) {k n : ℕ} (hle : k + n ≤ xs.length) :
    readSlice pool.data (k + list.index) n = .ok ((xs.drop k).take n) := by
  cases h with
  | empty h =>
    obtain ⟨rfl, rfl⟩ : k = 0 ∧ n = 0 := by simpa using hle
    simp [readSlice]
  | @block b _ hne h hlt hsts =>
    have hin := h.inside
    have hread := readSlice_of_stores hsts (k + 1) (n := n) (by simp; omega) (by simp; omega)
    rwa [show k + (b + 1) = b + (k + 1) by omega]

/-! ## Moving a list -/

/-- **A list is moved** to a block of the size class of its new length, with the elements that
it keeps. -/
theorem blockFor_spec {n k toSclass : ℕ} (hown : Owns held pool ⟨b + 1⟩ xs)
    (hroom : pool.data.length + sclassSize (sclassForLength n) ≤ u32Max) (hn32 : n < 2 ^ 32)
    (hk : k = min xs.length n + 1) (hchanges : changes = true ∧ sclassForLength n = toSclass ∨
      changes = false ∧ sclassForLength n = sclassForLength xs.length) :
    ∃ b' pool', blockFor ⟨b + 1⟩ pool changes (sclassForLength xs.length) toSclass k =
        .ok (b', ⟨b' + 1⟩, pool') ∧
      PoolOk pool' (⟨b', sclassForLength n⟩ :: held) ∧
      Stores pool'.data b' (EntityRef.new xs.length :: xs.take n) ∧
      SameOn held pool.data pool'.data ∧
      pool'.data.length ≤
        pool.data.length + if changes then sclassSize (sclassForLength n) else 0 := by
  have hfits := length_lt_sclassSize hn32
  cases hown with
  | block _ h hlt hsts =>
    obtain ⟨rfl, rfl⟩ | ⟨rfl, hc⟩ := hchanges
    · obtain ⟨b', pool', heq, h', hs', hsame, hgrow⟩ := realloc_spec h hsts
        (Nat.succ_pos (min xs.length n)) (by rw [length_cons]; omega)
        (by rw [length_cons]; omega)
        (by omega) hroom
      have hin := h'.inside
      refine ⟨b', pool', ?_, h', ?_, hsame, hgrow⟩
      · have hof : ofBlock b' = ⟨b' + 1⟩ := ofBlock_eq (by omega)
        rw [blockFor, hk, Nat.add_sub_cancel, heq, ok_bind]
        simp only [hof]
        rfl
      · have htake : xs.take (min xs.length n) = xs.take n := by
          rw [min_comm, ← take_take, take_length]
        rwa [take_succ_cons, htake] at hs'
    · rw [hc]
      refine ⟨b, pool, rfl, h, ?_, fun _ _ _ _ => rfl, le_rfl⟩
      simpa using hsts.take (n + 1)

theorem isSclassMinLength_eq_true : isSclassMinLength n = true ↔ 3 < n ∧ ∃ k, n = 2 ^ k := by
  rw [isSclassMinLength, Bool.and_eq_true, decide_eq_true_iff, decide_eq_true_iff]
  rfl

theorem isSclassMinLength_iff (h : n + 1 < 2 ^ 32) :
    (isSclassMinLength (n + 1) = true ∧ sclassForLength (n + 1) = sclassForLength n + 1) ∨
      (isSclassMinLength (n + 1) = false ∧ sclassForLength (n + 1) = sclassForLength n) := by
  obtain ⟨hlt, hmin⟩ := (sclassForLength_eq_iff (by omega : n < 2 ^ 32) _).1 rfl
  generalize sclassForLength n = c at hlt hmin ⊢
  obtain hfull | hroom := eq_or_lt_of_le (Nat.succ_le_of_lt hlt)
  · refine .inl ⟨isSclassMinLength_eq_true.2 ⟨?_, c + 2, ?_⟩, ?_⟩
    · have := four_le_sclassSize c
      omega
    · rw [Nat.succ_eq_add_one] at hfull
      rw [hfull, sclassSize_eq, Nat.pow_add]
      omega
    · refine (sclassForLength_eq_iff h _).2 ⟨?_, .inr ?_⟩ <;> rw [sclassSize_succ] <;> omega
  refine .inr ⟨Bool.eq_false_iff.2 fun htrue => ?_, (sclassForLength_eq_iff h _).2 ⟨hroom, ?_⟩⟩
  · -- a power of two below the size of the class is not above half of it
    obtain ⟨hthree, k, hk⟩ := isSclassMinLength_eq_true.1 htrue
    rw [sclassSize_eq] at hroom hmin
    have hpow : 2 ^ k < 2 ^ (c + 2) := by rw [Nat.pow_add]; omega
    have hkc := (Nat.pow_lt_pow_iff_right (by omega)).1 hpow
    have hle : 2 ^ k ≤ 2 ^ (c + 1) := Nat.pow_le_pow_right (by omega) (by omega)
    obtain rfl | hmin := hmin <;> omega
  · exact hmin.imp id fun hm => by omega

/-! ## Elements in place -/

theorem overwriteAt_spec (h : Owns held pool list xs) (k : ℕ) (ys : List T)
    (hle : k + ys.length ≤ xs.length) :
    ∃ data, writeSlice pool.data (k + list.index) ys = .ok data ∧
      data.length = pool.data.length ∧
      Owns held ⟨data, pool.heads⟩ list (xs.take k ++ ys ++ xs.drop (k + ys.length)) ∧
      SameOn held pool.data data := by
  cases h with
  | empty h =>
    obtain ⟨rfl, rfl⟩ : k = 0 ∧ ys = [] := by simpa using hle
    exact ⟨pool.data, by simp [writeSlice], rfl, .empty h, fun _ _ _ _ => rfl⟩
  | @block b _ hne h hlt hsts =>
    have hlen : (xs.take k ++ ys ++ xs.drop (k + ys.length)).length = xs.length := by
      simp only [length_append, length_take, length_drop]
      omega
    obtain ⟨data, hwr, hdata, h', hsame, hsts'⟩ := writeSlice_block h hsts (k + 1) ys
      (by rw [length_cons]; omega) (by omega)
    rw [show b + (k + 1) = k + (b + 1) by omega] at hwr
    refine ⟨data, hwr, hdata, .block ?_ (hlen ▸ h') (hlen ▸ hlt) ?_, hsame⟩
    · exact ne_nil_of_length_pos (hlen ▸ length_pos_of_ne_nil hne)
    · rw [hlen]
      simpa [add_right_comm k 1] using hsts'

theorem overwrite_spec (h : Owns held pool list xs) (ys : List T) (hlen : ys.length = xs.length) :
    ∃ data, writeSlice pool.data list.index ys = .ok data ∧ data.length = pool.data.length ∧
      Owns held ⟨data, pool.heads⟩ list ys ∧ SameOn held pool.data data := by
  have hspec := overwriteAt_spec h 0 ys (by omega)
  rwa [zero_add, zero_add, take_zero, nil_append, hlen, drop_length, append_nil] at hspec

theorem modifySlice_spec {f : List T → Exec (List T)} (h : Owns held pool list xs) (ys : List T)
    (hmax : pool.data.length ≤ u32Max) (hf : f xs = .ok ys) (hlen : ys.length = xs.length) :
    ∃ pool', list.modifySlice pool f = .ok pool' ∧ Owns held pool' list ys ∧
      SameOn held pool.data pool'.data ∧ pool'.data.length = pool.data.length := by
  obtain ⟨data, hwr, hdata, hown, hsame⟩ := overwrite_spec h ys hlen
  refine ⟨⟨data, pool.heads⟩, ?_, hown, hsame, hdata⟩
  rw [modifySlice, h.asSlice hmax, ok_bind, hf, ok_bind, hwr]
  rfl

/-! ## New lists -/

theorem allocList_spec (h : PoolOk pool held) (hn : 0 < n)
    (hroom : pool.data.length + sclassSize (sclassForLength n) ≤ u32Max) (hn32 : n < 2 ^ 32) :
    ∃ b pool1 pool' zs, pool.alloc (sclassForLength n) = .ok (b, pool1) ∧
      pool1.setLen b n = .ok pool' ∧ ofBlock b = ⟨b + 1⟩ ∧ zs.length = n ∧
      Owns held pool' ⟨b + 1⟩ zs ∧ SameOn held pool.data pool'.data ∧
      pool'.data.length ≤ pool.data.length + sclassSize (sclassForLength n) := by
  obtain ⟨b, pool1, halloc, h1, hold, _, hgrow⟩ := alloc_spec h (sclassForLength n)
  have hin := h1.inside
  have hfits := length_lt_sclassSize hn32
  have hnil : Stores pool1.data b [] := fun j hj => absurd hj (Nat.not_lt_zero j)
  obtain ⟨ys, hys, hsts⟩ := hnil.exists_append (n := n + 1) (by simp; omega)
  obtain ⟨y, zs, rfl⟩ := exists_cons_of_length_eq_add_one hys
  obtain rfl : zs.length = n := by simpa using hys
  obtain ⟨pool', hset, hown, hsame, hlen⟩ :=
    setLen_spec (ne_nil_of_length_pos hn) (by omega) h1 hfits hsts
  exact ⟨b, pool1, pool', zs, halloc, hset, ofBlock_eq (by omega), rfl, hown,
    (h.sameOn hold).trans hsame, by omega⟩

theorem fromSlice_spec (h : PoolOk pool held)
    (hroom : pool.data.length + sclassSize (sclassForLength xs.length) ≤ u32Max)
    (hlen : xs.length < 2 ^ 32) :
    Yields held pool (sclassSize (sclassForLength xs.length))
      (fromSlice xs pool) xs := by
  by_cases hnil : xs.length = 0
  · obtain rfl := length_eq_zero_iff.1 hnil
    exact ⟨⟨0⟩, pool, rfl, .empty h, fun _ _ _ _ => rfl, Nat.le_add_right _ _⟩
  obtain ⟨b, pool1, pool2, zs, halloc, hset, hof, hzs, hown, hsame, hgrow⟩ :=
    allocList_spec h (Nat.pos_of_ne_zero hnil) hroom hlen
  obtain ⟨data, hwr, hdata, hown', hsame'⟩ := overwrite_spec hown xs hzs.symm
  refine ⟨⟨b + 1⟩, ⟨data, pool2.heads⟩, ?_, hown', hsame.trans hsame', hdata.trans_le hgrow⟩
  rw [fromSlice, if_neg hnil, halloc]
  simp only [hset, ok_bind, hwr, hof]
  rfl

def regionOf (list : EntityList) (len : ℕ) : List Region :=
  if len = 0 then [] else [⟨list.index - 1, sclassForLength len⟩]

theorem Owns.poolOk (h : Owns held pool list xs) :
    PoolOk pool (regionOf list xs.length ++ held) := by
  cases h with
  | empty h => exact h
  | block hne h hlt hsts =>
    have hlen : xs.length ≠ 0 := fun h0 => hne (length_eq_zero_iff.1 h0)
    rw [regionOf, if_neg hlen]
    exact h

theorem Owns.congr {held' : List Region} {pool' : ListPool T} (h : Owns held pool list xs)
    (h' : PoolOk pool' (regionOf list xs.length ++ held'))
    (hsame : SameOn (regionOf list xs.length) pool.data pool'.data) : Owns held' pool' list xs := by
  cases h with
  | empty h => exact .empty h'
  | @block b _ hne h hlt hsts =>
    have hlen : xs.length ≠ 0 := fun h0 => hne (length_eq_zero_iff.1 h0)
    rw [regionOf, if_neg hlen] at h' hsame
    exact .block hne h' hlt (hsts.congr hsame (mem_singleton.2 rfl) hlt)

theorem deepClone_spec (h : Owns held pool list xs)
    (hroom : pool.data.length + sclassSize (sclassForLength xs.length) ≤ u32Max) :
    Yields (regionOf list xs.length ++ held) pool (sclassSize (sclassForLength xs.length))
      (list.deepClone pool) xs := by
  have hpool := h.poolOk
  by_cases hnil : xs = []
  · subst hnil
    obtain ⟨rfl, _⟩ := h.eq_zero
    exact ⟨⟨0⟩, pool, rfl, .empty hpool, fun _ _ _ _ => rfl, Nat.le_add_right _ _⟩
  have hpos := length_pos_of_ne_nil hnil
  obtain ⟨a, rfl, hblk, hlt, hsts⟩ := h.exists_block hnil
  have hlen : xs.length < u32Max := by omega
  have hlen32 : xs.length < 2 ^ 32 := by rw [u32Max] at hlen; omega
  obtain ⟨b, pool1, pool2, zs, halloc, hset, hof, hzs, hown, hsame, hgrow⟩ :=
    allocList_spec hpool hpos hroom hlen32
  -- the elements of the source are where they were
  have hown2 : Owns (regionOf ⟨b + 1⟩ zs.length ++ held) pool2 ⟨a + 1⟩ xs := by
    refine h.congr (hown.poolOk.perm ?_) fun r hr => hsame r (mem_append_left _ hr)
    simp only [← append_assoc]
    exact perm_append_comm.append_right held
  have hread := hown2.readSlice (k := 0) (n := xs.length) (by omega)
  rw [zero_add, drop_zero, take_length] at hread
  obtain ⟨data, hwr, hdata, hown', hsame'⟩ := overwrite_spec hown xs hzs.symm
  refine ⟨⟨b + 1⟩, ⟨data, pool2.heads⟩, ?_, hown', hsame.trans hsame', hdata.trans_le hgrow⟩
  rw [deepClone, lenOf_block hlen hsts]
  simp only [halloc, ok_bind, hset, hread, hwr, hof]
  rfl

/-! ## Length changes -/

theorem clear_spec (h : Owns held pool list xs) (hmax : pool.data.length ≤ u32Max) :
    Yields held pool 0 (list.clear pool) [] := by
  by_cases hnil : xs = []
  · subst hnil
    obtain ⟨rfl, hpool⟩ := h.eq_zero
    exact ⟨⟨0⟩, pool, rfl, .empty hpool, fun _ _ _ _ => rfl, le_rfl⟩
  obtain ⟨b, rfl, hblk, hlt, hsts⟩ := h.exists_block hnil
  obtain ⟨pool', hfree, hpool, hsame, hlen⟩ := free_spec hblk hmax
  refine ⟨⟨0⟩, pool', ?_, .empty hpool, hsame, hlen.le⟩
  rw [clear, h.lenOf hmax hnil]
  simp only [Nat.add_sub_cancel, hfree, ok_bind]
  rfl

/-- A list that is not empty is moved and gets the length `n`: it keeps its first elements, and
what follows is whatever the block has. -/
theorem resize_spec {n k toSclass : ℕ} (hn : 0 < n) (hown : Owns held pool ⟨b + 1⟩ xs)
    (hroom : pool.data.length + sclassSize (sclassForLength n) ≤ u32Max) (hn32 : n < 2 ^ 32)
    (hk : k = min xs.length n + 1) (hchanges : changes = true ∧ sclassForLength n = toSclass ∨
      changes = false ∧ sclassForLength n = sclassForLength xs.length) :
    ∃ b' pool1 pool' zs,
      blockFor ⟨b + 1⟩ pool changes (sclassForLength xs.length) toSclass k =
        .ok (b', ⟨b' + 1⟩, pool1) ∧
      pool1.setLen b' n = .ok pool' ∧ zs.length = n - xs.length ∧
      Owns held pool' ⟨b' + 1⟩ (xs.take n ++ zs) ∧ SameOn held pool.data pool'.data ∧
      pool'.data.length ≤ pool.data.length + sclassSize (sclassForLength n) := by
  obtain ⟨b', pool1, hmove, h1, hs1, hsame1, hgrow⟩ := blockFor_spec hown hroom hn32 hk hchanges
  have hgrow : pool1.data.length ≤ pool.data.length + sclassSize (sclassForLength n) := by
    apply hgrow.trans
    split <;> omega
  have hin := h1.inside
  have hfits := length_lt_sclassSize hn32
  obtain ⟨zs, hzs, hs2⟩ := hs1.exists_append (n := n - xs.length) (by
    rw [length_cons, length_take]
    omega)
  have hlen : (xs.take n ++ zs).length = n := by
    rw [length_append, length_take]
    omega
  rw [cons_append] at hs2
  obtain ⟨pool', hset, hown, hsame, hlen'⟩ := setLen_spec
    (ne_nil_of_length_pos (hlen.symm ▸ hn)) (by omega) (hlen.symm ▸ h1) (hlen.symm ▸ hfits) hs2
  rw [hlen] at hset
  exact ⟨b', pool1, pool', zs, hmove, hset, hzs, hown, hsame1.trans hsame, by omega⟩

theorem changes_iff (c c' : ℕ) : decide (c' ≠ c) = true ∧ c' = c' ∨
    decide (c' ≠ c) = false ∧ c' = c := by
  by_cases h : c' = c
  · exact .inr ⟨by simp [h], h⟩
  · exact .inl ⟨by simp [h], rfl⟩

/-- **`grow`**: the new elements are whatever the block has. -/
theorem grow_spec (h : Owns held pool list xs) (n : ℕ)
    (hroom : pool.data.length + sclassSize (sclassForLength (xs.length + n)) ≤ u32Max)
    (hn32 : xs.length + n < 2 ^ 32) :
    ∃ zs, zs.length = n ∧ Yields held pool (sclassSize (sclassForLength (xs.length + n)))
      (list.grow n pool) (xs ++ zs) := by
  by_cases hnil : xs = []
  · subst hnil
    rw [length_nil, zero_add] at hroom hn32 ⊢
    obtain ⟨rfl, hpool⟩ := h.eq_zero
    by_cases hn : n = 0
    · subst hn
      exact ⟨[], rfl, ⟨0⟩, pool, rfl, .empty hpool, fun _ _ _ _ => rfl, Nat.le_add_right _ _⟩
    obtain ⟨b, pool1, pool', zs, halloc, hset, hof, hzs, hown, hsame, hgrow⟩ :=
      allocList_spec hpool (Nat.pos_of_ne_zero hn) hroom hn32
    refine ⟨zs, hzs, ⟨b + 1⟩, pool', ?_, hown, hsame, hgrow⟩
    have hlenOf : pool.lenOf ⟨0⟩ = none := rfl
    rw [grow]
    simp only [ensure_of, ok_bind, if_neg hn, halloc, hset, hof]
    rfl
  have hlenOf := h.lenOf (by omega) hnil
  obtain ⟨b, rfl, -⟩ := h.exists_block hnil
  have hpos := length_pos_of_ne_nil hnil
  obtain ⟨b', pool1, pool', zs, hmove, hset, hzs, hown, hsame, hgrow⟩ :=
    resize_spec (by omega) h hroom hn32 rfl (changes_iff _ _)
  rw [take_of_length_le (Nat.le_add_right _ _)] at hown
  refine ⟨zs, by omega, ⟨b' + 1⟩, pool', ?_, hown, hsame, hgrow⟩
  rw [grow, hlenOf]
  have hmin : min xs.length (xs.length + n) = xs.length := by omega
  rw [hmin] at hmove
  simp only [hmove, ok_bind, hset]
  rfl

theorem truncate_spec (h : Owns held pool list xs) (n : ℕ)
    (hroom : pool.data.length + sclassSize (sclassForLength (min n xs.length)) ≤ u32Max) :
    Yields held pool (sclassSize (sclassForLength (min n xs.length))) (list.truncate n pool)
      (xs.take n) := by
  by_cases hn : n = 0
  · subst hn
    obtain ⟨list', pool', heq, hown, hsame, hlen⟩ := clear_spec h (by omega)
    exact ⟨list', pool', by rw [truncate, if_pos rfl, heq], hown, hsame, by omega⟩
  by_cases hnil : xs = []
  · subst hnil
    obtain ⟨rfl, hpool⟩ := h.eq_zero
    refine ⟨⟨0⟩, pool, by rw [truncate, if_neg hn]; rfl, ?_, fun _ _ _ _ => rfl,
      Nat.le_add_right _ _⟩
    rw [take_nil]
    exact .empty hpool
  obtain ⟨b, rfl, hblk, hlt, hsts⟩ := h.exists_block hnil
  have hin := hblk.inside
  have hlen : xs.length < u32Max := by omega
  rw [truncate, if_neg hn, lenOf_block hlen hsts]
  by_cases hle : xs.length ≤ n
  · rw [take_of_length_le hle]
    exact ⟨⟨b + 1⟩, pool, by simp [hle], h, fun _ _ _ _ => rfl, Nat.le_add_right _ _⟩
  have hmin : min n xs.length = n := by omega
  have hmin' : min xs.length n = n := by omega
  rw [hmin] at hroom ⊢
  obtain ⟨b', pool1, pool', zs, hmove, hset, hzs, hown, hsame, hgrow⟩ :=
    resize_spec (Nat.pos_of_ne_zero hn) h hroom
      (by rw [u32Max] at hlen; omega) rfl (changes_iff _ _)
  obtain rfl : zs = [] := length_eq_zero_iff.1 (by omega)
  rw [append_nil] at hown
  refine ⟨⟨b' + 1⟩, pool', ?_, hown, hsame, hgrow⟩
  rw [hmin'] at hmove
  simp only [if_neg hle, ne_comm, hmove, ok_bind, hset]
  rfl

def capacity (len : ℕ) : ℕ := if len = 0 then 0 else sclassSize (sclassForLength len)

theorem capacity_of_pos {len : ℕ} (h : 0 < len) : capacity len = sclassSize (sclassForLength len) :=
  if_neg (ne_of_gt h)

/-- **`push`.**  The growth of the pool is bounded by the blocks that the list goes through. -/
theorem push_spec (h : Owns held pool list xs) (x : T)
    (hroom : pool.data.length + sclassSize (sclassForLength (xs.length + 1)) ≤ u32Max) :
    ∃ list' pool', list.push x pool = .ok (xs.length, list', pool') ∧
      Owns held pool' list' (xs ++ [x]) ∧ SameOn held pool.data pool'.data ∧
      pool'.data.length + 2 * capacity xs.length ≤
        pool.data.length + 2 * capacity (xs.length + 1) := by
  by_cases hnil : xs = []
  · subst hnil
    obtain ⟨rfl, hpool⟩ := h.eq_zero
    obtain ⟨b, pool1, pool2, zs, halloc, hset, hof, hzs, hown, hsame, hgrow⟩ :=
      allocList_spec hpool Nat.one_pos hroom (by omega)
    obtain ⟨data, hwr, hdata, hown', hsame'⟩ := overwrite_spec hown [x] hzs.symm
    refine ⟨⟨b + 1⟩, ⟨data, pool2.heads⟩, ?_, hown', hsame.trans hsame', ?_⟩
    rotate_left
    · have hzero : capacity 0 = 0 := rfl
      have hone : capacity 1 = sclassSize (sclassForLength 1) := rfl
      simp only [length_nil, Nat.zero_add]
      omega
    have hwr := writeAt_of_writeSlice hwr
    have hlenOf : pool.lenOf ⟨0⟩ = none := rfl
    rw [push]
    simp only [ensure_of, ok_bind, halloc, hset, hwr, hof]
    rfl
  obtain ⟨b, rfl, hblk, hlt, hsts⟩ := h.exists_block hnil
  have hin := hblk.inside
  have hfour := four_le_sclassSize (sclassForLength (xs.length + 1))
  have hlen : xs.length + 1 < u32Max := by omega
  have hlen32 : xs.length + 1 < 2 ^ 32 := by rw [u32Max] at hlen; omega
  obtain ⟨b', pool1, hmove, h1, hs1, hsame1, hgrow⟩ := blockFor_spec h hroom hlen32
    rfl (isSclassMinLength_iff hlen32)
  rw [take_of_length_le (Nat.le_succ _)] at hs1
  have hfits := length_lt_sclassSize hlen32
  obtain ⟨data, hwr, hdata, h2, hsame2, hs2⟩ :=
    writeSlice_block h1 hs1 (xs.length + 1) [x] (by simp) hfits
  have hwr := writeAt_of_writeSlice hwr
  have hs2 : Stores data b' (EntityRef.new xs.length :: (xs ++ [x])) := by
    simpa [drop_eq_nil_of_le (Nat.le_succ xs.length)] using hs2
  have happ : (xs ++ [x]).length = xs.length + 1 := by simp
  have hle : pool1.data.length ≤ u32Max := by
    apply hgrow.trans
    split <;> omega
  obtain ⟨pool', hset, hown, hsame, hlen'⟩ := setLen_spec (by simp) (hdata.trans_le hle)
    (happ.symm ▸ h2) (happ.symm ▸ hfits) hs2
  rw [happ] at hset
  refine ⟨⟨b' + 1⟩, pool', ?_, hown, (hsame1.trans hsame2).trans hsame, ?_⟩
  rotate_left
  · rw [capacity_of_pos (length_pos_of_ne_nil hnil), capacity_of_pos (Nat.succ_pos _)]
    simp only at hlen'
    obtain ⟨ht, hc⟩ | ⟨hf, hc⟩ := isSclassMinLength_iff hlen32
    · rw [ht, if_pos rfl, hc, sclassSize_succ] at hgrow
      rw [hc, sclassSize_succ]
      omega
    rw [hf] at hgrow
    rw [hc]
    simp only [Bool.false_eq_true, if_false] at hgrow
    omega
  have hmin : min xs.length (xs.length + 1) = xs.length := by omega
  rw [hmin] at hmove
  rw [push, lenOf_block (by omega) hsts]
  simp only [hmove, ok_bind, hwr, hset]
  rfl

theorem removeLast_spec (h : Owns held pool list xs) (hne : xs ≠ [])
    (hroom : pool.data.length + sclassSize (sclassForLength (xs.length - 1)) ≤ u32Max) :
    Yields held pool (sclassSize (sclassForLength (xs.length - 1)))
      (list.removeLast xs.length pool) xs.dropLast := by
  obtain ⟨n, hn⟩ : ∃ n, xs.length = n + 1 :=
    Nat.exists_eq_succ_of_ne_zero fun h0 => hne (length_eq_zero_iff.1 h0)
  have hdrop : xs.dropLast = xs.take n := by rw [dropLast_eq_take, hn, Nat.add_sub_cancel]
  rw [hdrop]
  by_cases hone : n = 0
  · subst hone
    obtain ⟨list', pool', heq, hown, hsame, hlen⟩ := clear_spec h (by omega)
    exact ⟨list', pool', by rw [removeLast, if_pos hn, heq], hown, hsame, by omega⟩
  obtain ⟨b, rfl, hblk, hlt, hsts⟩ := h.exists_block hne
  have hin := hblk.inside
  have hlen : n + 1 < u32Max := by omega
  have hlen32 : n + 1 < 2 ^ 32 := by rw [u32Max] at hlen; omega
  rw [hn] at hroom ⊢
  have hchanges : isSclassMinLength (n + 1) = true ∧
        sclassForLength n = sclassForLength xs.length - 1 ∨
      isSclassMinLength (n + 1) = false ∧ sclassForLength n = sclassForLength xs.length := by
    rw [hn]
    obtain ⟨ht, hc⟩ | ⟨hf, hc⟩ := isSclassMinLength_iff hlen32
    · exact .inl ⟨ht, by omega⟩
    · exact .inr ⟨hf, hc.symm⟩
  obtain ⟨b', pool1, pool', zs, hmove, hset, hzs, hown, hsame, hgrow⟩ :=
    resize_spec (Nat.pos_of_ne_zero hone) h hroom (by omega) rfl hchanges
  obtain rfl : zs = [] := length_eq_zero_iff.1 (by omega)
  rw [append_nil] at hown
  refine ⟨⟨b' + 1⟩, pool', ?_, hown, hsame, hgrow⟩
  have hmin : min (n + 1) n = n := by omega
  rw [hn, hmin] at hmove
  rw [removeLast, if_neg (by omega), ensure_of (Nat.succ_pos b)]
  simp only [hmove, ok_bind, subU32_of_le (Nat.le_add_left 1 n), Nat.add_sub_cancel, hset]
  rfl

/-! ## Many elements -/

variable {α : Type}

theorem sclassForLength_mono {n m : ℕ} (h : n ≤ m) (hm : m < 2 ^ 32) :
    sclassForLength n ≤ sclassForLength m := by
  obtain ⟨_, hnmin⟩ := (sclassForLength_eq_iff (h.trans_lt hm) _).1 rfl
  obtain ⟨hlt, _⟩ := (sclassForLength_eq_iff hm _).1 rfl
  by_contra hnot
  have hsucc : sclassForLength m + 1 ≤ sclassForLength n := by omega
  have hsize := sclassSize_mono hsucc
  rw [sclassSize_succ] at hsize
  omega

theorem capacity_mono {n m : ℕ} (h : n ≤ m) (hm : m < 2 ^ 32) : capacity n ≤ capacity m := by
  by_cases hn : n = 0
  · simp [capacity, hn]
  · rw [capacity_of_pos (by omega), capacity_of_pos (by omega)]
    exact sclassSize_mono (sclassForLength_mono h hm)

/-- Elements are pushed one by one; the blocks that the list goes through are together not
larger than two of its last one. -/
theorem pushAll_spec (h : Owns held pool list xs) (ys : List T)
    (hlen : xs.length + ys.length < 2 ^ 32)
    (hroom : pool.data.length + 3 * capacity (xs.length + ys.length) ≤
      u32Max + 2 * capacity xs.length) :
    ∃ list' pool', list.pushAll ys pool = .ok (list', pool') ∧
      Owns held pool' list' (xs ++ ys) ∧ SameOn held pool.data pool'.data ∧
      pool'.data.length + 2 * capacity xs.length ≤
        pool.data.length + 2 * capacity (xs.length + ys.length) := by
  induction ys generalizing list pool xs with
  | nil => exact ⟨list, pool, rfl, by rwa [append_nil], fun _ _ _ _ => rfl, le_rfl⟩
  | cons y ys ih =>
    rw [length_cons] at hlen hroom ⊢
    have hcap := capacity_mono (show xs.length ≤ xs.length + 1 by omega) (by omega)
    have hcap' := capacity_mono (show xs.length + 1 ≤ xs.length + (ys.length + 1) by omega) hlen
    have hone : capacity (xs.length + 1) = sclassSize (sclassForLength (xs.length + 1)) :=
      capacity_of_pos (Nat.succ_pos _)
    obtain ⟨list1, pool1, hpush, hown, hsame, hgrow⟩ := push_spec h y (by omega)
    have happ : (xs ++ [y]).length = xs.length + 1 := by simp
    have hsum : xs.length + 1 + ys.length = xs.length + (ys.length + 1) := by omega
    obtain ⟨list', pool', heq, hown', hsame', hgrow'⟩ := ih hown (by omega) (by
      rw [happ, hsum]
      omega)
    rw [happ, hsum] at hgrow'
    refine ⟨list', pool', ?_, by simpa using hown', hsame.trans hsame', by omega⟩
    rw [pushAll, hpush]
    exact heq

/-- The elements `bs` are moved up over `zs`, from the last one on. -/
theorem copyUp_append (as bs zs cs : List α) :
    copyUp zs.length (as.length + zs.length) bs.length (as ++ bs ++ zs ++ cs) =
      .ok (as ++ (bs ++ zs).take zs.length ++ bs ++ cs) := by
  induction bs using reverseRecOn generalizing zs cs with
  | nil => simp [copyUp]
  | append_singleton bs b ih =>
    -- `b` is copied over the last element of `b :: zs`
    obtain ⟨us, u, hus⟩ : ∃ us u, b :: zs = us ++ [u] :=
      ⟨_, _, (dropLast_concat_getLast (cons_ne_nil b zs)).symm⟩
    have hlen : zs.length = us.length := by simpa using congrArg length hus
    have hdata : as ++ (bs ++ [b]) ++ zs ++ cs = as ++ bs ++ us ++ u :: cs := by
      simpa using congrArg (as ++ bs ++ · ++ cs) hus
    have hread : (as ++ (bs ++ [b]) ++ zs ++ cs)[as.length + bs.length]? = some b := by simp
    have htake : (bs ++ [b] ++ zs).take us.length = (bs ++ us).take us.length := by
      have hspl : bs ++ [b] ++ zs = bs ++ us ++ [u] := by simpa using congrArg (bs ++ ·) hus
      rw [hspl, take_append_of_le_length (by simp)]
    rw [length_append, length_singleton, copyUp, hlen, readAt,
      show as.length + us.length + bs.length - us.length = as.length + bs.length by omega, hread,
      unwrap_some, ok_bind, hdata, writeAt_of_lt (by simp; omega), ok_bind,
      show as.length + us.length + bs.length = (as ++ bs ++ us).length by simp; omega,
      set_append_right _ _ le_rfl, Nat.sub_self, set_cons_zero, ih us (b :: cs), htake]
    simp

/-- The elements `bs` are moved down over `b`; the last one stays where it was as well. -/
theorem copyDown_append (as bs : List α) (b : α) :
    ∃ c, copyDown as.length bs.length (as ++ b :: bs) = .ok (as ++ bs ++ [c]) := by
  induction bs generalizing as b with
  | nil => exact ⟨b, by simp [copyDown]⟩
  | cons b' bs ih =>
    obtain ⟨c, hc⟩ := ih (as ++ [b']) b'
    refine ⟨c, ?_⟩
    have hread : (as ++ b :: b' :: bs)[as.length + 1]? = some b' := by simp
    have hset : (as ++ b :: b' :: bs).set as.length b' = as ++ [b'] ++ b' :: bs := by simp
    rw [length_cons, copyDown, readAt, hread, unwrap_some, ok_bind, writeAt_of_lt (by simp),
      ok_bind]
    simpa using hc

/-- **`extend`**, for iterators that know their length and for those that do not. -/
theorem extend_spec (h : Owns held pool list xs) (sized : Bool)
    (hroom : pool.data.length + 3 * sclassSize (sclassForLength (xs.length + ys.length)) ≤ u32Max)
    (hlen : xs.length + ys.length < 2 ^ 32) :
    Yields held pool (2 * sclassSize (sclassForLength (xs.length + ys.length)))
      (list.extend ys sized pool) (xs ++ ys) := by
  cases sized with
  | true =>
    obtain ⟨zs, hzs, list', pool1, hgrow, hown, hsame, hle⟩ := grow_spec h ys.length (by omega) hlen
    -- the new elements are at the end of the slice
    have hf : (do
        let offset ← subU32 (xs ++ zs).length ys.length
        writeSlice (xs ++ zs) offset ys) = .ok (xs ++ ys) := by
      rw [subU32_of_le (by rw [length_append]; omega), ok_bind, length_append, hzs,
        Nat.add_sub_cancel, writeSlice]
      simp [← hzs]
    obtain ⟨pool', hmod, hown', hsame', hle'⟩ := modifySlice_spec (f := fun data => do
        let offset ← subU32 data.length ys.length
        writeSlice data offset ys) hown (xs ++ ys) (by omega) hf (by simp [hzs])
    refine ⟨list', pool', ?_, hown', hsame.trans hsame', by omega⟩
    rw [extend, hgrow]
    simp only [hmod, ok_bind]
    rfl
  | false =>
    have hcap : capacity (xs.length + ys.length) ≤
        sclassSize (sclassForLength (xs.length + ys.length)) := by
      rw [capacity]
      split <;> omega
    obtain ⟨list', pool', heq, hown, hsame, hgrow⟩ := pushAll_spec h ys hlen (by omega)
    exact ⟨list', pool', heq, hown, hsame, by omega⟩

/-! ## Elements in the middle -/

variable {index : ℕ}

theorem insertIdx_eq_append {xs : List α} (x : α) (hle : index ≤ xs.length) :
    xs.insertIdx index x = xs.take index ++ x :: xs.drop index := by
  induction xs generalizing index with
  | nil => simp_all
  | cons y ys ih => cases index <;> simp_all

theorem insertTail_spec {xs : List α} (x : α) (hle : index ≤ xs.length) :
    ∃ tail1 tail, copyUp 1 1 ((xs ++ [x]).length - index - 1) ((xs ++ [x]).drop index) = .ok tail1 ∧
      writeAt tail1 0 x = .ok tail ∧ (xs ++ [x]).take index ++ tail = xs.insertIdx index x := by
  have hcopy := copyUp_append [] (xs.drop index) [x] []
  have hlen : (xs ++ [x]).length - index - 1 = (xs.drop index).length := by simp; omega
  rw [hlen, drop_append_of_le_length hle, take_append_of_le_length hle, insertIdx_eq_append x hle]
  refine ⟨_, _, by simpa using hcopy, writeAt_of_lt ?_ x, ?_⟩
  · simp only [length_append, length_take, length_singleton]
    omega
  · cases xs.drop index <;> simp

theorem insert_spec (h : Owns held pool list xs) (x : T) (hle : index ≤ xs.length)
    (hroom : pool.data.length + 3 * sclassSize (sclassForLength (xs.length + 1)) ≤ u32Max) :
    Yields held pool (2 * sclassSize (sclassForLength (xs.length + 1)))
      (list.insert index x pool) (xs.insertIdx index x) := by
  obtain ⟨list', pool1, hpush, hown, hsame, hgrow⟩ := push_spec h x (by omega)
  have hcap : capacity (xs.length + 1) = sclassSize (sclassForLength (xs.length + 1)) :=
    capacity_of_pos (Nat.succ_pos _)
  obtain ⟨tail1, tail, hcopy, hwr, htail⟩ := insertTail_spec x hle
  have hlt : index < (xs ++ [x]).length := by simp; omega
  obtain ⟨pool', hmod, hown', hsame', hle'⟩ := modifySlice_spec (f := fun seq => do
      if index < seq.length then
        let tail ← copyUp 1 1 (seq.length - index - 1) (seq.drop index)
        let tail ← writeAt tail 0 x
        pure (seq.take index ++ tail)
      else
        ensure (index = seq.length) "assertion `left == right` failed"
        pure seq) hown (xs.insertIdx index x) (by omega)
    (by simp only [if_pos hlt, hcopy, ok_bind, hwr, htail]; rfl)
    (by rw [length_insertIdx, if_pos hle, length_append, length_singleton])
  refine ⟨list', pool', ?_, hown', hsame.trans hsame', by omega⟩
  rw [EntityList.insert, hpush]
  simp only [hmod, ok_bind]
  rfl

/-- `Vec::swap_remove`: the last element takes the place of the one at `index`. -/
def vecSwapRemove {α : Type} (xs : List α) (index : ℕ) : List α :=
  match xs.getLast? with
  | some x => (xs.set index x).dropLast
  | none => xs

theorem vecSwapRemove_eq {xs : List α} {x : α} (hx : xs[xs.length - 1]? = some x) (a : α) :
    ((xs.set index x).set (xs.length - 1) a).dropLast = vecSwapRemove xs index := by
  rw [vecSwapRemove, getLast?_eq_getElem?, hx]
  simp [dropLast_eq_take, take_set_of_le]

section

variable (h : Owns held pool list xs) (hlt : index < xs.length)
  (hroom : pool.data.length + sclassSize (sclassForLength (xs.length - 1)) ≤ u32Max)
include h hlt hroom

theorem modifySlice_removeLast_spec {f : List T → Exec (List T)} (hf : f xs = .ok ys)
    (hlen : ys.length = xs.length) :
    Yields held pool (sclassSize (sclassForLength (xs.length - 1)))
      (list.modifySlice pool f >>= list.removeLast xs.length) ys.dropLast := by
  obtain ⟨pool1, hmod, hown, hsame, hle⟩ := modifySlice_spec h ys (by omega) hf hlen
  have hne : ys ≠ [] := ne_nil_of_length_pos (by omega)
  obtain ⟨list', pool', heq, hown', hsame', hle'⟩ :=
    removeLast_spec hown hne (by rw [hlen, hle]; exact hroom)
  rw [hlen] at heq hle'
  exact ⟨list', pool', by rw [hmod, ok_bind, heq], hown', hsame.trans hsame', by omega⟩

theorem remove_spec :
    Yields held pool (sclassSize (sclassForLength (xs.length - 1))) (list.remove index pool)
      (xs.eraseIdx index) := by
  have hspl : xs.take index ++ xs.get ⟨index, hlt⟩ :: xs.drop (index + 1) = xs := by simp
  obtain ⟨c, hcopy⟩ := copyDown_append (xs.take index) (xs.drop (index + 1)) (xs.get ⟨index, hlt⟩)
  rw [hspl, length_take, min_eq_left hlt.le, length_drop,
    show xs.length - (index + 1) = xs.length - 1 - index by omega] at hcopy
  have herase : (xs.take index ++ xs.drop (index + 1) ++ [c]).dropLast = xs.eraseIdx index := by
    rw [dropLast_concat, eraseIdx_eq_take_drop_succ]
  rw [remove, h.asSlice (by omega), ← herase]
  simp only [ensure_of hlt, ok_bind]
  exact modifySlice_removeLast_spec h hlt hroom hcopy (by simp; omega)

theorem swapRemove_spec :
    Yields held pool (sclassSize (sclassForLength (xs.length - 1))) (list.swapRemove index pool)
      (vecSwapRemove xs index) := by
  obtain ⟨a, ha⟩ : ∃ a, xs[index]? = some a := ⟨_, getElem?_eq_getElem hlt⟩
  obtain ⟨x, hx⟩ : ∃ x, xs[xs.length - 1]? = some x := ⟨_, getElem?_eq_getElem (by omega)⟩
  rw [swapRemove, h.asSlice (by omega)]
  simp only [ensure_of hlt, ok_bind]
  by_cases hlast : index = xs.length - 1
  · -- the last element is its own replacement
    have hdrop : xs.dropLast = vecSwapRemove xs index := by
      rw [← vecSwapRemove_eq hx x, ← hlast, set_set]
      rw [← hlast] at hx
      obtain ⟨_, rfl⟩ := List.getElem?_eq_some_iff.1 hx
      rw [set_getElem_self]
    rw [if_neg (not_not.2 hlast), ← hdrop]
    exact removeLast_spec h (ne_nil_of_length_pos (by omega)) hroom
  · rw [if_pos hlast, ← vecSwapRemove_eq hx a]
    refine modifySlice_removeLast_spec h hlt hroom ?_ (by simp)
    simp only [readAt, ha, hx, unwrap_some, ok_bind, writeAt_of_lt hlt]
    exact writeAt_of_lt (by rw [length_set]; omega) a

end

/-- **`grow_at`**: the new elements are whatever the block has. -/
theorem growAt_spec (h : Owns held pool list xs) (n : ℕ) (hle : index ≤ xs.length)
    (hroom : pool.data.length + sclassSize (sclassForLength (xs.length + n)) ≤ u32Max)
    (hn32 : xs.length + n < 2 ^ 32) :
    ∃ zs, zs.length = n ∧ Yields held pool (sclassSize (sclassForLength (xs.length + n)))
      (list.growAt index n pool) (xs.take index ++ zs ++ xs.drop index) := by
  obtain ⟨zs, hzs, list', pool1, hgrow, hown, hsame, hlen1⟩ := grow_spec h n hroom hn32
  have htake : (xs.take index).length = index := by rw [length_take]; omega
  have hcopy := copyUp_append (xs.take index) (xs.drop index) zs []
  rw [htake, hzs, append_nil, append_nil, take_append_drop] at hcopy
  have hrest : (xs ++ zs).length - (index + n) = (xs.drop index).length := by simp; omega
  obtain ⟨pool', hmod, hown', hsame', hle'⟩ := modifySlice_spec
    (f := fun data => copyUp n (index + n) (data.length - (index + n)) data) hown _
    (by omega) (by rw [hrest, hcopy]) (by simp; omega)
  refine ⟨(xs.drop index ++ zs).take n, by simp; omega, list', pool', ?_, hown', hsame.trans hsame',
    by omega⟩
  rw [growAt, hgrow, ok_bind]
  simp only [hmod, ok_bind]
  rfl

end WasmDeps.Entity
