import WasmDeps.Entity.ListPool
import Mathlib.Data.List.Basic

/-!
# Blocks of a list pool

The pool is described by the blocks that its users hold.  `PoolOk pool held` says that these and
the blocks on the free lists are disjoint and inside of the pool, and that the free list of each
size class goes through its free blocks.  Allocating, freeing and writing to a held block keep
it, and leave the elements of all other held blocks alone.
-/

namespace WasmDeps.Entity

open Lib List Exec

/-! ## Size classes -/

theorem sclassSize_eq (sclass : ℕ) : sclassSize sclass = 4 * 2 ^ sclass := Nat.shiftLeft_eq _ _

theorem sclassSize_succ (sclass : ℕ) : sclassSize (sclass + 1) = 2 * sclassSize sclass := by
  rw [sclassSize_eq, sclassSize_eq]
  omega

theorem four_le_sclassSize (sclass : ℕ) : 4 ≤ sclassSize sclass := by
  have h := Nat.two_pow_pos sclass
  rw [sclassSize_eq]
  omega

variable {b i c n : ℕ}

theorem sclassSize_mono {a : ℕ} (h : a ≤ b) : sclassSize a ≤ sclassSize b := by
  rw [sclassSize_eq, sclassSize_eq]
  exact Nat.mul_le_mul_left 4 (Nat.pow_le_pow_right (by omega) h)

theorem log2_or_three {len : ℕ} (h : 4 ≤ len) : (len ||| 3).log2 = len.log2 := by
  have hne : len ≠ 0 := by omega
  have hle : len.log2 ≥ 2 := (Nat.le_log2 hne).2 h
  have hor : len ≤ len ||| 3 := Nat.left_le_or
  refine (Nat.log2_eq_iff (by omega)).2 ⟨(Nat.log2_self_le hne).trans hor, ?_⟩
  apply Nat.or_lt_two_pow Nat.lt_log2_self
  calc 3 < 2 ^ 2 := by omega
    _ ≤ 2 ^ (len.log2 + 1) := Nat.pow_le_pow_right (by omega) (by omega)

/-- **The size class of a length** is the least one with room for the length field. -/
theorem sclassForLength_eq_iff {len : ℕ} (hlen : len < 2 ^ 32) (sclass : ℕ) :
    sclassForLength len = sclass ↔
      len < sclassSize sclass ∧ (sclass = 0 ∨ sclassSize sclass ≤ 2 * len) := by
  rw [sclassSize_eq, sclassForLength, Nat.mod_eq_of_lt hlen]
  by_cases hsm : len < 4
  · have hor : len ||| 3 = 3 := by
      obtain rfl | rfl | rfl | rfl : len = 0 ∨ len = 1 ∨ len = 2 ∨ len = 3 := by omega
      all_goals rfl
    have hlz : leadingZeros 3 = 30 := by decide
    rw [hor, hlz]
    constructor
    · rintro rfl
      omega
    rintro ⟨_, h | h⟩
    · omega
    · rcases Nat.eq_zero_or_pos sclass with h0 | h0
      · omega
      · have := Nat.pow_le_pow_right (n := 2) (by omega) h0
        omega
  have hne : len ≠ 0 := by omega
  have hlog : (len ||| 3).log2 = len.log2 := log2_or_three (by omega)
  have h2 : 2 ≤ len.log2 := (Nat.le_log2 hne).2 (by omega)
  have h31 : len.log2 < 32 := (Nat.log2_lt hne).2 hlen
  have hlz : 30 - leadingZeros (len ||| 3) = len.log2 - 1 := by
    have hor : len ||| 3 ≠ 0 := by have := Nat.left_le_or (n := len) (m := 3); omega
    rw [leadingZeros, if_neg hor]
    omega
  have hiff : len.log2 = sclass + 1 ↔ 2 ^ (sclass + 1) ≤ len ∧ len < 2 ^ (sclass + 2) :=
    Nat.log2_eq_iff hne
  rw [Nat.pow_succ, Nat.pow_succ] at hiff
  constructor
  · intro h
    omega
  · rintro ⟨ha, hb | hb⟩
    · subst hb
      omega
    · omega

/-! ## The invariant of the pool -/

/-- A block with its size class. -/
structure Region where
  block : ℕ
  sclass : ℕ
  deriving DecidableEq, Repr

def Region.Cell (r : Region) (i : ℕ) : Prop :=
  r.block ≤ i ∧ i < r.block + sclassSize r.sclass

def Region.Apart (r r' : Region) : Prop :=
  r.block + sclassSize r.sclass ≤ r'.block ∨ r'.block + sclassSize r'.sclass ≤ r.block

theorem Region.Apart.symm {r r' : Region} (h : r.Apart r') : r'.Apart r := Or.symm h

theorem Region.Apart.not_cell {r r' : Region} (h : r.Apart r') (hi : r.Cell i) : ¬r'.Cell i := by
  rw [Region.Apart] at h
  rw [Region.Cell] at hi ⊢
  omega

variable {T : Type}

/-- The elements of all held blocks are the same. -/
def SameOn (held : List Region) (data data' : List T) : Prop :=
  ∀ r ∈ held, ∀ i, r.Cell i → data'[i]? = data[i]?

theorem SameOn.trans {held : List Region} {data data1 data' : List T}
    (h : SameOn held data data1) (h' : SameOn held data1 data') : SameOn held data data' :=
  fun r hr i hi => (h' r hr i hi).trans (h r hr i hi)

variable [EntityRef T]

/-- A free list, from its head through the links in its blocks. -/
def FreeChain (data : List T) : ℕ → List ℕ → Prop
  | head, [] => head = 0
  | head, b :: bs => head = b + 1 ∧ ∃ x, data[b + 1]? = some x ∧
      FreeChain data (EntityRef.index x) bs

theorem FreeChain.congr {data data' : List T} {head : ℕ} {bs : List ℕ} (h : FreeChain data head bs)
    (hsame : ∀ b ∈ bs, data'[b + 1]? = data[b + 1]?) : FreeChain data' head bs := by
  induction bs generalizing head with
  | nil => exact h
  | cons b bs ih =>
    obtain ⟨hhead, x, hx, hrest⟩ := h
    exact ⟨hhead, x, (hsame b (by simp)).trans hx, ih hrest fun b' hb' => hsame b' (.tail _ hb')⟩

def blocksOf (regions : List Region) (sclass : ℕ) : List ℕ :=
  (regions.filter fun r => r.sclass = sclass).map Region.block

theorem mem_blocksOf {regions : List Region} {sclass : ℕ} (h : b ∈ blocksOf regions sclass) :
    ⟨b, sclass⟩ ∈ regions := by
  obtain ⟨r, hr, rfl⟩ := mem_map.1 h
  obtain ⟨hmem, hc⟩ := mem_filter.1 hr
  rw [← of_decide_eq_true hc]
  exact hmem

/-- The pool with the blocks that are held and those that are free. -/
structure PoolShape (pool : ListPool T) (held free : List Region) : Prop where
  apart : (held ++ free).Pairwise Region.Apart
  inside : ∀ r ∈ held ++ free, r.block + sclassSize r.sclass ≤ pool.data.length
  chain : ∀ sclass, FreeChain pool.data (pool.heads.getD sclass 0) (blocksOf free sclass)

/-- **The invariant of the pool**: the held blocks are apart from each other and from the free
ones. -/
def PoolOk (pool : ListPool T) (held : List Region) : Prop := ∃ free, PoolShape pool held free

variable {pool : ListPool T} {held free : List Region} {r : Region}

theorem PoolOk.inside (h : PoolOk pool (⟨b, c⟩ :: held)) : b + sclassSize c ≤ pool.data.length := by
  obtain ⟨free, h⟩ := h
  exact h.inside ⟨b, c⟩ (by simp)

theorem PoolOk.perm {held' : List Region} (h : PoolOk pool held) (hperm : held.Perm held') :
    PoolOk pool held' := by
  obtain ⟨free, h⟩ := h
  have hp := hperm.append_right free
  exact ⟨free, (hp.pairwise_iff Region.Apart.symm).1 h.apart,
    fun r hr => h.inside r (hp.mem_iff.2 hr), h.chain⟩

theorem PoolOk.sameOn {data' : List T} (h : PoolOk pool held)
    (hsame : ∀ i, i < pool.data.length → data'[i]? = pool.data[i]?) :
    SameOn held pool.data data' := by
  obtain ⟨free, h⟩ := h
  intro r hr i hi
  exact hsame i (hi.2.trans_le (h.inside r (mem_append_left _ hr)))

theorem PoolShape.update {data' : List T} (h : PoolShape pool (r :: held) free)
    (hlen : data'.length = pool.data.length) (hsame : ∀ i, ¬r.Cell i → data'[i]? = pool.data[i]?) :
    PoolShape ⟨data', pool.heads⟩ (r :: held) free ∧ SameOn held pool.data data' := by
  have hapart := (pairwise_cons.1 h.apart).1
  refine ⟨⟨h.apart, fun r' hr' => (h.inside r' hr').trans hlen.ge, fun c => ?_⟩, ?_⟩
  · refine (h.chain c).congr fun b hb => hsame _ ?_
    have hfree : (⟨b, c⟩ : Region) ∈ held ++ free := mem_append_right _ (mem_blocksOf hb)
    refine (hapart _ hfree).symm.not_cell ⟨Nat.le_succ b, ?_⟩
    have := four_le_sclassSize c
    simp only
    omega
  · intro r' hr' i hi
    exact hsame i ((hapart r' (mem_append_left _ hr')).symm.not_cell hi)

theorem PoolOk.update (h : PoolOk pool (r :: held)) (data' : List T)
    (hlen : data'.length = pool.data.length) (hsame : ∀ i, ¬r.Cell i → data'[i]? = pool.data[i]?) :
    PoolOk ⟨data', pool.heads⟩ (r :: held) ∧ SameOn held pool.data data' := by
  obtain ⟨free, h⟩ := h
  obtain ⟨hsh, hother⟩ := h.update hlen hsame
  exact ⟨⟨free, hsh⟩, hother⟩

/-! ## Allocating -/

theorem filter_append_cons_ne {free1 free2 : List Region} (hc : c ≠ r.sclass) :
    blocksOf (free1 ++ r :: free2) c = blocksOf (free1 ++ free2) c := by
  simp [blocksOf, filter_append, Ne.symm hc]

theorem alloc_new (h : pool.heads.getD c 0 = 0) :
    pool.alloc c = .ok (pool.data.length,
      ⟨pool.data ++ List.replicate (sclassSize c) EntityRef.reservedValue, pool.heads⟩) := by
  rw [ListPool.alloc, h]
  rfl

theorem alloc_reused {x : T} (h : pool.heads.getD c 0 = b + 1) (hx : pool.data[b + 1]? = some x) :
    pool.alloc c = .ok (b, ⟨pool.data, pool.heads.set c (EntityRef.index x)⟩) := by
  rw [ListPool.alloc, h, readAt, hx]
  rfl

theorem getD_set (l : List ℕ) (hc : c < l.length) (x c' : ℕ) :
    (l.set c x).getD c' 0 = if c' = c then x else l.getD c' 0 := by
  by_cases h : c' = c
  · simp [h, hc]
  · simp [h, Ne.symm h, getD_eq_getElem?_getD]

/-- **A block is allocated**: it is apart from all held ones, and no element changes. -/
theorem alloc_spec (h : PoolOk pool held) (c : ℕ) :
    ∃ b pool', pool.alloc c = .ok (b, pool') ∧ PoolOk pool' (⟨b, c⟩ :: held) ∧
      (∀ i, i < pool.data.length → pool'.data[i]? = pool.data[i]?) ∧
      pool.data.length ≤ pool'.data.length ∧
      pool'.data.length ≤ pool.data.length + sclassSize c := by
  obtain ⟨free, h⟩ := h
  have hchain := h.chain c
  cases hbs : blocksOf free c with
  | nil =>
    rw [hbs] at hchain
    have hold : ∀ i, i < pool.data.length → (pool.data ++
        replicate (sclassSize c) EntityRef.reservedValue)[i]? = pool.data[i]? :=
      fun i hi => getElem?_append_left hi
    refine ⟨_, _, alloc_new hchain, ⟨free, ?_, ?_, fun c' => ?_⟩, hold, by simp, by simp⟩
    · exact pairwise_cons.2 ⟨fun r hr => .inr (h.inside r hr), h.apart⟩
    · intro r hr
      rw [length_append, length_replicate]
      obtain rfl | hr := mem_cons.1 hr
      · exact le_rfl
      · have := h.inside r hr
        omega
    · refine (h.chain c').congr fun b hb => hold _ ?_
      have := h.inside ⟨b, c'⟩ (mem_append_right _ (mem_blocksOf hb))
      have := four_le_sclassSize c'
      simp only at *
      omega
  | cons b bs =>
    rw [hbs] at hchain
    obtain ⟨hhead, x, hx, hrest⟩ := hchain
    -- the head of the free list, taken out of the free blocks
    obtain ⟨r, rest, hfilter, rfl, rfl⟩ := map_eq_cons_iff.1 hbs
    obtain ⟨free1, free2, rfl, hnone, hrc, hfilter2⟩ := filter_eq_cons_iff.1 hfilter
    obtain rfl : r.sclass = c := of_decide_eq_true hrc
    have hlt : r.sclass < pool.heads.length := by
      by_contra hge
      rw [getD_eq_default _ _ (not_lt.1 hge)] at hhead
      omega
    have hperm : (held ++ (free1 ++ r :: free2)).Perm (r :: held ++ (free1 ++ free2)) := by
      apply (List.Perm.append_left held perm_middle).trans
      exact perm_middle
    refine ⟨r.block, _, alloc_reused hhead hx,
      ⟨free1 ++ free2, (hperm.pairwise_iff Region.Apart.symm).1 h.apart,
        fun r' hr' => h.inside r' (hperm.mem_iff.2 hr'), fun c' => ?_⟩,
      fun _ _ => rfl, le_rfl, Nat.le_add_right _ _⟩
    rw [getD_set _ hlt]
    by_cases hc : c' = r.sclass
    · subst hc
      have hbl : blocksOf (free1 ++ free2) r.sclass = rest.map Region.block := by
        rw [blocksOf, filter_append, filter_eq_nil_iff.2 hnone, nil_append, hfilter2]
      rw [hbl, if_pos rfl]
      exact hrest
    · rw [← filter_append_cons_ne hc, if_neg hc]
      exact h.chain c'

/-! ## Freeing -/

theorem newRef_of_lt (h : n < u32Max) : (newRef n : Exec T) = .ok (EntityRef.new n) := by
  simp [newRef, h]

variable {α : Type}

theorem writeAt_of_lt {data : List α} (h : i < data.length) (x : α) :
    writeAt data i x = .ok (data.set i x) := by
  simp [writeAt, h]

/-- The heads of the free lists, with one for the given class. -/
def headsFor (heads : List ℕ) (c : ℕ) : List ℕ :=
  if heads.length ≤ c then heads ++ List.replicate (c + 1 - heads.length) 0 else heads

theorem lt_length_headsFor (heads : List ℕ) (c : ℕ) : c < (headsFor heads c).length := by
  rw [headsFor]
  split
  · rw [length_append, length_replicate]
    omega
  · omega

theorem getD_headsFor (heads : List ℕ) (c c' : ℕ) :
    (headsFor heads c).getD c' 0 = heads.getD c' 0 := by
  rw [headsFor]
  split
  · simp only [getD_eq_getElem?_getD, getElem?_append, getElem?_replicate]
    by_cases hlt : c' < heads.length
    · rw [if_pos hlt]
    · rw [if_neg hlt, getElem?_eq_none (not_lt.1 hlt)]
      split <;> rfl
  · rfl

theorem PoolShape.head_lt (h : PoolShape pool held free) (hmax : pool.data.length ≤ u32Max)
    (c : ℕ) : pool.heads.getD c 0 < u32Max := by
  have hchain := h.chain c
  cases hbs : blocksOf free c with
  | nil =>
    rw [hbs] at hchain
    rw [hchain]
    decide
  | cons b bs =>
    have hb : b ∈ blocksOf free c := by rw [hbs]; simp
    rw [hbs] at hchain
    have hin := h.inside ⟨b, c⟩ (mem_append_right _ (mem_blocksOf hb))
    have hfour := four_le_sclassSize c
    have hhead := hchain.1
    simp only at hin
    omega

/-- **A held block is freed**, and no element of another one changes. -/
theorem free_spec (h : PoolOk pool (⟨b, c⟩ :: held)) (hmax : pool.data.length ≤ u32Max) :
    ∃ pool', pool.free b c = .ok pool' ∧ PoolOk pool' held ∧
      SameOn held pool.data pool'.data ∧ pool'.data.length = pool.data.length := by
  have hin := h.inside
  have hfour := four_le_sclassSize c
  obtain ⟨free, hs⟩ := h
  have hhead := hs.head_lt hmax c
  set data' := (pool.data.set b (EntityRef.new 0)).set (b + 1)
    (EntityRef.new (pool.heads.getD c 0)) with hdata
  have hlen : data'.length = pool.data.length := by simp [hdata]
  have hread : readAt (headsFor pool.heads c) c = .ok (pool.heads.getD c 0) := by
    have hlt := lt_length_headsFor pool.heads c
    rw [← getD_headsFor pool.heads c c, readAt, getElem?_eq_getElem hlt, getD_eq_getElem _ _ hlt]
    rfl
  have hfree : pool.free b c = .ok ⟨data', (headsFor pool.heads c).set c (b + 1)⟩ := by
    have hdef : pool.free b c = (do
        let zero ← newRef 0
        let data ← writeAt pool.data b zero
        let head ← readAt (headsFor pool.heads c) c
        let next ← newRef head
        let data ← writeAt data (b + 1) next
        pure ⟨data, (headsFor pool.heads c).set c (b + 1)⟩) := rfl
    rw [hdef, newRef_of_lt (by decide), ok_bind, writeAt_of_lt (by omega), ok_bind, hread, ok_bind,
      newRef_of_lt hhead, ok_bind, writeAt_of_lt (by rw [length_set]; omega)]
    rfl
  have hsame : ∀ i, ¬(⟨b, c⟩ : Region).Cell i → data'[i]? = pool.data[i]? := by
    intro i hi
    rw [Region.Cell] at hi
    simp only at hi
    rw [getElem?_set_ne (by omega), getElem?_set_ne (by omega)]
  obtain ⟨hs', hother⟩ := hs.update hlen hsame
  have hperm : (⟨b, c⟩ :: held ++ free).Perm (held ++ ⟨b, c⟩ :: free) := perm_middle.symm
  refine ⟨_, hfree, ⟨⟨b, c⟩ :: free, (hperm.pairwise_iff Region.Apart.symm).1 hs'.apart,
    fun r' hr' => hs'.inside r' (hperm.mem_iff.2 hr'), fun c' => ?_⟩, hother, hlen⟩
  rw [getD_set _ (lt_length_headsFor pool.heads c), getD_headsFor]
  by_cases hc : c' = c
  · -- the block is the new head and links to the old one
    subst hc
    have hbl : blocksOf (⟨b, c'⟩ :: free) c' = b :: blocksOf free c' := by simp [blocksOf]
    rw [hbl, if_pos rfl]
    refine ⟨rfl, EntityRef.new (pool.heads.getD c' 0), ?_, ?_⟩
    · rw [getElem?_set_self (by rw [length_set]; omega)]
    · rw [EntityRef.index_new _ hhead]
      exact hs'.chain c'
  · have hbl : blocksOf (⟨b, c⟩ :: free) c' = blocksOf free c' := by
      simp [blocksOf, Ne.symm hc]
    rw [hbl, if_neg hc]
    exact hs'.chain c'

/-! ## Moving to another block -/

def Stores {α : Type} (data : List α) (b : ℕ) (ys : List α) : Prop :=
  ∀ j, j < ys.length → data[b + j]? = ys[j]?

variable {data ys : List α}

theorem Stores.take (h : Stores data b ys) (n : ℕ) : Stores data b (ys.take n) := by
  intro j hj
  rw [length_take] at hj
  rw [h j (by omega), getElem?_take, if_pos (by omega)]

theorem Stores.exists_append (h : Stores data b ys) (hn : b + ys.length + n ≤ data.length) :
    ∃ zs, zs.length = n ∧ Stores data b (ys ++ zs) := by
  refine ⟨(data.drop (b + ys.length)).take n, ?_, fun j hj => ?_⟩
  · rw [length_take, length_drop]
    omega
  rw [length_append, length_take] at hj
  rw [getElem?_append]
  by_cases hlt : j < ys.length
  · rw [if_pos hlt, h j hlt]
  · rw [if_neg hlt, getElem?_take, if_pos (by omega), getElem?_drop]
    congr 1
    omega

theorem getElem?_writeSlice (data xs : List α) (h : i ≤ data.length) (j : ℕ) :
    (data.take i ++ xs ++ data.drop (i + xs.length))[j]? =
      if i ≤ j ∧ j < i + xs.length then xs[j - i]? else data[j]? := by
  have hmin : min i data.length = i := by omega
  simp only [getElem?_append, length_append, length_take, hmin, getElem?_take, getElem?_drop]
  by_cases h1 : j < i
  · rw [if_pos (by omega), if_pos h1, if_pos h1, if_neg (by omega)]
  by_cases h2 : j < i + xs.length
  · rw [if_pos h2, if_neg h1, if_pos (by omega)]
  · rw [if_neg h2, if_neg (by omega)]
    congr 1
    omega

theorem writeSlice_spec (data xs : List α) (i : ℕ) (h : i + xs.length ≤ data.length) :
    ∃ data', writeSlice data i xs = .ok data' ∧ data'.length = data.length ∧
      ∀ j, data'[j]? = if i ≤ j ∧ j < i + xs.length then xs[j - i]? else data[j]? := by
  refine ⟨_, by rw [writeSlice, ensure_of h]; rfl, ?_, getElem?_writeSlice data xs (by omega)⟩
  simp only [length_append, length_take, length_drop]
  omega

theorem writeAt_of_writeSlice {data data' : List α} {x : α}
    (h : writeSlice data i [x] = .ok data') : writeAt data i x = .ok data' := by
  by_cases hlt : i < data.length
  · have hle : i + [x].length ≤ data.length := hlt
    rw [writeSlice, ensure_of hle] at h
    rw [writeAt_of_lt hlt, ← h, set_eq_take_append_cons_drop, if_pos hlt]
    simp
  · have hle : ¬i + [x].length ≤ data.length := hlt
    rw [writeSlice, ensure_of_not hle] at h
    cases h

theorem writeSlice_block {ys : List T} (h : PoolOk pool (⟨b, c⟩ :: held))
    (hys : Stores pool.data b ys) (i : ℕ) (zs : List T) (hi : i ≤ ys.length)
    (hin : i + zs.length ≤ sclassSize c) :
    ∃ data, writeSlice pool.data (b + i) zs = .ok data ∧ data.length = pool.data.length ∧
      PoolOk ⟨data, pool.heads⟩ (⟨b, c⟩ :: held) ∧ SameOn held pool.data data ∧
      Stores data b (ys.take i ++ zs ++ ys.drop (i + zs.length)) := by
  have hblk := h.inside
  obtain ⟨data, hwr, hlen, hget⟩ := writeSlice_spec pool.data zs (b + i) (by omega)
  obtain ⟨h', hsame⟩ := h.update data hlen fun j hj => by
    rw [Region.Cell] at hj
    simp only at hj
    rw [hget, if_neg (by omega)]
  refine ⟨data, hwr, hlen, h', hsame, fun j hj => ?_⟩
  simp only [length_append, length_take, length_drop] at hj
  rw [hget, getElem?_writeSlice ys zs hi]
  by_cases hjz : i ≤ j ∧ j < i + zs.length
  · rw [if_pos (by omega), if_pos hjz, Nat.add_sub_add_left]
  · rw [if_neg (by omega), if_neg hjz]
    exact hys j (by omega)

theorem Stores.congr (h : Stores data b ys) {data' : List α} (hsame : SameOn held data data')
    (hmem : ⟨b, c⟩ ∈ held) (hle : ys.length ≤ sclassSize c) : Stores data' b ys := by
  intro j hj
  have hcell : (⟨b, c⟩ : Region).Cell (b + j) := ⟨Nat.le_add_right b j, by simp only; omega⟩
  rw [hsame _ hmem _ hcell]
  exact h j hj

theorem readSlice_of_stores (h : Stores data b ys) (i : ℕ) (hn : i + n ≤ ys.length)
    (hlen : b + ys.length ≤ data.length) : readSlice data (b + i) n = .ok ((ys.drop i).take n) := by
  rw [readSlice, ensure_of (by omega)]
  refine congrArg Except.ok (ext_getElem? fun j => ?_)
  simp only [getElem?_take, getElem?_drop]
  by_cases hj : j < n
  · rw [if_pos hj, if_pos hj, add_assoc, h (i + j) (by omega)]
  · rw [if_neg hj, if_neg hj]

theorem realloc_spec {c' : ℕ} {ys : List T} (h : PoolOk pool (⟨b, c⟩ :: held))
    (hys : Stores pool.data b ys) (hn : 0 < n) (hle : n ≤ ys.length)
    (hfrom : ys.length ≤ sclassSize c) (hto : n ≤ sclassSize c')
    (hroom : pool.data.length + sclassSize c' ≤ u32Max) :
    ∃ b' pool', pool.realloc b c c' n = .ok (b', pool') ∧ PoolOk pool' (⟨b', c'⟩ :: held) ∧
      Stores pool'.data b' (ys.take n) ∧ SameOn held pool.data pool'.data ∧
      pool'.data.length ≤ pool.data.length + sclassSize c' := by
  obtain ⟨b', pool1, halloc, h1, hold, hgrow, hmax⟩ := alloc_spec h c'
  have hin := h.inside
  -- both blocks are held while the elements are copied
  have hapart : (⟨b', c'⟩ : Region).Apart ⟨b, c⟩ := by
    obtain ⟨free, hs⟩ := h1
    exact (pairwise_cons.1 hs.apart).1 _ (by simp)
  have hys1 : Stores pool1.data b ys := fun j hj => (hold _ (by omega)).trans (hys j hj)
  have hread : readSlice pool1.data b n = .ok (ys.take n) := by
    simpa using readSlice_of_stores hys1 0 (by omega) (by omega)
  have htake : (ys.take n).length = n := by rw [length_take]; omega
  have hnil : Stores pool1.data b' [] := fun j hj => absurd hj (Nat.not_lt_zero j)
  obtain ⟨data', hwr, hlen', h2, hsame2, hs2⟩ := writeSlice_block h1 hnil 0 (ys.take n) le_rfl
    (by omega)
  rw [add_zero] at hwr
  have hcopy : pool1.copyBlock b b' n = .ok ⟨data', pool1.heads⟩ := by
    rw [Region.Apart] at hapart
    simp only at hapart
    rw [ListPool.copyBlock]
    by_cases hlt : b < b'
    · rw [if_pos hlt, ensure_of (by omega), ok_bind, hread, ok_bind, hwr]
      rfl
    · rw [if_neg hlt, ensure_of (by omega), ok_bind, hread, ok_bind, hwr]
      rfl
  obtain ⟨pool', hfree, h', hsame', hlen''⟩ :=
    free_spec (h2.perm (.swap _ _ _)) (by simp only; omega)
  refine ⟨b', pool', ?_, h', ?_, ?_, by simp only at hlen''; omega⟩
  · rw [ListPool.realloc, ensure_of (by omega), ensure_of hto, halloc]
    simp only [if_pos hn, hcopy, ok_bind, hfree]
    rfl
  · exact .congr (by simpa using hs2) hsame' (.head _) (by omega)
  · have hsame1 := (h.sameOn hold).trans hsame2
    exact fun r hr i hi => (hsame' r (.tail _ hr) i hi).trans (hsame1 r (.tail _ hr) i hi)

end WasmDeps.Entity
