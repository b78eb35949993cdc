import WasmDeps.Entity.EntityListOps

/-!
# Entity lists in one pool are independent vectors

Any number of lists share a pool and are operated on in any order.  The index of a list has 32
bits, so they are independent as long as the pool has fewer than `2 ^ 32` elements.  A block beyond
that gets the index of another one.
-/

namespace WasmDeps.Entity

open Lib List Exec EntityList

variable {T : Type}

/-! ## Operations -/

/-- The operations on one list. -/
inductive OneOp (T : Type)
  | clear
  | push (x : T)
  | extend (xs : List T) (sized : Bool)
  | insert (index : ℕ) (x : T)
  | remove (index : ℕ)
  | swapRemove (index : ℕ)
  | removeLast
  | truncate (len : ℕ)
  | grow (count : ℕ)
  | growAt (index count : ℕ)

/-- The operations on the lists of a pool. -/
inductive ListOp (T : Type)
  | new
  | fromSlice (xs : List T)
  | deepClone (i : ℕ)
  | take (i : ℕ)
  | on (i : ℕ) (op : OneOp T)

/-- What the operation does to a vector.  The elements that `grow` and `grow_at` add are not
specified. -/
def OneOp.Result : OneOp T → List T → List T → Prop
  | clear, _, v' => v' = []
  | push x, v, v' => v' = v ++ [x]
  | extend xs _, v, v' => v' = v ++ xs
  | insert index x, v, v' => v' = v.insertIdx index x
  | remove index, v, v' => v' = v.eraseIdx index
  | swapRemove index, v, v' => v' = vecSwapRemove v index
  | removeLast, v, v' => v' = v.dropLast
  | truncate len, v, v' => v' = v.take len
  | grow count, v, v' => ∃ ws : List T, ws.length = count ∧ v' = v ++ ws
  | growAt index count, v, v' =>
    ∃ ws : List T, ws.length = count ∧ v' = v.take index ++ ws ++ v.drop index

/-- The indices of an operation are within the list. -/
def OneOp.InBounds : OneOp T → List T → Prop
  | insert index _, v => index ≤ v.length
  | remove index, v => index < v.length
  | swapRemove index, v => index < v.length
  | removeLast, v => v ≠ []
  | growAt index _, v => index ≤ v.length
  | _, _ => True

/-- The length of the list after an operation. -/
def OneOp.newLen : OneOp T → List T → ℕ
  | clear, _ => 0
  | push _, v => v.length + 1
  | extend xs _, v => v.length + xs.length
  | insert _ _, v => v.length + 1
  | remove _, v => v.length - 1
  | swapRemove _, v => v.length - 1
  | removeLast, v => v.length - 1
  | truncate len, v => min len v.length
  | grow count, v => v.length + count
  | growAt _ count, v => v.length + count

/-- What an operation does to vectors. -/
def ListOp.Result : ListOp T → List (List T) → List (List T) → Prop
  | new, vs, vs' => vs' = vs ++ [[]]
  | fromSlice xs, vs, vs' => vs' = vs ++ [xs]
  | deepClone i, vs, vs' => ∃ v, vs[i]? = some v ∧ vs' = vs ++ [v]
  | take i, vs, vs' => ∃ v, vs[i]? = some v ∧ vs' = vs.set i [] ++ [v]
  | on i op, vs, vs' => ∃ v v', vs[i]? = some v ∧ op.Result v v' ∧ vs' = vs.set i v'

/-- The operation names lists that are there, and indices within them. -/
def ListOp.InBounds : ListOp T → List (List T) → Prop
  | new, _ | fromSlice _, _ => True
  | deepClone i, vs | take i, vs => i < vs.length
  | on i op, vs => ∃ v ∈ vs[i]?, op.InBounds v

/-- The length of the list that an operation makes. -/
def ListOp.newLen : ListOp T → List (List T) → ℕ
  | new, _ | take _, _ => 0
  | fromSlice xs, _ => xs.length
  | deepClone i, vs => (vs.getD i []).length
  | on i op, vs => op.newLen (vs.getD i [])

instance decidableInBoundsOne : (op : OneOp T) → (v : List T) → Decidable (op.InBounds v)
  | .insert index _, v => inferInstanceAs (Decidable (index ≤ v.length))
  | .remove index, v => inferInstanceAs (Decidable (index < v.length))
  | .swapRemove index, v => inferInstanceAs (Decidable (index < v.length))
  | .removeLast, v => inferInstanceAs (Decidable (v ≠ []))
  | .growAt index _, v => inferInstanceAs (Decidable (index ≤ v.length))
  | .clear, _ | .push _, _ | .extend _ _, _ | .truncate _, _ | .grow _, _ => .isTrue trivial

instance decidableInBounds : (op : ListOp T) → (vs : List (List T)) → Decidable (op.InBounds vs)
  | .new, _ | .fromSlice _, _ => .isTrue trivial
  | .deepClone i, vs | .take i, vs => inferInstanceAs (Decidable (i < vs.length))
  | .on i op, vs => inferInstanceAs (Decidable (∃ v ∈ vs[i]?, op.InBounds v))

/-! ## The lists of a pool -/

/-- A pool and the lists in it. -/
structure Lists (T : Type) where
  pool : ListPool T
  lists : List EntityList
  deriving DecidableEq, Repr

variable [EntityRef T]

/-- The elements of every list. -/
def Lists.contents (s : Lists T) : Exec (List (List T)) :=
  s.lists.mapM fun list => list.asSlice s.pool

/-- An operation on one list. -/
def OneOp.apply (op : OneOp T) (list : EntityList) (pool : ListPool T) :
    Exec (EntityList × ListPool T) :=
  match op with
  | clear => list.clear pool
  | push x => do
    let (_, list, pool) ← list.push x pool
    pure (list, pool)
  | extend xs sized => list.extend xs sized pool
  | insert index x => list.insert index x pool
  | remove index => list.remove index pool
  | swapRemove index => list.swapRemove index pool
  | removeLast => do
    let seq ← list.asSlice pool
    list.removeLast seq.length pool
  | truncate len => list.truncate len pool
  | grow count => list.grow count pool
  | growAt index count => list.growAt index count pool

/-- An operation on the lists. -/
def Lists.step (s : Lists T) : ListOp T → Exec (Lists T)
  | .new => pure ⟨s.pool, s.lists ++ [EntityList.new]⟩
  | .fromSlice xs => do
    let (list, pool) ← EntityList.fromSlice xs s.pool
    pure ⟨pool, s.lists ++ [list]⟩
  | .deepClone i => do
    let list ← readAt s.lists i
    let (list, pool) ← list.deepClone s.pool
    pure ⟨pool, s.lists ++ [list]⟩
  | .take i => do
    let list ← readAt s.lists i
    pure ⟨s.pool, s.lists.set i list.take.2 ++ [list.take.1]⟩
  | .on i op => do
    let list ← readAt s.lists i
    let (list, pool) ← op.apply list s.pool
    pure ⟨pool, s.lists.set i list⟩

/-- The contents can be read and satisfy `p`. -/
def Lists.Has (s : Lists T) (p : List (List T) → Prop) : Prop :=
  match s.contents with
  | .ok vs => p vs
  | .error _ => False

/-- The property may be decided for the contents. -/
def decidableOn {p : List (List T) → Prop} [DecidablePred p] : (c : Exec (List (List T))) →
    Decidable (match c with | .ok vs => p vs | .error _ => False)
  | .ok vs => inferInstanceAs (Decidable (p vs))
  | .error _ => .isFalse id

instance (s : Lists T) (p : List (List T) → Prop) [DecidablePred p] : Decidable (s.Has p) :=
  decidableOn s.contents

/-- All runs on the lists of a new pool. -/
def listMachine (T : Type) [EntityRef T] : Machine (Lists T) (ListOp T) where
  start s := s = ⟨ListPool.new, []⟩
  allowed s op := s.Has op.InBounds
  step := Lists.step

/-- The pool has room for the blocks that the operation may take, below `2 ^ 32` elements. -/
def roomFor (s : Lists T) (op : ListOp T) : Prop :=
  s.Has fun vs => op.newLen vs ≤ u32Max ∧
    s.pool.data.length + 3 * sclassSize (sclassForLength (op.newLen vs)) ≤ u32Max

/-! ## One list -/

variable {held : List Region} {pool : ListPool T} {list : EntityList}

variable {result : Exec (EntityList × ListPool T)} {xs v : List T} {p : EntityList × List T} {i : ℕ}
  {α : Type}

theorem Yields.mono {room room' : ℕ} (h : Yields held pool room result xs) (hle : room ≤ room') :
    Yields held pool room' result xs := by
  obtain ⟨list, pool', heq, hown, hsame, hlen⟩ := h
  exact ⟨list, pool', heq, hown, hsame, by omega⟩

/-- **Every operation on a list gives it the elements that it gives to a vector.** -/
theorem apply_spec (op : OneOp T) (h : Owns held pool list v) (hb : op.InBounds v)
    (hlen : op.newLen v ≤ u32Max)
    (hroom : pool.data.length + 3 * sclassSize (sclassForLength (op.newLen v)) ≤ u32Max) :
    ∃ v', op.Result v v' ∧ Yields held pool (3 * sclassSize (sclassForLength (op.newLen v)))
      (op.apply list pool) v' := by
  have hlen32 : op.newLen v < 2 ^ 32 := by rw [u32Max] at hlen; omega
  cases op with
  | clear => exact ⟨[], rfl, (clear_spec h (by omega)).mono (Nat.zero_le _)⟩
  | push x =>
    rw [OneOp.newLen] at hroom ⊢
    obtain ⟨list', pool', heq, hown, hsame, hgrow⟩ := push_spec h x (by omega)
    have hcap : capacity (v.length + 1) = sclassSize (sclassForLength (v.length + 1)) :=
      capacity_of_pos (Nat.succ_pos _)
    refine ⟨_, rfl, list', pool', ?_, hown, hsame, by omega⟩
    rw [OneOp.apply, heq]
    rfl
  | extend xs sized =>
    exact ⟨_, rfl, (extend_spec h sized hroom hlen32).mono (by rw [OneOp.newLen]; omega)⟩
  | insert index x =>
    exact ⟨_, rfl, (insert_spec h x hb hroom).mono (by rw [OneOp.newLen]; omega)⟩
  | remove index =>
    rw [OneOp.newLen] at hroom ⊢
    exact ⟨_, rfl, (remove_spec h hb (by omega)).mono (by omega)⟩
  | swapRemove index =>
    rw [OneOp.newLen] at hroom ⊢
    exact ⟨_, rfl, (swapRemove_spec h hb (by omega)).mono (by omega)⟩
  | removeLast =>
    rw [OneOp.newLen] at hroom ⊢
    have hy := (removeLast_spec h hb (by omega)).mono
      (show _ ≤ 3 * sclassSize (sclassForLength (v.length - 1)) by omega)
    refine ⟨_, rfl, ?_⟩
    rwa [OneOp.apply, h.asSlice (by omega), ok_bind]
  | truncate len =>
    rw [OneOp.newLen] at hroom ⊢
    exact ⟨_, rfl, (truncate_spec h len (by omega)).mono (by omega)⟩
  | grow count =>
    rw [OneOp.newLen] at hroom hlen32 ⊢
    obtain ⟨ws, hws, hy⟩ := grow_spec h count (by omega) hlen32
    exact ⟨_, ⟨ws, hws, rfl⟩, hy.mono (by omega)⟩
  | growAt index count =>
    rw [OneOp.newLen] at hroom hlen32 ⊢
    obtain ⟨ws, hws, hy⟩ := growAt_spec h count hb (by omega) hlen32
    exact ⟨_, ⟨ws, hws, rfl⟩, hy.mono (by omega)⟩

/-! ## All lists -/

/-- The blocks that the lists take. -/
def blocksHeld (ps : List (EntityList × List T)) : List Region :=
  ps.flatMap fun p => regionOf p.1 p.2.length

/-- The pool is sound and each list holds its vector in a block of its own. -/
structure Represents (pool : ListPool T) (ps : List (EntityList × List T)) : Prop where
  poolOk : PoolOk pool (blocksHeld ps)
  max : pool.data.length ≤ u32Max
  owns : ∀ p ∈ ps, ∃ held, Owns held pool p.1 p.2

omit [EntityRef T] in
theorem blocksHeld_perm (ps1 ps2 : List (EntityList × List T)) (p : EntityList × List T) :
    (blocksHeld (ps1 ++ p :: ps2)).Perm (regionOf p.1 p.2.length ++ blocksHeld (ps1 ++ ps2)) := by
  unfold blocksHeld
  rw [flatMap_append, flatMap_append, flatMap_cons, ← append_assoc, ← append_assoc]
  exact perm_append_comm.append_right _

theorem Represents.owns_at {ps1 ps2 : List (EntityList × List T)}
    (h : Represents pool (ps1 ++ p :: ps2)) : Owns (blocksHeld (ps1 ++ ps2)) pool p.1 p.2 := by
  obtain ⟨held, hown⟩ := h.owns p (by simp)
  exact hown.congr (h.poolOk.perm (blocksHeld_perm ps1 ps2 p)) fun _ _ _ _ => rfl

theorem Represents.update {ps1 ps2 : List (EntityList × List T)}
    {pool' : ListPool T} (h : ∀ q ∈ ps1 ++ ps2, ∃ held, Owns held pool q.1 q.2)
    (hown : Owns (blocksHeld (ps1 ++ ps2)) pool' p.1 p.2)
    (hsame : SameOn (blocksHeld (ps1 ++ ps2)) pool.data pool'.data)
    (hmax : pool'.data.length ≤ u32Max) : Represents pool' (ps1 ++ p :: ps2) := by
  have hpool := hown.poolOk.perm (blocksHeld_perm ps1 ps2 p).symm
  refine ⟨hpool, hmax, fun q hq => ?_⟩
  obtain rfl | hq' : q = p ∨ q ∈ ps1 ++ ps2 := by
    simp only [mem_append, mem_cons] at hq ⊢
    tauto
  · exact ⟨_, hown⟩
  -- the block of the other list is one of those that did not change
  obtain ⟨held, howns⟩ := h q hq'
  obtain ⟨qs1, qs2, hqs⟩ := append_of_mem hq
  rw [hqs] at hpool
  refine ⟨_, howns.congr (hpool.perm (blocksHeld_perm qs1 qs2 q)) fun r hr => ?_⟩
  exact hsame r (mem_flatMap.2 ⟨q, hq', hr⟩)

variable {ps : List (EntityList × List T)} {s : Lists T}

theorem Represents.contents (h : Represents s.pool ps) (hlists : s.lists = ps.map Prod.fst) :
    s.contents = .ok (ps.map Prod.snd) := by
  have hslices : ∀ p ∈ ps, p.1.asSlice s.pool = .ok p.2 := fun p hp => by
    obtain ⟨held, hown⟩ := h.owns p hp
    exact hown.asSlice h.max
  rw [Lists.contents, hlists]
  clear h hlists
  induction ps with
  | nil => rfl
  | cons p ps ih =>
    rw [map_cons, mapM_cons, hslices p (by simp), ih fun q hq => hslices q (.tail _ hq)]
    rfl

/-- The lists are the vectors of `ps`. -/
def Lists.IsVectors (s : Lists T) (ps : List (EntityList × List T)) : Prop :=
  s.lists = ps.map Prod.fst ∧ Represents s.pool ps

theorem Lists.IsVectors.split (h : s.IsVectors ps) (hv : (ps.map Prod.snd)[i]? = some v) :
    ∃ ps1 list ps2, ps = ps1 ++ (list, v) :: ps2 ∧ ps1.length = i ∧
      readAt s.lists i = .ok list := by
  rw [getElem?_map] at hv
  obtain ⟨⟨list, v'⟩, hp, rfl⟩ := Option.map_eq_some_iff.1 hv
  obtain ⟨hlt, heq⟩ := List.getElem?_eq_some_iff.1 hp
  refine ⟨ps.take i, list, ps.drop (i + 1), ?_, ?_, ?_⟩
  · rw [← heq, getElem_cons_drop, take_append_drop]
  · rw [length_take]
    omega
  · rw [readAt, h.1, getElem?_map, hp]
    rfl

theorem set_middle {l1 l2 : List α} (hi : l1.length = i) (a b : α) :
    (l1 ++ a :: l2).set i b = l1 ++ b :: l2 := by
  subst hi
  simp

theorem getD_of_eq_some {vs : List (List α)} {v : List α} (h : vs[i]? = some v) :
    vs.getD i [] = v := by
  rw [getD_eq_getElem?_getD, h]
  rfl

theorem Lists.IsVectors.add (h : s.IsVectors ps)
    {room : ℕ}
    (hy : Yields (blocksHeld ps) s.pool room result v)
    (hroom : s.pool.data.length + room ≤ u32Max) :
    ∃ list pool', result = .ok (list, pool') ∧
      (⟨pool', s.lists ++ [list]⟩ : Lists T).IsVectors (ps ++ [(list, v)]) := by
  obtain ⟨list, pool', heq, hown, hsame, hlen⟩ := hy
  rw [← append_nil ps] at hown hsame
  refine ⟨list, pool', heq, by simp [h.1], .update ?_ hown hsame (hlen.trans hroom)⟩
  rw [append_nil]
  exact h.2.owns

/-- **One step**: the operation returns, and the contents change as vectors would. -/
theorem step_spec (h : s.IsVectors ps) (op : ListOp T) (hb : op.InBounds (ps.map Prod.snd))
    (hlen : op.newLen (ps.map Prod.snd) ≤ u32Max) (hroom : s.pool.data.length +
      3 * sclassSize (sclassForLength (op.newLen (ps.map Prod.snd))) ≤ u32Max) :
    ∃ s' ps', s.step op = .ok s' ∧ s'.IsVectors ps' ∧
      op.Result (ps.map Prod.snd) (ps'.map Prod.snd) := by
  have hlen32 : op.newLen (ps.map Prod.snd) < 2 ^ 32 := by rw [u32Max] at hlen; omega
  cases op with
  | new =>
    have hy : Yields (blocksHeld ps) s.pool 0 (.ok (⟨0⟩, s.pool)) [] :=
      ⟨⟨0⟩, s.pool, rfl, .empty h.2.poolOk, fun _ _ _ _ => rfl, le_rfl⟩
    obtain ⟨list, pool', heq, hvec⟩ := h.add hy (by omega)
    cases heq
    exact ⟨_, _, rfl, hvec, by simp [ListOp.Result]⟩
  | fromSlice xs =>
    rw [ListOp.newLen] at hlen32 hroom
    obtain ⟨list, pool', heq, hvec⟩ :=
      h.add (fromSlice_spec h.2.poolOk (by omega) hlen32) (by omega)
    exact ⟨_, _, by rw [Lists.step, heq]; rfl, hvec, by simp [ListOp.Result]⟩
  | deepClone i =>
    obtain ⟨v, hv⟩ : ∃ v, (ps.map Prod.snd)[i]? = some v := ⟨_, getElem?_eq_getElem hb⟩
    obtain ⟨ps1, list, ps2, rfl, _, hread⟩ := h.split hv
    rw [ListOp.newLen, getD_of_eq_some hv] at hroom
    have hpool := deepClone_spec h.2.owns_at (by simp only; omega)
    have hy : Yields (blocksHeld (ps1 ++ (list, v) :: ps2)) s.pool
        (sclassSize (sclassForLength v.length)) (list.deepClone s.pool) v := by
      obtain ⟨list', pool', heq, hown, hsame, hle⟩ := hpool
      have hperm := blocksHeld_perm ps1 ps2 (list, v)
      refine ⟨list', pool', heq, ?_, fun r hr => hsame r (hperm.mem_iff.1 hr), hle⟩
      refine hown.congr (hown.poolOk.perm (hperm.symm.append_left _)) fun _ _ _ _ => rfl
    obtain ⟨list', pool', heq, hvec⟩ := h.add hy (by omega)
    refine ⟨_, _, ?_, hvec, v, hv, by simp⟩
    rw [Lists.step, hread, ok_bind, heq]
    rfl
  | take i =>
    obtain ⟨v, hv⟩ : ∃ v, (ps.map Prod.snd)[i]? = some v := ⟨_, getElem?_eq_getElem hb⟩
    obtain ⟨ps1, list, ps2, rfl, hi, hread⟩ := h.split hv
    -- the block changes hands, and the list that is left has none
    have hperm : (blocksHeld (ps1 ++ (list, v) :: ps2)).Perm
        (blocksHeld (ps1 ++ (new, []) :: ps2 ++ [(list, v)])) := by
      apply (blocksHeld_perm ps1 ps2 (list, v)).trans
      refine perm_append_comm.trans (.of_eq ?_)
      simp [blocksHeld, flatMap_append, regionOf]
    refine ⟨⟨s.pool, s.lists.set i new ++ [list]⟩, ps1 ++ (new, []) :: ps2 ++ [(list, v)], ?_,
      ⟨?_, h.2.poolOk.perm hperm, h.2.max, ?_⟩, v, hv, ?_⟩
    · rw [Lists.step, hread]
      rfl
    · rw [h.1]
      simp only [map_append, map_cons, map_nil]
      rw [set_middle (by rw [length_map, hi])]
    · intro q hq
      obtain rfl | hq : q = (new, []) ∨ q ∈ ps1 ++ (list, v) :: ps2 := by
        simp only [mem_append, mem_cons, not_mem_nil, or_false] at hq ⊢
        tauto
      · exact ⟨_, .empty h.2.poolOk⟩
      · exact h.2.owns q hq
    · simp only [map_append, map_cons, map_nil]
      rw [set_middle (by rw [length_map, hi])]
  | on i op =>
    obtain ⟨v, hv, hbv⟩ := hb
    obtain ⟨ps1, list, ps2, rfl, hi, hread⟩ := h.split hv
    rw [ListOp.newLen, getD_of_eq_some hv] at hlen hroom
    obtain ⟨v', hres, list', pool', heq, hown, hsame, hle⟩ :=
      apply_spec op h.2.owns_at hbv hlen hroom
    have howns : ∀ q ∈ ps1 ++ ps2, ∃ held, Owns held s.pool q.1 q.2 := fun q hq =>
      h.2.owns q (by simp only [mem_append, mem_cons] at hq ⊢; tauto)
    refine ⟨⟨pool', s.lists.set i list'⟩, ps1 ++ (list', v') :: ps2, ?_, ⟨?_, ?_⟩, v, v', hv, hres,
      ?_⟩
    · rw [Lists.step, hread, ok_bind, heq]
      rfl
    · simp only [h.1, map_append, map_cons]
      exact set_middle (by rw [length_map, hi]) _ _
    · exact .update howns hown hsame (hle.trans hroom)
    · simp only [map_append, map_cons]
      exact (set_middle (by rw [length_map, hi]) _ _).symm

theorem exists_isVectors (h : ((listMachine T).onlyWhen roomFor).Reaches s) :
    ∃ ps, s.IsVectors ps := by
  apply h.invariant (P := fun s => ∃ ps, s.IsVectors ps)
  · rintro s rfl
    refine ⟨[], rfl, ⟨[], List.Pairwise.nil, by simp [blocksHeld], fun c => ?_⟩, Nat.zero_le _,
      by simp⟩
    rfl
  rintro s op s' ⟨ps, hps⟩ ⟨hb, hroom⟩ hstep
  have hb : s.Has op.InBounds := hb
  simp only [roomFor, Lists.Has, hps.2.contents hps.1] at hb hroom
  obtain ⟨s1, ps', hstep', hps', _⟩ := step_spec hps op hb hroom.1 hroom.2
  have hstep : s.step op = .ok s' := hstep
  rw [hstep'] at hstep
  cases hstep
  exact ⟨ps', hps'⟩

/-- The blocks of the lists, each of the size class of its length. -/
def Lists.blocks (s : Lists T) (vs : List (List T)) : List Region := blocksHeld (s.lists.zip vs)

theorem Lists.IsVectors.zip_eq (h : s.IsVectors ps) : s.lists.zip (ps.map Prod.snd) = ps := by
  rw [h.1, zip_map']
  simp

/-- **The lists of a pool behave as independent vectors.**  In every state that a run reaches
whose steps all have room, the blocks of the lists and of the free lists are apart and inside of
the pool, and every further operation that has room returns and changes the contents of all lists
as it would change vectors. -/
theorem lists_are_vectors {s : Lists T} (h : ((listMachine T).onlyWhen roomFor).Reaches s) :
    ∃ vs, s.contents = .ok vs ∧ s.lists.length = vs.length ∧ PoolOk s.pool (s.blocks vs) ∧
      ∀ op : ListOp T, s.Has op.InBounds → roomFor s op →
        ∃ s' vs', s.step op = .ok s' ∧ s'.contents = .ok vs' ∧ op.Result vs vs' := by
  obtain ⟨ps, hps⟩ := exists_isVectors h
  have hcont := hps.2.contents hps.1
  refine ⟨ps.map Prod.snd, hcont, by simp [hps.1], ?_, fun op hb hroom => ?_⟩
  · rw [Lists.blocks, hps.zip_eq]
    exact hps.2.poolOk
  · simp only [roomFor, Lists.Has, hcont] at hb hroom
    obtain ⟨s', ps', hstep, hps', hres⟩ := step_spec hps op hb hroom.1 hroom.2
    exact ⟨s', _, hstep, hps'.2.contents hps'.1, hres⟩

instance (s : Lists T) (op : ListOp T) : Decidable (roomFor s op) :=
  inferInstanceAs (Decidable (s.Has _))

instance (s : Lists T) (op : ListOp T) : Decidable ((listMachine T).allowed s op) :=
  inferInstanceAs (Decidable (s.Has _))

/-- A list grows past a size class, is cloned, and shrinks; its old block goes to another list. -/
def sampleOps : List (ListOp UInt32) :=
  [.fromSlice [1, 2, 3], .on 0 (.push 4), .deepClone 0, .fromSlice [5], .on 0 (.insert 1 9),
    .on 1 (.swapRemove 0), .take 1]

theorem lists_are_vectors_sample :
    ∃ s : Lists UInt32, s.contents = .ok [[1, 9, 2, 3, 4], [], [5], [4, 2, 3]] ∧
      ∃ vs, s.contents = .ok vs ∧ s.lists.length = vs.length ∧ PoolOk s.pool (s.blocks vs) ∧
        ∀ op : ListOp UInt32, s.Has op.InBounds → roomFor s op →
          ∃ s' vs', s.step op = .ok s' ∧ s'.contents = .ok vs' ∧ op.Result vs vs' := by
  obtain ⟨s, hs, hp⟩ := Machine.reaches_of_run? (M := (listMachine UInt32).onlyWhen roomFor)
    (p := fun s => decide (s.contents = .ok [[1, 9, 2, 3, 4], [], [5], [4, 2, 3]])) sampleOps rfl
    (by decide +kernel)
  exact ⟨s, of_decide_eq_true hp, lists_are_vectors hs⟩

/-! ## A pool of more than `2 ^ 32` elements -/

theorem fromSlice_new (pool : ListPool T) (xs : List T) (hne : xs.length ≠ 0)
    (hlen : xs.length < u32Max) (hfree : pool.heads.getD (sclassForLength xs.length) 0 = 0) :
    ∃ pad, EntityList.fromSlice xs pool = .ok (EntityList.ofBlock pool.data.length,
        ⟨pool.data ++ (EntityRef.new xs.length :: xs ++ pad), pool.heads⟩) ∧
      xs.length + pad.length + 1 = sclassSize (sclassForLength xs.length) := by
  have hlen32 : xs.length < 2 ^ 32 := by rw [u32Max] at hlen; omega
  obtain ⟨n, hn⟩ := Nat.exists_eq_add_of_lt (length_lt_sclassSize hlen32)
  refine ⟨replicate n EntityRef.reservedValue, ?_, by rw [hn, length_replicate]⟩
  have hset : (pool.data ++ replicate (xs.length + n + 1) EntityRef.reservedValue).set
      pool.data.length (EntityRef.new xs.length) =
      pool.data ++ EntityRef.new xs.length ::
        replicate (xs.length + n) EntityRef.reservedValue := by
    simp [replicate_succ]
  rw [fromSlice, if_neg hne, alloc_new hfree, ok_bind, hn]
  simp only [ListPool.setLen, newRef_of_lt hlen, ok_bind]
  rw [writeAt_of_lt (by simp), hset, ok_bind, pure_bind, writeSlice, ensure_of (by simp; omega)]
  simp [take_length_add_append, drop_length_add_append, add_assoc, add_comm 1]

/-- After a list of `2 ^ 31` elements, which takes `2 ^ 32` elements of the pool, the next list
gets the same index. -/
theorem alias_of_length (hlen : xs.length = 2 ^ 31) (y : T) :
    ∃ s s', Lists.step ⟨ListPool.new, []⟩ (.fromSlice xs) = .ok s ∧
      s.step (.fromSlice [y]) = .ok s' ∧ s.contents = .ok [xs] ∧ s'.contents = .ok [xs, xs] := by
  have hmax : xs.length < u32Max := by rw [u32Max]; omega
  have hclass : sclassSize (sclassForLength xs.length) = 2 ^ 32 := by
    have hiff := sclassForLength_eq_iff (show xs.length < 2 ^ 32 by omega) 30
    rw [sclassSize_eq] at hiff
    rw [hiff.2 ⟨by omega, .inr (by omega)⟩, sclassSize_eq]
    omega
  -- the first list stays where it is
  have hslice : ∀ zs, asSlice ⟨0 + 1⟩ ⟨EntityRef.new xs.length :: xs ++ zs, []⟩ =
      .ok xs := fun zs => asSlice_block hmax (by simp) fun j hj => by
    rw [zero_add, getElem?_append_left hj]
  obtain ⟨pad, heq, hpad⟩ := fromSlice_new ListPool.new xs (by omega) hmax rfl
  have hdata : (EntityRef.new xs.length :: xs ++ pad).length = 2 ^ 32 := by
    rw [cons_append, length_cons, length_append, hpad, hclass]
  have hone : [y].length < u32Max := by rw [length_singleton, u32Max]; omega
  obtain ⟨pad', heq', -⟩ := fromSlice_new ⟨EntityRef.new xs.length :: xs ++ pad, []⟩ [y] (by simp)
    hone rfl
  -- both indices are one
  have hfst : ofBlock 0 = ⟨0 + 1⟩ := ofBlock_eq (by rw [u32Max]; omega)
  have hsnd : ofBlock (EntityRef.new xs.length :: xs ++ pad).length = ⟨0 + 1⟩ := by
    rw [hdata]
    rfl
  rw [hsnd, append_assoc] at heq'
  refine ⟨⟨⟨EntityRef.new xs.length :: xs ++ pad, []⟩, [⟨0 + 1⟩]⟩, ⟨⟨_, []⟩, [⟨0 + 1⟩, ⟨0 + 1⟩]⟩,
    ?_, by rw [Lists.step, heq']; rfl, ?_, ?_⟩
  · rw [Lists.step, heq]
    rfl
  · rw [Lists.contents, mapM_cons, mapM_nil, hslice]
    rfl
  · simp only [Lists.contents, mapM_cons, mapM_nil, hslice]
    rfl

/-- **Two lists share their elements**: a list made in a pool of `2 ^ 32` elements does not have
the elements it was made from. -/
theorem lists_alias :
    ∃ (s s' : Lists UInt32) (vs vs' : List (List UInt32)), (listMachine UInt32).Reaches s ∧
      s.contents = .ok vs ∧ s.Has (ListOp.fromSlice [7]).InBounds ∧
      s.step (.fromSlice [7]) = .ok s' ∧ s'.contents = .ok vs' ∧
      ¬(ListOp.fromSlice [7]).Result vs vs' := by
  obtain ⟨xs, hxs⟩ : ∃ xs : List UInt32, xs.length = 2 ^ 31 := ⟨_, length_replicate (a := 0)⟩
  obtain ⟨s, s', hstep, hstep', hvs, hvs'⟩ := alias_of_length hxs 7
  refine ⟨s, s', _, _, .step (i := .fromSlice xs) (.start rfl) trivial hstep, hvs, ?_, hstep', hvs',
    fun hres => ?_⟩
  · rw [Lists.Has, hvs]
    trivial
  have hsame : [xs, xs] = [xs] ++ [[7]] := hres
  have hseven : xs = [7] := by simpa using hsame
  have hlen := congrArg length hseven
  rw [length_singleton] at hlen
  omega

/-! ## Copying from another list -/

variable {other : EntityList} {ys : List T}

theorem Owns.len_eq (h : Owns held pool list xs) (hmax : pool.data.length ≤ u32Max) :
    list.len pool = xs.length := by
  by_cases hnil : xs = []
  · subst hnil
    obtain ⟨rfl, -⟩ := h.eq_zero
    rfl
  · rw [len, h.lenOf hmax hnil, Option.getD_some]

theorem Owns.index_add_le (h : Owns held pool list xs) :
    list.index + xs.length ≤ pool.data.length := by
  cases h with
  | empty h => exact Nat.zero_le _
  | block hne h hlt hsts =>
    have hin := h.inside
    simp only
    omega

theorem Owns.index_ne {held' : List Region} (h : Owns held pool list xs)
    (h' : Owns held' pool other ys) (hmem : regionOf other ys.length ⊆ held)
    (hne : xs ≠ [] ∨ ys ≠ []) : list.index ≠ other.index := by
  cases h with
  | empty h =>
    obtain ⟨b, rfl, -⟩ := h'.exists_block (by simpa using hne)
    simp
  | @block b _ hxs h hlt hsts =>
    cases h' with
    | empty h' => simp
    | @block b' _ hys h' hlt' hsts' =>
      obtain ⟨free, hsh⟩ := h
      have hheld : ⟨b', sclassForLength ys.length⟩ ∈ held := hmem (by simp [regionOf, hys])
      have hapart := (pairwise_cons.1 hsh.apart).1 _ (mem_append_left _ hheld)
      simp only [Region.Apart] at hapart
      simp only [ne_eq]
      omega

section

variable {lo hi : Bound} {ps1 ps2 : List (EntityList × List T)} {index : ℕ}

/-- The range is inside of a list of `len` elements. -/
def Bound.Inside (lo hi : Bound) (len : ℕ) : Prop := lo.start ≤ hi.stop len ∧ hi.stop len ≤ len

/-- `copy_from` returns with the elements of the range inserted and the other lists as they are,
or panics because the index is out of bounds or the range is not inside of the other list. -/
def CopiesFrom (lo hi : Bound) (index : ℕ) (pool : ListPool T)
    (ps1 : List (EntityList × List T)) (list : EntityList) (xs : List T)
    (ps2 : List (EntityList × List T)) (other : EntityList) (ys : List T) : Prop :=
  (∃ list' pool', list.copyFrom other lo hi index pool = .ok (list', pool') ∧
    Represents pool' (ps1 ++ (list', xs.take index ++
      (ys.drop lo.start).take (hi.stop ys.length - lo.start) ++ xs.drop index) :: ps2)) ∨
  (∃ msg, list.copyFrom other lo hi index pool = .error (.panic msg)) ∧
    (xs.length < index ∨ ¬lo.Inside hi ys.length)

/-- The ways in which `copy_from` fails before the list has grown. -/
theorem copyFrom_panics (lo hi : Bound) (index : ℕ) (hlen : list.len pool = xs.length)
    (hother : other.len pool = ys.length)
    (h : xs.length < index ∨ list.index = other.index ∨ hi.stop ys.length < lo.start ∨
      ys.length < hi.stop ys.length - lo.start ∨ usizeMax < hi.stop ys.length + other.index) :
    ∃ msg, list.copyFrom other lo hi index pool = .error (.panic msg) := by
  rw [copyFrom, hlen, hother]
  by_cases hidx : index ≤ xs.length
  · by_cases hapart : list.index ≠ other.index
    · rw [ensure_of hidx, ensure_of hapart]
      simp only [ok_bind, addUsize]
      split
      · split
        · simp only [pure_eq, ok_bind, subUsize]
          split
          · rw [ok_bind, ensure_of_not (by omega)]
            exact ⟨_, rfl⟩
          · exact ⟨_, rfl⟩
        · exact ⟨_, rfl⟩
      · exact ⟨_, rfl⟩
    · rw [ensure_of hidx, ensure_of_not hapart]
      exact ⟨_, rfl⟩
  · rw [ensure_of_not hidx]
    exact ⟨_, rfl⟩

/-- What is left of `copy_from` once its assertions have passed. -/
theorem copyFrom_eq (hlen : list.len pool = xs.length) (hother : other.len pool = ys.length)
    (hidx : index ≤ xs.length) (hapart : list.index ≠ other.index)
    (hlo : lo.start ≤ hi.stop ys.length) (hcount : hi.stop ys.length - lo.start ≤ ys.length)
    (hstop : hi.stop ys.length + other.index ≤ usizeMax) :
    list.copyFrom other lo hi index pool = (do
      let (list, pool) ← list.growAt index (hi.stop ys.length - lo.start) pool
      let slice ← readSlice pool.data (lo.start + other.index) (hi.stop ys.length - lo.start)
      let data ← writeSlice pool.data (index + list.index) slice
      pure (list, { pool with data := data })) := by
  rw [copyFrom, hlen, hother, ensure_of hidx, ok_bind, ensure_of hapart, ok_bind]
  rw [addUsize_of_le (by omega), ok_bind, addUsize_of_le hstop, ok_bind,
    subUsize_of_le (by omega), ok_bind, Nat.add_sub_add_right, ensure_of hcount, ok_bind]

/-- What is copied once the range has passed the assertion: what the pool has there after the list
has grown. -/
theorem copyFrom_grown (h : Represents pool (ps1 ++ (list, xs) :: ps2))
    (hmem : (other, ys) ∈ ps1 ++ ps2) (hne : xs ≠ [] ∨ ys ≠ []) (hidx : index ≤ xs.length)
    (hlo : lo.start ≤ hi.stop ys.length) (hcount : hi.stop ys.length - lo.start ≤ ys.length)
    (hn32 : xs.length + (hi.stop ys.length - lo.start) < 2 ^ 32)
    (hroom : pool.data.length +
      sclassSize (sclassForLength (xs.length + (hi.stop ys.length - lo.start))) ≤ u32Max) :
    ∃ list1 pool1,
      list.growAt index (hi.stop ys.length - lo.start) pool = .ok (list1, pool1) ∧
      (∃ held, Owns held pool1 other ys) ∧
      if other.index + hi.stop ys.length ≤ pool1.data.length then
        ∃ slice pool', slice.length = hi.stop ys.length - lo.start ∧
          readSlice pool1.data (lo.start + other.index) (hi.stop ys.length - lo.start) =
            .ok slice ∧
          list.copyFrom other lo hi index pool = .ok (list1, pool') ∧
          Represents pool' (ps1 ++ (list1, xs.take index ++ slice ++ xs.drop index) :: ps2)
      else ∃ msg, list.copyFrom other lo hi index pool = .error (.panic msg) := by
  have hown := h.owns_at
  have hmem' : ∀ {q}, q ∈ ps1 ++ ps2 → ∀ p, q ∈ ps1 ++ p :: ps2 := fun hq p => by
    simp only [mem_append, mem_cons] at hq ⊢
    tauto
  obtain ⟨heldo, hother⟩ := h.owns _ (hmem' hmem _)
  have hapart := hown.index_ne hother (fun r hr => mem_flatMap.2 ⟨_, hmem, hr⟩) hne
  have hlen : list.len pool = xs.length := hown.len_eq h.max
  have hlenOther : other.len pool = ys.length := hother.len_eq h.max
  generalize hcnt : hi.stop ys.length - lo.start = count at hroom hn32 hcount ⊢
  obtain ⟨zs, hzs, list1, pool1, hgrow, hown1, hsame1, hlen1⟩ :=
    growAt_spec hown count hidx hroom hn32
  -- The other list is where it was, with the same elements.
  have h1 := Represents.update (p := (list1, _)) (fun q hq => h.owns q (hmem' hq _)) hown1 hsame1
    (hlen1.trans hroom)
  have hmax := h1.max
  rw [u32Max] at hmax
  refine ⟨list1, pool1, hgrow, h1.owns (other, ys) (hmem' hmem _), ?_⟩
  have hcopy := copyFrom_eq hlen hlenOther hidx hapart hlo (hcnt.trans_le hcount)
  rw [hcnt] at hcopy
  split
  · rename_i hin
    obtain ⟨slice, hslice, hread⟩ : ∃ slice, slice.length = count ∧
        readSlice pool1.data (lo.start + other.index) count = .ok slice := by
      refine ⟨_, ?_, by rw [readSlice, ensure_of (by omega)]; rfl⟩
      rw [length_take, length_drop]
      omega
    have htake : (xs.take index).length = index := by rw [length_take]; omega
    obtain ⟨data, hwr, hdata, hown2, hsame2⟩ := overwriteAt_spec hown1 index slice
      (by simp [hzs, hslice, htake])
    have hnew : (xs.take index ++ zs ++ xs.drop index).take index ++ slice ++
        (xs.take index ++ zs ++ xs.drop index).drop (index + slice.length) =
        xs.take index ++ slice ++ xs.drop index := by
      simp [hslice, ← hzs, drop_append, htake]
    rw [hnew] at hown2
    refine ⟨slice, ⟨data, pool1.heads⟩, hslice, hread, ?_, Represents.update
      (fun q hq => h1.owns q (hmem' hq _)) hown2 hsame2 (hdata.trans_le (hlen1.trans hroom))⟩
    rw [hcopy (by rw [usizeMax]; omega), hgrow]
    simp only [ok_bind, hread, hwr]
    rfl
  · rename_i hout
    by_cases hstop : hi.stop ys.length + other.index ≤ usizeMax
    · rw [hcopy hstop, hgrow]
      simp only [ok_bind, readSlice]
      rw [ensure_of_not (by omega)]
      exact ⟨_, rfl⟩
    · exact copyFrom_panics lo hi index hlen hlenOther
        (.inr (.inr (.inr (.inr (not_le.mp hstop)))))

end

end WasmDeps.Entity
