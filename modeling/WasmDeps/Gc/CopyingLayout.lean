import WasmDeps.Gc.Copying
import Mathlib.Algebra.Order.BigOperators.Group.Finset

/-!
# Objects in the memory of the copying collector

Objects lie one after the other.  What is said here about an object only depends on its own
bytes: its size, its type and where its references are.
-/

namespace WasmDeps.Gc

open WasmDeps.Lib List

variable {m m' : Memory} {infos : TraceInfos} {x y t u b e k o raw : ℕ} {xs ys : List ℕ}

/-! ## One object -/

/-- The size in the header at `x`. -/
def objSize (m : Memory) (x : ℕ) : ℕ := m.readU32 (x + 8)

/-- The type in the header at `x`. -/
def objTy (m : Memory) (x : ℕ) : ℕ := m.readU32 (x + 4)

/-- The object at `x` is an `externref`. -/
def isExtern (m : Memory) (x : ℕ) : Bool := objTy m x = u32Max

/-- The host data identifier at `x`. -/
def hostId (m : Memory) (x : ℕ) : ℕ := m.readU32 (x + 24)

/-- The next `externref` after that at `x`. -/
def externLink (m : Memory) (x : ℕ) : Option ℕ :=
  (VMGcRef.fromRawU32 (m.readU32 (x + 28))).map VMGcRef.raw

/-- Where the references of the object at `x` stand. -/
def refOffsets (infos : TraceInfos) (m : Memory) (x : ℕ) : List ℕ :=
  if objTy m x = u32Max then []
  else
    match infos.get? (objTy m x) with
    | some (.struct gcRefOffsets) => gcRefOffsets
    | some (.array true) =>
      (List.range (m.readU32 (x + 16))).map fun i => i * 4 + copyingGcRefArrayElemsOffset
    | _ => []

/-- Whether a raw reference is a heap index: neither null nor an `i31`. -/
def isHeapRef (raw : ℕ) : Bool := raw ≠ 0 ∧ raw % 2 = 0

/-- **An object that agrees with its type**: there is room for a forwarding reference, its
reserved bits are clear, and its references are inside of its body and do not overlap. -/
structure ObjectOk (infos : TraceInfos) (m : Memory) (x : ℕ) : Prop where
  size_dvd : 16 ∣ objSize m x
  le_size : 32 ≤ objSize m x
  kind : ∃ kind : VMGcKind, m.readU32 x = kind.asU32 ∧ (kind = .externRef ↔ isExtern m x = true) ∧
    (infos.get? (objTy m x) = some (.array true) → isExtern m x = false → kind = .arrayRef)
  info : isExtern m x = false → (infos.get? (objTy m x)).isSome
  offsets : ∀ o ∈ refOffsets infos m x, 16 ≤ o ∧ o + 4 ≤ objSize m x
  disjoint : (refOffsets infos m x).Pairwise fun a b => a + 4 ≤ b ∨ b + 4 ≤ a

instance : Decidable (ObjectOk infos m x) :=
  decidable_of_iff
    (16 ∣ objSize m x ∧ 32 ≤ objSize m x ∧
      (∃ kind ∈ [VMGcKind.externRef, .anyRef, .eqRef, .arrayRef, .structRef, .exnRef],
        m.readU32 x = kind.asU32 ∧ (kind = .externRef ↔ isExtern m x = true) ∧
        (infos.get? (objTy m x) = some (.array true) → isExtern m x = false → kind = .arrayRef)) ∧
      (isExtern m x = false → (infos.get? (objTy m x)).isSome) ∧
      (∀ o ∈ refOffsets infos m x, 16 ≤ o ∧ o + 4 ≤ objSize m x) ∧
      (refOffsets infos m x).Pairwise fun a b => a + 4 ≤ b ∨ b + 4 ≤ a)
    ⟨fun ⟨h₁, h₂, ⟨kind, _, h₃⟩, h₄, h₅, h₆⟩ => ⟨h₁, h₂, ⟨kind, h₃⟩, h₄, h₅, h₆⟩,
      fun ⟨h₁, h₂, ⟨kind, h₃⟩, h₄, h₅, h₆⟩ =>
        ⟨h₁, h₂, ⟨kind, by cases kind <;> decide, h₃⟩, h₄, h₅, h₆⟩⟩

/-- The byte at offset `k` belongs to a reference. -/
def InRef (infos : TraceInfos) (m : Memory) (x k : ℕ) : Prop :=
  ∃ o ∈ refOffsets infos m x, o ≤ k ∧ k < o + 4

/-- The byte at offset `k` belongs to the link of an `externref`. -/
def InLink (m : Memory) (x k : ℕ) : Prop := isExtern m x = true ∧ 28 ≤ k ∧ k < 32

theorem refOffsets_of_isExtern (h : isExtern m x = true) : refOffsets infos m x = [] :=
  if_pos (of_decide_eq_true h)

namespace ObjectOk

/-- The header has no references. -/
theorem not_inRef (H : ObjectOk infos m x) (hk : k < 16) : ¬InRef infos m x k := by
  intro ⟨o, ho, hle, _⟩
  have := (H.offsets o ho).1
  omega

/-- References do not overlap. -/
theorem apart (H : ObjectOk infos m x) {a b : ℕ} (ha : a ∈ refOffsets infos m x)
    (hb : b ∈ refOffsets infos m x) : a = b ∨ a + 4 ≤ b ∨ b + 4 ≤ a := by
  have : Std.Symm fun a b : ℕ => a + 4 ≤ b ∨ b + 4 ≤ a := ⟨fun _ _ h => h.symm⟩
  by_cases heq : a = b
  · exact .inl heq
  · exact .inr (H.disjoint.forall ha hb heq)

theorem not_inLink (hk : k < 28) : ¬InLink m x k := by
  intro ⟨_, hle, _⟩
  omega

end ObjectOk

/-- The bytes at `y` have the header of the object at `x`, and its length if that says where the
references are. -/
structure SameShape (infos : TraceInfos) (m m' : Memory) (x y : ℕ) : Prop where
  header : ∀ k < 16, m'.byte (y + k) = m.byte (x + k)
  length : isExtern m x = false → infos.get? (objTy m x) = some (.array true) →
    m'.readU32 (y + 16) = m.readU32 (x + 16)

namespace SameShape

variable (B : SameShape infos m m' x y)
include B

theorem readU32_eq (hk : k + 4 ≤ 16) : m'.readU32 (y + k) = m.readU32 (x + k) := by
  exact Memory.readU32_add_congr fun i _ hi => B.header i (by omega)

theorem kind_eq : m'.readU32 y = m.readU32 x := B.readU32_eq (k := 0) (by decide)

theorem objSize_eq : objSize m' y = objSize m x := B.readU32_eq (by decide)

theorem objTy_eq : objTy m' y = objTy m x := B.readU32_eq (by decide)

theorem isExtern_eq : isExtern m' y = isExtern m x := by
  rw [isExtern, isExtern, B.objTy_eq]

/-- The references of a copy stand at the same offsets. -/
theorem refOffsets_eq : refOffsets infos m' y = refOffsets infos m x := by
  rw [refOffsets, refOffsets, B.objTy_eq]
  split
  · rfl
  rename_i hty
  split
  · rfl
  · rename_i hinfo
    rw [B.length (decide_eq_false hty) hinfo]
  · rfl

/-- A copy is well formed like its original. -/
theorem objectOk (H : ObjectOk infos m x) : ObjectOk infos m' y where
  size_dvd := B.objSize_eq ▸ H.size_dvd
  le_size := B.objSize_eq ▸ H.le_size
  kind := by
    rw [B.kind_eq, B.objTy_eq, B.isExtern_eq]
    exact H.kind
  info := by
    rw [B.isExtern_eq, B.objTy_eq]
    exact H.info
  offsets := by
    rw [B.refOffsets_eq, B.objSize_eq]
    exact H.offsets
  disjoint := by
    rw [B.refOffsets_eq]
    exact H.disjoint

end SameShape

/-- The bytes at `y` are those of the object at `x` but for its references and its link. -/
def CopiedBody (infos : TraceInfos) (m m' : Memory) (x y : ℕ) : Prop :=
  ∀ k < objSize m x, ¬InRef infos m x k → ¬InLink m x k → m'.byte (y + k) = m.byte (x + k)

namespace CopiedBody

variable (B : CopiedBody infos m m' x y) (H : ObjectOk infos m x)
include B H

theorem readU32_eq (hk : k + 4 ≤ 28) (href : ∀ o ∈ refOffsets infos m x, k + 4 ≤ o) :
    m'.readU32 (y + k) = m.readU32 (x + k) := by
  have := H.le_size
  refine Memory.readU32_add_congr fun i hi hi' => ?_
  refine B i (by omega) (fun ⟨o, ho, hle, _⟩ => ?_) (ObjectOk.not_inLink (by omega))
  have := href o ho
  omega

/-- Equal bytes have an equal shape. -/
theorem shape : SameShape infos m m' x y where
  header k hk := by
    have := H.le_size
    exact B k (by omega) (H.not_inRef hk) (ObjectOk.not_inLink (by omega))
  length hty hinfo := by
    refine B.readU32_eq H (by decide) fun o ho => ?_
    rw [refOffsets, if_neg (of_decide_eq_false hty), hinfo] at ho
    obtain ⟨j, -, rfl⟩ := mem_map.mp ho
    exact Nat.le_add_left _ _

theorem hostId_eq (hx : isExtern m x = true) : hostId m' y = hostId m x :=
  B.readU32_eq H (by decide) (by simp [refOffsets_of_isExtern hx])

end CopiedBody

/-! ## Objects in a row -/

/-- The bytes that objects take together. -/
def totalSize (m : Memory) (xs : List ℕ) : ℕ := (xs.map (objSize m)).sum

/-- Where objects go that are placed one after the other from `b` on. -/
def place (m : Memory) : ℕ → List ℕ → List (ℕ × ℕ)
  | _, [] => []
  | b, x :: xs => (x, b) :: place m (b + objSize m x) xs

/-- The objects `xs` lie one after the other from `b` to `e`. -/
def LaidOut (m : Memory) : ℕ → List ℕ → ℕ → Prop
  | b, [], e => b = e
  | b, x :: xs, e => x = b ∧ LaidOut m (b + objSize m x) xs e

instance LaidOut.decidable : (b : ℕ) → (xs : List ℕ) → (e : ℕ) → Decidable (LaidOut m b xs e)
  | b, [], e => inferInstanceAs (Decidable (b = e))
  | b, x :: xs, e =>
    have := LaidOut.decidable (b + objSize m x) xs e
    inferInstanceAs (Decidable (x = b ∧ LaidOut m (b + objSize m x) xs e))

@[simp] theorem totalSize_nil : totalSize m [] = 0 := rfl

@[simp] theorem totalSize_cons : totalSize m (x :: xs) = objSize m x + totalSize m xs := rfl

@[simp] theorem totalSize_append : totalSize m (xs ++ ys) = totalSize m xs + totalSize m ys := by
  simp [totalSize]

/-- Some of the objects take no more than all. -/
theorem totalSize_le (hnd : xs.Nodup) (hsub : xs ⊆ ys) : totalSize m xs ≤ totalSize m ys := by
  obtain ⟨zs, hperm, hzs⟩ := hnd.subperm hsub
  have hsum : totalSize m zs = totalSize m xs := (hperm.map (objSize m)).sum_eq
  rw [← hsum]
  exact (hzs.map (objSize m)).sum_le_sum fun _ _ => Nat.zero_le _

/-- Places of two lists are those of the first and, behind it, of the second. -/
theorem place_append : place m b (xs ++ ys) = place m b xs ++ place m (b + totalSize m xs) ys := by
  induction xs generalizing b with
  | nil => rfl
  | cons x xs ih => simp [place, ih, add_assoc]

theorem mem_place_concat : (y, u) ∈ place m b (xs ++ [x]) ↔
    (y, u) ∈ place m b xs ∨ y = x ∧ u = b + totalSize m xs := by
  simp [place_append, place]

theorem map_fst_place : (place m b xs).map Prod.fst = xs := by
  induction xs generalizing b with
  | nil => rfl
  | cons x xs ih => simp [place, ih]

theorem mem_of_place (h : (x, t) ∈ place m b xs) : x ∈ xs := by
  have hmap : (place m b xs).map Prod.fst = xs := map_fst_place
  rw [← hmap]
  exact mem_map_of_mem h

theorem exists_place (hx : x ∈ xs) : ∃ t, (x, t) ∈ place m b xs := by
  have hmap : (place m b xs).map Prod.fst = xs := map_fst_place
  rw [← hmap] at hx
  obtain ⟨⟨y, t⟩, hmem, rfl⟩ := mem_map.mp hx
  exact ⟨t, hmem⟩

/-- Places lie within the bytes that the objects take. -/
theorem place_bounds (h : (x, t) ∈ place m b xs) :
    b ≤ t ∧ t + objSize m x ≤ b + totalSize m xs := by
  induction xs generalizing b with
  | nil => simp [place] at h
  | cons y xs ih =>
    rcases mem_cons.mp h with heq | h
    · obtain ⟨rfl, rfl⟩ := Prod.mk.inj heq
      rw [totalSize_cons]
      omega
    · have := ih h
      rw [totalSize_cons]
      omega

/-- Objects at their places do not overlap. -/
theorem place_disjoint (hx : (x, t) ∈ place m b xs) (hy : (y, u) ∈ place m b xs) :
    x = y ∧ t = u ∨ t + objSize m x ≤ u ∨ u + objSize m y ≤ t := by
  induction xs generalizing b with
  | nil => simp [place] at hx
  | cons z xs ih =>
    rcases mem_cons.mp hx with hxz | hx <;> rcases mem_cons.mp hy with hyz | hy
    · exact .inl (Prod.mk.inj (hxz.trans hyz.symm))
    · obtain ⟨rfl, rfl⟩ := Prod.mk.inj hxz
      exact .inr (.inl (place_bounds hy).1)
    · obtain ⟨rfl, rfl⟩ := Prod.mk.inj hyz
      exact .inr (.inr (place_bounds hx).1)
    · exact ih hx hy

/-- An object has one place. -/
theorem place_functional (hnd : xs.Nodup) (h : (x, t) ∈ place m b xs)
    (h' : (x, u) ∈ place m b xs) : t = u := by
  have hpairs : ((place m b xs).map Prod.fst).Nodup := map_fst_place.symm ▸ hnd
  exact congrArg Prod.snd (inj_on_of_nodup_map hpairs h h' rfl)

/-- A place has one object. -/
theorem place_injective (hpos : 0 < objSize m x ∧ 0 < objSize m y) (h : (x, t) ∈ place m b xs)
    (h' : (y, t) ∈ place m b xs) : x = y := by
  rcases place_disjoint h h' with heq | hle | hle
  · exact heq.1
  · omega
  · omega

/-- Places are aligned like the first one. -/
theorem place_dvd {n : ℕ} (hb : n ∣ b) (hsize : ∀ x ∈ xs, n ∣ objSize m x)
    (h : (x, t) ∈ place m b xs) : n ∣ t := by
  induction xs generalizing b with
  | nil => simp [place] at h
  | cons y xs ih =>
    rcases mem_cons.mp h with heq | h
    · obtain ⟨-, rfl⟩ := Prod.mk.inj heq
      exact hb
    · exact ih (Nat.dvd_add hb (hsize y (.head _))) (fun z hz => hsize z (.tail y hz)) h

theorem dvd_totalSize {n : ℕ} (hsize : ∀ x ∈ xs, n ∣ objSize m x) : n ∣ totalSize m xs := by
  induction xs with
  | nil => exact Nat.dvd_zero n
  | cons x xs ih =>
    exact Nat.dvd_add (hsize x (.head _)) (ih fun y hy => hsize y (.tail x hy))

namespace LaidOut

section

variable (h : LaidOut m b xs e)
include h

theorem end_eq : b + totalSize m xs = e := by
  induction xs generalizing b with
  | nil => exact h
  | cons x xs ih => simpa [add_assoc] using ih h.2

theorem mem_place (hx : x ∈ xs) : (x, x) ∈ place m b xs := by
  induction xs generalizing b with
  | nil => simp at hx
  | cons y xs ih =>
    obtain ⟨rfl, h⟩ := h
    rcases mem_cons.mp hx with rfl | hx
    · exact .head _
    · exact .tail _ (ih h hx)

theorem bounds (hx : x ∈ xs) : b ≤ x ∧ x + objSize m x ≤ e :=
  h.end_eq ▸ place_bounds (h.mem_place hx)

theorem disjoint (hx : x ∈ xs) (hy : y ∈ xs) :
    x = y ∨ x + objSize m x ≤ y ∨ y + objSize m y ≤ x :=
  (place_disjoint (h.mem_place hx) (h.mem_place hy)).imp_left And.left

/-- No object stands twice. -/
theorem nodup (hpos : ∀ x ∈ xs, 0 < objSize m x) : xs.Nodup := by
  induction xs generalizing b with
  | nil => exact nodup_nil
  | cons x xs ih =>
    obtain ⟨rfl, h⟩ := h
    have := hpos x (.head _)
    refine nodup_cons.mpr ⟨fun hx => ?_, ih h fun y hy => hpos y (.tail x hy)⟩
    have := (h.bounds hx).1
    omega

end

/-- The copies lie one after the other. -/
theorem of_place (hsize : ∀ x t, (x, t) ∈ place m b xs → objSize m' t = objSize m x) :
    LaidOut m' b ((place m b xs).map Prod.snd) (b + totalSize m xs) := by
  induction xs generalizing b with
  | nil => rfl
  | cons x xs ih =>
    have hx := hsize x b (.head _)
    refine ⟨rfl, ?_⟩
    rw [hx, totalSize_cons, ← add_assoc]
    exact ih fun y t h => hsize y t (.tail _ h)

end LaidOut

/-! ## Reachability -/

/-- The objects that the roots reach through fields. -/
inductive Reachable (infos : TraceInfos) (m : Memory) (roots : List VMGcRef) : ℕ → Prop
  | root {r : VMGcRef} (hr : r ∈ roots) (href : isHeapRef r.raw = true) :
      Reachable infos m roots r.raw
  | field {x o : ℕ} (hx : Reachable infos m roots x) (ho : o ∈ refOffsets infos m x)
      (href : isHeapRef (m.readU32 (x + o)) = true) : Reachable infos m roots (m.readU32 (x + o))

end WasmDeps.Gc
