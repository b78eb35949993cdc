import WasmDeps.Types.WasmTypes

/-!
# Layouts of structs and exceptions

Every collector places the fields of an object from left to right after its header, each at a
multiple of its own size.  Where a field is depends on the sizes of the fields before it only,
so a struct can be used as any of its supertypes.  The memory for the list of the fields, which
the source asks for in a fallible way, is taken to be there.
-/

namespace WasmDeps.Gc

open WasmDeps.Lib WasmDeps.Types List Exec

/-- Values of the type are references that the collector traces. -/
def isVmgcrefTypeAndNotI31 : WasmStorageType → Bool
  | .val (.ref ⟨_, ty⟩) =>
    match ty with
    | .func | .concreteFunc _ | .noFunc | .cont | .concreteCont _ | .noCont | .i31 => false
    | _ => true
  | _ => false

/-- The size of a value in the heap. -/
def byteSizeOfWasmTyInGcHeap : WasmStorageType → ℕ
  | .i8 => 1
  | .i16 => 2
  | .val .i32 | .val .f32 | .val (.ref _) => 4
  | .val .i64 | .val .f64 => 8
  | .val .v128 => 16

def fieldSize (f : WasmFieldType) : ℕ := byteSizeOfWasmTyInGcHeap f.elementType

/-- Where a field is, and whether it is traced. -/
structure GcStructLayoutField where
  offset : ℕ
  isGcRef : Bool

/-- The layout of a struct or an exception. -/
structure GcStructLayout where
  size : ℕ
  align : ℕ
  fields : List GcStructLayoutField
  isException : Bool

/-- The offset rounded up, and the new maximal alignment. -/
def alignUp (offset maxAlign align : ℕ) : Exec (ℕ × ℕ) := do
  ensure maxAlign.isPowerOfTwo "max_align.is_power_of_two()"
  ensure align.isPowerOfTwo "align.is_power_of_two()"
  let offset ← addU32 offset (align - 1)
  pure (roundDown offset align, max maxAlign align)

/-- The offset of a new field, and the size and the alignment of the object with it. -/
def field (size align bytes : ℕ) : Exec (ℕ × ℕ × ℕ) := do
  let (offset, align) ← alignUp size align bytes
  pure (offset, ← addU32 offset bytes, align)

/-- The loop of `common_struct_or_exn_layout`. -/
def layoutFields : List WasmFieldType → ℕ → ℕ → Exec (ℕ × ℕ × List GcStructLayoutField)
  | [], size, align => pure (size, align, [])
  | f :: fields, size, align => do
    let (offset, size, align) ← field size align (fieldSize f)
    let (size, align, fields) ← layoutFields fields size align
    pure (size, align, ⟨offset, isVmgcrefTypeAndNotI31 f.elementType⟩ :: fields)

/-- Lays the fields out after the header and pads the whole. -/
def commonStructOrExnLayout (fields : List WasmFieldType) (headerSize headerAlign : ℕ) :
    Exec (ℕ × ℕ × List GcStructLayoutField) := do
  let (size, align, fields) ← layoutFields fields headerSize headerAlign
  let (size, align) ← alignUp size align align
  pure (size, align, fields)

/-- The bytes of the tag between the header and the fields of an exception. -/
def tagSize (isException : Bool) : ℕ := if isException then 8 else 0

/-- `common_struct_layout` and `common_exn_layout`. -/
def commonLayout (isException : Bool) (fields : List WasmFieldType)
    (headerSize headerAlign : ℕ) : Exec GcStructLayout := do
  ensure (8 ≤ headerSize) "header_size >= VM_GC_HEADER_SIZE"
  ensure (8 ≤ headerAlign) "header_align >= VM_GC_HEADER_ALIGN"
  let headerSize ← addU32 headerSize (tagSize isException)
  let (size, align, fields) ← commonStructOrExnLayout fields headerSize headerAlign
  pure ⟨size, align, fields, isException⟩

/-- The collectors. -/
inductive Collector
  | drc
  | null
  | copying
  deriving DecidableEq

namespace Collector

/-- The size of an object's header. -/
def headerSize : Collector → ℕ
  | drc => 24
  | null => 8
  | copying => 16

/-- The alignment of an object's header. -/
def headerAlign : Collector → ℕ
  | copying => 16
  | _ => 8

/-- Where the fields start; an exception has its tag before them. -/
def bodyOffset (c : Collector) (isException : Bool) : ℕ := c.headerSize + tagSize isException

/-- `struct_layout` and `exn_layout`.  The sizes of the copying collector are multiples of 16,
and a struct without fields has room for a forwarding reference. -/
def layout (c : Collector) (isException : Bool) (fields : List WasmFieldType) :
    Exec GcStructLayout := do
  let layout ← commonLayout isException fields c.headerSize c.headerAlign
  if c = copying then
    let size := roundUp (if isException then layout.size else max layout.size 20) 16
    ensure (size ≤ u32Max) "next_multiple_of"
    ensure (layout.align ≤ 16) "layout.align <= ALIGN"
    ensure (20 ≤ size) "layout.size >= MIN_OBJECT_SIZE"
    pure { layout with size := size, align := 16 }
  else pure layout

end Collector

variable {fields super : List WasmFieldType} {size align header : ℕ}
  {r r' : ℕ × ℕ × List GcStructLayoutField}

/-- The fields lie at multiples of their sizes in the bytes from `header` to `size`, one after
the other. -/
structure FieldsPlaced (fields : List WasmFieldType) (header size : ℕ)
    (placed : List GcStructLayoutField) : Prop where
  length : placed.length = fields.length
  within : ∀ p ∈ placed.zip fields, fieldSize p.2 ∣ p.1.offset ∧
    header ≤ p.1.offset ∧ p.1.offset + fieldSize p.2 ≤ size
  disjoint : (placed.zip fields).Pairwise fun p q =>
    p.1.offset + fieldSize p.2 ≤ q.1.offset

theorem FieldsPlaced.mono {placed : List GcStructLayoutField}
    (h : FieldsPlaced fields header size placed)
    {size' : ℕ} (hle : size ≤ size') : FieldsPlaced fields header size' placed :=
  ⟨h.length, fun p hp => (h.within p hp).imp_right fun h => h.imp_right hle.trans', h.disjoint⟩

theorem isPowerOfTwo_fieldSize (f : WasmFieldType) :
    (fieldSize f).isPowerOfTwo ∧ fieldSize f ≤ 16 ∧ 0 < fieldSize f := by
  unfold fieldSize byteSizeOfWasmTyInGcHeap
  split <;> decide

/-- When `align_up` returns, and what. -/
theorem alignUp_eq_ok {maxAlign : ℕ} {p : ℕ × ℕ} : alignUp size maxAlign align = .ok p ↔
    maxAlign.isPowerOfTwo ∧ align.isPowerOfTwo ∧ size + (align - 1) ≤ u32Max ∧
      p = (roundUp size align, max maxAlign align) := by
  unfold alignUp
  by_cases hmax : maxAlign.isPowerOfTwo
  · by_cases hal : align.isPowerOfTwo
    · by_cases h : size + (align - 1) ≤ u32Max
      · simp [hmax, hal, addU32_of_le h, h, roundUp, eq_comm]
      · simp [hmax, hal, addU32, h]
    · simp [hmax, hal]
  · simp [hmax]

/-- When a field fits, and where it goes. -/
theorem field_eq_ok {p : ℕ × ℕ × ℕ} {f : WasmFieldType} : field size align (fieldSize f) = .ok p ↔
    align.isPowerOfTwo ∧ roundUp size (fieldSize f) + fieldSize f ≤ u32Max ∧
      p = (roundUp size (fieldSize f), roundUp size (fieldSize f) + fieldSize f,
        max align (fieldSize f)) := by
  obtain ⟨hpow, -, hpos⟩ := isPowerOfTwo_fieldSize f
  have hlt := lt_roundDown_add (size + (fieldSize f - 1)) hpos
  simp only [field, bind_eq_ok, alignUp_eq_ok, hpow, true_and]
  constructor
  · rintro ⟨_, ⟨hal, -, rfl⟩, sum, hsum, hp⟩
    obtain ⟨hle, rfl⟩ := addU32_eq_ok.mp hsum
    exact ⟨hal, hle, (Except.ok.inj hp).symm⟩
  · rintro ⟨hal, hle, rfl⟩
    rw [roundUp] at hle ⊢
    exact ⟨_, ⟨hal, by omega, rfl⟩, _, addU32_of_le hle, rfl⟩

/-- When fields fit, one after the other. -/
theorem layoutFields_cons_eq_ok {f : WasmFieldType} :
    layoutFields (f :: fields) size align = .ok r ↔
      align.isPowerOfTwo ∧ roundUp size (fieldSize f) + fieldSize f ≤ u32Max ∧
      ∃ q, layoutFields fields (roundUp size (fieldSize f) + fieldSize f)
          (max align (fieldSize f)) = .ok q ∧
        r = (q.1, q.2.1,
          ⟨roundUp size (fieldSize f), isVmgcrefTypeAndNotI31 f.elementType⟩ :: q.2.2) := by
  simp only [layoutFields, bind_eq_ok, field_eq_ok]
  constructor
  · rintro ⟨_, ⟨hal, hle, rfl⟩, q, hq, hr⟩
    exact ⟨hal, hle, q, hq, (Except.ok.inj hr).symm⟩
  · rintro ⟨hal, hle, q, hq, rfl⟩
    exact ⟨_, ⟨hal, hle, rfl⟩, q, hq, rfl⟩

theorem isPowerOfTwo_max (hal : align.isPowerOfTwo) (f : WasmFieldType) :
    (max align (fieldSize f)).isPowerOfTwo := by
  rcases max_choice align (fieldSize f) with h | h <;> rw [h]
  · exact hal
  · exact (isPowerOfTwo_fieldSize f).1

theorem roundUp_le (n a : ℕ) : roundUp n a ≤ n + (a - 1) := roundDown_le _ a

/-- **One field after another**: the fields so far keep their places. -/
theorem layoutFields_spec (hal : align.isPowerOfTwo)
    (hok : layoutFields fields size align = .ok r) :
    r.2.1.isPowerOfTwo ∧ align ≤ r.2.1 ∧ r.2.1 ≤ max align 16 ∧ size ≤ r.1 ∧
      FieldsPlaced fields size r.1 r.2.2 := by
  induction fields generalizing size align r with
  | nil =>
    obtain rfl := Except.ok.inj hok
    exact ⟨hal, le_rfl, le_max_left _ _, le_rfl, rfl, by simp, by simp⟩
  | cons f fields ih =>
    obtain ⟨-, h16, hpos⟩ := isPowerOfTwo_fieldSize f
    obtain ⟨-, -, q, hq, rfl⟩ := layoutFields_cons_eq_ok.mp hok
    obtain ⟨hpow, hle, hmax, hfrom, P⟩ := ih (isPowerOfTwo_max hal f) hq
    have hup := le_roundUp size hpos
    refine ⟨hpow, (le_max_left _ _).trans hle, hmax.trans (by omega), by dsimp only; omega,
      by simp [P.length], ?_, ?_⟩
    · rw [zip_cons_cons, forall_mem_cons]
      refine ⟨⟨dvd_roundUp .., hup, hfrom⟩, fun p hp => ?_⟩
      obtain ⟨h1, h2, h3⟩ := P.within p hp
      exact ⟨h1, by omega, h3⟩
    · exact pairwise_cons.mpr ⟨fun p hp => (P.within p hp).2.1, P.disjoint⟩

/-- Lists that are not too long are laid out. -/
theorem exists_layoutFields (hal : align.isPowerOfTwo) (h : size + 32 * fields.length ≤ u32Max) :
    ∃ r, layoutFields fields size align = .ok r ∧ r.1 ≤ size + 32 * fields.length := by
  induction fields generalizing size align with
  | nil => exact ⟨_, rfl, le_rfl⟩
  | cons f fields ih =>
    obtain ⟨-, h16, hpos⟩ := isPowerOfTwo_fieldSize f
    have hto := roundUp_le size (fieldSize f)
    rw [length_cons] at h ⊢
    obtain ⟨q, hq, hle⟩ := ih (isPowerOfTwo_max hal f)
      (by omega : roundUp size (fieldSize f) + fieldSize f + 32 * fields.length ≤ u32Max)
    exact ⟨_, layoutFields_cons_eq_ok.mpr ⟨hal, by omega, q, hq, rfl⟩, by dsimp only; omega⟩

/-- **The loop never looks ahead**: fields of the same sizes are laid out at the same offsets,
whatever fields come after them. -/
theorem layoutFields_prefix (hal : align.isPowerOfTwo)
    (h : super.map fieldSize <+: fields.map fieldSize)
    (hok : layoutFields fields size align = .ok r) :
    ∃ r', layoutFields super size align = .ok r' ∧ r'.1 ≤ r.1 ∧ r'.2.1 ≤ r.2.1 ∧
      r'.2.2.map (·.offset) <+: r.2.2.map (·.offset) := by
  induction super generalizing fields size align r with
  | nil =>
    obtain ⟨-, hle, -, hfrom, -⟩ := layoutFields_spec hal hok
    exact ⟨_, rfl, hfrom, hle, nil_prefix⟩
  | cons f super ih =>
    cases fields with
    | nil => simp at h
    | cons g fields =>
      obtain ⟨hsize, h⟩ := cons_prefix_cons.mp h
      obtain ⟨-, hfits, q, hq, rfl⟩ := layoutFields_cons_eq_ok.mp hok
      rw [← hsize] at hfits hq
      obtain ⟨q', hq', hle, hle', hpre⟩ := ih (isPowerOfTwo_max hal f) h hq
      refine ⟨_, layoutFields_cons_eq_ok.mpr ⟨hal, hfits, q', hq', rfl⟩, hle, hle', ?_⟩
      rw [← hsize]
      exact cons_prefix_cons.mpr ⟨rfl, hpre⟩

/-- The fields are laid out, and the size fits when it is rounded up. -/
theorem commonStructOrExnLayout_eq_ok (hal : align.isPowerOfTwo) :
    commonStructOrExnLayout fields size align = .ok r ↔
      ∃ q, layoutFields fields size align = .ok q ∧ q.1 + (q.2.1 - 1) ≤ u32Max ∧
        r = (roundUp q.1 q.2.1, q.2.1, q.2.2) := by
  simp only [commonStructOrExnLayout, bind_eq_ok, alignUp_eq_ok]
  constructor
  · rintro ⟨q, hq, _, ⟨-, -, hle, rfl⟩, hr⟩
    exact ⟨q, hq, hle, by simpa using (Except.ok.inj hr).symm⟩
  · rintro ⟨q, hq, hle, rfl⟩
    have hpow := (layoutFields_spec hal hq).1
    exact ⟨q, hq, _, ⟨hpow, hpow, hle, rfl⟩, by simp⟩

namespace Collector

/-- A layout of the collector is the common one, with a size that may be greater. -/
structure LaysOut (c : Collector) (isException : Bool) (fields : List WasmFieldType)
    (layout : GcStructLayout) : Prop where
  ok : c.layout isException fields = .ok layout
  dvd : layout.align ∣ layout.size
  common : ∃ size align,
    commonStructOrExnLayout fields (c.bodyOffset isException) c.headerAlign =
      .ok (size, align, layout.fields) ∧
    FieldsPlaced fields (c.bodyOffset isException) size layout.fields ∧ align ∣ size ∧
    size ≤ layout.size

variable {c : Collector} {isException : Bool} {l : GcStructLayout}

theorem header_spec (c : Collector) :
    c.headerAlign.isPowerOfTwo ∧ 8 ≤ c.headerAlign ∧ c.headerAlign ≤ 16 ∧
      8 ≤ c.headerSize ∧ c.headerSize ≤ 24 ∧ (c = copying → c.headerSize = 16) := by
  cases c <;> decide

/-- The size of an object of the copying collector. -/
def copyingSize (isException : Bool) (size : ℕ) : ℕ :=
  roundUp (if isException then size else max size 20) 16

theorem le_copyingSize (isException : Bool) (size : ℕ) : size ≤ copyingSize isException size := by
  refine le_trans ?_ (le_roundUp _ (by decide))
  split
  · exact le_rfl
  · exact le_max_left _ _

theorem copyingSize_mono (isException : Bool) {size size' : ℕ} (h : size ≤ size') :
    copyingSize isException size ≤ copyingSize isException size' := by
  refine Nat.mul_le_mul_right 16 (Nat.div_le_div_right (Nat.add_le_add_right ?_ _))
  split
  · exact h
  · exact max_le_max_right 20 h

/-- When the layout is made: the common part fits, and the copying collector's size does. -/
theorem layout_eq_ok : c.layout isException fields = .ok l ↔
    ∃ q, commonStructOrExnLayout fields (c.bodyOffset isException) c.headerAlign = .ok q ∧
      if c = copying then
        copyingSize isException q.1 ≤ u32Max ∧ q.2.1 ≤ 16 ∧ 20 ≤ copyingSize isException q.1 ∧
          l = ⟨copyingSize isException q.1, 16, q.2.2, isException⟩
      else l = ⟨q.1, q.2.1, q.2.2, isException⟩ := by
  obtain ⟨-, h8, -, hs, hs', -⟩ := c.header_spec
  have htag : tagSize isException ≤ 8 := by cases isException <;> decide
  have hadd := addU32_of_le (a := c.headerSize) (b := tagSize isException) (by rw [u32Max]; omega)
  have hcommon : ∀ p, commonLayout isException fields c.headerSize c.headerAlign = .ok p ↔
      ∃ q, commonStructOrExnLayout fields (c.bodyOffset isException) c.headerAlign = .ok q ∧
        p = ⟨q.1, q.2.1, q.2.2, isException⟩ := by
    intro p
    simp only [commonLayout, ensure_of hs, ensure_of h8, ok_bind, hadd, bind_eq_ok, bodyOffset]
    exact exists_congr fun q => and_congr_right fun _ =>
      ⟨fun h => (Except.ok.inj h).symm, fun h => h ▸ rfl⟩
  simp only [layout, bind_eq_ok, hcommon]
  by_cases hc : c = copying
  · simp only [if_pos hc]
    constructor
    · rintro ⟨_, ⟨q, hq, rfl⟩, h⟩
      obtain ⟨h1, h⟩ := ensure_bind_eq_ok.mp h
      obtain ⟨h2, h⟩ := ensure_bind_eq_ok.mp h
      obtain ⟨h3, h⟩ := ensure_bind_eq_ok.mp h
      exact ⟨q, hq, h1, h2, h3, (Except.ok.inj h).symm⟩
    · rintro ⟨q, hq, h1, h2, h3, rfl⟩
      exact ⟨_, ⟨q, hq, rfl⟩, ensure_bind_eq_ok.mpr ⟨h1, ensure_bind_eq_ok.mpr ⟨h2,
        ensure_bind_eq_ok.mpr ⟨h3, rfl⟩⟩⟩⟩
  · simp only [if_neg hc]
    constructor
    · rintro ⟨_, ⟨q, hq, rfl⟩, h⟩
      exact ⟨q, hq, (Except.ok.inj h).symm⟩
    · rintro ⟨q, hq, rfl⟩
      exact ⟨_, ⟨q, hq, rfl⟩, rfl⟩

/-- **Every layout of a collector is one of the fields.** -/
theorem laysOut_of_layout (h : c.layout isException fields = .ok l) :
    c.LaysOut isException fields l := by
  obtain ⟨q, hq, hl⟩ := layout_eq_ok.mp h
  obtain ⟨p, hp, -, rfl⟩ := (commonStructOrExnLayout_eq_ok c.header_spec.1).mp hq
  obtain ⟨hpow, -, -, -, P⟩ := layoutFields_spec c.header_spec.1 hp
  have P := P.mono (le_roundUp p.1 (Nat.pos_of_isPowerOfTwo hpow))
  by_cases hc : c = copying
  · rw [if_pos hc] at hl
    obtain ⟨-, -, -, rfl⟩ := hl
    exact ⟨h, dvd_roundUp .., _, _, hq, P, dvd_roundUp .., le_copyingSize ..⟩
  · rw [if_neg hc] at hl
    obtain rfl := hl
    exact ⟨h, dvd_roundUp .., _, _, hq, P, dvd_roundUp .., le_rfl⟩

/-- The alignment of the copying collector is always 16, and the tag of an exception makes room
for a forwarding reference. -/
theorem copying_spec {p : ℕ × ℕ × List GcStructLayoutField}
    (hp : layoutFields fields (copying.bodyOffset isException) copying.headerAlign = .ok p) :
    p.2.1 = 16 ∧ 20 ≤ copyingSize isException (roundUp p.1 16) := by
  obtain ⟨-, hle, hmax, hfrom, -⟩ := layoutFields_spec (by decide) hp
  have halign : p.2.1 = 16 := le_antisymm hmax hle
  refine ⟨halign, le_trans ?_ (le_roundUp _ (by decide))⟩
  have hup := le_roundUp p.1 (by decide : 0 < 16)
  cases isException with
  | false => exact le_max_right _ _
  | true =>
    have hfrom : 24 ≤ p.1 := hfrom
    rw [if_pos rfl]
    omega

/-- **A supertype of a type that is laid out is so too**, with the same offsets. -/
theorem layout_prefix (hsup : super.map fieldSize <+: fields.map fieldSize)
    (h : c.layout isException fields = .ok l) :
    ∃ l', c.layout isException super = .ok l' ∧
      l'.fields.map (·.offset) <+: l.fields.map (·.offset) := by
  have hal := c.header_spec.1
  obtain ⟨q, hq, hl⟩ := layout_eq_ok.mp h
  obtain ⟨p, hp, hfits, rfl⟩ := (commonStructOrExnLayout_eq_ok hal).mp hq
  obtain ⟨p', hp', hle, hle', hpre⟩ := layoutFields_prefix hal hsup hp
  have hq' := (commonStructOrExnLayout_eq_ok hal).mpr ⟨p', hp', by omega, rfl⟩
  by_cases hc : c = copying
  · subst hc
    rw [if_pos rfl] at hl
    obtain ⟨hmax, -, -, rfl⟩ := hl
    obtain ⟨halign, -⟩ := copying_spec hp
    obtain ⟨halign', hmin⟩ := copying_spec hp'
    rw [halign] at hmax
    rw [halign'] at hq'
    refine ⟨⟨copyingSize isException (roundUp p'.1 16), 16, p'.2.2, isException⟩,
      layout_eq_ok.mpr ⟨_, hq', ?_⟩, hpre⟩
    rw [if_pos rfl]
    refine ⟨(copyingSize_mono isException ?_).trans hmax, le_rfl, hmin, rfl⟩
    exact Nat.mul_le_mul_right 16 (Nat.div_le_div_right (Nat.add_le_add_right hle _))
  · rw [if_neg hc] at hl
    obtain rfl := hl
    exact ⟨_, layout_eq_ok.mpr ⟨_, hq', by rw [if_neg hc]⟩, hpre⟩

/-- Types that do not have too many fields are laid out. -/
theorem exists_layout (c : Collector) (isException : Bool) (h : 32 * fields.length + 64 ≤ u32Max) :
    ∃ l, c.layout isException fields = .ok l := by
  obtain ⟨hal, -, h16, -, hs, -⟩ := c.header_spec
  have htag : tagSize isException ≤ 8 := by cases isException <;> decide
  have hbody : c.bodyOffset isException + 32 * fields.length ≤ 32 * fields.length + 32 := by
    rw [bodyOffset]
    omega
  obtain ⟨p, hp, hto⟩ := exists_layoutFields hal (hbody.trans (by omega))
  obtain ⟨-, -, hmax, -, -⟩ := layoutFields_spec hal hp
  have hq := (commonStructOrExnLayout_eq_ok hal).mpr ⟨p, hp, by omega, rfl⟩
  by_cases hc : c = copying
  · subst hc
    obtain ⟨halign, hmin⟩ := copying_spec hp
    have hup := roundUp_le p.1 16
    rw [halign] at hq
    refine ⟨⟨copyingSize isException (roundUp p.1 16), 16, p.2.2, isException⟩,
      layout_eq_ok.mpr ⟨_, hq, ?_⟩⟩
    rw [if_pos rfl]
    refine ⟨?_, le_rfl, hmin, rfl⟩
    refine (roundUp_le _ 16).trans ?_
    split <;> omega
  · exact ⟨_, layout_eq_ok.mpr ⟨_, hq, by rw [if_neg hc]⟩⟩

end Collector

/-- Every vector takes 16 of the sizes there are. -/
theorem layoutFields_replicate_le {n : ℕ} (hsize : size ≤ u32Max)
    (h : layoutFields (replicate n ⟨.val .v128, true⟩) size align = .ok r) :
    size + 16 * n ≤ u32Max := by
  induction n generalizing size align r with
  | zero => exact hsize
  | succ n ih =>
    obtain ⟨-, hfits, q, hq, -⟩ := layoutFields_cons_eq_ok.mp h
    have hle : size ≤ roundUp size 16 := le_roundUp size (by decide)
    have : roundUp size 16 + 16 + 16 * n ≤ u32Max := ih hfits hq
    omega

end WasmDeps.Gc
