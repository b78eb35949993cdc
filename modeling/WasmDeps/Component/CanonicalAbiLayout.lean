import WasmDeps.Component.CanonicalAbi
import Mathlib.Algebra.Order.Group.Nat
import Mathlib.Data.List.ReduceOption

/-!
# Layouts of the canonical ABI

The canonical ABI defines the alignment and the size of every type over unbounded integers.
The builder computes the same as long as all sizes stay below `2^32`.  A fixed-length list
saturates at the greatest `u32`, which is neither a multiple of most alignments nor safe to add
to: a record with such a list and one more byte overflows.

A record of parts whose sizes are capped at the greatest `u32` is, if it fits, the capped record:
a part that is capped leaves room for nothing else.
-/

namespace WasmDeps.Component

open Lib List Exec CanonicalAbiInfo Option

/-- A size and an alignment. -/
structure Layout where
  size : ℕ
  align : ℕ
  deriving DecidableEq, Repr

namespace Layout

variable (fields : List Layout)

/-- The end of the last field, when fields are put after `offset`. -/
def fieldsEnd (offset : ℕ) : ℕ :=
  fields.foldl (fun s field => roundUp s field.align + field.size) offset

/-- The offsets of fields that are put after an offset. -/
def fieldOffsets : List Layout → ℕ → List ℕ
  | [], _ => []
  | field :: fields, offset =>
    roundUp offset field.align :: fieldOffsets fields (roundUp offset field.align + field.size)

/-- The greatest alignment, at least `a`. -/
def maxAlign (a : ℕ) : ℕ := fields.foldl (fun a field => max a field.align) a

/-- The greatest size. -/
def maxSize : ℕ := fields.foldl (fun s field => max s field.size) 0

/-- `alignment_record` and `elem_size_record`. -/
def record : Layout :=
  ⟨roundUp (fieldsEnd fields 0) (maxAlign fields 1), maxAlign fields 1⟩

/-- The size of `discriminant_type`. -/
def discriminantSize (count : ℕ) : ℕ :=
  if count ≤ 2 ^ 8 then 1 else if count ≤ 2 ^ 16 then 2 else 4

/-- The offset of the payload: the discriminant is padded to `max_case_alignment`. -/
def payloadOffset (cases : List (Option Layout)) : ℕ :=
  roundUp (discriminantSize cases.length) (maxAlign cases.reduceOption 1)

/-- `alignment_variant` and `elem_size_variant`. -/
def variant (cases : List (Option Layout)) : Layout :=
  let align := max (discriminantSize cases.length) (maxAlign cases.reduceOption 1)
  ⟨roundUp (payloadOffset cases + maxSize cases.reduceOption) align, align⟩

/-- `alignment_flags` and `elem_size_flags`. -/
def flags (count : ℕ) : Layout :=
  if count = 0 then ⟨0, 1⟩
  else if count ≤ 8 then ⟨1, 1⟩
  else if count ≤ 16 then ⟨2, 2⟩
  else ⟨4 * ((count + 31) / 32), 4⟩

/-- The layout with a size that saturates. -/
def capped (l : Layout) : Layout := ⟨min l.size u32Max, l.align⟩

end Layout

namespace InterfaceType

mutual

/-- The layout of a type in a memory whose pointers have `ptr` bytes. -/
def layout (ptr : ℕ) : InterfaceType → Layout
  | .bool | .s8 | .u8 => ⟨1, 1⟩
  | .s16 | .u16 => ⟨2, 2⟩
  | .s32 | .u32 | .float32 | .char | .own | .borrow | .errorContext => ⟨4, 4⟩
  | .future _ | .stream _ => ⟨4, 4⟩
  | .s64 | .u64 | .float64 => ⟨8, 8⟩
  | .string | .list _ | .map _ _ => ⟨2 * ptr, ptr⟩
  | .record fields | .tuple fields => .record (layouts ptr fields)
  | .variant cases => .variant (caseLayouts ptr cases)
  | .enum count => .variant (List.replicate count none)
  | .option ty => .variant [none, some (layout ptr ty)]
  | .result ok err => .variant [caseLayout ptr ok, caseLayout ptr err]
  | .flags count => .flags count
  | .fixedLengthList element size =>
    ⟨size * (layout ptr element).size, (layout ptr element).align⟩

def layouts (ptr : ℕ) : List InterfaceType → List Layout
  | [] => []
  | ty :: types => layout ptr ty :: layouts ptr types

def caseLayout (ptr : ℕ) : Option InterfaceType → Option Layout
  | none => none
  | some ty => some (layout ptr ty)

def caseLayouts (ptr : ℕ) : List (Option InterfaceType) → List (Option Layout)
  | [] => []
  | case :: cases => caseLayout ptr case :: caseLayouts ptr cases

end

/-- The fields of a record or a tuple, or those of an entry of a map. -/
def recordFields : InterfaceType → Option (List InterfaceType)
  | .record fields => some fields
  | .tuple types => some types
  | .map key value => some [key, value]
  | _ => none

/-- The cases of a variant or of a type that is despecialised to one. -/
def variantCases : InterfaceType → Option (List (Option InterfaceType))
  | .variant cases => some cases
  | .enum count => some (List.replicate count none)
  | .option ty => some [none, some ty]
  | .result ok err => some [ok, err]
  | _ => none

/-- A record of parts whose sizes are capped has a size below `2^32`, for both sizes of
pointers. -/
def recordFits (fields : List InterfaceType) : Bool :=
  decide ((Layout.record ((layouts 4 fields).map .capped)).size < 2 ^ 32) &&
    decide ((Layout.record ((layouts 8 fields).map .capped)).size < 2 ^ 32)

/-- A variant of payloads whose sizes are capped has a size below `2^32`, for both sizes of
pointers, and there is a discriminant for all cases. -/
def variantFits (cases : List (Option InterfaceType)) : Bool :=
  decide (cases.length ≤ 2 ^ 32) &&
    decide ((Layout.variant ((caseLayouts 4 cases).map (Option.map .capped))).size < 2 ^ 32) &&
    decide ((Layout.variant ((caseLayouts 8 cases).map (Option.map .capped))).size < 2 ^ 32)

mutual

/-- The records, variants and entries of maps in the type fit, and there are not too many
flags. -/
def builds : InterfaceType → Bool
  | .record fields => buildsAll fields && recordFits fields
  | .tuple types => buildsAll types && recordFits types
  | .variant cases => buildsCases cases && variantFits cases
  | .enum count => decide (count ≤ 2 ^ 32)
  | .option ty => builds ty && variantFits [none, some ty]
  | .result ok err => buildsCase ok && buildsCase err && variantFits [ok, err]
  | .flags count => decide (count ≤ 255 * 32)
  | .list element => builds element
  | .map key value => builds key && builds value && recordFits [key, value]
  | .future payload => buildsCase payload
  | .stream payload => buildsCase payload
  | .fixedLengthList element _ => builds element
  | _ => true

def buildsAll : List InterfaceType → Bool
  | [] => true
  | ty :: types => builds ty && buildsAll types

def buildsCase : Option InterfaceType → Bool
  | none => true
  | some ty => builds ty

def buildsCases : List (Option InterfaceType) → Bool
  | [] => true
  | case :: cases => buildsCase case && buildsCases cases

end

/-- The size is below `2^32`, or it saturates at a multiple of the alignment. -/
def Saturates (ptr : ℕ) (ty : InterfaceType) : Prop :=
  (ty.layout ptr).size < 2 ^ 32 ∨ (ty.layout ptr).align = 1

end InterfaceType

/-! ## Alignment -/

/-- The alignments that occur. -/
def IsAlign (a : ℕ) : Prop := a = 1 ∨ a = 2 ∨ a = 4 ∨ a = 8

/-- The alignment is one of these and divides the size. -/
structure Layout.Good (l : Layout) : Prop where
  isAlign : IsAlign l.align
  dvd : l.align ∣ l.size

theorem IsAlign.pos {a : ℕ} (h : IsAlign a) : 0 < a := by
  rcases h with rfl | rfl | rfl | rfl <;> decide

variable {a b : ℕ}

theorem IsAlign.max (ha : IsAlign a) (hb : IsAlign b) : IsAlign (max a b) := by
  rcases le_total a b with h | h
  · rwa [max_eq_right h]
  · rwa [max_eq_left h]

theorem IsAlign.exists_pow (h : IsAlign a) : ∃ k, a = 2 ^ k := by
  rcases h with rfl | rfl | rfl | rfl
  · exact ⟨0, rfl⟩
  · exact ⟨1, rfl⟩
  · exact ⟨2, rfl⟩
  · exact ⟨3, rfl⟩

/-- Rounding up does not overflow before its result does. -/
theorem alignTo_eq_ok {c : ℕ} (hb : IsAlign b) :
    alignTo a b = .ok c ↔ roundUp a b < 2 ^ 32 ∧ c = roundUp a b := by
  have hpow : isPowerOfTwo b = true := by
    rcases hb with rfl | rfl | rfl | rfl <;> rfl
  have hsum : a + (b - 1) ≤ u32Max ↔ roundUp a b < 2 ^ 32 := by
    have hlt : a + (b - 1) < roundUp a b + b := lt_roundDown_add _ hb.pos
    have hle : roundUp a b ≤ a + (b - 1) := roundDown_le _ b
    have hdvd := dvd_roundUp a b
    rw [u32Max]
    rcases hb with rfl | rfl | rfl | rfl <;> omega
  rw [alignTo, ensure_of hpow, ok_bind, Exec.bind_eq_ok, ← hsum]
  constructor
  · rintro ⟨sum, hadd, h⟩
    obtain ⟨hle, rfl⟩ := addU32_eq_ok.mp hadd
    exact ⟨hle, (Except.ok.inj h).symm⟩
  · rintro ⟨hle, rfl⟩
    exact ⟨_, addU32_of_le hle, rfl⟩

theorem roundUp_of_dvd (hb : 0 < b) (h : b ∣ a) : roundUp a b = a := by
  obtain ⟨k, rfl⟩ := h
  rw [roundUp, roundDown, Nat.mul_add_div hb, Nat.div_eq_of_lt (by omega), add_zero, mul_comm]

theorem roundUp_zero (a : ℕ) : roundUp 0 a = 0 := by
  rcases Nat.eq_zero_or_pos a with rfl | ha
  · rfl
  · exact roundUp_of_dvd ha (Nat.dvd_zero a)

namespace Layout

variable {fields : List Layout} {a s : ℕ}

/-- Fields end behind their start. -/
theorem le_fieldsEnd (haligns : ∀ f ∈ fields, IsAlign f.align) : s ≤ fieldsEnd fields s := by
  induction fields generalizing s with
  | nil => exact le_rfl
  | cons f fields ih =>
    have hle := le_roundUp s (haligns f (.head _)).pos
    exact le_trans (by omega : s ≤ roundUp s f.align + f.size)
      (ih fun g hg => haligns g (.tail f hg))

/-- The greatest alignment is one. -/
theorem isAlign_maxAlign (haligns : ∀ f ∈ fields, IsAlign f.align) (ha : IsAlign a) :
    IsAlign (maxAlign fields a) := by
  induction fields generalizing a with
  | nil => exact ha
  | cons f fields ih =>
    exact ih (fun g hg => haligns g (.tail f hg)) (ha.max (haligns f (.head _)))

theorem isAlign_discriminantSize (count : ℕ) : IsAlign (discriminantSize count) := by
  rw [discriminantSize]
  split
  · exact .inl rfl
  · split
    · exact .inr (.inl rfl)
    · exact .inr (.inr (.inl rfl))

theorem good_record (hgood : ∀ f ∈ fields, f.Good) : (record fields).Good :=
  ⟨isAlign_maxAlign (fun f hf => (hgood f hf).isAlign) (.inl rfl), dvd_roundUp _ _⟩

theorem good_variant {cases : List (Option Layout)} (hgood : ∀ f ∈ cases.reduceOption, f.Good) :
    (variant cases).Good :=
  ⟨(isAlign_discriminantSize _).max
      (isAlign_maxAlign (fun f hf => (hgood f hf).isAlign) (.inl rfl)),
    dvd_roundUp _ _⟩

theorem good_flags (count : ℕ) : (flags count).Good := by
  rw [flags]
  split
  · exact ⟨.inl rfl, Nat.dvd_zero 1⟩
  split
  · exact ⟨.inl rfl, Nat.one_dvd 1⟩
  · split
    · exact ⟨.inr (.inl rfl), Nat.dvd_refl 2⟩
    · exact ⟨.inr (.inr (.inl rfl)), Nat.dvd_mul_right 4 _⟩

/-! ### Capped sizes -/

theorem size_le_fieldsEnd (haligns : ∀ f ∈ fields, IsAlign f.align) {f : Layout} (hf : f ∈ fields) :
    f.size ≤ fieldsEnd fields s := by
  induction fields generalizing s with
  | nil => exact absurd hf not_mem_nil
  | cons g fields ih =>
    have hrest := fun g' hg' => haligns g' (.tail g hg')
    rcases mem_cons.mp hf with rfl | hf
    · exact (Nat.le_add_left _ _).trans (le_fieldsEnd hrest)
    · exact ih hrest hf

/-- A record is as large as each of its fields. -/
theorem size_le_record (haligns : ∀ f ∈ fields, IsAlign f.align) {f : Layout} (hf : f ∈ fields) :
    f.size ≤ (record fields).size :=
  (size_le_fieldsEnd haligns hf).trans (le_roundUp _ (isAlign_maxAlign haligns (.inl rfl)).pos)

theorem le_foldl_max {f : Layout} (hf : f ∈ fields) :
    f.size ≤ fields.foldl (fun s field => max s field.size) s := by
  have hstart : ∀ (fields : List Layout) s,
      s ≤ fields.foldl (fun s field => max s field.size) s := by
    intro fields
    induction fields with
    | nil => exact fun s => le_rfl
    | cons g fields ih => exact fun s => (le_max_left _ _).trans (ih _)
  induction fields generalizing s with
  | nil => exact absurd hf not_mem_nil
  | cons g fields ih =>
    rcases mem_cons.mp hf with rfl | hf
    · exact (le_max_right _ _).trans (hstart fields _)
    · exact ih hf

/-- A payload comes after a discriminant. -/
theorem size_lt_variant (cases : List (Option Layout))
    (haligns : ∀ f ∈ cases.reduceOption, IsAlign f.align) {f : Layout}
    (hf : f ∈ cases.reduceOption) : f.size < (variant cases).size := by
  have ha := isAlign_maxAlign haligns (.inl rfl)
  have hd := isAlign_discriminantSize cases.length
  have hpad := le_roundUp (discriminantSize cases.length) ha.pos
  have hmax : f.size ≤ maxSize cases.reduceOption := le_foldl_max hf
  have hpos := hd.pos
  refine lt_of_lt_of_le ?_ (le_roundUp _ (hd.max ha).pos)
  rw [payloadOffset]
  omega

/-- Sizes below `2 ^ 32` are not capped. -/
theorem capped_of_lt {l : Layout} (h : l.size < 2 ^ 32) : l.capped = l := by
  rw [capped, Nat.min_eq_left (by rw [u32Max]; omega)]

theorem maxAlign_capped (fields : List Layout) (a : ℕ) :
    maxAlign (fields.map capped) a = maxAlign fields a := by
  rw [maxAlign, foldl_map]
  rfl

theorem isAlign_capped (haligns : ∀ f ∈ fields, IsAlign f.align) :
    ∀ f ∈ fields.map capped, IsAlign f.align := by
  intro f hf
  obtain ⟨g, hg, rfl⟩ := mem_map.mp hf
  exact haligns g hg

theorem map_capped_of_lt (h : ∀ f ∈ fields, f.size < 2 ^ 32) : fields.map capped = fields := by
  rw [map_congr_left fun f hf => capped_of_lt (h f hf), List.map_id']

/-- **A record of capped parts that fits is the capped record**: a part that is capped is all of
it. -/
theorem record_capped (haligns : ∀ f ∈ fields, IsAlign f.align)
    (hfits : (record (fields.map capped)).size < 2 ^ 32) :
    record (fields.map capped) = (record fields).capped := by
  by_cases h : ∀ f ∈ fields, f.size < 2 ^ 32
  · rw [map_capped_of_lt h] at hfits ⊢
    exact (capped_of_lt hfits).symm
  obtain ⟨f, hf, hbig⟩ := not_forall₂.mp h
  have hcapped : f.capped.size = u32Max := Nat.min_eq_right (by rw [u32Max]; omega)
  have hle := size_le_record (isAlign_capped haligns) (mem_map_of_mem hf)
  have hle' := size_le_record haligns hf
  have hsize : (record (fields.map capped)).size = min (record fields).size u32Max := by
    rw [u32Max] at hcapped ⊢
    omega
  exact congrArg₂ mk hsize (maxAlign_capped fields 1)

/-- A variant that fits has no payload that is capped. -/
theorem variant_capped {cases : List (Option Layout)}
    (haligns : ∀ f ∈ cases.reduceOption, IsAlign f.align)
    (hfits : (variant (cases.map (Option.map capped))).size < 2 ^ 32) :
    cases.map (Option.map capped) = cases ∧ (variant cases).size < 2 ^ 32 := by
  have hreduce : (cases.map (Option.map capped)).reduceOption = cases.reduceOption.map capped :=
    reduceOption_map
  have hsmall : ∀ f ∈ cases.reduceOption, f.size < 2 ^ 32 := by
    intro f hf
    have hlt := size_lt_variant (cases.map (Option.map capped))
      (hreduce ▸ isAlign_capped haligns) (hreduce ▸ mem_map_of_mem hf)
    have hcap : f.capped.size = min f.size u32Max := rfl
    rw [u32Max] at hcap
    omega
  have hsame : cases.map (Option.map capped) = cases := by
    refine (map_congr_left fun c hc => ?_).trans (List.map_id' cases)
    cases c with
    | none => rfl
    | some f => exact congrArg some (capped_of_lt (hsmall f (reduceOption_mem_iff.mpr hc)))
  exact ⟨hsame, hsame ▸ hfits⟩

end Layout

namespace InterfaceType

variable {ptr : ℕ}

mutual

/-- **Alignments are powers of two and divide sizes.** -/
theorem layout_good (hptr : ptr = 4 ∨ ptr = 8) : ∀ ty : InterfaceType, (ty.layout ptr).Good
  | .bool | .s8 | .u8 => ⟨.inl rfl, Nat.one_dvd 1⟩
  | .s16 | .u16 => ⟨.inr (.inl rfl), Nat.dvd_refl 2⟩
  | .s32 | .u32 | .float32 | .char | .own | .borrow | .errorContext
  | .future _ | .stream _ => ⟨.inr (.inr (.inl rfl)), Nat.dvd_refl 4⟩
  | .s64 | .u64 | .float64 => ⟨.inr (.inr (.inr rfl)), Nat.dvd_refl 8⟩
  | .string | .list _ | .map _ _ =>
    ⟨hptr.elim (fun h => .inr (.inr (.inl h))) fun h => .inr (.inr (.inr h)),
      Nat.dvd_mul_left ptr 2⟩
  | .record fields => Layout.good_record (layouts_good hptr fields)
  | .tuple types => Layout.good_record (layouts_good hptr types)
  | .variant cases => Layout.good_variant (caseLayouts_good hptr cases)
  | .enum count => Layout.good_variant (by
      intro f hf
      rw [reduceOption_mem_iff] at hf
      exact absurd (eq_of_mem_replicate hf) (some_ne_none f))
  | .option ty => Layout.good_variant (by simpa [reduceOption] using layout_good hptr ty)
  | .result ok err => Layout.good_variant (by
      have hok := caseLayout_good hptr ok
      have herr := caseLayout_good hptr err
      intro f hf
      rw [reduceOption_mem_iff] at hf
      rcases mem_cons.mp hf with hf | hf
      · exact hok f hf.symm
      · exact herr f (mem_singleton.mp hf).symm)
  | .flags count => Layout.good_flags count
  | .fixedLengthList element size =>
    ⟨(layout_good hptr element).isAlign,
      Nat.dvd_mul_left_of_dvd (layout_good hptr element).dvd size⟩

theorem layouts_good (hptr : ptr = 4 ∨ ptr = 8) :
    ∀ types, ∀ f ∈ layouts ptr types, f.Good
  | [] => fun _ hf => absurd hf not_mem_nil
  | ty :: types => fun f hf => (mem_cons.mp hf).elim (fun h => h ▸ layout_good hptr ty)
      fun h => layouts_good hptr types f h

theorem caseLayout_good (hptr : ptr = 4 ∨ ptr = 8) :
    ∀ case, ∀ f, caseLayout ptr case = some f → f.Good
  | none => fun _ hf => nomatch hf
  | some ty => fun _ hf => some.inj hf ▸ layout_good hptr ty

theorem caseLayouts_good (hptr : ptr = 4 ∨ ptr = 8) :
    ∀ cases, ∀ f ∈ (caseLayouts ptr cases).reduceOption, f.Good
  | [] => fun _ hf => absurd hf not_mem_nil
  | case :: cases => fun f hf => by
    rw [caseLayouts, reduceOption_mem_iff, mem_cons] at hf
    rcases hf with hf | hf
    · exact caseLayout_good hptr case f hf.symm
    · exact caseLayouts_good hptr cases f (reduceOption_mem_iff.mpr hf)

end

end InterfaceType

end WasmDeps.Component
