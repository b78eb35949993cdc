import WasmDeps.Lib.Exec

/-!
# Canonical ABI information of component types

Sizes, alignments and flat counts of interface types, as the type builder computes them bottom
up.  Sizes are `u32`: additions fail where they overflow, except that the size of a
fixed-length list saturates.

A type is a tree here.  The builder refers to types by index and looks their information up,
which is the same because a type is interned after the types it consists of.  Names of fields,
cases and flags do not matter to the layout and are left out.
-/

namespace WasmDeps.Component

open Lib

/-- The types of the component model's interfaces. -/
inductive InterfaceType
  | bool | s8 | u8 | s16 | u16 | s32 | u32 | s64 | u64 | float32 | float64 | char | string
  | record (fields : List InterfaceType)
  | variant (cases : List (Option InterfaceType))
  | list (element : InterfaceType)
  | tuple (types : List InterfaceType)
  | map (key value : InterfaceType)
  | flags (count : ℕ)
  | enum (count : ℕ)
  | option (ty : InterfaceType)
  | result (ok err : Option InterfaceType)
  | own | borrow
  | future (payload : Option InterfaceType)
  | stream (payload : Option InterfaceType)
  | errorContext
  | fixedLengthList (element : InterfaceType) (size : ℕ)

/-- Size, alignment and flat count of a type, for 32-bit and 64-bit memories. -/
structure CanonicalAbiInfo where
  size32 : ℕ
  align32 : ℕ
  size64 : ℕ
  align64 : ℕ
  /-- The number of flat values, unless there are too many. -/
  flatCount : Option ℕ
  deriving DecidableEq, Repr

/-! ## Arithmetic -/

/-- The test of `is_power_of_two`. -/
def isPowerOfTwo (b : ℕ) : Bool := b != 0 && b &&& (b - 1) == 0

/-- `align_to`; the mask keeps the multiple of `b`. -/
def alignTo (a b : ℕ) : Exec ℕ := do
  ensure (isPowerOfTwo b = true) "assertion failed: b.is_power_of_two()"
  let sum ← addU32 a (b - 1)
  pure (roundDown sum b)

def maxFlatTypes : ℕ := 16

/-- The sum of two counts of flat types, if there are not too many. -/
def addFlat (a b : Option ℕ) : Option ℕ := do
  let a ← a
  let b ← b
  if a + b ≤ 255 ∧ a + b ≤ maxFlatTypes then some (a + b) else none

/-- The greater of two counts of flat types. -/
def maxFlat (a b : Option ℕ) : Option ℕ := do
  let a ← a
  let b ← b
  some (if a > b then a else b)

/-- The product, which saturates. -/
def saturatingMul (a b : ℕ) : ℕ := min (a * b) u32Max

/-! ## Discriminants and flags -/

/-- The sizes of a discriminant. -/
inductive DiscriminantSize
  | size1 | size2 | size4
  deriving DecidableEq, Repr

/-- The size for so many cases. -/
def DiscriminantSize.fromCount (count : ℕ) : Option DiscriminantSize :=
  if count ≤ 2 ^ 8 then some size1
  else if count ≤ 2 ^ 16 then some size2
  else if count ≤ 2 ^ 32 then some size4
  else none

/-- The size in bytes. -/
def DiscriminantSize.byteSize : DiscriminantSize → ℕ
  | size1 => 1
  | size2 => 2
  | size4 => 4

/-- The number of bytes that flags take. -/
inductive FlagsSize
  | size0 | size1 | size2 | size4Plus (n : ℕ)
  deriving DecidableEq, Repr

/-- The size for so many flags. -/
def FlagsSize.fromCount (count : ℕ) : Exec FlagsSize := do
  if count = 0 then pure size0
  else if count ≤ 8 then pure size1
  else if count ≤ 16 then pure size2
  else
    let amt := (count + 31) / 32
    if amt > 255 then throw (.panic "too many flags")
    pure (size4Plus amt)

/-! ## Information of a type from that of its parts -/

namespace CanonicalAbiInfo

/-- `CanonicalAbiInfo::ZERO` and the default. -/
def zero : CanonicalAbiInfo := ⟨0, 1, 0, 1, some 0⟩

/-- A value of `size` bytes, which is also its alignment. -/
def scalar (size : ℕ) : CanonicalAbiInfo := ⟨size, size, size, size, some 1⟩

/-- A pointer and a length. -/
def pointerPair : CanonicalAbiInfo := ⟨8, 4, 16, 8, some 2⟩

/-- The end of a field that is put after `offset`. -/
def fieldEnd (offset align size : ℕ) : Exec ℕ := do
  let start ← alignTo offset align
  addU32 start size

/-- One iteration of the loop of `CanonicalAbiInfo::record`. -/
def recordStep (ret field : CanonicalAbiInfo) : Exec CanonicalAbiInfo := do
  let size32 ← fieldEnd ret.size32 field.align32 field.size32
  let size64 ← fieldEnd ret.size64 field.align64 field.size64
  pure ⟨size32, max ret.align32 field.align32, size64, max ret.align64 field.align64,
    addFlat ret.flatCount field.flatCount⟩

/-- The layout of a record: its fields in their order. -/
def record (fields : List CanonicalAbiInfo) : Exec CanonicalAbiInfo := do
  let ret ← fields.foldlM recordStep zero
  let size32 ← alignTo ret.size32 ret.align32
  let size64 ← alignTo ret.size64 ret.align64
  pure { ret with size32 := size32, size64 := size64 }

/-- `next_field32`: the offset of the next field and the offset after it. -/
def nextField32 (abi : CanonicalAbiInfo) (offset : ℕ) : Exec (ℕ × ℕ) := do
  let offset ← fieldEnd offset abi.align32 abi.size32
  pure (offset - abi.size32, offset)

/-- Where a field starts and ends with 64-bit pointers. -/
def nextField64 (abi : CanonicalAbiInfo) (offset : ℕ) : Exec (ℕ × ℕ) := do
  let offset ← fieldEnd offset abi.align64 abi.size64
  pure (offset - abi.size64, offset)

/-- The layout of flags. -/
def flags (count : ℕ) : Exec CanonicalAbiInfo := do
  let (size, align, flatCount) := match ← FlagsSize.fromCount count with
    | .size0 => (0, 1, 0)
    | .size1 => (1, 1, 1)
    | .size2 => (2, 2, 1)
    | .size4Plus n => (n * 4, 4, n)
  pure ⟨size, align, size, align, some flatCount⟩

/-- One iteration of the loop of `CanonicalAbiInfo::variant`: maxima over the payloads. -/
def variantStep (acc : CanonicalAbiInfo) : Option CanonicalAbiInfo → CanonicalAbiInfo
  | some case =>
    ⟨max acc.size32 case.size32, max acc.align32 case.align32, max acc.size64 case.size64,
      max acc.align64 case.align64, maxFlat acc.flatCount case.flatCount⟩
  | none => acc

/-- The size of a variant from the maxima of its payloads. -/
def variantSize (discrimSize maxSize maxAlign : ℕ) : Exec ℕ := do
  let payload ← alignTo discrimSize maxAlign
  let sum ← addU32 payload maxSize
  alignTo sum maxAlign

/-- The layout of a variant: the discriminant and then the largest payload. -/
def variant (cases : List (Option CanonicalAbiInfo)) : Exec CanonicalAbiInfo := do
  let size ← unwrap (DiscriminantSize.fromCount cases.length)
    "called `Option::unwrap()` on a `None` value"
  let discrimSize := size.byteSize
  let acc := cases.foldl variantStep ⟨0, discrimSize, 0, discrimSize, some 0⟩
  let size32 ← variantSize discrimSize acc.size32 acc.align32
  let size64 ← variantSize discrimSize acc.size64 acc.align64
  pure ⟨size32, acc.align32, size64, acc.align64, addFlat acc.flatCount (some 1)⟩

end CanonicalAbiInfo

/-- The discriminant of a variant and where its payload is. -/
structure VariantInfo where
  size : DiscriminantSize
  payloadOffset32 : ℕ
  payloadOffset64 : ℕ
  deriving DecidableEq, Repr

/-- The layout of a variant, with where its payload is. -/
def VariantInfo.new (cases : List (Option CanonicalAbiInfo)) :
    Exec (VariantInfo × CanonicalAbiInfo) := do
  let size ← unwrap (DiscriminantSize.fromCount cases.length)
    "called `Option::unwrap()` on a `None` value"
  let abi ← CanonicalAbiInfo.variant cases
  let payloadOffset32 ← alignTo size.byteSize abi.align32
  let payloadOffset64 ← alignTo size.byteSize abi.align64
  pure (⟨size, payloadOffset32, payloadOffset64⟩, abi)

/-! ## The builder -/

/-- The layout of a map's entry and where its value is. -/
structure TypeMap where
  entryAbi : CanonicalAbiInfo
  valueOffset32 : ℕ
  valueOffset64 : ℕ
  deriving DecidableEq, Repr

/-- The layout of a map's entry: a record of the key and the value. -/
def mapType (keyAbi valueAbi : CanonicalAbiInfo) : Exec TypeMap := do
  let entryAbi ← CanonicalAbiInfo.record [keyAbi, valueAbi]
  let (_, offset32) ← keyAbi.nextField32 0
  let (valueOffset32, _) ← valueAbi.nextField32 offset32
  let (_, offset64) ← keyAbi.nextField64 0
  let (valueOffset64, _) ← valueAbi.nextField64 offset64
  pure ⟨entryAbi, valueOffset32, valueOffset64⟩

/-- The layout of a list of fixed length: its elements one after the other. -/
def newFixedLengthListType (elementAbi : CanonicalAbiInfo) (size : ℕ) : CanonicalAbiInfo :=
  { elementAbi with
    size32 := saturatingMul elementAbi.size32 size
    size64 := saturatingMul elementAbi.size64 size
    flatCount := do
      let flatCount ← elementAbi.flatCount
      if size ≤ 255 ∧ flatCount * size ≤ 255 then some (flatCount * size) else none }

namespace InterfaceType

mutual

/-- `canonical_abi` of a type that the builder has added, or the panic of adding it. -/
def canonicalAbi : InterfaceType → Exec CanonicalAbiInfo
  | .bool | .s8 | .u8 => pure (.scalar 1)
  | .s16 | .u16 => pure (.scalar 2)
  | .s32 | .u32 | .float32 | .char | .own | .borrow | .errorContext => pure (.scalar 4)
  | .s64 | .u64 | .float64 => pure (.scalar 8)
  | .string => pure .pointerPair
  | .record fields => do
    let abis ← canonicalAbis fields
    CanonicalAbiInfo.record abis
  | .tuple types => do
    let abis ← canonicalAbis types
    CanonicalAbiInfo.record abis
  | .variant cases => do
    let abis ← caseAbis cases
    let (_, abi) ← VariantInfo.new abis
    pure abi
  | .enum count => do
    let (_, abi) ← VariantInfo.new (List.replicate count none)
    pure abi
  | .option ty => do
    let abi ← canonicalAbi ty
    let (_, abi) ← VariantInfo.new [none, some abi]
    pure abi
  | .result ok err => do
    let ok ← caseAbi ok
    let err ← caseAbi err
    let (_, abi) ← VariantInfo.new [ok, err]
    pure abi
  | .flags count => CanonicalAbiInfo.flags count
  | .list element => do
    let _ ← canonicalAbi element
    pure .pointerPair
  | .map key value => do
    let keyAbi ← canonicalAbi key
    let valueAbi ← canonicalAbi value
    let _ ← mapType keyAbi valueAbi
    pure .pointerPair
  | .future payload => do
    let _ ← caseAbi payload
    pure (.scalar 4)
  | .stream payload => do
    let _ ← caseAbi payload
    pure (.scalar 4)
  | .fixedLengthList element size => do
    let abi ← canonicalAbi element
    pure (newFixedLengthListType abi size)

/-- The layouts of the fields. -/
def canonicalAbis : List InterfaceType → Exec (List CanonicalAbiInfo)
  | [] => pure []
  | ty :: types => do
    let abi ← canonicalAbi ty
    let abis ← canonicalAbis types
    pure (abi :: abis)

/-- The information of a payload that may be missing. -/
def caseAbi : Option InterfaceType → Exec (Option CanonicalAbiInfo)
  | none => pure none
  | some ty => do
    let abi ← canonicalAbi ty
    pure (some abi)

/-- The layouts of the payloads. -/
def caseAbis : List (Option InterfaceType) → Exec (List (Option CanonicalAbiInfo))
  | [] => pure []
  | case :: cases => do
    let abi ← caseAbi case
    let abis ← caseAbis cases
    pure (abi :: abis)

end

end InterfaceType

end WasmDeps.Component
