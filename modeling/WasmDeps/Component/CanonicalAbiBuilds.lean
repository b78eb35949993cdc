import WasmDeps.Component.CanonicalAbiLayout

/-!
# The builder and the canonical ABI

What the builder computes, as long as no addition overflows, is the size of the canonical ABI
capped once at the greatest `u32`.  `record_eq_ok`, `variantInfo_eq_ok` and `mapType_eq_ok` say
when each of its routines returns, and with what; two inductions over types give the types for
which it returns.
-/

namespace WasmDeps.Component

open Lib List Exec CanonicalAbiInfo Option

/-! ## The routines of the builder -/

namespace CanonicalAbiInfo

/-- The layout with 32-bit pointers. -/
def layout32 (info : CanonicalAbiInfo) : Layout := ⟨info.size32, info.align32⟩

/-- The layout with 64-bit pointers. -/
def layout64 (info : CanonicalAbiInfo) : Layout := ⟨info.size64, info.align64⟩

/-- The alignments are alignments, for both sizes of pointers. -/
def Aligned (info : CanonicalAbiInfo) : Prop := IsAlign info.align32 ∧ IsAlign info.align64

/-- When a field's end is computed: if it is below `2 ^ 32`. -/
theorem fieldEnd_eq_ok {offset align size e : ℕ} (ha : IsAlign align) :
    fieldEnd offset align size = .ok e ↔
      roundUp offset align + size < 2 ^ 32 ∧ e = roundUp offset align + size := by
  rw [fieldEnd, Exec.bind_eq_ok]
  simp only [alignTo_eq_ok ha, addU32_eq_ok, u32Max]
  constructor
  · rintro ⟨_, ⟨-, rfl⟩, hle, rfl⟩
    exact ⟨by omega, rfl⟩
  · rintro ⟨hlt, rfl⟩
    exact ⟨_, ⟨by omega, rfl⟩, by omega, rfl⟩

variable {infos : List CanonicalAbiInfo}

/-- When one more field is laid out. -/
theorem recordStep_eq_ok {ret info r : CanonicalAbiInfo} (ha : info.Aligned) :
    recordStep ret info = .ok r ↔
      roundUp ret.size32 info.align32 + info.size32 < 2 ^ 32 ∧
      roundUp ret.size64 info.align64 + info.size64 < 2 ^ 32 ∧
      r = ⟨roundUp ret.size32 info.align32 + info.size32, max ret.align32 info.align32,
        roundUp ret.size64 info.align64 + info.size64, max ret.align64 info.align64,
        addFlat ret.flatCount info.flatCount⟩ := by
  simp only [recordStep, Exec.bind_eq_ok, fieldEnd_eq_ok ha.1, fieldEnd_eq_ok ha.2]
  constructor
  · rintro ⟨_, ⟨h32, rfl⟩, _, ⟨h64, rfl⟩, h⟩
    exact ⟨h32, h64, (Except.ok.inj h).symm⟩
  · rintro ⟨h32, h64, rfl⟩
    exact ⟨_, ⟨h32, rfl⟩, _, ⟨h64, rfl⟩, rfl⟩

theorem isAlign_layout32 (ha : ∀ info ∈ infos, info.Aligned) :
    ∀ f ∈ infos.map layout32, IsAlign f.align := by
  intro f hf
  obtain ⟨i, hi, rfl⟩ := mem_map.mp hf
  exact (ha i hi).1

theorem isAlign_layout64 (ha : ∀ info ∈ infos, info.Aligned) :
    ∀ f ∈ infos.map layout64, IsAlign f.align := by
  intro f hf
  obtain ⟨i, hi, rfl⟩ := mem_map.mp hf
  exact (ha i hi).2

/-- **The loop of a record** gives the end of the last field, unless that is too great. -/
theorem recordFold_eq_ok (ret : CanonicalAbiInfo) {r : CanonicalAbiInfo}
    (ha : ∀ info ∈ infos, info.Aligned) (h32 : ret.size32 < 2 ^ 32) (h64 : ret.size64 < 2 ^ 32) :
    infos.foldlM recordStep ret = .ok r ↔
      Layout.fieldsEnd (infos.map layout32) ret.size32 < 2 ^ 32 ∧
      Layout.fieldsEnd (infos.map layout64) ret.size64 < 2 ^ 32 ∧
      r = ⟨Layout.fieldsEnd (infos.map layout32) ret.size32,
        Layout.maxAlign (infos.map layout32) ret.align32,
        Layout.fieldsEnd (infos.map layout64) ret.size64,
        Layout.maxAlign (infos.map layout64) ret.align64,
        infos.foldl (fun c info => addFlat c info.flatCount) ret.flatCount⟩ := by
  induction infos generalizing ret with
  | nil => exact ⟨fun h => ⟨h32, h64, (Except.ok.inj h).symm⟩, fun h => h.2.2 ▸ rfl⟩
  | cons info infos ih =>
    have hrest := fun i hi => ha i (.tail info hi)
    -- The fields that follow only add to the size.
    have hle32 : roundUp ret.size32 info.align32 + info.size32 ≤
        Layout.fieldsEnd ((info :: infos).map layout32) ret.size32 :=
      Layout.le_fieldsEnd (isAlign_layout32 hrest)
    have hle64 : roundUp ret.size64 info.align64 + info.size64 ≤
        Layout.fieldsEnd ((info :: infos).map layout64) ret.size64 :=
      Layout.le_fieldsEnd (isAlign_layout64 hrest)
    rw [foldlM_cons, Exec.bind_eq_ok]
    simp only [recordStep_eq_ok (ha info (.head _))]
    constructor
    · rintro ⟨_, ⟨hs32, hs64, rfl⟩, h⟩
      exact (ih _ hrest hs32 hs64).mp h
    · rintro ⟨he32, he64, rfl⟩
      have hs32 := lt_of_le_of_lt hle32 he32
      have hs64 := lt_of_le_of_lt hle64 he64
      exact ⟨_, ⟨hs32, hs64, rfl⟩, (ih _ hrest hs32 hs64).mpr ⟨he32, he64, rfl⟩⟩

/-- **A record** has the layout of the canonical ABI, unless its size is too great. -/
theorem record_eq_ok {info : CanonicalAbiInfo} (ha : ∀ info ∈ infos, info.Aligned) :
    record infos = .ok info ↔
      (Layout.record (infos.map layout32)).size < 2 ^ 32 ∧
      (Layout.record (infos.map layout64)).size < 2 ^ 32 ∧
      info = ⟨(Layout.record (infos.map layout32)).size, (Layout.record (infos.map layout32)).align,
        (Layout.record (infos.map layout64)).size, (Layout.record (infos.map layout64)).align,
        infos.foldl (fun c info => addFlat c info.flatCount) (some 0)⟩ := by
  have ha32 := Layout.isAlign_maxAlign (isAlign_layout32 ha) (.inl rfl : IsAlign 1)
  have ha64 := Layout.isAlign_maxAlign (isAlign_layout64 ha) (.inl rfl : IsAlign 1)
  rw [record, Exec.bind_eq_ok]
  simp only [recordFold_eq_ok zero ha (by decide) (by decide), Exec.bind_eq_ok]
  constructor
  · rintro ⟨_, ⟨-, -, rfl⟩, s32, h32, s64, h64, h⟩
    obtain ⟨hlt32, rfl⟩ := (alignTo_eq_ok ha32).mp h32
    obtain ⟨hlt64, rfl⟩ := (alignTo_eq_ok ha64).mp h64
    exact ⟨hlt32, hlt64, (Except.ok.inj h).symm⟩
  · rintro ⟨h32, h64, rfl⟩
    exact ⟨_, ⟨lt_of_le_of_lt (le_roundUp _ ha32.pos) h32,
      lt_of_le_of_lt (le_roundUp _ ha64.pos) h64, rfl⟩,
      _, (alignTo_eq_ok ha32).mpr ⟨h32, rfl⟩, _, (alignTo_eq_ok ha64).mpr ⟨h64, rfl⟩, rfl⟩

/-- The offsets that repeated calls of `next_field32` or `next_field64` give. -/
def fieldOffsets (next : CanonicalAbiInfo → ℕ → Exec (ℕ × ℕ)) :
    List CanonicalAbiInfo → ℕ → Exec (List ℕ)
  | [], _ => pure []
  | info :: infos, offset => do
    let (start, offset) ← next info offset
    let starts ← fieldOffsets next infos offset
    pure (start :: starts)

/-- **Field offsets**, for either size of pointers. -/
theorem fieldOffsets_eq {next : CanonicalAbiInfo → ℕ → Exec (ℕ × ℕ)}
    {proj : CanonicalAbiInfo → Layout} (hnext : ∀ info offset, next info offset = do
      let offset ← fieldEnd offset (proj info).align (proj info).size
      pure (offset - (proj info).size, offset)) (offset : ℕ)
    (ha : ∀ info ∈ infos, IsAlign (proj info).align)
    (h : Layout.fieldsEnd (infos.map proj) offset < 2 ^ 32) :
    fieldOffsets next infos offset = .ok (Layout.fieldOffsets (infos.map proj) offset) := by
  induction infos generalizing offset with
  | nil => rfl
  | cons info infos ih =>
    have hrest := fun i hi => ha i (.tail info hi)
    have hle : roundUp offset (proj info).align + (proj info).size ≤
        Layout.fieldsEnd ((info :: infos).map proj) offset :=
      Layout.le_fieldsEnd (by
        intro f hf
        obtain ⟨i, hi, rfl⟩ := mem_map.mp hf
        exact hrest i hi)
    have hend := (fieldEnd_eq_ok (ha info (.head _))).mpr ⟨lt_of_le_of_lt hle h, rfl⟩
    have hih := ih (roundUp offset (proj info).align + (proj info).size) hrest h
    simp only [fieldOffsets, hnext, hend, ok_bind, pure_eq, hih, Nat.add_sub_cancel]
    rfl

/-- The layouts of the payloads for one pointer size. -/
def caseLayouts (proj : CanonicalAbiInfo → Layout) (infos : List (Option CanonicalAbiInfo)) :
    List (Option Layout) := infos.map (Option.map proj)

/-- The fold over the cases: the greatest sizes and alignments. -/
theorem variantFold_eq (infos : List (Option CanonicalAbiInfo)) (acc : CanonicalAbiInfo) :
    let ret := infos.foldl variantStep acc
    let cases32 := (caseLayouts layout32 infos).reduceOption
    let cases64 := (caseLayouts layout64 infos).reduceOption
    ret.size32 = cases32.foldl (fun s field => max s field.size) acc.size32 ∧
      ret.align32 = Layout.maxAlign cases32 acc.align32 ∧
      ret.size64 = cases64.foldl (fun s field => max s field.size) acc.size64 ∧
      ret.align64 = Layout.maxAlign cases64 acc.align64 := by
  induction infos generalizing acc with
  | nil => exact ⟨rfl, rfl, rfl, rfl⟩
  | cons info infos ih =>
    cases info with
    | none => exact ih acc
    | some info => exact ih (variantStep acc (some info))

/-- The size of a variant, given that all payloads are padded to one alignment. -/
theorem variantSize_eq_ok {discrim maxSize a s : ℕ} (hd : IsAlign discrim) (ha : IsAlign a) :
    variantSize discrim maxSize (max discrim a) = .ok s ↔
      roundUp (roundUp discrim a + maxSize) (max discrim a) < 2 ^ 32 ∧
        s = roundUp (roundUp discrim a + maxSize) (max discrim a) := by
  -- The discriminant is aligned already if no payload has a greater alignment.
  have hpad : roundUp discrim (max discrim a) = roundUp discrim a := by
    rcases hd with rfl | rfl | rfl | rfl <;> rcases ha with rfl | rfl | rfl | rfl <;> rfl
  have hmax := hd.max ha
  have hle := le_roundUp (roundUp discrim a + maxSize) hmax.pos
  simp only [variantSize, Exec.bind_eq_ok, alignTo_eq_ok hmax, hpad, addU32_eq_ok, u32Max]
  constructor
  · rintro ⟨_, ⟨-, rfl⟩, _, ⟨-, rfl⟩, h⟩
    exact h
  · rintro ⟨hlt, rfl⟩
    exact ⟨_, ⟨by omega, rfl⟩, _, ⟨by omega, rfl⟩, hlt, rfl⟩

theorem alignTo_discriminant {discrim a : ℕ} (hd : IsAlign discrim) (ha : IsAlign a) :
    alignTo discrim (max discrim a) = .ok (roundUp discrim a) := by
  rcases hd with rfl | rfl | rfl | rfl <;> rcases ha with rfl | rfl | rfl | rfl <;> rfl

end CanonicalAbiInfo

theorem Layout.maxAlign_max (fields : List Layout) (a b : ℕ) :
    maxAlign fields (max a b) = max a (maxAlign fields b) := by
  induction fields generalizing b with
  | nil => rfl
  | cons f fields ih =>
    have hassoc : max (max a b) f.align = max a (max b f.align) := by omega
    have hih := ih (max b f.align)
    rw [← hassoc] at hih
    exact hih

/-- The discriminant's size is that of the specification. -/
theorem fromCount_eq_some {count : ℕ} {size : DiscriminantSize}
    (h : DiscriminantSize.fromCount count = some size) :
    count ≤ 2 ^ 32 ∧ size.byteSize = Layout.discriminantSize count := by
  rw [DiscriminantSize.fromCount] at h
  rw [Layout.discriminantSize]
  split at h
  · obtain rfl := some.inj h
    exact ⟨by omega, by rw [if_pos ‹_›]; rfl⟩
  split at h
  · obtain rfl := some.inj h
    exact ⟨by omega, by rw [if_neg ‹_›, if_pos ‹_›]; rfl⟩
  split at h
  · obtain rfl := some.inj h
    exact ⟨‹_›, by rw [if_neg ‹_›, if_neg ‹_›]; rfl⟩
  · cases h

theorem exists_fromCount {count : ℕ} (h : count ≤ 2 ^ 32) :
    ∃ size, DiscriminantSize.fromCount count = some size := by
  rw [DiscriminantSize.fromCount]
  split
  · exact ⟨_, rfl⟩
  · split
    · exact ⟨_, rfl⟩
    · exact ⟨_, rfl⟩

namespace CanonicalAbiInfo

/-- **Variants** and the offsets of their payloads are those of the canonical ABI, unless a size
is too great. -/
theorem variantInfo_eq_ok {infos : List (Option CanonicalAbiInfo)}
    {p : VariantInfo × CanonicalAbiInfo} {size : DiscriminantSize}
    (hsize : DiscriminantSize.fromCount infos.length = some size)
    (haligns32 : ∀ f ∈ (caseLayouts layout32 infos).reduceOption, IsAlign f.align)
    (haligns64 : ∀ f ∈ (caseLayouts layout64 infos).reduceOption, IsAlign f.align) :
    VariantInfo.new infos = .ok p ↔
      (Layout.variant (caseLayouts layout32 infos)).size < 2 ^ 32 ∧
      (Layout.variant (caseLayouts layout64 infos)).size < 2 ^ 32 ∧
      p = (⟨size, Layout.payloadOffset (caseLayouts layout32 infos),
          Layout.payloadOffset (caseLayouts layout64 infos)⟩,
        ⟨(Layout.variant (caseLayouts layout32 infos)).size,
          (Layout.variant (caseLayouts layout32 infos)).align,
          (Layout.variant (caseLayouts layout64 infos)).size,
          (Layout.variant (caseLayouts layout64 infos)).align,
          addFlat (infos.foldl variantStep
            ⟨0, size.byteSize, 0, size.byteSize, some 0⟩).flatCount (some 1)⟩) := by
  have hbyte := (fromCount_eq_some hsize).2
  have hd := Layout.isAlign_discriminantSize infos.length
  have ha32 := Layout.isAlign_maxAlign haligns32 (.inl rfl : IsAlign 1)
  have ha64 := Layout.isAlign_maxAlign haligns64 (.inl rfl : IsAlign 1)
  obtain ⟨hs32, hal32, hs64, hal64⟩ := variantFold_eq infos
    ⟨0, size.byteSize, 0, size.byteSize, some 0⟩
  -- The loop starts with the alignment of the discriminant.
  have hone : ∀ fields, Layout.maxAlign fields size.byteSize =
      max (Layout.discriminantSize infos.length) (Layout.maxAlign fields 1) := by
    intro fields
    rw [← Layout.maxAlign_max, hbyte, max_eq_left hd.pos]
  rw [hone] at hal32 hal64
  have hlen32 : (caseLayouts layout32 infos).length = infos.length := length_map _
  have hlen64 : (caseLayouts layout64 infos).length = infos.length := length_map _
  simp only [VariantInfo.new, variant, hsize, unwrap_some, ok_bind, Layout.variant,
    Layout.payloadOffset, Layout.maxSize, hlen32, hlen64]
  generalize infos.foldl variantStep ⟨0, size.byteSize, 0, size.byteSize, some 0⟩ = acc
    at hs32 hal32 hs64 hal64 ⊢
  obtain ⟨_, _, _, _, flatCount⟩ := acc
  dsimp only at hs32 hal32 hs64 hal64
  subst hs32 hal32 hs64 hal64
  simp only [hbyte, Exec.bind_eq_ok, variantSize_eq_ok hd ha32, variantSize_eq_ok hd ha64]
  constructor
  · rintro ⟨_, ⟨_, ⟨h32, rfl⟩, _, ⟨h64, rfl⟩, h⟩, _, ho32, _, ho64, hp⟩
    obtain rfl := Except.ok.inj h
    obtain rfl := Except.ok.inj ((alignTo_discriminant hd ha32).symm.trans ho32)
    obtain rfl := Except.ok.inj ((alignTo_discriminant hd ha64).symm.trans ho64)
    exact ⟨h32, h64, (Except.ok.inj hp).symm⟩
  · rintro ⟨h32, h64, rfl⟩
    exact ⟨_, ⟨_, ⟨h32, rfl⟩, _, ⟨h64, rfl⟩, rfl⟩, _, alignTo_discriminant hd ha32, _,
      alignTo_discriminant hd ha64, rfl⟩

end CanonicalAbiInfo

namespace CanonicalAbiInfo

theorem nextField32_eq_ok {abi : CanonicalAbiInfo} {offset : ℕ} {q : ℕ × ℕ} (ha : abi.Aligned) :
    abi.nextField32 offset = .ok q ↔ roundUp offset abi.align32 + abi.size32 < 2 ^ 32 ∧
      q = (roundUp offset abi.align32, roundUp offset abi.align32 + abi.size32) := by
  simp only [nextField32, Exec.bind_eq_ok, fieldEnd_eq_ok ha.1]
  constructor
  · rintro ⟨_, ⟨hlt, rfl⟩, h⟩
    exact ⟨hlt, by simpa using (Except.ok.inj h).symm⟩
  · rintro ⟨hlt, rfl⟩
    exact ⟨_, ⟨hlt, rfl⟩, by simp⟩

theorem nextField64_eq_ok {abi : CanonicalAbiInfo} {offset : ℕ} {q : ℕ × ℕ} (ha : abi.Aligned) :
    abi.nextField64 offset = .ok q ↔ roundUp offset abi.align64 + abi.size64 < 2 ^ 32 ∧
      q = (roundUp offset abi.align64, roundUp offset abi.align64 + abi.size64) := by
  simp only [nextField64, Exec.bind_eq_ok, fieldEnd_eq_ok ha.2]
  constructor
  · rintro ⟨_, ⟨hlt, rfl⟩, h⟩
    exact ⟨hlt, by simpa using (Except.ok.inj h).symm⟩
  · rintro ⟨hlt, rfl⟩
    exact ⟨_, ⟨hlt, rfl⟩, by simp⟩

/-- **Maps**: their entries are records, and the offsets of the values follow from that. -/
theorem mapType_eq_ok {key value : CanonicalAbiInfo} {tmap : TypeMap} (hk : key.Aligned)
    (hv : value.Aligned) :
    mapType key value = .ok tmap ↔ ∃ entry, record [key, value] = .ok entry ∧
      tmap = ⟨entry, roundUp key.size32 value.align32, roundUp key.size64 value.align64⟩ := by
  simp only [mapType, Exec.bind_eq_ok, nextField32_eq_ok hk, nextField32_eq_ok hv,
    nextField64_eq_ok hk, nextField64_eq_ok hv, roundUp_zero, zero_add]
  constructor
  · rintro ⟨entry, hentry, _, ⟨-, rfl⟩, _, ⟨-, rfl⟩, _, ⟨-, rfl⟩, _, ⟨-, rfl⟩, h⟩
    exact ⟨entry, hentry, (Except.ok.inj h).symm⟩
  · rintro ⟨entry, hentry, rfl⟩
    have ha : ∀ info ∈ [key, value], info.Aligned := by simp [hk, hv]
    obtain ⟨h32, h64, -⟩ := (record_eq_ok ha).mp hentry
    have hend32 := le_roundUp (Layout.fieldsEnd ([key, value].map layout32) 0)
      (Layout.isAlign_maxAlign (isAlign_layout32 ha) (.inl rfl : IsAlign 1)).pos
    have hend64 := le_roundUp (Layout.fieldsEnd ([key, value].map layout64) 0)
      (Layout.isAlign_maxAlign (isAlign_layout64 ha) (.inl rfl : IsAlign 1)).pos
    have hlt32 := lt_of_le_of_lt hend32 h32
    have hlt64 := lt_of_le_of_lt hend64 h64
    simp only [Layout.fieldsEnd, map_cons, map_nil, foldl_cons, foldl_nil, layout32, layout64,
      roundUp_zero, zero_add] at hlt32 hlt64
    have hle32 := le_roundUp key.size32 hv.1.pos
    have hle64 := le_roundUp key.size64 hv.2.pos
    exact ⟨entry, hentry, _, ⟨by omega, rfl⟩, _, ⟨hlt32, rfl⟩, _, ⟨by omega, rfl⟩, _,
      ⟨hlt64, rfl⟩, rfl⟩

end CanonicalAbiInfo

/-- The builder has computed the capped layout of a type. -/
def HasLayout (info : CanonicalAbiInfo) (ty : InterfaceType) : Prop :=
  info.layout32 = (ty.layout 4).capped ∧ info.layout64 = (ty.layout 8).capped

/-- The builder has computed the capped layouts of the types. -/
def HaveLayouts (infos : List CanonicalAbiInfo) (types : List InterfaceType) : Prop :=
  infos.map CanonicalAbiInfo.layout32 = (InterfaceType.layouts 4 types).map .capped ∧
    infos.map CanonicalAbiInfo.layout64 = (InterfaceType.layouts 8 types).map .capped

/-- The builder has computed the capped layouts of the payloads. -/
def HaveCaseLayouts (infos : List (Option CanonicalAbiInfo)) (cases : List (Option InterfaceType)) :
    Prop :=
  CanonicalAbiInfo.caseLayouts CanonicalAbiInfo.layout32 infos =
      (InterfaceType.caseLayouts 4 cases).map (Option.map .capped) ∧
    CanonicalAbiInfo.caseLayouts CanonicalAbiInfo.layout64 infos =
      (InterfaceType.caseLayouts 8 cases).map (Option.map .capped)

namespace InterfaceType

theorem length_caseLayouts (ptr : ℕ) (cases : List (Option InterfaceType)) :
    (caseLayouts ptr cases).length = cases.length := by
  induction cases with
  | nil => rfl
  | cons case cases ih => rw [caseLayouts, length_cons, ih, length_cons]

variable {ty : InterfaceType} {fields : List InterfaceType} {infos : List CanonicalAbiInfo}

theorem isAlign_layouts {ptr : ℕ} (hptr : ptr = 4 ∨ ptr = 8) (types : List InterfaceType) :
    ∀ f ∈ layouts ptr types, IsAlign f.align :=
  fun f hf => (layouts_good hptr types f hf).isAlign

theorem isAlign_caseLayouts {ptr : ℕ} (hptr : ptr = 4 ∨ ptr = 8)
    (cases : List (Option InterfaceType)) :
    ∀ f ∈ (caseLayouts ptr cases).reduceOption, IsAlign f.align :=
  fun f hf => (caseLayouts_good hptr cases f hf).isAlign

theorem HasLayout.aligned {info : CanonicalAbiInfo} (h : HasLayout info ty) : info.Aligned := by
  have h32 : info.align32 = (ty.layout 4).align := congrArg Layout.align h.1
  have h64 : info.align64 = (ty.layout 8).align := congrArg Layout.align h.2
  exact ⟨h32 ▸ (layout_good (.inl rfl) ty).isAlign, h64 ▸ (layout_good (.inr rfl) ty).isAlign⟩

theorem HaveLayouts.aligned (h : HaveLayouts infos fields) : ∀ info ∈ infos, info.Aligned := by
  intro info hinfo
  have h32 := Layout.isAlign_capped (isAlign_layouts (.inl rfl) fields) info.layout32
    (h.1 ▸ mem_map_of_mem hinfo)
  have h64 := Layout.isAlign_capped (isAlign_layouts (.inr rfl) fields) info.layout64
    (h.2 ▸ mem_map_of_mem hinfo)
  exact ⟨h32, h64⟩

/-- `recordFits` in terms of capped layouts. -/
theorem recordFits_iff : recordFits fields = true ↔
    (Layout.record ((layouts 4 fields).map .capped)).size < 2 ^ 32 ∧
      (Layout.record ((layouts 8 fields).map .capped)).size < 2 ^ 32 := by
  rw [recordFits, Bool.and_eq_true, decide_eq_true_eq, decide_eq_true_eq]

/-- **A record is built just when it fits**, with the capped layout. -/
theorem record_hasLayout (h : HaveLayouts infos fields) :
    (recordFits fields = true →
      ∃ info, CanonicalAbiInfo.record infos = .ok info ∧ HasLayout info (.record fields)) ∧
    ∀ info, CanonicalAbiInfo.record infos = .ok info → recordFits fields = true := by
  have ha := HaveLayouts.aligned h
  obtain ⟨h32, h64⟩ := h
  simp only [record_eq_ok ha, h32, h64, recordFits_iff]
  refine ⟨fun hfits => ⟨_, ⟨hfits.1, hfits.2, rfl⟩, ?_, ?_⟩, fun info h => ⟨h.1, h.2.1⟩⟩
  · exact Layout.record_capped (isAlign_layouts (.inl rfl) fields) hfits.1
  · exact Layout.record_capped (isAlign_layouts (.inr rfl) fields) hfits.2

variable {cases : List (Option InterfaceType)} {caseInfos : List (Option CanonicalAbiInfo)}

/-- `variantFits` in terms of capped layouts. -/
theorem variantFits_iff : variantFits cases = true ↔ cases.length ≤ 2 ^ 32 ∧
    (Layout.variant ((caseLayouts 4 cases).map (Option.map .capped))).size < 2 ^ 32 ∧
      (Layout.variant ((caseLayouts 8 cases).map (Option.map .capped))).size < 2 ^ 32 := by
  simp only [variantFits, Bool.and_eq_true, decide_eq_true_eq, and_assoc]

/-- **A variant is built just when it fits**, with the layout and the offsets of the canonical
ABI. -/
theorem variant_hasLayout (h : HaveCaseLayouts caseInfos cases) :
    (variantFits cases = true → ∃ vinfo info, VariantInfo.new caseInfos = .ok (vinfo, info) ∧
      HasLayout info (.variant cases) ∧
      vinfo.payloadOffset32 = Layout.payloadOffset (caseLayouts 4 cases) ∧
      vinfo.payloadOffset64 = Layout.payloadOffset (caseLayouts 8 cases)) ∧
    ∀ p, VariantInfo.new caseInfos = .ok p → variantFits cases = true := by
  obtain ⟨h32, h64⟩ := h
  have hlen : caseInfos.length = cases.length := by
    have := congrArg length h32
    simpa [CanonicalAbiInfo.caseLayouts, length_caseLayouts] using this
  have ha32 : ∀ f ∈ (CanonicalAbiInfo.caseLayouts layout32 caseInfos).reduceOption,
      IsAlign f.align := by
    rw [h32, reduceOption_map]
    exact Layout.isAlign_capped (isAlign_caseLayouts (.inl rfl) cases)
  have ha64 : ∀ f ∈ (CanonicalAbiInfo.caseLayouts layout64 caseInfos).reduceOption,
      IsAlign f.align := by
    rw [h64, reduceOption_map]
    exact Layout.isAlign_capped (isAlign_caseLayouts (.inr rfl) cases)
  rw [variantFits_iff]
  constructor
  · rintro ⟨hcnt, hs32, hs64⟩
    obtain ⟨size, hsize⟩ := exists_fromCount (hlen ▸ hcnt : caseInfos.length ≤ 2 ^ 32)
    obtain ⟨hsame32, hlt32⟩ := Layout.variant_capped (isAlign_caseLayouts (.inl rfl) cases) hs32
    obtain ⟨hsame64, hlt64⟩ := Layout.variant_capped (isAlign_caseLayouts (.inr rfl) cases) hs64
    rw [hsame32] at h32
    rw [hsame64] at h64
    refine ⟨_, _, (variantInfo_eq_ok hsize ha32 ha64).mpr ⟨?_, ?_, rfl⟩, ⟨?_, ?_⟩, ?_, ?_⟩
    · rwa [h32]
    · rwa [h64]
    · rw [layout, Layout.capped_of_lt hlt32, ← h32]
      rfl
    · rw [layout, Layout.capped_of_lt hlt64, ← h64]
      rfl
    · rw [← h32]
    · rw [← h64]
  · intro p hp
    have hsome : ∃ size, DiscriminantSize.fromCount caseInfos.length = some size := by
      obtain ⟨size, hsize, -⟩ := Exec.bind_eq_ok.mp hp
      exact ⟨size, unwrap_eq_ok.mp hsize⟩
    obtain ⟨size, hsize⟩ := hsome
    obtain ⟨hs32, hs64, -⟩ := (variantInfo_eq_ok hsize ha32 ha64).mp hp
    exact ⟨hlen ▸ (fromCount_eq_some hsize).1, h32 ▸ hs32, h64 ▸ hs64⟩

/-- **The type of a map is built just when its entries fit.** -/
theorem mapType_hasLayout {kinfo vinfo : CanonicalAbiInfo} {key value : InterfaceType}
    (hk : HasLayout kinfo key) (hv : HasLayout vinfo value) :
    (recordFits [key, value] = true → ∃ tmap, mapType kinfo vinfo = .ok tmap ∧
      HasLayout tmap.entryAbi (.tuple [key, value]) ∧
      (((InterfaceType.tuple [key, value]).layout 4).size < 2 ^ 32 →
        Layout.fieldOffsets (layouts 4 [key, value]) 0 = [0, tmap.valueOffset32]) ∧
      (((InterfaceType.tuple [key, value]).layout 8).size < 2 ^ 32 →
        Layout.fieldOffsets (layouts 8 [key, value]) 0 = [0, tmap.valueOffset64])) ∧
    ∀ tmap, mapType kinfo vinfo = .ok tmap → recordFits [key, value] = true := by
  have hl : HaveLayouts [kinfo, vinfo] [key, value] := by
    simp [HaveLayouts, layouts, hk.1, hk.2, hv.1, hv.2]
  obtain ⟨hforward, hback⟩ := record_hasLayout hl
  simp only [mapType_eq_ok (HasLayout.aligned hk) (HasLayout.aligned hv)]
  constructor
  · intro hfits
    obtain ⟨entry, hentry, hlay⟩ := hforward hfits
    have hoffset : ∀ ptr, ptr = 4 ∨ ptr = 8 →
        ((InterfaceType.tuple [key, value]).layout ptr).size < 2 ^ 32 →
        Layout.fieldOffsets (layouts ptr [key, value]) 0 =
          [0, roundUp (key.layout ptr).capped.size (value.layout ptr).capped.align] := by
      intro ptr hptr hlt
      have hle : (key.layout ptr).size ≤ ((InterfaceType.tuple [key, value]).layout ptr).size :=
        Layout.size_le_record (isAlign_layouts hptr [key, value]) (.head _)
      rw [Layout.capped_of_lt (lt_of_le_of_lt hle hlt)]
      simp only [layouts, Layout.fieldOffsets, roundUp_zero, zero_add]
      rfl
    refine ⟨_, ⟨entry, hentry, rfl⟩, hlay, fun hlt => ?_, fun hlt => ?_⟩
    · rw [hoffset 4 (.inl rfl) hlt, ← hk.1, ← hv.1]
      rfl
    · rw [hoffset 8 (.inr rfl) hlt, ← hk.2, ← hv.2]
      rfl
  · rintro tmap ⟨entry, hentry, -⟩
    exact hback entry hentry

/-- Flags are laid out, up to 255 words. -/
theorem flags_hasLayout {count : ℕ} :
    (count ≤ 255 * 32 → ∃ info, CanonicalAbiInfo.flags count = .ok info ∧
      HasLayout info (.flags count)) ∧
    ∀ info, CanonicalAbiInfo.flags count = .ok info → count ≤ 255 * 32 := by
  simp only [CanonicalAbiInfo.flags, FlagsSize.fromCount, HasLayout, layout, Layout.flags]
  split
  · exact ⟨fun _ => ⟨_, rfl, rfl, rfl⟩, fun _ _ => by omega⟩
  split
  · exact ⟨fun _ => ⟨_, rfl, rfl, rfl⟩, fun _ _ => by omega⟩
  split
  · exact ⟨fun _ => ⟨_, rfl, rfl, rfl⟩, fun _ _ => by omega⟩
  constructor
  · intro h
    rw [if_neg (by omega), mul_comm 4, Layout.capped_of_lt (by dsimp only; omega)]
    exact ⟨_, rfl, rfl, rfl⟩
  · intro info h
    split at h
    · cases h
    · omega

/-- **Saturating at every level caps the size once.** -/
theorem newFixedLengthListType_hasLayout {info : CanonicalAbiInfo} (h : HasLayout info ty)
    (size : ℕ) : HasLayout (newFixedLengthListType info size) (.fixedLengthList ty size) := by
  have hsat : ∀ n, saturatingMul (min n u32Max) size = min (size * n) u32Max := by
    intro n
    rw [saturatingMul]
    rcases Nat.eq_zero_or_pos size with rfl | hpos
    · simp
    rcases le_total n u32Max with hn | hn
    · rw [min_eq_left hn, mul_comm]
    · rw [min_eq_right hn, min_eq_right (Nat.le_mul_of_pos_right _ hpos),
        min_eq_right (hn.trans (Nat.le_mul_of_pos_left _ hpos))]
  obtain ⟨h32, h64⟩ := h
  obtain ⟨hs32, ha32⟩ := Layout.mk.inj h32
  obtain ⟨hs64, ha64⟩ := Layout.mk.inj h64
  constructor
  · rw [layout32, newFixedLengthListType, hs32, ha32, hsat, layout]
    rfl
  · rw [layout64, newFixedLengthListType, hs64, ha64, hsat, layout]
    rfl

theorem caseLayouts_replicate (ptr count : ℕ) :
    caseLayouts ptr (replicate count none) = replicate count none := by
  induction count with
  | zero => rfl
  | succ count ih => rw [replicate_succ, caseLayouts, ih, caseLayout, replicate_succ]

theorem replicate_haveCaseLayouts (count : ℕ) :
    HaveCaseLayouts (replicate count none) (replicate count none) := by
  simp [HaveCaseLayouts, CanonicalAbiInfo.caseLayouts, caseLayouts_replicate]

/-- An enumeration fits up to `2 ^ 32` cases. -/
theorem variantFits_replicate (count : ℕ) :
    variantFits (replicate count none) = true ↔ count ≤ 2 ^ 32 := by
  have hnone : (replicate count (none : Option Layout)).reduceOption = [] := by
    induction count with
    | zero => rfl
    | succ count ih => exact ih
  have hsize : (Layout.variant (replicate count none)).size < 2 ^ 32 := by
    rw [Layout.variant, Layout.payloadOffset, hnone]
    rcases Layout.isAlign_discriminantSize (replicate count none).length with
      h | h | h | h <;> rw [h] <;> decide
  rw [variantFits_iff, caseLayouts_replicate, caseLayouts_replicate, map_replicate,
    length_replicate]
  exact and_iff_left ⟨hsize, hsize⟩

theorem pair_haveCaseLayouts {a b : Option CanonicalAbiInfo} {c d : Option InterfaceType}
    (ha32 : a.map layout32 = (caseLayout 4 c).map .capped)
    (ha64 : a.map layout64 = (caseLayout 8 c).map .capped)
    (hb32 : b.map layout32 = (caseLayout 4 d).map .capped)
    (hb64 : b.map layout64 = (caseLayout 8 d).map .capped) : HaveCaseLayouts [a, b] [c, d] := by
  simp [HaveCaseLayouts, CanonicalAbiInfo.caseLayouts, caseLayouts, ha32, ha64, hb32, hb64]

theorem option_haveCaseLayouts {info : CanonicalAbiInfo} (h : HasLayout info ty) :
    HaveCaseLayouts [none, some info] [none, some ty] :=
  pair_haveCaseLayouts rfl rfl (by rw [map_some, h.1, caseLayout, map_some])
    (by rw [map_some, h.2, caseLayout, map_some])

mutual

/-- **The builder computes the capped layout of every type that builds.** -/
theorem canonicalAbi_hasLayout : ∀ ty, ty.builds = true →
    ∃ info, ty.canonicalAbi = .ok info ∧ HasLayout info ty
  | .bool, _ | .s8, _ | .u8, _ | .s16, _ | .u16, _ | .s32, _ | .u32, _ | .float32, _ | .char, _
  | .own, _ | .borrow, _ | .errorContext, _ | .s64, _ | .u64, _ | .float64, _ | .string, _ =>
    ⟨_, rfl, rfl, rfl⟩
  | .record fields, h => by
    obtain ⟨hfld, hfits⟩ := (Bool.and_eq_true _ _).mp h
    obtain ⟨infos, heq, hl⟩ := canonicalAbis_haveLayouts fields hfld
    simp only [canonicalAbi, heq, ok_bind]
    exact (record_hasLayout hl).1 hfits
  | .tuple types, h => by
    obtain ⟨hfld, hfits⟩ := (Bool.and_eq_true _ _).mp h
    obtain ⟨infos, heq, hl⟩ := canonicalAbis_haveLayouts types hfld
    simp only [canonicalAbi, heq, ok_bind]
    exact (record_hasLayout hl).1 hfits
  | .variant cases, h => by
    obtain ⟨hcs, hfits⟩ := (Bool.and_eq_true _ _).mp h
    obtain ⟨infos, heq, hl⟩ := caseAbis_haveLayouts cases hcs
    obtain ⟨vinfo, info, hnew, hlay, -⟩ := (variant_hasLayout hl).1 hfits
    exact ⟨info, by simp [canonicalAbi, heq, hnew], hlay⟩
  | .enum count, h => by
    have hcnt : count ≤ 2 ^ 32 := by simpa [builds] using h
    obtain ⟨vinfo, info, hnew, hlay, -⟩ :=
      (variant_hasLayout (replicate_haveCaseLayouts count)).1
        ((variantFits_replicate count).mpr hcnt)
    rw [HasLayout, layout, layout, caseLayouts_replicate, caseLayouts_replicate] at hlay
    exact ⟨info, by simp [canonicalAbi, hnew], hlay⟩
  | .option ty, h => by
    obtain ⟨hty, hfits⟩ := (Bool.and_eq_true _ _).mp h
    obtain ⟨tinfo, heq, hl⟩ := canonicalAbi_hasLayout ty hty
    obtain ⟨vinfo, info, hnew, hlay, -⟩ := (variant_hasLayout (option_haveCaseLayouts hl)).1 hfits
    exact ⟨info, by simp [canonicalAbi, heq, hnew], hlay⟩
  | .result ok err, h => by
    simp only [builds, Bool.and_eq_true] at h
    obtain ⟨⟨hok, herr⟩, hfits⟩ := h
    obtain ⟨oinfo, hoeq, ho32, ho64⟩ := caseAbi_haveLayout ok hok
    obtain ⟨einfo, heeq, he32, he64⟩ := caseAbi_haveLayout err herr
    obtain ⟨vinfo, info, hnew, hlay, -⟩ :=
      (variant_hasLayout (pair_haveCaseLayouts ho32 ho64 he32 he64)).1 hfits
    exact ⟨info, by simp [canonicalAbi, hoeq, heeq, hnew], hlay⟩
  | .flags count, h => flags_hasLayout.1 (by simpa [builds] using h)
  | .list element, h => by
    obtain ⟨info, heq, -⟩ := canonicalAbi_hasLayout element h
    exact ⟨.pointerPair, by simp [canonicalAbi, heq], rfl, rfl⟩
  | .map key value, h => by
    simp only [builds, Bool.and_eq_true] at h
    obtain ⟨⟨hkey, hval⟩, hfits⟩ := h
    obtain ⟨kinfo, hkeq, hk⟩ := canonicalAbi_hasLayout key hkey
    obtain ⟨vinfo, hveq, hv⟩ := canonicalAbi_hasLayout value hval
    obtain ⟨tmap, hmap, -⟩ := (mapType_hasLayout hk hv).1 hfits
    exact ⟨.pointerPair, by simp [canonicalAbi, hkeq, hveq, hmap], rfl, rfl⟩
  | .future payload, h => by
    obtain ⟨info, heq, -⟩ := caseAbi_haveLayout payload h
    exact ⟨.scalar 4, by simp [canonicalAbi, heq], rfl, rfl⟩
  | .stream payload, h => by
    obtain ⟨info, heq, -⟩ := caseAbi_haveLayout payload h
    exact ⟨.scalar 4, by simp [canonicalAbi, heq], rfl, rfl⟩
  | .fixedLengthList element size, h => by
    obtain ⟨info, heq, hl⟩ := canonicalAbi_hasLayout element h
    exact ⟨newFixedLengthListType info size, by simp [canonicalAbi, heq],
      newFixedLengthListType_hasLayout hl size⟩

/-- The layouts of fields that can be built. -/
theorem canonicalAbis_haveLayouts : ∀ types, buildsAll types = true →
    ∃ infos, canonicalAbis types = .ok infos ∧ HaveLayouts infos types
  | [], _ => ⟨[], rfl, rfl, rfl⟩
  | ty :: types, h => by
    obtain ⟨hty, htys⟩ := (Bool.and_eq_true _ _).mp h
    obtain ⟨info, heq, h32, h64⟩ := canonicalAbi_hasLayout ty hty
    obtain ⟨infos, heqs, hs32, hs64⟩ := canonicalAbis_haveLayouts types htys
    refine ⟨info :: infos, by simp [canonicalAbis, heq, heqs], ?_, ?_⟩
    · rw [map_cons, h32, hs32, layouts, map_cons]
    · rw [map_cons, h64, hs64, layouts, map_cons]

theorem caseAbi_haveLayout : ∀ case, buildsCase case = true →
    ∃ info, caseAbi case = .ok info ∧
      info.map layout32 = (caseLayout 4 case).map .capped ∧
      info.map layout64 = (caseLayout 8 case).map .capped
  | none, _ => ⟨none, rfl, rfl, rfl⟩
  | some ty, h => by
    obtain ⟨info, heq, h32, h64⟩ := canonicalAbi_hasLayout ty h
    refine ⟨some info, by simp [caseAbi, heq], ?_, ?_⟩
    · rw [map_some, h32, caseLayout, map_some]
    · rw [map_some, h64, caseLayout, map_some]

/-- The layouts of payloads that can be built. -/
theorem caseAbis_haveLayouts : ∀ cases, buildsCases cases = true →
    ∃ infos, caseAbis cases = .ok infos ∧ HaveCaseLayouts infos cases
  | [], _ => ⟨[], rfl, rfl, rfl⟩
  | case :: cases, h => by
    obtain ⟨hcase, hcs⟩ := (Bool.and_eq_true _ _).mp h
    obtain ⟨info, heq, h32, h64⟩ := caseAbi_haveLayout case hcase
    obtain ⟨infos, heqs, hs32, hs64⟩ := caseAbis_haveLayouts cases hcs
    refine ⟨info :: infos, by simp [caseAbis, heq, heqs], ?_, ?_⟩
    · rw [caseLayouts, map_cons, ← h32, ← hs32]
      rfl
    · rw [caseLayouts, map_cons, ← h64, ← hs64]
      rfl

end

mutual

/-- **A type that the builder returns for builds**: nothing else is left to overflow. -/
theorem builds_of_canonicalAbi : ∀ ty info, canonicalAbi ty = .ok info → ty.builds = true
  | .bool, _, _ | .s8, _, _ | .u8, _, _ | .s16, _, _ | .u16, _, _ | .s32, _, _ | .u32, _, _
  | .float32, _, _ | .char, _, _ | .own, _, _ | .borrow, _, _ | .errorContext, _, _ | .s64, _, _
  | .u64, _, _ | .float64, _, _ | .string, _, _ => rfl
  | .record fields, info, h => by
    obtain ⟨infos, hinfos, h⟩ := Exec.bind_eq_ok.mp h
    have hall := buildsAll_of_canonicalAbis fields infos hinfos
    have hl := Exec.of_exists_ok (canonicalAbis_haveLayouts fields hall) hinfos
    exact (Bool.and_eq_true _ _).mpr ⟨hall, (record_hasLayout hl).2 info h⟩
  | .tuple fields, info, h => by
    obtain ⟨infos, hinfos, h⟩ := Exec.bind_eq_ok.mp h
    have hall := buildsAll_of_canonicalAbis fields infos hinfos
    have hl := Exec.of_exists_ok (canonicalAbis_haveLayouts fields hall) hinfos
    exact (Bool.and_eq_true _ _).mpr ⟨hall, (record_hasLayout hl).2 info h⟩
  | .variant cases, info, h => by
    obtain ⟨infos, hinfos, h⟩ := Exec.bind_eq_ok.mp h
    obtain ⟨p, hnew, -⟩ := Exec.bind_eq_ok.mp h
    have hall := buildsCases_of_caseAbis cases infos hinfos
    have hl := Exec.of_exists_ok (caseAbis_haveLayouts cases hall) hinfos
    exact (Bool.and_eq_true _ _).mpr ⟨hall, (variant_hasLayout hl).2 p hnew⟩
  | .enum count, info, h => by
    obtain ⟨p, hnew, -⟩ := Exec.bind_eq_ok.mp h
    have hfits := (variant_hasLayout (replicate_haveCaseLayouts count)).2 p hnew
    exact decide_eq_true ((variantFits_replicate count).mp hfits)
  | .option ty, info, h => by
    obtain ⟨tinfo, htinfo, h⟩ := Exec.bind_eq_ok.mp h
    obtain ⟨p, hnew, -⟩ := Exec.bind_eq_ok.mp h
    have hty := builds_of_canonicalAbi ty tinfo htinfo
    have hl := Exec.of_exists_ok (canonicalAbi_hasLayout ty hty) htinfo
    exact (Bool.and_eq_true _ _).mpr ⟨hty, (variant_hasLayout (option_haveCaseLayouts hl)).2 p hnew⟩
  | .result ok err, info, h => by
    obtain ⟨oinfo, hoinfo, h⟩ := Exec.bind_eq_ok.mp h
    obtain ⟨einfo, heinfo, h⟩ := Exec.bind_eq_ok.mp h
    obtain ⟨p, hnew, -⟩ := Exec.bind_eq_ok.mp h
    have hok := buildsCase_of_caseAbi ok oinfo hoinfo
    have herr := buildsCase_of_caseAbi err einfo heinfo
    obtain ⟨ho32, ho64⟩ := Exec.of_exists_ok (caseAbi_haveLayout ok hok) hoinfo
    obtain ⟨he32, he64⟩ := Exec.of_exists_ok (caseAbi_haveLayout err herr) heinfo
    have hfits := (variant_hasLayout (pair_haveCaseLayouts ho32 ho64 he32 he64)).2 p hnew
    simp only [builds, hok, herr, hfits, Bool.and_self]
  | .flags count, info, h => decide_eq_true (flags_hasLayout.2 info h)
  | .list element, info, h => by
    obtain ⟨einfo, heinfo, -⟩ := Exec.bind_eq_ok.mp h
    exact builds_of_canonicalAbi element einfo heinfo
  | .map key value, info, h => by
    obtain ⟨kinfo, hkinfo, h⟩ := Exec.bind_eq_ok.mp h
    obtain ⟨vinfo, hvinfo, h⟩ := Exec.bind_eq_ok.mp h
    obtain ⟨tmap, hmap, -⟩ := Exec.bind_eq_ok.mp h
    have hkey := builds_of_canonicalAbi key kinfo hkinfo
    have hval := builds_of_canonicalAbi value vinfo hvinfo
    have hk := Exec.of_exists_ok (canonicalAbi_hasLayout key hkey) hkinfo
    have hv := Exec.of_exists_ok (canonicalAbi_hasLayout value hval) hvinfo
    have hfits := (mapType_hasLayout hk hv).2 tmap hmap
    simp only [builds, hkey, hval, hfits, Bool.and_self]
  | .future payload, info, h => by
    obtain ⟨pinfo, hpinfo, -⟩ := Exec.bind_eq_ok.mp h
    exact buildsCase_of_caseAbi payload pinfo hpinfo
  | .stream payload, info, h => by
    obtain ⟨pinfo, hpinfo, -⟩ := Exec.bind_eq_ok.mp h
    exact buildsCase_of_caseAbi payload pinfo hpinfo
  | .fixedLengthList element size, info, h => by
    obtain ⟨einfo, heinfo, -⟩ := Exec.bind_eq_ok.mp h
    exact builds_of_canonicalAbi element einfo heinfo

theorem buildsAll_of_canonicalAbis : ∀ types infos, canonicalAbis types = .ok infos →
    buildsAll types = true
  | [], _, _ => rfl
  | ty :: types, infos, h => by
    obtain ⟨info, hinfo, h⟩ := Exec.bind_eq_ok.mp h
    obtain ⟨rest, hrest, -⟩ := Exec.bind_eq_ok.mp h
    exact (Bool.and_eq_true _ _).mpr
      ⟨builds_of_canonicalAbi ty info hinfo, buildsAll_of_canonicalAbis types rest hrest⟩

theorem buildsCase_of_caseAbi : ∀ case info, caseAbi case = .ok info → buildsCase case = true
  | none, _, _ => rfl
  | some ty, info, h => by
    obtain ⟨tinfo, htinfo, -⟩ := Exec.bind_eq_ok.mp h
    exact builds_of_canonicalAbi ty tinfo htinfo

theorem buildsCases_of_caseAbis : ∀ cases infos, caseAbis cases = .ok infos →
    buildsCases cases = true
  | [], _, _ => rfl
  | case :: cases, infos, h => by
    obtain ⟨info, hinfo, h⟩ := Exec.bind_eq_ok.mp h
    obtain ⟨rest, hrest, -⟩ := Exec.bind_eq_ok.mp h
    exact (Bool.and_eq_true _ _).mpr
      ⟨buildsCase_of_caseAbi case info hinfo, buildsCases_of_caseAbis cases rest hrest⟩

end

/-! ## Offsets -/

/-- The fields of a record type that can be built. -/
theorem builds_recordFields (h : ty.builds = true) (hfld : ty.recordFields = some fields) :
    buildsAll fields = true ∧ recordFits fields = true := by
  cases ty <;> simp only [recordFields, reduceCtorEq, some.injEq] at hfld
  case record =>
    subst hfld
    exact (Bool.and_eq_true _ _).mp h
  case tuple =>
    subst hfld
    exact (Bool.and_eq_true _ _).mp h
  case map key value =>
    subst hfld
    simp only [builds, Bool.and_eq_true] at h
    obtain ⟨⟨hkey, hval⟩, hfits⟩ := h
    exact ⟨by simp [buildsAll, hkey, hval], hfits⟩

theorem buildsCases_replicate (count : ℕ) : buildsCases (replicate count none) = true := by
  induction count with
  | zero => rfl
  | succ count ih =>
    rw [replicate_succ, buildsCases, ih]
    rfl

/-- The cases of a variant type that can be built. -/
theorem builds_variantCases (h : ty.builds = true) (hcs : ty.variantCases = some cases) :
    buildsCases cases = true ∧ variantFits cases = true := by
  cases ty <;> simp only [variantCases, reduceCtorEq, some.injEq] at hcs
  case variant =>
    subst hcs
    exact (Bool.and_eq_true _ _).mp h
  case enum count =>
    subst hcs
    exact ⟨buildsCases_replicate count,
      (variantFits_replicate count).mpr (by simpa [builds] using h)⟩
  case option ty =>
    subst hcs
    obtain ⟨hty, hfits⟩ := (Bool.and_eq_true _ _).mp h
    exact ⟨by simp [buildsCases, buildsCase, hty], hfits⟩
  case result ok err =>
    subst hcs
    simp only [builds, Bool.and_eq_true] at h
    obtain ⟨⟨hok, herr⟩, hfits⟩ := h
    exact ⟨by simp [buildsCases, hok, herr], hfits⟩

/-- The offsets of fields that are capped, and those of the canonical ABI if none is. -/
theorem fieldOffsets_layout {next : CanonicalAbiInfo → ℕ → Exec (ℕ × ℕ)}
    {proj : CanonicalAbiInfo → Layout} {ptr : ℕ} (hptr : ptr = 4 ∨ ptr = 8)
    (hnext : ∀ info offset, next info offset = do
      let offset ← fieldEnd offset (proj info).align (proj info).size
      pure (offset - (proj info).size, offset))
    (hl : infos.map proj = (layouts ptr fields).map .capped)
    (hfits : (Layout.record ((layouts ptr fields).map .capped)).size < 2 ^ 32) :
    ∃ offsets, fieldOffsets next infos 0 = .ok offsets ∧
      ((Layout.record (layouts ptr fields)).size < 2 ^ 32 →
        offsets = Layout.fieldOffsets (layouts ptr fields) 0) := by
  have halign := isAlign_layouts hptr fields
  have hcapped := Layout.isAlign_capped halign
  have hend := lt_of_le_of_lt (le_roundUp _ (Layout.isAlign_maxAlign hcapped (.inl rfl)).pos) hfits
  refine ⟨_, fieldOffsets_eq hnext 0 (fun info hinfo => ?_) (by rw [hl]; exact hend), fun hlt => ?_⟩
  · exact hcapped _ (hl ▸ mem_map_of_mem hinfo)
  · rw [hl, Layout.map_capped_of_lt fun f hf =>
      lt_of_le_of_lt (Layout.size_le_record halign hf) hlt]

end InterfaceType

/-- A computed layout follows the canonical ABI: it is the same if the size is below `2^32`, and
saturates otherwise. -/
structure Layout.Follows (l abi : Layout) : Prop where
  align_eq : l.align = abi.align
  isPow : ∃ k, l.align = 2 ^ k
  dvd : l.align ∣ l.size
  size_eq : abi.size < 2 ^ 32 → l.size = abi.size
  saturates : 2 ^ 32 ≤ abi.size → l.size = u32Max

namespace InterfaceType

variable {ty : InterfaceType}

/-- The builder returns for the type, and its layout and the offsets in it follow the canonical
ABI. -/
structure LaidOut (ty : InterfaceType) : Prop where
  info : ∃ info, ty.canonicalAbi = .ok info ∧ info.layout32.Follows (ty.layout 4) ∧
    info.layout64.Follows (ty.layout 8)
  fields : ∀ fields, ty.recordFields = some fields → ∃ infos offsets32 offsets64,
    canonicalAbis fields = .ok infos ∧
    CanonicalAbiInfo.fieldOffsets CanonicalAbiInfo.nextField32 infos 0 = .ok offsets32 ∧
    CanonicalAbiInfo.fieldOffsets CanonicalAbiInfo.nextField64 infos 0 = .ok offsets64 ∧
    ((Layout.record (layouts 4 fields)).size < 2 ^ 32 →
      offsets32 = Layout.fieldOffsets (layouts 4 fields) 0) ∧
    ((Layout.record (layouts 8 fields)).size < 2 ^ 32 →
      offsets64 = Layout.fieldOffsets (layouts 8 fields) 0)
  cases : ∀ cases, ty.variantCases = some cases → ∃ infos vinfo info, caseAbis cases = .ok infos ∧
    VariantInfo.new infos = .ok (vinfo, info) ∧
    vinfo.payloadOffset32 = Layout.payloadOffset (caseLayouts 4 cases) ∧
    vinfo.payloadOffset64 = Layout.payloadOffset (caseLayouts 8 cases)
  entry : ∀ key value, ty = .map key value → ∃ kinfo vinfo tmap, key.canonicalAbi = .ok kinfo ∧
    value.canonicalAbi = .ok vinfo ∧ mapType kinfo vinfo = .ok tmap ∧
    HasLayout tmap.entryAbi (.tuple [key, value]) ∧
    (((InterfaceType.tuple [key, value]).layout 4).size < 2 ^ 32 →
      Layout.fieldOffsets (layouts 4 [key, value]) 0 = [0, tmap.valueOffset32]) ∧
    (((InterfaceType.tuple [key, value]).layout 8).size < 2 ^ 32 →
      Layout.fieldOffsets (layouts 8 [key, value]) 0 = [0, tmap.valueOffset64])

/-- A capped layout follows the canonical ABI just when the greatest `u32` is a multiple of its
alignment, or it is not capped. -/
theorem follows_capped_iff {ptr : ℕ} (hptr : ptr = 4 ∨ ptr = 8) :
    (ty.layout ptr).capped.Follows (ty.layout ptr) ↔ ty.Saturates ptr := by
  have hgood := layout_good hptr ty
  constructor
  · intro h
    by_cases hlt : (ty.layout ptr).size < 2 ^ 32
    · exact .inl hlt
    have hdvd := h.dvd
    rw [h.saturates (not_lt.mp hlt), h.align_eq, u32Max] at hdvd
    refine .inr ?_
    rcases hgood.isAlign with ha | ha | ha | ha
    · exact ha
    all_goals
      rw [ha] at hdvd
      omega
  · intro h
    have hsat : 2 ^ 32 ≤ (ty.layout ptr).size → (ty.layout ptr).capped.size = u32Max := fun hle =>
      Nat.min_eq_right (by rw [u32Max]; omega)
    refine ⟨rfl, hgood.isAlign.exists_pow, ?_, fun hlt => ?_, hsat⟩
    · by_cases hlt : (ty.layout ptr).size < 2 ^ 32
      · rw [Layout.capped_of_lt hlt]
        exact hgood.dvd
      · have hone : (ty.layout ptr).capped.align = 1 := h.resolve_left hlt
        rw [hone]
        exact Nat.one_dvd _
    · rw [Layout.capped_of_lt hlt]

end InterfaceType

end WasmDeps.Component
