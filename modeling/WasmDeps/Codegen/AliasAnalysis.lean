import WasmDeps.Lib.Exec

/-!
# Alias analysis

Redundant loads and idempotent stores are found with the values that are known to be in memory.
They are kept by location: the last store, the address, the offset, the type and the opcode of
an access that is not plain.  The byte order of an access is not part of its location, so accesses
of more than one byte that differ in it are taken for each other.
-/

namespace WasmDeps.Codegen

open Lib List

abbrev Inst := ℕ

inductive Endianness
  | little
  | big
  deriving DecidableEq

inductive AliasRegion
  | heap
  | table
  | vmctx
  deriving DecidableEq

/-- The flags of an access that the analysis reads. -/
structure MemFlags where
  aliasRegion : Option AliasRegion
  explicitEndianness : Option Endianness

def MemFlags.endianness (flags : MemFlags) (native : Endianness) : Endianness :=
  flags.explicitEndianness.getD native

/-- The opcodes of the formats `Load`, `LoadNoOffset`, `Store` and `StoreNoOffset`, without
`bitcast`, which is a `LoadNoOffset` that does not access memory. -/
inductive Opcode
  | load | uload8 | sload8 | uload16 | sload16 | uload32 | sload32
  | uload8x8 | sload8x8 | uload16x4 | sload16x4 | uload32x2 | sload32x2 | atomicLoad
  | store | istore8 | istore16 | istore32 | atomicStore
  deriving DecidableEq

/-- The stores among the opcodes. -/
def Opcode.canStore : Opcode → Bool
  | store | istore8 | istore16 | istore32 | atomicStore => true
  | _ => false

/-- The opcode, if it extends or truncates. -/
def getExtOpcode : Opcode → Option Opcode
  | .load | .store => none
  | op => some op

/-- A load or a store, with its aliases resolved. -/
structure Access where
  opcode : Opcode
  flags : MemFlags
  address : ℕ
  offset : ℤ
  ty : ℕ
  /-- The result of a load, or the data of a store. -/
  value : ℕ

/-- Of the other instructions only those matter that may write any memory. -/
inductive InstructionData
  | access (a : Access)
  | other (clobbers : Bool)

/-- The last stores to the regions, and to memory of no region. -/
abbrev LastStores := Option AliasRegion → Option Inst

/-- The last store of each region after an instruction. -/
def LastStores.update (s : LastStores) (inst : Inst) : InstructionData → LastStores
  | .other clobbers => if clobbers then fun _ => inst else s
  | .access a =>
    if a.opcode = .atomicLoad ∨ a.opcode = .atomicStore then fun _ => inst
    else if a.opcode.canStore then Function.update s a.flags.aliasRegion inst
    else s

/-- What is known to have one value: an address as of a last store. -/
structure MemoryLoc where
  lastStore : Option Inst
  address : ℕ
  offset : ℤ
  ty : ℕ
  extendingOpcode : Option Opcode
  deriving DecidableEq

/-- The location of an access. -/
def Access.loc (a : Access) (lastStore : Option Inst) : MemoryLoc :=
  ⟨lastStore, a.address, a.offset, a.ty, getExtOpcode a.opcode⟩

/-- What the analysis found for an instruction. -/
inductive OptResult
  | none
  | aliasedLoad (value : ℕ)
  | idempotentStore
  deriving DecidableEq

/-- The value that is taken to be in memory. -/
def OptResult.known (a : Access) : OptResult → Option ℕ
  | none => .none
  | aliasedLoad value => value
  | idempotentStore => a.value

/-- The known values, with the instructions that define them. -/
abbrev MemValues := List (MemoryLoc × Inst × ℕ)

/-- The analysis of one instruction. -/
def processInst (dominates : Inst → Inst → Bool) (memValues : MemValues) (state : LastStores)
    (inst : Inst) (data : InstructionData) : OptResult × MemValues × LastStores :=
  match data with
  | .other _ => (.none, memValues, state.update inst data)
  | .access a =>
    let loc := a.loc (state a.flags.aliasRegion)
    let known := (memValues.lookup loc).filter fun p => dominates p.1 inst
    if a.opcode.canStore then
      -- An idempotent store returns early, before the state is updated.
      if known.any (·.2 = a.value) then (.idempotentStore, memValues, state)
      else (.none, (a.loc inst, inst, a.value) :: memValues, state.update inst data)
    else
      match known with
      | some (_, value) => (.aliasedLoad value, memValues, state.update inst data)
      | none => (.none, (loc, inst, a.value) :: memValues, state.update inst data)

/-- The known values of a function, whatever the states that its blocks begin with. -/
def aliasMachine (insts : Inst → InstructionData) (dominates : Inst → Inst → Bool) :
    Machine MemValues (LastStores × Inst) where
  start := fun memValues => memValues = []
  allowed := fun _ _ => True
  step := fun memValues (state, inst) =>
    pure (processInst dominates memValues state inst (insts inst)).2.1

/-! ## What accesses do -/

/-- The bytes of an access, from the least significant one. -/
def Endianness.order (e : Endianness) (bytes : List UInt8) : List UInt8 :=
  match e with
  | little => bytes
  | big => bytes.reverse

/-- How values are laid out in memory, from the least significant byte.  A plain load reads what a
plain store of the same type has written, other loads tell all bytes apart, and other stores can
write all bytes. -/
structure Formats (V : Type) where
  width : Option Opcode → ℕ → ℕ
  encode : Opcode → ℕ → V → List UInt8
  decode : Opcode → ℕ → List UInt8 → V
  decode_iff : ∀ ty v bytes, bytes.length = width none ty →
    (decode .load ty bytes = v ↔ bytes = encode .store ty v)
  decode_inj : ∀ op ty bytes bytes', bytes.length = width (getExtOpcode op) ty →
    bytes'.length = width (getExtOpcode op) ty →
    decode op ty bytes = decode op ty bytes' → bytes = bytes'
  encode_surjective : ∀ op ty bytes, bytes.length = width (getExtOpcode op) ty →
    ∃ v, encode op ty v = bytes

variable {V : Type} (F : Formats V) (native : Endianness)

/-- The bytes in memory that the access reads or writes. -/
def Formats.bytes (a : Access) (memory : ℤ → UInt8) (addresses : ℕ → ℤ) : List UInt8 :=
  (range (F.width (getExtOpcode a.opcode) a.ty)).map fun k : ℕ =>
    memory (addresses a.address + a.offset + k)

/-- The load has the result `v`, or the store of `v` would change nothing. -/
def Formats.Holds (a : Access) (v : V) (memory : ℤ → UInt8) (addresses : ℕ → ℤ) : Prop :=
  let bytes := (a.flags.endianness native).order (F.bytes a memory addresses)
  if a.opcode.canStore then bytes = F.encode a.opcode a.ty v
  else F.decode a.opcode a.ty bytes = v

theorem Endianness.length_order (e : Endianness) (bytes : List UInt8) :
    (e.order bytes).length = bytes.length := by
  cases e <;> simp [order]

/-- Opcodes that the location does not tell apart are equal or plain. -/
theorem eq_or_plain {op op' : Opcode} (h : getExtOpcode op = getExtOpcode op') :
    op = op' ∨ (op = .load ∧ op' = .store) ∨ (op = .store ∧ op' = .load) := by
  unfold getExtOpcode at h
  split at h <;> split at h <;> simp_all

theorem Formats.holds_iff {a b : Access} {last last' : Option Inst}
    (hloc : a.loc last = b.loc last') {memory : ℤ → UInt8} {addresses : ℕ → ℤ}
    (horder : (a.flags.endianness native).order (F.bytes a memory addresses) =
      (b.flags.endianness native).order (F.bytes b memory addresses)) (v : V) :
    F.Holds native a v memory addresses ↔ F.Holds native b v memory addresses := by
  obtain ⟨opcode, flags, address, offset, ty, value⟩ := a
  obtain ⟨opcode', flags', address', offset', ty', value'⟩ := b
  simp only [Access.loc, MemoryLoc.mk.injEq] at hloc
  obtain ⟨-, rfl, rfl, rfl, hext⟩ := hloc
  rw [Formats.Holds, Formats.Holds, horder]
  rcases eq_or_plain hext with rfl | ⟨rfl, rfl⟩ | ⟨rfl, rfl⟩
  · exact .rfl
  · exact F.decode_iff _ _ _ (by simp [Endianness.length_order, bytes, getExtOpcode])
  · exact (F.decode_iff _ _ _ (by simp [Endianness.length_order, bytes, getExtOpcode])).symm

theorem Formats.bytes_eq {a b : Access} {last last' : Option Inst}
    (hloc : a.loc last = b.loc last') (memory : ℤ → UInt8) (addresses : ℕ → ℤ) :
    F.bytes a memory addresses = F.bytes b memory addresses := by
  obtain ⟨-, haddress, hoffset, hty, hext⟩ := (MemoryLoc.mk.injEq ..).mp hloc
  rw [bytes, bytes, haddress, hoffset, hty, hext]

/-- Every access has a value on every memory. -/
theorem Formats.exists_holds (a : Access) (memory : ℤ → UInt8) (addresses : ℕ → ℤ) :
    ∃ v, F.Holds native a v memory addresses := by
  by_cases hstore : a.opcode.canStore = true
  · obtain ⟨v, hv⟩ := F.encode_surjective a.opcode a.ty
      ((a.flags.endianness native).order (F.bytes a memory addresses))
      (by simp [Endianness.length_order, bytes])
    exact ⟨v, by simp [Holds, hstore, hv]⟩
  · refine ⟨F.decode a.opcode a.ty
      ((a.flags.endianness native).order (F.bytes a memory addresses)), ?_⟩
    simp only [Holds, if_neg hstore]

/-- An access has one value for different bytes only if they are ordered differently. -/
theorem Formats.order_eq_of_holds {a b : Access} {last last' : Option Inst}
    (hloc : a.loc last = b.loc last') {v : V} {memory : ℤ → UInt8} {addresses : ℕ → ℤ}
    (ha : F.Holds native a v memory addresses) (hb : F.Holds native b v memory addresses) :
    (a.flags.endianness native).order (F.bytes a memory addresses) =
      (b.flags.endianness native).order (F.bytes b memory addresses) := by
  have hlen : ∀ c : Access, ((c.flags.endianness native).order
      (F.bytes c memory addresses)).length = F.width (getExtOpcode c.opcode) c.ty := by
    intro c
    simp [Endianness.length_order, bytes]
  have hlena := hlen a
  have hlenb := hlen b
  obtain ⟨opcode, flags, address, offset, ty, value⟩ := a
  obtain ⟨opcode', flags', address', offset', ty', value'⟩ := b
  simp only [Access.loc, MemoryLoc.mk.injEq] at hloc
  obtain ⟨-, rfl, rfl, rfl, hext⟩ := hloc
  rw [Formats.Holds] at ha hb
  rcases eq_or_plain hext with rfl | ⟨rfl, rfl⟩ | ⟨rfl, rfl⟩
  · dsimp only at ha hb
    split at ha
    · rename_i hstore
      rw [if_pos hstore] at hb
      exact ha.trans hb.symm
    · rename_i hload
      rw [if_neg hload] at hb
      exact F.decode_inj _ _ _ _ hlena hlenb (ha.trans hb.symm)
  · exact ((F.decode_iff _ _ _ hlena).mp ha).trans hb.symm
  · exact ha.trans ((F.decode_iff _ _ _ hlenb).mp hb).symm

theorem Endianness.order_eq_of_length_le_one {bytes : List UInt8} (h : bytes.length ≤ 1)
    (e e' : Endianness) : e.order bytes = e'.order bytes := by
  have hrev : bytes.reverse = bytes := by
    match bytes, h with
    | [], _ => rfl
    | [_], _ => rfl
  cases e <;> cases e' <;> simp [order, hrev]

/-- Bytes of which only the first is not zero read differently in the two orders. -/
theorem Endianness.eq_of_order_eq {n : ℕ} {e e' : Endianness}
    (h : e.order (1 :: replicate (n + 1) 0) = e'.order (1 :: replicate (n + 1) 0)) : e = e' := by
  have hrev : (1 :: replicate (n + 1) 0 : List UInt8).reverse ≠ 1 :: replicate (n + 1) 0 := by
    rw [reverse_cons, reverse_replicate, replicate_succ, cons_append]
    exact fun h => absurd (cons.inj h).1 (by decide)
  cases e with
  | little => cases e' with
    | little => rfl
    | big => exact absurd h.symm hrev
  | big => cases e' with
    | little => exact absurd h hrev
    | big => rfl

/-- **Accesses with equal locations agree** exactly if their byte orders are equal or they are of
at most one byte. -/
theorem Formats.agree_iff {a b : Access} {last last' : Option Inst}
    (hloc : a.loc last = b.loc last') :
    (∀ v memory addresses, F.Holds native a v memory addresses →
        F.Holds native b v memory addresses) ↔
      a.flags.endianness native = b.flags.endianness native ∨
        F.width (getExtOpcode a.opcode) a.ty ≤ 1 := by
  constructor
  · intro h
    refine or_iff_not_imp_right.mpr fun hwide => ?_
    obtain ⟨n, hn⟩ : ∃ n, F.width (getExtOpcode a.opcode) a.ty = n + 2 :=
      ⟨_, (Nat.sub_add_cancel (by omega)).symm⟩
    let memory : ℤ → UInt8 := fun k => if k = a.offset then 1 else 0
    have hbytes : F.bytes a memory 0 = 1 :: replicate (n + 1) 0 := by
      have hzero : ∀ k : ℕ, memory ((0 : ℕ → ℤ) a.address + a.offset + (k + 1 : ℕ)) = 0 := by
        intro k
        refine if_neg ?_
        simp only [Pi.zero_apply]
        omega
      rw [bytes, hn, range_succ_eq_map, map_cons, map_map]
      refine congrArg₂ cons (if_pos (by simp)) ?_
      exact eq_replicate_iff.mpr ⟨by simp, by simpa using fun k _ => hzero k⟩
    obtain ⟨v, hv⟩ := F.exists_holds native a memory 0
    have horder := F.order_eq_of_holds native hloc hv (h v memory 0 hv)
    rw [← F.bytes_eq hloc, hbytes] at horder
    exact Endianness.eq_of_order_eq horder
  · intro h v memory addresses
    refine (F.holds_iff native hloc ?_ v).mp
    rw [← F.bytes_eq hloc]
    rcases h with he | hone
    · rw [he]
    · exact Endianness.order_eq_of_length_le_one (by simpa [bytes] using hone) _ _

/-- Each known value comes from an access with this location. -/
def Recorded (insts : Inst → InstructionData) (memValues : MemValues) : Prop :=
  ∀ p ∈ memValues, ∃ a last, insts p.2.1 = .access a ∧ a.value = p.2.2 ∧ a.loc last = p.1

variable {insts : Inst → InstructionData} {dominates : Inst → Inst → Bool}

theorem recorded_of_reaches {memValues : MemValues}
    (hs : (aliasMachine insts dominates).Reaches memValues) : Recorded insts memValues := by
  refine Machine.Reaches.invariant ?_ ?_ hs
  · rintro s rfl p hp
    cases hp
  rintro s ⟨state, inst⟩ t H - hstep
  obtain rfl := Except.ok.inj hstep
  have hcons : ∀ a last, insts inst = .access a →
      Recorded insts ((a.loc last, inst, a.value) :: s) := fun a last ha =>
    forall_mem_cons.mpr ⟨⟨a, last, ha, rfl, rfl⟩, H⟩
  cases ha : insts inst with
  | other clobbers => exact H
  | access a =>
    rw [processInst]
    split
    · split
      · exact H
      · exact hcons a _ ha
    · split
      · exact H
      · exact hcons a _ ha

/-- Values are their bytes: one for the accesses of a byte, and four for the others. -/
def byteFormats : Formats (List UInt8) where
  width ext _ := if ext = some .uload8 ∨ ext = some .istore8 then 1 else 4
  encode _ _ v := v
  decode _ _ bytes := bytes
  decode_iff _ _ _ _ := Iff.rfl
  decode_inj _ _ _ _ _ _ h := h
  encode_surjective _ _ bytes _ := ⟨bytes, rfl⟩

/-- A plain access to the address 0. -/
def plain (opcode : Opcode) (e : Endianness) (value : ℕ) : Access :=
  ⟨opcode, ⟨none, e⟩, 0, 0, 0, value⟩

end WasmDeps.Codegen
