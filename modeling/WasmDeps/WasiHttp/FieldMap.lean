import Mathlib.Data.Finmap
import WasmDeps.Lib.Exec

/-!
# HTTP field maps

A `FieldMap` wraps a header map of the `http` crate and records the accounted size of its names
and values, which a limit bounds.  The header map is a parameter: any type whose calls treat the
fields it holds as `HeaderMap` says, with answers of its own to whether it takes another name.

`append` and `set` record the new size before they insert, so the record is exact just as long as
no insertion is refused once its size is accepted.
-/

namespace WasmDeps.WasiHttp

open WasmDeps.Lib

/-- The error of a header map that is full. -/
structure MaxSizeReached

/-- The error of `try_entry`. -/
structure InvalidHeaderName

/-- The values of each name. -/
abbrev Fields (Name Value : Type) := Finmap fun _ : Name => List Value

/-- What a field map uses of header maps.  A call may change the map in any way that the fields
do not show, also when it fails; which calls fail is not said. -/
structure HeaderMap (Name Value : Type) [DecidableEq Name] where
  /-- The values of `http::HeaderMap`. -/
  Map : Type
  fields : Map → Fields Name Value
  /-- The length of a name and of a value in bytes. -/
  nameLen : Name → ℕ
  valueLen : Value → ℕ
  /-- `size_of::<HeaderName>()` and `size_of::<HeaderValue>()`. -/
  sizeOfName : ℕ
  sizeOfValue : ℕ
  sizeOfValue_pos : 0 < sizeOfValue
  new : Map
  fields_new : fields new = ∅
  /-- The names and the values, in the order of the iterators. -/
  keys : Map → List Name
  keys_eq : ∀ map, (keys map : Multiset Name) = (fields map).entries.map Sigma.fst
  values : Map → List Value
  values_eq : ∀ map, (values map : Multiset Value) = (fields map).entries.bind fun e => ↑e.2
  containsKey : Map → Name → Bool
  containsKey_eq : ∀ map key, containsKey map key = ((fields map).lookup key).isSome
  /-- The entry of the name: its values, unless it is vacant. -/
  tryEntry : Map → Name → Except InvalidHeaderName (Option (List Value)) × Map
  fields_tryEntry : ∀ map key, fields (tryEntry map key).2 = fields map
  tryEntry_eq : ∀ map key entry, (tryEntry map key).1 = .ok entry → entry = (fields map).lookup key
  /-- `VacantEntry::try_insert_entry` -/
  tryInsertEntry : Map → Name → Value → Except MaxSizeReached Unit × Map
  fields_tryInsertEntry : ∀ map key value, fields (tryInsertEntry map key value).2 =
    match (tryInsertEntry map key value).1 with
    | .ok _ => (fields map).insert key [value]
    | .error _ => fields map
  /-- `OccupiedEntry::insert` -/
  insertEntry : Map → Name → Value → Map
  fields_insertEntry : ∀ map key value,
    fields (insertEntry map key value) = (fields map).insert key [value]
  /-- `OccupiedEntry::append` -/
  appendEntry : Map → Name → Value → Map
  fields_appendEntry : ∀ map key value values, (fields map).lookup key = some values →
    fields (appendEntry map key value) = (fields map).insert key (values ++ [value])
  /-- `OccupiedEntry::remove`, and `remove_entry_mult` without the values it drains. -/
  removeEntry : Map → Name → Map
  fields_removeEntry : ∀ map key, fields (removeEntry map key) = (fields map).erase key
  tryAppend : Map → Name → Value → Except MaxSizeReached Bool × Map
  tryAppend_eq : ∀ map key value present, (tryAppend map key value).1 = .ok present →
    present = ((fields map).lookup key).isSome
  fields_tryAppend : ∀ map key value, fields (tryAppend map key value).2 =
    match (tryAppend map key value).1 with
    | .ok _ => (fields map).insert key (((fields map).lookup key).getD [] ++ [value])
    | .error _ => fields map

/-- Whether the fields may be changed, and up to which size. -/
inductive Limit
  | mutable (limit : ℕ)
  | immutable

/-- The errors of the operations. -/
inductive FieldMapError
  | immutable
  | tooManyFields
  | totalSizeTooBig
  | invalidHeaderName

/-- `From<MaxSizeReached>` -/
def FieldMapError.ofMaxSizeReached (_ : MaxSizeReached) : FieldMapError := .tooManyFields

/-- `From<InvalidHeaderName>` -/
def FieldMapError.ofInvalidHeaderName (_ : InvalidHeaderName) : FieldMapError := .invalidHeaderName

variable {Name Value : Type} [DecidableEq Name]

namespace HeaderMap

variable (api : HeaderMap Name Value)

/-- What a name counts for. -/
def headerNameSize (name : Name) : ℕ := api.nameLen name + api.sizeOfName

/-- What a value counts for. -/
def headerValueSize (value : Value) : ℕ := api.valueLen value + api.sizeOfValue

/-- The accounted size of a list of values. -/
def valuesSize (values : List Value) : ℕ := (values.map api.headerValueSize).sum

/-- The size of a map: names count once and values each time. -/
def contentSize (map : api.Map) : ℕ :=
  ((api.keys map).map api.headerNameSize).sum + ((api.values map).map api.headerValueSize).sum

/-- Append the values to an occupied entry, one after the other. -/
def appendAll (map : api.Map) (key : Name) (values : List Value) : api.Map :=
  values.foldl (api.appendEntry · key ·) map

/-- The accounted size of fields. -/
def fieldsSize (fields : Fields Name Value) : ℕ :=
  (fields.entries.map fun e => api.headerNameSize e.1).sum +
    (fields.entries.map fun e => api.valuesSize e.2).sum

/-- What fields account for a name. -/
def held (key : Name) (fields : Fields Name Value) : ℕ :=
  (fields.lookup key).elim 0 fun values => api.headerNameSize key + api.valuesSize values

/-- The size is the sum over the names. -/
theorem contentSize_eq (map : api.Map) : api.contentSize map = api.fieldsSize (api.fields map) := by
  have hkeys := congrArg (fun s => (s.map api.headerNameSize).sum) (api.keys_eq map)
  have hvalues := congrArg (fun s => (s.map api.headerValueSize).sum) (api.values_eq map)
  simp only [Multiset.map_coe, Multiset.sum_coe, Multiset.map_map, Multiset.map_bind,
    Multiset.sum_bind] at hkeys hvalues
  exact congrArg₂ (· + ·) hkeys hvalues

variable (key : Name) (values : List Value) (fields : Fields Name Value)

/-- The size without a name. -/
theorem fieldsSize_erase :
    api.fieldsSize (fields.erase key) + api.held key fields = api.fieldsSize fields := by
  refine fields.induction_on fun map => ?_
  rw [Finmap.erase_toFinmap, held, Finmap.lookup_toFinmap, AList.lookup]
  simp only [fieldsSize, AList.toFinmap, AList.erase, Multiset.map_coe, Multiset.sum_coe]
  induction map.entries with
  | nil => rfl
  | cons e l ih =>
    obtain ⟨name, values⟩ := e
    by_cases h : key = name
    · subst h
      simp
      omega
    · simp [h]
      omega

/-- The size with the values of a name replaced. -/
theorem fieldsSize_insert :
    api.fieldsSize (fields.insert key values) + api.held key fields =
      api.fieldsSize fields + (api.headerNameSize key + api.valuesSize values) := by
  rw [← api.fieldsSize_erase key fields]
  refine fields.induction_on fun map => ?_
  rw [Finmap.insert_toFinmap, Finmap.erase_toFinmap]
  simp [fieldsSize, AList.toFinmap, AList.erase]
  omega

/-- Appending values one by one. -/
theorem fields_appendAll {map : api.Map} {old : List Value}
    (h : (api.fields map).lookup key = some old) :
    api.fields (api.appendAll map key values) = (api.fields map).insert key (old ++ values) := by
  induction values generalizing map old with
  | nil =>
    rw [List.append_nil]
    refine Finmap.ext_lookup fun k => ?_
    by_cases hk : k = key
    · subst hk
      rw [Finmap.lookup_insert]
      exact h
    · rw [Finmap.lookup_insert_of_ne _ hk]
      rfl
  | cons v values ih =>
    have hfields := api.fields_appendEntry map key v old h
    have hlookup : (api.fields (api.appendEntry map key v)).lookup key = some (old ++ [v]) := by
      rw [hfields, Finmap.lookup_insert]
    refine (ih hlookup).trans ?_
    rw [hfields, Finmap.insert_insert, List.append_assoc, List.singleton_append]

end HeaderMap

/-- A header map that takes no call for a new or an old name once it has `capacity` names. -/
def boundedMap (capacity : ℕ) : HeaderMap (List UInt8) (List UInt8) where
  Map := AList fun _ : List UInt8 => List (List UInt8)
  fields := AList.toFinmap
  nameLen := List.length
  valueLen := List.length
  sizeOfName := 32
  sizeOfValue := 40
  sizeOfValue_pos := by decide
  new := ∅
  fields_new := rfl
  keys := AList.keys
  keys_eq := fun _ => rfl
  values := fun map => map.entries.flatMap Sigma.snd
  values_eq := fun _ => by simp [AList.toFinmap, List.flatMap]
  containsKey := fun map key => (map.lookup key).isSome
  containsKey_eq := fun _ _ => rfl
  tryEntry := fun map key =>
    (if map.keys.length < capacity then .ok (map.lookup key) else .error ⟨⟩, map)
  fields_tryEntry := fun _ _ => rfl
  tryEntry_eq := fun map key entry h => by
    dsimp only at h
    split at h
    · exact (Except.ok.inj h).symm
    · cases h
  tryInsertEntry := fun map key value =>
    if map.keys.length < capacity then (.ok (), map.insert key [value]) else (.error ⟨⟩, map)
  fields_tryInsertEntry := fun map key value => by
    split_ifs
    · exact (Finmap.insert_toFinmap _ _ _).symm
    · rfl
  insertEntry := fun map key value => map.insert key [value]
  fields_insertEntry := fun _ _ _ => (Finmap.insert_toFinmap _ _ _).symm
  appendEntry := fun map key value => map.insert key ((map.lookup key).getD [] ++ [value])
  fields_appendEntry := fun map key value values h => by
    have h : map.lookup key = some values := h
    rw [h]
    exact (Finmap.insert_toFinmap _ _ _).symm
  removeEntry := fun map key => map.erase key
  fields_removeEntry := fun _ _ => (Finmap.erase_toFinmap _ _).symm
  tryAppend := fun map key value =>
    if map.keys.length < capacity then
      (.ok (map.lookup key).isSome, map.insert key ((map.lookup key).getD [] ++ [value]))
    else (.error ⟨⟩, map)
  tryAppend_eq := fun map key value present h => by
    split_ifs at h
    · exact (Except.ok.inj h).symm
  fields_tryAppend := fun map key value => by
    split_ifs
    · exact (Finmap.insert_toFinmap _ _ _).symm
    · rfl

/-- A header map with its limit and the size that is kept of it. -/
structure FieldMap (api : HeaderMap Name Value) where
  map : api.Map
  limit : Limit
  size : ℕ

/-- What an operation returns, and the map it leaves behind. -/
abbrev Outcome (api : HeaderMap Name Value) (α : Type) := Except FieldMapError α × FieldMap api

namespace FieldMap

variable {api : HeaderMap Name Value} {α : Type} (m : FieldMap api) (key : Name) (value : Value)
  (values : List Value)

def newImmutable (map : api.Map) : FieldMap api := ⟨map, .immutable, api.contentSize map⟩

def newMutable (limit : ℕ) : FieldMap api := ⟨api.new, .mutable limit, 0⟩

/-- Edits need fields that are mutable. -/
def mutable (edit : ℕ → Outcome api α) : Outcome api α :=
  match m.limit with
  | .immutable => (.error .immutable, m)
  | .mutable limit => edit limit

/-- Sets the size, if it is within the limit. -/
def updateSize (limit new : ℕ) (next : FieldMap api → Outcome api α) : Outcome api α :=
  if new > limit then (.error .totalSizeTooBig, m) else next { m with size := new }

/-- Replaces the values of a name. -/
def set : Outcome api Unit :=
  m.mutable fun limit =>
    match api.tryEntry m.map key with
    | (.error e, map) => (.error (.ofInvalidHeaderName e), { m with map })
    | (.ok none, map) =>
      let m := { m with map }
      match values with
      | [] => (.ok (), m)
      | v :: rest =>
        m.updateSize limit (m.size + api.valuesSize values + api.headerNameSize key) fun m =>
          match api.tryInsertEntry m.map key v with
          | (.error e, map) => (.error (.ofMaxSizeReached e), { m with map })
          | (.ok (), map) => (.ok (), { m with map := api.appendAll map key rest })
    | (.ok (some prev), map) =>
      let m := { m with map }
      match values with
      | [] =>
        m.updateSize limit (m.size - api.valuesSize prev - api.headerNameSize key) fun m =>
          (.ok (), { m with map := api.removeEntry m.map key })
      | v :: rest =>
        m.updateSize limit (m.size - api.valuesSize prev + api.valuesSize values) fun m =>
          (.ok (), { m with map := api.appendAll (api.insertEntry m.map key v) key rest })

/-- Removes all values of a name and returns them. -/
def removeAll : Outcome api (List Value) :=
  m.mutable fun _ =>
    match api.tryEntry m.map key with
    | (.error e, map) => (.error (.ofInvalidHeaderName e), { m with map })
    | (.ok none, map) => (.ok [], { m with map })
    | (.ok (some values), map) => (.ok values, { m with
        map := api.removeEntry map key
        size := m.size - (api.headerNameSize key + api.valuesSize values) })

/-- The size that `append` records. -/
def appendSize : ℕ :=
  if !api.containsKey m.map key then m.size + api.headerNameSize key + api.headerValueSize value
  else m.size + api.headerValueSize value

/-- Adds a value to a name; the size is set before the map is tried. -/
def append : Outcome api Bool :=
  m.mutable fun limit =>
    let newSize := m.appendSize key value
    m.updateSize limit newSize fun m =>
      match api.tryAppend m.map key value with
      | (.error e, map) => (.error (.ofMaxSizeReached e), { m with map })
      | (.ok alreadyPresent, map) => (.ok alreadyPresent, { m with map, size := newSize })

/-- The operations on a field map. -/
inductive Op (Name Value : Type)
  | append (key : Name) (value : Value)
  | set (key : Name) (values : List Value)
  | removeAll (key : Name)
  | setMutable (limit : ℕ)
  | setImmutable

namespace Op

/-- What the operation returns. -/
def Result : Op Name Value → Type
  | append .. => Bool
  | removeAll .. => List Value
  | _ => Unit

/-- An operation on the fields. -/
def apply : (op : Op Name Value) → Outcome api op.Result
  | append key value => m.append key value
  | set key values => m.set key values
  | removeAll key => m.removeAll key
  | setMutable limit => (.ok (), { m with limit := .mutable limit })
  | setImmutable => (.ok (), { m with limit := .immutable })

/-- An append, or a set to a list that is not empty. -/
def Adds : Op Name Value → Prop
  | append .. => True
  | set _ values => values ≠ []
  | _ => False

/-- The header map refuses the insertion after its size has been recorded. -/
def RefusedLate : Op Name Value → Prop
  | append key value => ∃ limit e, m.limit = .mutable limit ∧ m.appendSize key value ≤ limit ∧
    (api.tryAppend m.map key value).1 = .error e
  | set key values => ∃ limit v rest e, m.limit = .mutable limit ∧ values = v :: rest ∧
    (api.tryEntry m.map key).1 = .ok none ∧
    m.size + api.valuesSize values + api.headerNameSize key ≤ limit ∧
    (api.tryInsertEntry (api.tryEntry m.map key).2 key v).1 = .error e
  | _ => False

end Op

/-- The runs of a field map, from any header map or an empty one. -/
def machine (api : HeaderMap Name Value) : Machine (FieldMap api) (Op Name Value) where
  start := fun m => (∃ map, m = newImmutable map) ∨ ∃ limit, m = newMutable limit
  allowed := fun _ _ => True
  step := fun m op => .ok (op.apply m).2

/-- The recorded size is exact, an addition keeps to the limit, an error changes nothing. -/
structure Accounted (adds : Prop) (o : Outcome api α) : Prop where
  exact : o.2.size = api.contentSize o.2.map
  within : adds → ∀ a, o.1 = .ok a → ∃ limit, m.limit = .mutable limit ∧ o.2.size ≤ limit
  unchanged : ∀ e, o.1 = .error e →
    api.fields o.2.map = api.fields m.map ∧ o.2.size = m.size ∧ o.2.limit = m.limit

variable {m} {adds : Prop}

/-- A success that sets the right size is accounted for. -/
theorem accounted_ok {limit new : ℕ} {map : api.Map} (a : α) (hlim : m.limit = .mutable limit)
    (hle : new ≤ limit) (h : new = api.fieldsSize (api.fields map)) :
    Accounted m adds ((.ok a, { m with map, size := new }) : Outcome api α) :=
  ⟨h.trans (api.contentSize_eq map).symm, fun _ _ _ => ⟨limit, hlim, hle⟩, nofun⟩

/-- An error that leaves a greater size is not. -/
theorem not_accounted {new : ℕ} {map : api.Map} {e : FieldMapError} (h : m.size < new) :
    ¬Accounted m adds ((.error e, { m with map, size := new }) : Outcome api α) := by
  intro hacc
  have heq := (hacc.unchanged e rfl).2.1
  exact h.ne' heq

variable (hm : m.size = api.contentSize m.map)

include hm

/-- An error that keeps the fields is accounted for. -/
theorem accounted_error {map : api.Map} (e : FieldMapError)
    (h : api.fields map = api.fields m.map) :
    Accounted m adds ((.error e, { m with map }) : Outcome api α) := by
  refine ⟨?_, nofun, fun _ _ => ⟨h, rfl, rfl⟩⟩
  rw [hm, api.contentSize_eq, api.contentSize_eq, h]

theorem mutable_accounted {edit : ℕ → Outcome api α}
    (h : ∀ limit, m.limit = .mutable limit → Accounted m adds (edit limit)) :
    Accounted m adds (m.mutable edit) := by
  rw [mutable]
  split
  · exact accounted_error hm _ rfl
  · exact h _ ‹_›

theorem updateSize_accounted {limit new : ℕ} {map : api.Map} {next : FieldMap api → Outcome api α}
    (h : api.fields map = api.fields m.map)
    (hnext : new ≤ limit → Accounted m adds (next { m with map, size := new })) :
    Accounted m adds (updateSize { m with map } limit new next) := by
  rw [updateSize]
  split
  · exact accounted_error hm _ h
  · exact hnext (Nat.le_of_not_lt ‹_›)

/-- `set` is accounted for unless the map refuses late. -/
theorem set_accounted (h : ¬(Op.set key values).RefusedLate m) :
    Accounted m (values ≠ []) (m.set key values) := by
  refine mutable_accounted hm fun limit hlim => ?_
  have hsize := hm.trans (api.contentSize_eq m.map)
  have hfields := api.fields_tryEntry m.map key
  have hentry := api.tryEntry_eq m.map key
  have herase := api.fieldsSize_erase key (api.fields m.map)
  have hinsert := api.fieldsSize_insert key values (api.fields m.map)
  rw [HeaderMap.held] at herase hinsert
  rcases htry : api.tryEntry m.map key with ⟨e | _ | prev, map⟩
  all_goals
    rw [htry] at hfields hentry
    dsimp only
  · exact accounted_error hm _ hfields
  · rw [← hentry _ rfl] at herase hinsert
    cases values with
    | nil =>
      refine ⟨?_, fun h => absurd rfl h, nofun⟩
      rw [api.contentSize_eq, hfields, ← hsize]
    | cons v rest =>
      refine updateSize_accounted hm hfields fun hle => ?_
      have hins := api.fields_tryInsertEntry map key v
      rcases hinserted : api.tryInsertEntry map key v with ⟨e | _, map'⟩
      · refine absurd ⟨limit, v, rest, e, hlim, rfl, ?_, hle, ?_⟩ h
        · rw [htry]
        · rw [htry, hinserted]
      · rw [hinserted] at hins
        dsimp only at hins ⊢
        apply accounted_ok () hlim hle
        rw [api.fields_appendAll key rest (hins ▸ Finmap.lookup_insert _), hins,
          Finmap.insert_insert, hfields, List.singleton_append]
        simp only [Option.elim_none] at hinsert
        omega
  · rw [← hentry _ rfl] at herase hinsert
    simp only [Option.elim_some] at herase hinsert
    cases values with
    | nil =>
      refine updateSize_accounted hm hfields fun hle => accounted_ok () hlim hle ?_
      rw [api.fields_removeEntry, hfields]
      dsimp only
      omega
    | cons v rest =>
      refine updateSize_accounted hm hfields fun hle => accounted_ok () hlim hle ?_
      have hins := api.fields_insertEntry map key v
      rw [api.fields_appendAll key rest (hins ▸ Finmap.lookup_insert _), hins,
        Finmap.insert_insert, hfields, List.singleton_append]
      dsimp only
      omega

/-- `append` is accounted for unless the map refuses late. -/
theorem append_accounted (h : ¬(Op.append key value).RefusedLate m) :
    Accounted m True (m.append key value) := by
  refine mutable_accounted hm fun limit hlim => ?_
  have hsize := hm.trans (api.contentSize_eq m.map)
  refine updateSize_accounted hm rfl fun hle => ?_
  have happ := api.fields_tryAppend m.map key value
  rcases happended : api.tryAppend m.map key value with ⟨e | present, map⟩
  · exact absurd ⟨limit, e, hlim, hle, by rw [happended]⟩ h
  rw [happended] at happ
  dsimp only at happ ⊢
  apply accounted_ok present hlim hle
  have hinsert := api.fieldsSize_insert key (((api.fields m.map).lookup key).getD [] ++ [value])
    (api.fields m.map)
  rw [happ, appendSize, api.containsKey_eq]
  cases hkey : (api.fields m.map).lookup key
  all_goals
    simp_all [HeaderMap.held, HeaderMap.valuesSize]
    omega

/-- `remove_all` is accounted for. -/
theorem removeAll_accounted : Accounted m False (m.removeAll key) := by
  refine mutable_accounted hm fun limit hlim => ?_
  have hsize := hm.trans (api.contentSize_eq m.map)
  have hfields := api.fields_tryEntry m.map key
  have hentry := api.tryEntry_eq m.map key
  have herase := api.fieldsSize_erase key (api.fields m.map)
  rw [HeaderMap.held] at herase
  rcases htry : api.tryEntry m.map key with ⟨e | _ | values, map⟩
  all_goals
    rw [htry] at hfields hentry
    dsimp only
  · exact accounted_error hm _ hfields
  · refine ⟨?_, nofun, nofun⟩
    rw [api.contentSize_eq, hfields, ← hsize]
  · refine ⟨?_, nofun, nofun⟩
    rw [← hentry _ rfl, Option.elim_some] at herase
    rw [api.contentSize_eq, api.fields_removeEntry, hfields]
    dsimp only
    omega

/-- One step is accounted unless the header map refuses late. -/
theorem apply_accounted {op : Op Name Value} (hop : ¬op.RefusedLate m) :
    Accounted m op.Adds (op.apply m) := by
  cases op with
  | append key value => exact append_accounted key value hm hop
  | set key values => exact set_accounted key values hm hop
  | removeAll key => exact removeAll_accounted key hm
  | setMutable limit => exact ⟨hm, nofun, nofun⟩
  | setImmutable => exact ⟨hm, nofun, nofun⟩

omit hm

theorem lt_appendSize : m.size < m.appendSize key value := by
  have := api.sizeOfValue_pos
  unfold appendSize HeaderMap.headerValueSize
  split <;> omega

/-- A late refusal leaves the size of what was not inserted in the record. -/
theorem not_accounted_of_refusedLate {op : Op Name Value} (hop : op.RefusedLate m) :
    ¬Accounted m op.Adds (op.apply m) := by
  cases op with
  | append key value =>
    obtain ⟨limit, e, hlim, hle, herr⟩ := hop
    rcases happended : api.tryAppend m.map key value with ⟨e' | present, map⟩
    all_goals rw [happended] at herr
    · have happend : m.append key value =
          (.error (.ofMaxSizeReached e'), { m with map, size := m.appendSize key value }) := by
        simp [append, mutable, hlim, updateSize, Nat.not_lt.mpr hle, happended]
      change ¬Accounted m True (m.append key value)
      rw [happend]
      exact not_accounted (lt_appendSize key value)
    · cases herr
  | set key values =>
    obtain ⟨limit, v, rest, e, hlim, rfl, hentry, hle, herr⟩ := hop
    rcases htry : api.tryEntry m.map key with ⟨entry, map⟩
    rw [htry] at hentry herr
    obtain rfl : entry = .ok none := hentry
    rcases hinserted : api.tryInsertEntry map key v with ⟨e' | _, map'⟩
    all_goals rw [hinserted] at herr
    · have hset : m.set key (v :: rest) = (.error (.ofMaxSizeReached e'), { m with
          map := map'
          size := m.size + api.valuesSize (v :: rest) + api.headerNameSize key }) := by
        simp [set, mutable, hlim, htry, updateSize, Nat.not_lt.mpr hle, hinserted]
      change ¬Accounted m (v :: rest ≠ []) (m.set key (v :: rest))
      rw [hset]
      refine not_accounted ?_
      have := api.sizeOfValue_pos
      simp only [HeaderMap.valuesSize, HeaderMap.headerValueSize, List.map_cons, List.sum_cons]
      omega
    · cases herr
  | removeAll key => cases hop
  | setMutable limit => cases hop
  | setImmutable => cases hop

/-- The record is exact along a run without late refusals. -/
theorem size_eq_of_reaches
    (hm : ((machine api).onlyWhen fun m op => ¬op.RefusedLate m).Reaches m) :
    m.size = api.contentSize m.map := by
  refine Machine.Reaches.invariant (P := fun m => m.size = api.contentSize m.map) ?_ ?_ hm
  · rintro m (⟨map, rfl⟩ | ⟨limit, rfl⟩)
    · rfl
    · rw [api.contentSize_eq, newMutable, api.fields_new]
      rfl
  · rintro m op _ hm ⟨-, hop⟩ hstep
    obtain rfl := Except.ok.inj hstep
    exact (apply_accounted hm hop).exact

/-- **The size accounting of a field map is exact**, and failed edits change nothing, just as
long as the header map refuses no insertion whose size has been recorded. -/
theorem fieldMap_accounted_iff {api : HeaderMap Name Value} {m : FieldMap api}
    (hm : ((machine api).onlyWhen fun m op => ¬op.RefusedLate m).Reaches m)
    (op : Op Name Value) :
    m.size = api.contentSize m.map ∧
      (Accounted m op.Adds (op.apply m) ↔ ¬op.RefusedLate m) := by
  have hsize := size_eq_of_reaches hm
  refine ⟨hsize, fun hacc hop => ?_, apply_accounted hsize⟩
  exact not_accounted_of_refusedLate hop hacc

/-- The second append to a map for two names is accounted. -/
theorem fieldMap_accounted_iff_append :
    let m := ((newMutable 200 : FieldMap (boundedMap 2)).append [102] [98]).2
    m.size = 74 ∧ (m.append [103] [98]).2.size = 148 ∧ Accounted m True (m.append [103] [98]) := by
  intro m
  have hm : ((machine (boundedMap 2)).onlyWhen fun m op => ¬op.RefusedLate m).Reaches m :=
    .step (i := .append [102] [98]) (.start (.inr ⟨200, rfl⟩))
      ⟨trivial, fun ⟨_, _, _, _, herr⟩ => nomatch herr⟩ rfl
  refine ⟨rfl, rfl, (fieldMap_accounted_iff hm (.append [103] [98])).2.mpr ?_⟩
  exact fun ⟨_, _, _, _, herr⟩ => nomatch herr

/-- The second append to a map for one name is refused, and leaves a size of 148 recorded for a
map of size 74. -/
theorem append_refused_keeps_size :
    let m := ((newMutable 200 : FieldMap (boundedMap 1)).append [102] [98]).2
    (m.append [103] [98]).1 = .error .tooManyFields ∧ (m.append [103] [98]).2.size = 148 ∧
      (boundedMap 1).contentSize (m.append [103] [98]).2.map = 74 :=
  ⟨rfl, rfl, rfl⟩

end FieldMap

end WasmDeps.WasiHttp
