import WasmDeps.Lib.Call
import Mathlib.Data.Finset.Basic

/-!
# The host's resource table

The host keeps its own values for the resources it gives out in a table.  An entry may have
a parent, which must outlive it, and an entry knows its children; both are indices into the
table.  Vacant entries are chained into a free list through the table itself.

Every operation is a `Call`, so that what an operation does to the table before it fails is
part of the model.
-/

namespace WasmDeps.Component

open WasmDeps.Lib

/-- The errors of the table. -/
inductive ResourceTableError
  | full
  | notPresent
  | wrongType
  | hasChildren
  deriving DecidableEq, Repr

/-- The texts of the errors. -/
def ResourceTableError.text : ResourceTableError → String
  | full => "resource table has no free keys"
  | notPresent => "resource not present"
  | wrongType => "resource is of another type"
  | hasChildren => "resource has children"

/-- A boxed value of a type known at run time only. -/
structure BoxedAny where
  typeId : ℕ
  value : ℕ
  deriving DecidableEq, Repr

/-- The value, if it is of the type asked for. -/
def BoxedAny.downcast (b : BoxedAny) (typeId : ℕ) : Option ℕ :=
  if b.typeId = typeId then some b.value else none

/-- An occupied entry: its value, its parent and its children. -/
structure TableEntry where
  entry : BoxedAny
  parent : Option ℕ
  children : Finset ℕ
  deriving DecidableEq

/-- An entry, vacant or occupied. -/
inductive Entry
  /-- A vacant entry, and the next one on the free list. -/
  | free (next : Option ℕ)
  | occupied (entry : TableEntry)
  deriving DecidableEq

def TableEntry.new (entry : BoxedAny) (parent : Option ℕ) : TableEntry := ⟨entry, parent, ∅⟩

/-- The table: its entries, the head of the free list and the limit. -/
structure ResourceTable where
  entries : List Entry
  freeHead : Option ℕ
  maxCapacity : ℕ
  deriving DecidableEq

namespace ResourceTable

abbrev defaultMaxCapacity : ℕ := 1000000

/-- Whether deleted entries are replaced by tombstones instead of being reused. -/
abbrev deleteWithTombstone : Bool := false

/-- The type of tombstones, which no resource has. -/
abbrev tombstoneType : ℕ := 0

/-- The empty table. -/
def new : ResourceTable := ⟨[], none, defaultMaxCapacity⟩

def setMaxCapacity (max : ℕ) : Call ResourceTable PUnit := do
  let t ← Call.get
  Call.set { t with maxCapacity := max }

/-- The occupied entry at a key. -/
def live? (t : ResourceTable) (key : ℕ) : Option TableEntry :=
  match t.entries[key]? with
  | some (.occupied entry) => some entry
  | _ => none

/-- The table with one entry replaced. -/
def write (t : ResourceTable) (key : ℕ) (entry : Entry) : ResourceTable :=
  { t with entries := t.entries.set key entry }

/-- Takes the first entry off the free list. -/
def popFreeList : Call ResourceTable (Option ℕ) := do
  let t ← Call.get
  match t.freeHead with
  | some ix =>
    match t.entries[ix]? with
    | some (.free next) => do
      Call.set { t with freeHead := next }
      pure (some ix)
    | some (.occupied _) =>
      Call.lift (throw (.panic "internal error: entered unreachable code"))
    | none => Call.lift (throw (.panic "index out of bounds"))
  | none => pure none

/-- Make an entry vacant and put it on the free list, or leave a tombstone there. -/
def freeEntry (ix : ℕ) (debug : Bool) : Call ResourceTable TableEntry := do
  let t ← Call.get
  match t.entries[ix]? with
  | some (.occupied entry) =>
    if debug then do
      Call.set (t.write ix (.occupied (.new ⟨tombstoneType, 0⟩ none)))
      pure entry
    else do
      Call.set { t.write ix (.free t.freeHead) with freeHead := some ix }
      pure entry
  | some (.free _) => Call.lift (throw (.panic "internal error: entered unreachable code"))
  | none => Call.lift (throw (.panic "index out of bounds"))

/-- Puts an entry on the first free place, or at the end if there is room. -/
def pushEntry (e : TableEntry) : Call ResourceTable ℕ := do
  let free ← popFreeList
  let t ← Call.get
  match free with
  | some ix => do
    Call.set (t.write ix (.occupied e))
    Call.lift (ensure (ix ≤ u32Max)
      "called `Result::unwrap()` on an `Err` value: TryFromIntError(())")
    pure ix
  | none =>
    if t.maxCapacity ≤ t.entries.length then Call.bail ResourceTableError.full.text
    else if u32Max < t.entries.length then Call.bail ResourceTableError.full.text
    else do
      Call.set { t with entries := t.entries ++ [.occupied e] }
      pure t.entries.length

/-- The live entry of a key, to read or to write. -/
def occupied (key : ℕ) : Call ResourceTable TableEntry := do
  let t ← Call.get
  match t.live? key with
  | some entry => pure entry
  | none => Call.bail ResourceTableError.notPresent.text

/-- Write through the reference that `occupied` returned. -/
def store (key : ℕ) (entry : TableEntry) : Call ResourceTable PUnit := do
  let t ← Call.get
  Call.set (t.write key (.occupied entry))

/-- `TableEntry::add_child`, on the entry of a parent. -/
def linkChild (parent : ℕ) (entry : TableEntry) (child : ℕ) :
    Call ResourceTable PUnit := do
  Call.lift (ensure (child ∉ entry.children)
    "assertion failed: !self.children.contains(&child)")
  store parent { entry with children := insert child entry.children }

/-- `TableEntry::remove_child`, on the entry of a parent. -/
def unlinkChild (parent : ℕ) (entry : TableEntry) (child : ℕ) :
    Call ResourceTable PUnit := do
  store parent { entry with children := entry.children.erase child }
  Call.lift (ensure (child ∈ entry.children)
    "assertion failed: was_removed")

/-- Inserts a value without a parent. -/
def push (entry : BoxedAny) : Call ResourceTable ℕ := pushEntry (.new entry none)

/-- Inserts a value as a child of another. -/
def pushChild (entry : BoxedAny) (parent : ℕ) :
    Call ResourceTable ℕ := do
  let _ ← occupied parent
  let child ← pushEntry (.new entry (some parent))
  let p ← occupied parent
  linkChild parent p child
  pure child

/-- Makes an entry a child of another. -/
def addChild (child parent : ℕ) : Call ResourceTable PUnit := do
  let entry ← occupied child
  Call.lift (ensure (entry.parent = none) "assertion failed: entry.parent.is_none()")
  store child { entry with parent := some parent }
  let p ← occupied parent
  linkChild parent p child

/-- Parts a child from its parent. -/
def removeChild (child parent : ℕ) : Call ResourceTable PUnit := do
  let entry ← occupied child
  Call.lift (ensure (entry.parent = some parent) "assertion `left == right` failed")
  store child { entry with parent := none }
  let p ← occupied parent
  unlinkChild parent p child

/-- The value at a key, if it has the type asked for. -/
def get (typeId key : ℕ) : Call ResourceTable ℕ := do
  let r ← occupied key
  match r.entry.downcast typeId with
  | some value => pure value
  | none => Call.bail ResourceTableError.wrongType.text

/-- Removes an entry that has no children, also from its parent. -/
def deleteEntry (key : ℕ) (debug : Bool) :
    Call ResourceTable TableEntry := do
  let entry ← occupied key
  if entry.children ≠ ∅ then Call.bail ResourceTableError.hasChildren.text
  else do
    let e ← freeEntry key debug
    match e.parent with
    | some parent => do
      let t ← Call.get
      let p ← Call.lift (unwrap (t.live? parent) "missing parent")
      unlinkChild parent p key
      pure e
    | none => pure e

/-- Removes an entry and returns its value; the entry is gone also if the type is another. -/
def deleteMaybeDebug (typeId key : ℕ) (debug : Bool) :
    Call ResourceTable ℕ := do
  let e ← deleteEntry key debug
  match e.entry.downcast typeId with
  | some value => pure value
  | none => Call.bail ResourceTableError.wrongType.text

/-- Removes a value, with the tombstones as the build has them. -/
def delete (typeId key : ℕ) : Call ResourceTable ℕ :=
  deleteMaybeDebug typeId key deleteWithTombstone

end ResourceTable

end WasmDeps.Component
