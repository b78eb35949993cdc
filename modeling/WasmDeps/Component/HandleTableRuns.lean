import WasmDeps.Component.HandleTable
import WasmDeps.Lib.LinkedList

/-!
# Runs of the component handle table

The table is described by its free list: `Chained t free` says that the free slots,
linked from `next`, are the list `free` and that the chain ends one past the last slot.
Four lemmas say what the four shapes of operations do to a chained table.  A run pairs
the table with its history: the content each live handle should have, and the handles
issued so far.
-/

namespace WasmDeps.Component

open WasmDeps.Lib List Exec Call HandleTable Option Except Function

variable {t : HandleTable} {free : List ℕ} {α : Type}

namespace HandleTable

variable {t' : HandleTable} {slot : Slot} {idx h : ℕ}

/-! ## Lookup -/

@[simp] theorem lookup?_zero (t : HandleTable) : t.lookup? 0 = none := rfl

theorem lookup?_succ (t : HandleTable) (i : ℕ) :
    t.lookup? (i + 1) = t.slots[i]?.filter fun slot => slot.freeNext.isNone := by
  simp only [lookup?, handleIndexToTableIndex, Nat.le_add_left, if_true, Nat.add_sub_cancel,
    bind_some]
  cases t.slots[i]? with
  | none => rfl
  | some slot => cases slot <;> rfl

theorem lookup?_eq_some :
    t.lookup? h = some slot ↔ ∃ i, h = i + 1 ∧ t.slots[i]? = some slot ∧ slot.freeNext = none := by
  cases h with
  | zero => simp
  | succ i => simp [lookup?_succ, filter_eq_some_iff]

theorem lookup?_ne_free (hl : t.lookup? h = some slot) : slot.freeNext = none := by
  obtain ⟨i, -, -, hfree⟩ := lookup?_eq_some.mp hl
  exact hfree

theorem pos_of_lookup? (hl : t.lookup? h = some slot) : 1 ≤ h := by
  obtain ⟨i, rfl, -, -⟩ := lookup?_eq_some.mp hl
  omega

/-- Storing an occupied slot changes what its handle resolves to and nothing else. -/
theorem lookup?_set {i : ℕ} (hi : i < t.slots.length) (n h : ℕ)
    (slot : Slot) (hslot : slot.freeNext = none) :
    lookup? ⟨n, t.slots.set i slot⟩ h = if h = i + 1 then some slot else t.lookup? h := by
  cases h with
  | zero => simp
  | succ j =>
    simp only [lookup?_succ, getElem?_set_of_lt hi, Nat.add_right_cancel_iff]
    split
    · simp [hslot]
    · rfl

theorem lookup?_set_free {i : ℕ} (n m h : ℕ) :
    lookup? ⟨n, t.slots.set i (.free m)⟩ h = if h = i + 1 then none else t.lookup? h := by
  cases h with
  | zero => simp
  | succ j =>
    simp only [lookup?_succ, getElem?_set, Nat.add_right_cancel_iff]
    by_cases hij : i = j
    · subst hij
      by_cases hi : i < t.slots.length <;> simp [hi, Slot.freeNext]
    · simp [hij, Ne.symm hij]

/-! ## What the shapes of operations do -/

theorem run_getMut (t : HandleTable) (idx : ℕ) :
    (getMut idx).run t = (okOr (t.lookup? idx) ("unknown handle index " ++ toString idx), t) := by
  rw [getMut, run_bind]
  cases hl : t.lookup? idx <;> simp [hl, okOr]

theorem run_inspect (t : HandleTable) (idx : ℕ) (view : Slot → Exec α) :
    (inspect idx view).run t =
      (okOr (t.lookup? idx) ("unknown handle index " ++ toString idx) >>= view, t) := by
  rw [inspect, run_bind, run_getMut]
  cases t.lookup? idx <;> rfl

/-- Freeing a handle: a failed check leaves the table alone. -/
theorem run_take (t : HandleTable) (idx : ℕ) (view : Slot → Exec α) :
    (take idx view).run t =
      match okOr (t.lookup? idx) ("unknown handle index " ++ toString idx) >>= view with
      | .ok a => (.ok a, ⟨idx - 1, t.slots.set (idx - 1) (.free t.next)⟩)
      | .error e => (.error e, t) := by
  rw [take, run_bind, run_inspect]
  cases hl : t.lookup? idx with
  | none => rfl
  | some slot =>
    rw [okOr_some, ok_bind]
    cases view slot with
    | error e => rfl
    | ok a => simp [remove, store, run_bind, run_getMut, hl]

/-- Writing through a handle: a failed check leaves the table alone. -/
theorem run_update (t : HandleTable) (idx : ℕ) (view : Slot → Exec (α × Slot)) :
    (update idx view).run t =
      match okOr (t.lookup? idx) ("unknown handle index " ++ toString idx) >>= view with
      | .ok (a, slot) => (.ok a, { t with slots := t.slots.set (idx - 1) slot })
      | .error e => (.error e, t) := by
  rw [update, run_bind, run_inspect]
  cases hl : t.lookup? idx with
  | none => rfl
  | some slot =>
    rw [okOr_some, ok_bind]
    cases view slot with
    | error e => rfl
    | ok p => simp [store, run_bind]

/-! ## The free list -/

/-- The link of the free list at slot `i`. -/
def freeLink (t : HandleTable) (i : ℕ) : Option ℕ := t.slots[i]?.bind Slot.freeNext

theorem freeLink_set (n : ℕ) {i : ℕ} (hi : i < t.slots.length) (slot : Slot) (j : ℕ) :
    freeLink ⟨n, t.slots.set i slot⟩ j = if j = i then slot.freeNext else t.freeLink j := by
  rw [freeLink, getElem?_set_of_lt hi]
  split <;> rfl

/-- The free slots are chained from `next`, through `free`, to one past the last slot. -/
structure Chained (t : HandleTable) (free : List ℕ) : Prop where
  /-- Following the links from `next` leads through `free` to the end of the table. -/
  path : Path t.freeLink (some t.next) free (some t.slots.length)
  nodup : free.Nodup
  mem_iff : ∀ i, i ∈ free ↔ (t.freeLink i).isSome
  /-- The table is smaller than the handle space. -/
  bound : t.slots.length < maxHandle

theorem chained_default : Chained default [] where
  path := rfl
  nodup := nodup_nil
  mem_iff := by simp [freeLink, default]
  bound := by decide

theorem Chained.lt_length (hc : Chained t free) {i : ℕ} (hi : i ∈ free) : i < t.slots.length := by
  have hsome := (hc.mem_iff i).mp hi
  rw [freeLink] at hsome
  by_contra hlt
  rw [getElem?_eq_none (Nat.le_of_not_lt hlt)] at hsome
  simp at hsome

theorem Chained.next_eq (hc : Chained t []) : t.next = t.slots.length :=
  some.inj hc.path

section

variable (hc : Chained t free)
include hc

section

variable (hl : t.lookup? h = some slot)
include hl

theorem Chained.notMem_of_lookup? : h - 1 ∉ free := by
  obtain ⟨i, rfl, hi, hfree⟩ := lookup?_eq_some.mp hl
  simp [hc.mem_iff, freeLink, hi, hfree]

theorem Chained.release :
    Chained ⟨h - 1, t.slots.set (h - 1) (.free t.next)⟩ ((h - 1) :: free) := by
  have hnot := hc.notMem_of_lookup? hl
  obtain ⟨i, rfl, hi, -⟩ := lookup?_eq_some.mp hl
  rw [Nat.add_sub_cancel] at hnot ⊢
  have hlt := lt_of_getElem? hi
  refine ⟨⟨rfl, ?_⟩, nodup_cons.mpr ⟨hnot, hc.nodup⟩, fun j => ?_, by simpa using hc.bound⟩
  · rw [freeLink_set _ hlt, if_pos rfl, length_set]
    refine hc.path.congr fun j hj => ?_
    rw [freeLink_set _ hlt, if_neg (ne_of_mem_of_not_mem hj hnot)]
  · rw [freeLink_set _ hlt, mem_cons, hc.mem_iff]
    split <;> simp [*, Slot.freeNext]

theorem Chained.store {slot' : Slot} (hslot : slot'.freeNext = none) :
    Chained { t with slots := t.slots.set (h - 1) slot' } free := by
  obtain ⟨i, rfl, hi, hfree⟩ := lookup?_eq_some.mp hl
  obtain ⟨hlt, rfl⟩ := List.getElem?_eq_some_iff.mp hi
  rw [Nat.add_sub_cancel]
  have hlink : freeLink { t with slots := t.slots.set i slot' } = t.freeLink := by
    funext j
    rw [freeLink_set _ hlt]
    split
    · simp [*, freeLink]
    · rfl
  refine ⟨?_, hc.nodup, ?_, by simpa using hc.bound⟩
  · rw [hlink, length_set]
    exact hc.path
  · rw [hlink]
    exact hc.mem_iff

end

theorem Chained.lookup?_next : t.lookup? (t.next + 1) = none := by
  rw [lookup?_succ]
  cases free with
  | nil => simp [hc.next_eq]
  | cons i rest =>
    obtain rfl : t.next = i := some.inj hc.path.1
    have hsome := (hc.mem_iff t.next).mp (.head _)
    cases hget : t.slots[t.next]? with
    | none => rfl
    | some slot =>
      cases hfree : slot.freeNext with
      | none => simp [freeLink, hget, hfree] at hsome
      | some m => simp [hfree]

theorem Chained.next_le : t.next ≤ t.slots.length := by
  cases free with
  | nil => exact le_of_eq hc.next_eq
  | cons i rest =>
    obtain rfl : t.next = i := some.inj hc.path.1
    exact le_of_lt (hc.lt_length (.head _))

end

theorem Chained.push (hc : Chained t []) (hslot : slot.freeNext = none)
    (hlt : t.next + 1 < maxHandle) : Chained ⟨t.next + 1, t.slots ++ [slot]⟩ [] where
  path := by
    change some (t.next + 1) = some (t.slots ++ [slot]).length
    simp [hc.next_eq]
  nodup := nodup_nil
  mem_iff := by
    intro i
    rw [freeLink, getElem?_concat]
    split
    · simp [hslot]
    · exact hc.mem_iff i
  bound := by simpa [hc.next_eq] using hlt

theorem Chained.pop {rest : List ℕ} {m : ℕ} (hc : Chained t (t.next :: rest))
    (hslot : slot.freeNext = none) (hnext : t.freeLink t.next = some m) :
    Chained ⟨m, t.slots.set t.next slot⟩ rest := by
  have hlt := hc.lt_length (.head _)
  have hnot := (nodup_cons.mp hc.nodup).1
  refine ⟨?_, (nodup_cons.mp hc.nodup).2, fun j => ?_, by simpa using hc.bound⟩
  · have hpath := hc.path.2
    rw [hnext] at hpath
    rw [length_set]
    refine hpath.congr fun j hj => ?_
    rw [freeLink_set _ hlt, if_neg (ne_of_mem_of_not_mem hj hnot)]
  · rw [freeLink_set _ hlt]
    split
    · simp [*]
    · rename_i hj
      rw [← hc.mem_iff, mem_cons, or_iff_right hj]

/-- What a successful insertion of `slot` leaves behind. -/
structure Inserted (t : HandleTable) (free : List ℕ) (slot : Slot) (t' : HandleTable) : Prop where
  bound : t.next + 1 < maxHandle
  /-- It resolves to the slot; the other handles resolve as before. -/
  lookup : ∀ h, t'.lookup? h = if h = t.next + 1 then some slot else t.lookup? h
  /-- The chain has lost its head, if it had one. -/
  chained : Chained t' free.tail
  length : t'.slots.length = max t.slots.length (t.next + 1)
  /-- One more slot is occupied, by the content inserted. -/
  count : ∀ p : Slot → Bool, (∀ m, p (.free m) = false) →
    t'.slots.countP p = t.slots.countP p + if p slot then 1 else 0

theorem run_insert (slot : Slot) (reserve : Bool) (hb : t.next + 1 ≤ u32Max) :
    (insert slot reserve).run t =
      if maxHandle ≤ t.next + 1 then
        (.error (.error "cannot allocate another handle: index overflow"), t)
      else ((growSlots reserve) >>= fun _ => fillNext slot).run t := by
  rw [insert, run_bind, run_get]
  simp only []
  rw [run_bind, run_lift, addU32_of_le hb]
  simp only []
  split
  · rfl
  · rfl

theorem run_fillNext {m : ℕ} (hget : t.slots[t.next]? = some (.free m)) (hb : t.next + 1 ≤ u32Max) :
    (fillNext slot).run t = (.ok (t.next + 1), ⟨m, t.slots.set t.next slot⟩) := by
  rw [fillNext, run_bind]
  simp [hget, run_bind, addU32_of_le hb]

theorem run_growSlots_of_ne (reserve : Bool) (hne : t.next ≠ t.slots.length) :
    (growSlots reserve).run t = (.ok ⟨⟩, t) := by
  rw [growSlots, run_bind]
  simp [hne]

theorem run_growSlots_of_eq (reserve : Bool) (heq : t.next = t.slots.length)
    (hb : t.next + 1 ≤ u32Max) :
    (growSlots reserve).run t =
      if reserve then (.ok ⟨⟩, { t with slots := t.slots ++ [.free (t.next + 1)] })
      else (.error (.error "out of memory"), t) := by
  rw [growSlots, run_bind, run_get]
  simp only [if_pos heq]
  rw [addU32_of_le hb]
  cases reserve <;> rfl

/-- The next handle is in range, and its slot exists or can be allocated. -/
def HasRoom (t : HandleTable) (reserve : Bool) : Prop :=
  t.next + 1 < maxHandle ∧ (t.next = t.slots.length → reserve = true)

instance (t : HandleTable) (reserve : Bool) : Decidable (t.HasRoom reserve) :=
  inferInstanceAs (Decidable (_ ∧ _))

/-- **Insertion.**  Without room it returns an error and changes nothing; otherwise it
returns the handle of `next`, which was not live, and stores the slot there. -/
theorem insert_cases (hc : Chained t free) (slot : Slot) (hslot : slot.freeNext = none)
    (reserve : Bool) :
    (∃ msg, (insert slot reserve).run t = (.error (.error msg), t) ∧ ¬t.HasRoom reserve) ∨
      ∃ t', (insert slot reserve).run t = (.ok (t.next + 1), t') ∧ Inserted t free slot t' := by
  have hnext := hc.next_le
  have hbd := hc.bound
  have hb : t.next + 1 ≤ u32Max := by
    rw [maxHandle, u32Max] at *
    omega
  rw [run_insert slot reserve hb]
  by_cases hmax : maxHandle ≤ t.next + 1
  · exact .inl ⟨_, if_pos hmax, fun hroom => not_lt.mpr hmax hroom.1⟩
  rw [if_neg hmax]
  cases free with
  | nil =>
    have heq := hc.next_eq
    cases reserve with
    | false =>
      refine .inl ⟨"out of memory", ?_, fun hroom => Bool.false_ne_true (hroom.2 heq)⟩
      exact run_bind_error (run_growSlots_of_eq false heq hb) _
    | true =>
      refine .inr ⟨⟨t.next + 1, t.slots ++ [slot]⟩, ?_, by omega, ?_, ?_, ?_, ?_⟩
      · rw [run_bind_ok (run_growSlots_of_eq true heq hb)]
        refine (run_fillNext (t := ⟨t.next, t.slots ++ [.free (t.next + 1)]⟩)
          (m := t.next + 1) ?_ hb).trans ?_
        · simp [heq]
        · simp [heq]
      · intro h
        cases h with
        | zero => simp
        | succ j =>
          rw [lookup?_succ, lookup?_succ, heq]
          by_cases hj : j = t.slots.length <;> simp [getElem?_concat, hj, hslot]
      · exact hc.push hslot (by omega)
      · simp [heq]
      · intro p _
        simp [countP_append, countP_cons]
  | cons i rest =>
    obtain rfl : t.next = i := some.inj hc.path.1
    have hlt := hc.lt_length (.head _)
    obtain ⟨m, hm⟩ := isSome_iff_exists.mp ((hc.mem_iff t.next).mp (.head _))
    have hget : t.slots[t.next]? = some (.free m) := by
      rw [freeLink, bind_eq_some_iff] at hm
      obtain ⟨s, hs, hm⟩ := hm
      cases s with
      | free n =>
        rw [hs, some.inj hm]
      | _ => cases hm
    refine .inr ⟨⟨m, t.slots.set t.next slot⟩, ?_, by omega, ?_, hc.pop hslot hm, ?_, ?_⟩
    · rw [run_bind_ok (run_growSlots_of_ne reserve (ne_of_lt hlt)), run_fillNext hget hb]
    · intro h
      exact lookup?_set hlt m h slot hslot
    · rw [length_set]
      omega
    · intro p hp
      have hold : p t.slots[t.next] = false := by
        rw [(List.getElem?_eq_some_iff.mp hget).2, hp]
      simp [countP_set hlt, hold]

end HandleTable

/-! ## Operations and their runs -/

/-- The operations of the table, with their arguments. -/
inductive TableOp
  | resourceOwnInsert (resource : TypedResource) (reserve : Bool)
  | resourceBorrowInsert (resource : TypedResource) (scope : ℕ) (reserve : Bool)
  | resourceRep (idx : TypedResourceIndex)
  | resourceLend (idx : TypedResourceIndex)
  | resourceUndoLend (idx : TypedResourceIndex)
  | removeResource (idx : TypedResourceIndex)
  | streamInsertRead (ty rep : ℕ) (reserve : Bool)
  | streamInsertWrite (ty rep : ℕ) (reserve : Bool)
  | streamRep (expectedTy idx : ℕ) (write : TransmitLocalState → TransmitLocalState)
  | streamRemoveReadable (expectedTy idx : ℕ)
  | streamRemoveWritable (expectedTy idx : ℕ)
  | futureInsertRead (ty rep : ℕ) (reserve : Bool)
  | futureInsertWrite (ty rep : ℕ) (reserve : Bool)
  | futureRep (expectedTy idx : ℕ) (write : TransmitLocalState → TransmitLocalState)
  | futureRemoveReadable (expectedTy idx : ℕ)
  | futureRemoveWritable (expectedTy idx : ℕ)
  | errorContextInsert (rep : ℕ) (reserve : Bool)
  | errorContextRep (idx : ℕ)
  | errorContextDrop (idx : ℕ)
  | subtaskInsertGuest (rep : ℕ) (reserve : Bool)
  | subtaskInsertHost (rep : ℕ) (reserve : Bool)
  | subtaskRep (idx : ℕ)
  | subtaskRemove (idx : ℕ)
  | waitableSetInsert (rep : ℕ) (reserve : Bool)
  | waitableSetRep (idx : ℕ)
  | waitableSetRemove (idx : ℕ)
  | waitableRep (idx : ℕ)
  | guestThreadInsert (rep : ℕ) (reserve : Bool)
  | guestThreadRep (idx : ℕ)
  | guestThreadRemove (idx : ℕ)

/-- What an operation returns. -/
inductive Reply
  | unit
  | handle (idx : ℕ)
  | rep (rep : ℕ)
  | flagged (rep : ℕ) (flag : Bool)
  | transmit (rep : ℕ) (state : TransmitLocalState)
  | removed (resource : RemovedResource)
  | waitable (rep : ℕ) (kind : Waitable)
  deriving DecidableEq

def Reply.ofFlagged (p : ℕ × Bool) : Reply := .flagged p.1 p.2

def Reply.ofTransmit (p : ℕ × TransmitLocalState) : Reply := .transmit p.1 p.2

namespace TableOp

open HandleTable

/-- What an operation calls. -/
def call : TableOp → Call HandleTable Reply
  | resourceOwnInsert r m => .handle <$> HandleTable.resourceOwnInsert r m
  | resourceBorrowInsert r scope m => .handle <$> HandleTable.resourceBorrowInsert r scope m
  | resourceRep idx => .rep <$> HandleTable.resourceRep idx
  | resourceLend idx => .ofFlagged <$> HandleTable.resourceLend idx
  | resourceUndoLend idx => (fun _ => .unit) <$> HandleTable.resourceUndoLend idx
  | removeResource idx => .removed <$> HandleTable.removeResource idx
  | streamInsertRead ty rep m => .handle <$> HandleTable.streamInsertRead ty rep m
  | streamInsertWrite ty rep m => .handle <$> HandleTable.streamInsertWrite ty rep m
  | streamRep ty idx write => .ofTransmit <$> HandleTable.streamRep ty idx write
  | streamRemoveReadable ty idx => .ofFlagged <$> HandleTable.streamRemoveReadable ty idx
  | streamRemoveWritable ty idx => .rep <$> HandleTable.streamRemoveWritable ty idx
  | futureInsertRead ty rep m => .handle <$> HandleTable.futureInsertRead ty rep m
  | futureInsertWrite ty rep m => .handle <$> HandleTable.futureInsertWrite ty rep m
  | futureRep ty idx write => .ofTransmit <$> HandleTable.futureRep ty idx write
  | futureRemoveReadable ty idx => .ofFlagged <$> HandleTable.futureRemoveReadable ty idx
  | futureRemoveWritable ty idx => .rep <$> HandleTable.futureRemoveWritable ty idx
  | errorContextInsert rep m => .handle <$> HandleTable.errorContextInsert rep m
  | errorContextRep idx => .rep <$> HandleTable.errorContextRep idx
  | errorContextDrop idx => .rep <$> HandleTable.errorContextDrop idx
  | subtaskInsertGuest rep m => .handle <$> HandleTable.subtaskInsertGuest rep m
  | subtaskInsertHost rep m => .handle <$> HandleTable.subtaskInsertHost rep m
  | subtaskRep idx => .ofFlagged <$> HandleTable.subtaskRep idx
  | subtaskRemove idx => .ofFlagged <$> HandleTable.subtaskRemove idx
  | waitableSetInsert rep m => .handle <$> HandleTable.waitableSetInsert rep m
  | waitableSetRep idx => .rep <$> HandleTable.waitableSetRep idx
  | waitableSetRemove idx => .rep <$> HandleTable.waitableSetRemove idx
  | waitableRep idx => (fun p => .waitable p.1 p.2) <$> HandleTable.waitableRep idx
  | guestThreadInsert rep m => .handle <$> HandleTable.guestThreadInsert rep m
  | guestThreadRep idx => .rep <$> HandleTable.guestThreadRep idx
  | guestThreadRemove idx => .rep <$> HandleTable.guestThreadRemove idx

end TableOp

/-- What an operation is for: the contents of the handles after it succeeds. -/
inductive Action
  | insert (slot : Slot)
  | release (idx : ℕ)
  | write (idx : ℕ) (f : Slot → Slot)
  | read

/-- Changes the count of lendings. -/
def Slot.lend (f : ℕ → ℕ) : Slot → Slot
  | resourceOwn resource lendCount => resourceOwn resource (f lendCount)
  | slot => slot

/-- Changes the state of a stream or future. -/
def Slot.transmit (write : TransmitLocalState → TransmitLocalState) : Slot → Slot
  | stream ty rep state => stream ty rep (write state)
  | future ty rep state => future ty rep (write state)
  | slot => slot

/-- The purpose of each operation. -/
def TableOp.action : TableOp → Action
  | resourceOwnInsert r _ => .insert (.resourceOwn r 0)
  | resourceBorrowInsert r scope _ => .insert (.resourceBorrow r scope)
  | resourceLend idx => .write idx.rawIndex (Slot.lend (· + 1))
  | resourceUndoLend idx => .write idx.rawIndex (Slot.lend (· - 1))
  | removeResource idx => .release idx.rawIndex
  | streamInsertRead ty rep _ => .insert (.stream ty rep (.read false))
  | streamInsertWrite ty rep _ => .insert (.stream ty rep (.write false))
  | futureInsertRead ty rep _ => .insert (.future ty rep (.read false))
  | futureInsertWrite ty rep _ => .insert (.future ty rep (.write false))
  | streamRep _ idx write | futureRep _ idx write => .write idx (Slot.transmit write)
  | errorContextInsert rep _ => .insert (.errorContext rep)
  | subtaskInsertGuest rep _ => .insert (.guestTask rep)
  | subtaskInsertHost rep _ => .insert (.hostTask rep)
  | waitableSetInsert rep _ => .insert (.waitableSet rep)
  | guestThreadInsert rep _ => .insert (.guestThread rep)
  | streamRemoveReadable _ idx | streamRemoveWritable _ idx | futureRemoveReadable _ idx
  | futureRemoveWritable _ idx | errorContextDrop idx | subtaskRemove idx
  | waitableSetRemove idx | guestThreadRemove idx => .release idx
  | resourceRep _ | errorContextRep _ | subtaskRep _ | waitableSetRep _ | waitableRep _
  | guestThreadRep _ => .read

/-- What an operation with the given purpose can do to a table with a chained free list. -/
inductive Outcome (t : HandleTable) (free : List ℕ) : Action → Exec Reply × HandleTable → Prop
  | failed {a : Action} (e : Fault) : Outcome t free a (.error e, t)
  | inserted {slot : Slot} {t' : HandleTable} (hslot : slot.freeNext = none)
      (h : t.Inserted free slot t') :
      Outcome t free (.insert slot) (.ok (.handle (t.next + 1)), t')
  | released {idx : ℕ} {slot : Slot} (reply : Reply) (h : t.lookup? idx = some slot) :
      Outcome t free (.release idx)
        (.ok reply, ⟨idx - 1, t.slots.set (idx - 1) (.free t.next)⟩)
  | written {idx : ℕ} {f : Slot → Slot} {slot : Slot} (reply : Reply)
      (h : t.lookup? idx = some slot) (hf : (f slot).freeNext = none) :
      Outcome t free (.write idx f)
        (.ok reply, { t with slots := t.slots.set (idx - 1) (f slot) })
  | read (reply : Reply) : Outcome t free .read (.ok reply, t)

namespace Outcome

open HandleTable

theorem of_insert (hc : t.Chained free) {slot : Slot} (hslot : slot.freeNext = none)
    (reserve : Bool) :
    Outcome t free (.insert slot) ((Reply.handle <$> insert slot reserve).run t) := by
  rw [run_map]
  rcases insert_cases hc _ hslot reserve with ⟨msg, hrun, -⟩ | ⟨t', hrun, hins⟩
  · rw [hrun]
    exact .failed _
  · rw [hrun]
    exact .inserted hslot hins

theorem of_inspect (idx : ℕ) (view : Slot → Exec α) (reply : α → Reply) :
    Outcome t free .read ((reply <$> inspect idx view).run t) := by
  rw [run_map, run_inspect]
  cases okOr (t.lookup? idx) ("unknown handle index " ++ toString idx) >>= view with
  | error e => exact .failed e
  | ok a => exact .read (reply a)

theorem of_take (idx : ℕ) (view : Slot → Exec α) (reply : α → Reply) :
    Outcome t free (.release idx) ((reply <$> take idx view).run t) := by
  rw [run_map, run_take]
  cases hl : t.lookup? idx with
  | none => exact .failed _
  | some slot =>
    rw [okOr_some, ok_bind]
    cases view slot with
    | error e => exact .failed e
    | ok a => exact .released (reply a) hl

/-- An operation that writes `f slot` whenever its check of `slot` succeeds. -/
theorem of_update (idx : ℕ) {view : Slot → Exec (α × Slot)} {f : Slot → Slot}
    (hview : ∀ slot p, view slot = .ok p → p.2 = f slot)
    (hf : ∀ slot, slot.freeNext = none → (f slot).freeNext = none) (reply : α → Reply) :
    Outcome t free (.write idx f) ((reply <$> update idx view).run t) := by
  rw [run_map, run_update]
  cases hl : t.lookup? idx with
  | none => exact .failed _
  | some slot =>
    rw [okOr_some, ok_bind]
    cases hv : view slot with
    | error e => exact .failed e
    | ok p =>
      obtain ⟨a, slot'⟩ := p
      obtain rfl : slot' = f slot := hview slot _ hv
      exact .written (reply a) hl (hf slot (lookup?_ne_free hl))

end Outcome

theorem Slot.freeNext_lend (f : ℕ → ℕ) (slot : Slot) (h : slot.freeNext = none) :
    (slot.lend f).freeNext = none := by
  cases slot <;> first | rfl | exact h

namespace HandleTable

open TransmitKind

theorem outcome_resourceLend (idx : TypedResourceIndex) :
    Outcome t free (.write idx.rawIndex (Slot.lend (· + 1)))
      ((Reply.ofFlagged <$> resourceLend idx).run t) := by
  refine .of_update _ ?_ (Slot.freeNext_lend _) _
  intro slot p hp
  cases slot with
  | resourceOwn resource lendCount =>
    obtain ⟨rep, -, hp⟩ := bind_eq_ok.mp hp
    obtain ⟨n, hn, hp⟩ := bind_eq_ok.mp hp
    obtain ⟨-, rfl⟩ := addU32_eq_ok.mp hn
    rw [← ok.inj hp]
    rfl
  | resourceBorrow resource scope =>
    obtain ⟨rep, -, hp⟩ := bind_eq_ok.mp hp
    rw [← ok.inj hp]
    rfl
  | _ => cases hp

theorem outcome_resourceUndoLend (idx : TypedResourceIndex) :
    Outcome t free (.write idx.rawIndex (Slot.lend (· - 1)))
      (((fun _ => Reply.unit) <$> resourceUndoLend idx).run t) := by
  refine .of_update _ ?_ (Slot.freeNext_lend _) _
  intro slot p hp
  cases slot with
  | resourceOwn resource lendCount =>
    obtain ⟨n, hn, hp⟩ := bind_eq_ok.mp hp
    obtain ⟨-, rfl⟩ := subU32_eq_ok.mp hn
    rw [← ok.inj hp]
    rfl
  | _ => cases hp

/-- A slot that passes the check of a transmission is the slot of that transmission. -/
theorem slot_eq_of_view {k : TransmitKind} {expectedTy : ℕ} {slot : Slot}
    {p : ℕ × TransmitLocalState} (h : k.view expectedTy slot = .ok p) :
    slot = k.slot expectedTy p.1 p.2 := by
  cases slot with
  | stream ty rep state =>
    cases k with
    | future => cases h
    | stream =>
      simp only [view, ne_eq, not_true_eq_false, if_false] at h
      split at h
      · cases h
      · rename_i hty
        rw [← ok.inj h, not_not.mp hty]
        rfl
  | future ty rep state =>
    cases k with
    | stream => cases h
    | future =>
      simp only [view, ne_eq, not_true_eq_false, if_false] at h
      split at h
      · cases h
      · rename_i hty
        rw [← ok.inj h, not_not.mp hty]
        rfl
  | _ => cases h

theorem outcome_access (k : TransmitKind) (expectedTy idx : ℕ)
    (write : TransmitLocalState → TransmitLocalState) :
    Outcome t free (.write idx (Slot.transmit write))
      ((Reply.ofTransmit <$> k.access expectedTy idx write).run t) := by
  refine .of_update _ ?_ (fun slot h => by cases slot <;> first | rfl | exact h) _
  intro slot p hp
  obtain ⟨q, hq, hp⟩ := bind_eq_ok.mp hp
  rw [slot_eq_of_view hq, ← ok.inj hp]
  cases k <;> rfl

end HandleTable

/-- **Every operation** fails without a trace or does what it is for. -/
theorem TableOp.outcome (hc : t.Chained free) (op : TableOp) :
    Outcome t free op.action (op.call.run t) := by
  cases op with
  | resourceOwnInsert | resourceBorrowInsert | streamInsertRead | streamInsertWrite
  | futureInsertRead | futureInsertWrite | errorContextInsert | subtaskInsertGuest
  | subtaskInsertHost | waitableSetInsert | guestThreadInsert => exact .of_insert hc rfl _
  | resourceRep | errorContextRep | subtaskRep | waitableSetRep | waitableRep | guestThreadRep =>
    exact .of_inspect _ _ _
  | removeResource | streamRemoveReadable | streamRemoveWritable | futureRemoveReadable
  | futureRemoveWritable | errorContextDrop | subtaskRemove | waitableSetRemove
  | guestThreadRemove => exact .of_take _ _ _
  | resourceLend idx => exact outcome_resourceLend idx
  | resourceUndoLend idx => exact outcome_resourceUndoLend idx
  | streamRep ty idx write | futureRep ty idx write =>
    exact outcome_access _ ty idx write

/-- The table with what is expected of it: each handle's content and the handles given out. -/
structure TableRun where
  table : HandleTable
  /-- The content each handle should have: what was inserted, as updated since. -/
  live : ℕ → Option Slot
  issued : List ℕ

namespace TableRun

/-- The expectation after an operation that succeeded. -/
def record (s : TableRun) (table : HandleTable) : Action → Reply → TableRun
  | .insert slot, .handle h =>
    ⟨table, update s.live h (some slot), h :: s.issued⟩
  | .release idx, _ => ⟨table, update s.live idx none, s.issued⟩
  | .write idx f, _ => ⟨table, update s.live idx ((s.live idx).map f), s.issued⟩
  | _, _ => ⟨table, s.live, s.issued⟩

/-- One operation.  After an `Err` the run goes on with the table as the operation left
it; a panic ends the run. -/
def step (s : TableRun) (op : TableOp) : Exec TableRun :=
  match op.call.run s.table with
  | (.ok reply, table) => pure (s.record table op.action reply)
  | (.error (.error _), table) => pure { s with table := table }
  | (.error e, _) => throw e

end TableRun

/-- All runs of the table from the empty one. -/
def tableMachine : Machine TableRun TableOp where
  start := fun s => s = ⟨.default, fun _ => none, []⟩
  allowed := fun _ _ => True
  step := TableRun.step

instance (s : TableRun) (op : TableOp) : Decidable (tableMachine.allowed s op) :=
  inferInstanceAs (Decidable True)

/-- The table agrees with its history. -/
structure TableRun.Holds (s : TableRun) (free : List ℕ) : Prop where
  chained : s.table.Chained free
  /-- Every handle resolves to its content. -/
  lookup : ∀ h, s.table.lookup? h = s.live h
  /-- The handles issued are those of the slots. -/
  issued : ∀ h, h ∈ s.issued ↔ 1 ≤ h ∧ h ≤ s.table.slots.length

namespace TableRun.Holds

open HandleTable

variable {s s' : TableRun}

theorem step (hs : s.Holds free) {op : TableOp} (hok : s.step op = .ok s') :
    ∃ free', s'.Holds free' := by
  have hout := op.outcome hs.chained
  rw [TableRun.step] at hok
  generalize hrun : op.call.run s.table = r at hok hout
  generalize hact : op.action = a at hok hout
  cases hout with
  | failed e =>
    cases e with
    | error msg =>
      rw [← ok.inj hok]
      exact ⟨free, hs⟩
    | panic msg => cases hok
    | outOfFuel => cases hok
  | @inserted slot t' hslot hins =>
    rw [← ok.inj hok]
    refine ⟨free.tail, hins.chained, ?_, ?_⟩
    · intro h
      simp only [record]
      rw [hins.lookup, update_apply, hs.lookup]
    · intro h
      have hle := hs.chained.next_le
      rw [record, mem_cons, hs.issued, hins.length]
      omega
  | @released idx slot reply hl =>
    rw [← ok.inj hok]
    have hpos := pos_of_lookup? hl
    refine ⟨(idx - 1) :: free, hs.chained.release hl, ?_, ?_⟩
    · intro h
      simp only [record]
      rw [lookup?_set_free, update_apply, hs.lookup, Nat.sub_add_cancel hpos]
    · intro h
      simp [record, hs.issued]
  | @written idx f slot reply hl hf =>
    rw [← ok.inj hok]
    obtain ⟨i, rfl, hi, -⟩ := lookup?_eq_some.mp hl
    refine ⟨free, hs.chained.store hl hf, ?_, ?_⟩
    · intro h
      simp only [record, Nat.add_sub_cancel]
      rw [update_apply, ← hs.lookup (i + 1), hl, ← hs.lookup]
      exact lookup?_set (lt_of_getElem? hi) _ _ _ hf
    · intro h
      simp [record, hs.issued]
  | read reply =>
    rw [← ok.inj hok]
    exact ⟨free, hs⟩

theorem mem_free_iff (hs : s.Holds free) (i : ℕ) :
    i ∈ free ↔ i + 1 ∈ s.issued ∧ s.live (i + 1) = none := by
  rw [hs.chained.mem_iff, hs.issued, ← hs.lookup, lookup?_succ, freeLink]
  by_cases hi : i < s.table.slots.length
  · cases hfree : (s.table.slots[i]).freeNext with
    | none => simp [hi, hfree]
    | some m => simp [hi, hfree, Nat.succ_le_of_lt hi]
  · rw [getElem?_eq_none (Nat.le_of_not_lt hi)]
    simp
    omega

end TableRun.Holds

theorem exists_holds {s : TableRun} (hs : tableMachine.Reaches s) : ∃ free, s.Holds free := by
  refine Machine.Reaches.invariant (P := fun s => ∃ free, TableRun.Holds s free) ?_ ?_ hs
  · rintro s rfl
    refine ⟨[], chained_default, ?_, ?_⟩
    · intro h
      cases h <;> rfl
    · intro h
      simp [HandleTable.default]
      omega
  · intro s op s' hs _ hok
    obtain ⟨free, hs⟩ := hs
    exact hs.step hok

/-- **The handle table.**  In every state that a run of operations reaches, failed
operations included: every handle resolves to exactly its content; the free slots,
followed from `next`, form a list without repetition that ends one past the last slot
and holds exactly the slots of the handles given up; a handle that an insertion returns
is in range and not live; and an operation that returns an error leaves the table
unchanged. -/
theorem handleTable_sound {s : TableRun} (hs : tableMachine.Reaches s) :
    (∀ h, (HandleTable.getMut h).run s.table =
      (okOr (s.live h) ("unknown handle index " ++ toString h), s.table)) ∧
    (∃ free, Path s.table.freeLink (some s.table.next) free (some s.table.slots.length) ∧
      free.Nodup ∧ (∀ i, i ∈ free ↔ (s.table.freeLink i).isSome) ∧
      ∀ i, i ∈ free ↔ i + 1 ∈ s.issued ∧ s.live (i + 1) = none) ∧
    (∀ (op : TableOp) slot h t, op.action = .insert slot →
      op.call.run s.table = (.ok (.handle h), t) → 1 ≤ h ∧ h < maxHandle ∧ s.live h = none) ∧
    ∀ (op : TableOp) msg, (op.call.run s.table).1 = .error (.error msg) →
      (op.call.run s.table).2 = s.table := by
  obtain ⟨free, hs⟩ := exists_holds hs
  refine ⟨?_, ⟨free, hs.chained.path, hs.chained.nodup, hs.chained.mem_iff, hs.mem_free_iff⟩,
    ?_, ?_⟩
  · intro h
    rw [run_getMut, hs.lookup]
  · intro op slot h t hact hrun
    have hout := op.outcome hs.chained
    rw [hact, hrun] at hout
    cases hout with
    | inserted hslot hins =>
      refine ⟨by omega, hins.bound, ?_⟩
      rw [← hs.lookup]
      exact hs.chained.lookup?_next
  intro op msg herr
  have hout := op.outcome hs.chained
  generalize op.call.run s.table = r at herr hout
  generalize op.action = a at hout
  cases hout with
  | failed e => rfl
  | inserted => cases herr
  | released => cases herr
  | written => cases herr
  | read => cases herr

/-- An owned resource and a stream; the resource is lent, so that it cannot be removed,
and the slot of the stream, once freed, is used again. -/
theorem handleTable_sound_reused :
    ∃ s, tableMachine.Reaches s ∧ (s.issued = [2, 2, 1] ∧ s.table.slots.length = 2) ∧
      ∀ (op : TableOp) msg, (op.call.run s.table).1 = .error (.error msg) →
        (op.call.run s.table).2 = s.table := by
  obtain ⟨s, hs, hp⟩ := Machine.reaches_of_run? (M := tableMachine)
    (p := fun s => decide (s.issued = [2, 2, 1] ∧ s.table.slots.length = 2))
    [.resourceOwnInsert (.host 7) true, .streamInsertRead 0 9 true, .resourceLend (.host 1),
      .removeResource (.host 1), .streamRemoveReadable 0 2, .errorContextInsert 5 true] rfl
    (by decide +kernel)
  exact ⟨s, hs, of_decide_eq_true hp, (handleTable_sound hs).2.2.2⟩

end WasmDeps.Component
