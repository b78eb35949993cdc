import WasmDeps.Lib.Exec
import WasmDeps.Lib.LinkedList
import Mathlib.Algebra.BigOperators.Group.List.Basic

/-!
# The slot allocator of the pooling allocator

`ModuleAffinityIndexAllocator` hands out slot indices.  A slot that was never used
is *cold*; one that was used and freed is *warm* and remembers the module memory it
was last used for.  Warm slots sit in up to two intrusive lists whose links live in
the slot states: the list of all warm slots, and the list of the warm slots with one
affinity.

The mutex of the source is left out: every operation holds it from start to end.
-/

namespace WasmDeps.Pooling

open WasmDeps.Lib List

/-- A defined memory of a compiled module. -/
structure MemoryInModule where
  moduleId : ℕ
  memoryIndex : ℕ
  deriving DecidableEq, Repr

/-- What a warm slot records. -/
structure Unused where
  /-- The memory this slot was last used for, if any. -/
  affinity : Option MemoryInModule
  /-- How many of its bytes are kept resident. -/
  bytesResident : ℕ
  affineListLink : Link ℕ
  /-- Its links in the list of all warm slots. -/
  unusedListLink : Link ℕ
  deriving DecidableEq, Repr

/-- The states of a slot. -/
inductive SlotState
  | used (affinity : Option MemoryInModule)
  | unusedCold
  | unusedWarm (u : Unused)
  deriving DecidableEq, Repr

/-- Which of the two links of a slot a list uses. -/
inductive Lens
  | affine
  | unused
  deriving DecidableEq, Repr

/-- The link of one of the two lists. -/
def Lens.get : Lens → Unused → Link ℕ
  | .affine, u => u.affineListLink
  | .unused, u => u.unusedListLink

/-- Changes the link of one of the two lists. -/
def Lens.modify (f : Link ℕ → Link ℕ) : Lens → Unused → Unused
  | .affine, u => { u with affineListLink := f u.affineListLink }
  | .unused, u => { u with unusedListLink := f u.unusedListLink }

variable (states : List SlotState)

/-- The unused warm slot at an index. -/
def unwrapUnused (i : ℕ) : Exec Unused :=
  match states[i]? with
  | some (.unusedWarm u) => pure u
  | some _ => throw (.panic "internal error: entered unreachable code")
  | none => throw (.panic "index out of bounds")

/-- Changes a link of a slot. -/
def modifyLink (lens : Lens) (i : ℕ) (f : Link ℕ → Link ℕ) :
    Exec (List SlotState) := do
  let u ← unwrapUnused states i
  pure (states.set i (.unusedWarm (lens.modify f u)))

/-- The source's `List`: the two ends of an intrusive list of slots. -/
abbrev SlotList := Ends ℕ

namespace SlotList

def default : SlotList := ⟨none, none⟩

def new (id : ℕ) : SlotList := ⟨some id, some id⟩

/-- The link update that appending and removing share: `match neighbour`, where a
neighbour gets a new link and a missing one means that the end of the list moves. -/
def relink (states : List SlotState) (lens : Lens) (neighbour : Option ℕ)
    (f : Link ℕ → Link ℕ) (oldEnd newEnd : Option ℕ) : Exec (List SlotState × Option ℕ) :=
  match neighbour with
  | some slot => do
    let states ← modifyLink states lens slot f
    pure (states, oldEnd)
  | none => pure (states, newEnd)

/-- Append a slot; returns the list, the slot states and the link for the slot. -/
def append (l : SlotList) (id : ℕ) (states : List SlotState) (lens : Lens) :
    Exec (SlotList × List SlotState × Link ℕ) := do
  let (states, head) ← relink states lens l.tail (fun k => { k with next := some id })
    l.head (some id)
  pure (⟨head, some id⟩, states, ⟨l.tail, none⟩)

/-- Takes a slot off a list. -/
def remove (l : SlotList) (id : ℕ) (states : List SlotState) (lens : Lens) :
    Exec (SlotList × List SlotState) := do
  let state ← unwrapUnused states id
  let next := (lens.get state).next
  let prev := (lens.get state).prev
  let (states, tail) ← relink states lens next (fun k => { k with prev := prev }) l.tail prev
  let (states, head) ← relink states lens prev (fun k => { k with next := next }) l.head next
  pure (⟨head, tail⟩, states)

/-- The walk of `List::iter` from `cur`, with the slot visited before it. -/
def walk (l : SlotList) (states : List SlotState) (lens : Lens) :
    ℕ → Option ℕ → Option ℕ → Exec (List ℕ)
  | _, none, prev => do
    ensure (prev = l.tail) "assertion failed: prev == self.tail"
    pure []
  | 0, some _, _ => throw (.panic "the walk does not end")
  | fuel + 1, some cur, prev => do
    let u ← unwrapUnused states cur
    ensure ((lens.get u).prev = prev) "assertion failed: link(u).prev == prev"
    let rest ← walk l states lens fuel (lens.get u).next (some cur)
    pure (cur :: rest)

/-- `List::iter`, collected.  A walk longer than the slot vector repeats a slot, so
the length of the vector bounds every walk that ends. -/
def iter (l : SlotList) (states : List SlotState) (lens : Lens) : Exec (List ℕ) :=
  walk l states lens states.length l.head none

end SlotList

/-- The state of an allocator. -/
structure Inner where
  /-- How many unused warm slots allocation allows. -/
  maxUnusedWarmSlots : ℕ
  unusedWarmSlots : ℕ
  warm : SlotList
  lastCold : ℕ
  slotState : List SlotState
  /-- The unused warm slots of each affinity. -/
  moduleAffine : MemoryInModule → Option SlotList
  unusedBytesResident : ℕ

/-- How a slot is looked for. -/
inductive AllocMode
  | forceAffineAndClear
  | anySlot
  deriving DecidableEq, Repr

/-- The affinity that an allocated slot records. -/
def AllocMode.affinity (forMemory : Option MemoryInModule) : AllocMode → Option MemoryInModule
  | .forceAffineAndClear => none
  | .anySlot => forMemory

namespace Inner

/-- The allocator for `capacity` slots, all of them cold. -/
def new (capacity maxUnusedWarmSlots : ℕ) : Inner where
  maxUnusedWarmSlots := maxUnusedWarmSlots
  unusedWarmSlots := 0
  warm := SlotList.default
  lastCold := 0
  slotState := List.replicate capacity .unusedCold
  moduleAffine := fun _ => none
  unusedBytesResident := 0

variable (s : Inner)

/-- Take a slot out of the list of its affinity, dropping the list when it is empty. -/
def removeAffine (slot : ℕ) (m : MemoryInModule) : Exec Inner := do
  let list ← unwrap (s.moduleAffine m) "internal error: entered unreachable code"
  let (list, slotState) ← list.remove slot s.slotState .affine
  let entry := if list.head.isNone then none else some list
  pure { s with slotState, moduleAffine := Function.update s.moduleAffine m entry }

/-- Takes a slot off both lists. -/
def remove (s : Inner) (slot : ℕ) : Exec Inner := do
  let unusedWarmSlots ← subU32 s.unusedWarmSlots 1
  let (warm, slotState) ← s.warm.remove slot s.slotState .unused
  let s := { s with unusedWarmSlots, warm, slotState }
  let u ← unwrapUnused s.slotState slot
  match u.affinity with
  | some m => s.removeAffine slot m
  | none => pure s

variable (forMemory : Option MemoryInModule)

/-- The most recently freed slot with the given affinity. -/
def pickAffine : Exec (Inner × Option ℕ) :=
  match (forMemory.bind s.moduleAffine).bind Ends.tail with
  | none => pure (s, none)
  | some slot => do
    let s ← s.remove slot
    pure (s, some slot)

/-- The least recently freed slot. -/
def pickWarm : Exec (Inner × Option ℕ) :=
  match s.warm.head with
  | none => pure (s, none)
  | some slot => do
    let s ← s.remove slot
    pure (s, some slot)

/-- Picks the first slot that was never used. -/
def pickCold : Exec (Inner × Option ℕ) :=
  if s.lastCold = s.slotState.length then pure (s, none)
  else do
    let lastCold ← addU32 s.lastCold 1
    pure ({ s with lastCold }, some s.lastCold)

/-- The slot to use when none has the wanted affinity. -/
def pickAny : Exec (Inner × Option ℕ) :=
  if s.unusedWarmSlots < s.maxUnusedWarmSlots then do
    let (s, slot) ← s.pickCold
    match slot with
    | some slot => pure (s, some slot)
    | none => s.pickWarm
  else do
    let (s, slot) ← s.pickWarm
    match slot with
    | some slot => pure (s, some slot)
    | none =>
      ensure (s.maxUnusedWarmSlots = 0) "assertion failed: inner.max_unused_warm_slots == 0"
      s.pickCold

/-- Picks a slot: with affinity, then warm or cold as the mode and the limit say. -/
def pick (mode : AllocMode) :
    Exec (Inner × Option ℕ) := do
  let (s, slot) ← s.pickAffine forMemory
  match slot with
  | some slot => pure (s, some slot)
  | none =>
    match mode with
    | .anySlot => s.pickAny
    | .forceAffineAndClear => pure (s, none)

/-- Marks a slot as used and takes its bytes off the count. -/
def take (slot : ℕ) (affinity : Option MemoryInModule) : Exec Inner := do
  let state ← unwrap s.slotState[slot]? "index out of bounds"
  let unusedBytesResident ← match state with
    | .unusedWarm u => subUsize s.unusedBytesResident u.bytesResident
    | _ => pure s.unusedBytesResident
  pure { s with unusedBytesResident, slotState := s.slotState.set slot (.used affinity) }

/-- Picks a slot and takes it. -/
def allocWith (mode : AllocMode) :
    Exec (Inner × Option ℕ) := do
  let (s, slot) ← s.pick forMemory mode
  match slot with
  | none => pure (s, none)
  | some slot => do
    let s ← s.take slot (mode.affinity forMemory)
    pure (s, some slot)

/-- Allocates a slot. -/
def alloc : Exec (Inner × Option ℕ) :=
  s.allocWith forMemory .anySlot

/-- Allocate a slot of the given affinity, which it then forgets. -/
def allocAffineAndClearAffinity (m : MemoryInModule) : Exec (Inner × Option ℕ) :=
  s.allocWith (some m) .forceAffineAndClear

/-- Append a freed slot to the list of its affinity. -/
def appendAffine (index : ℕ) (affinity : Option MemoryInModule) :
    Exec (Inner × Link ℕ) :=
  match affinity with
  | some m =>
    match s.moduleAffine m with
    | some list => do
      let (list, slotState, link) ← list.append index s.slotState .affine
      pure ({ s with slotState, moduleAffine := Function.update s.moduleAffine m list }, link)
    | none =>
      let list := some (SlotList.new index)
      pure ({ s with moduleAffine := Function.update s.moduleAffine m list }, ⟨none, none⟩)
  | none => pure (s, ⟨none, none⟩)

/-- Frees a slot, which becomes warm. -/
def free (index bytesResident : ℕ) : Exec Inner := do
  let affinity ← match s.slotState[index]? with
    | some (.used affinity) => pure affinity
    | some _ => throw (.panic "internal error: entered unreachable code")
    | none => throw (.panic "index out of bounds")
  let unusedWarmSlots ← addU32 s.unusedWarmSlots 1
  let (warm, slotState, unusedListLink) ← s.warm.append index s.slotState .unused
  let (s, affineListLink) ←
    { s with unusedWarmSlots, warm, slotState }.appendAffine index affinity
  let unusedBytesResident ← addUsize s.unusedBytesResident bytesResident
  let unused : Unused := { affinity, bytesResident, affineListLink, unusedListLink }
  pure { s with unusedBytesResident, slotState := s.slotState.set index (.unusedWarm unused) }

end Inner

/-! ## Links, and slots without their links

The list operations change links only.  What they do is said by `linkOf`, the link a
slot has in one of the two lists, and by `SlotState.bare`, which forgets both. -/

/-- The link of a slot on one of the lists. -/
def linkOf (lens : Lens) (states : List SlotState) (i : ℕ) : Option (Link ℕ) :=
  match states[i]? with
  | some (.unusedWarm u) => some (lens.get u)
  | _ => none

/-- The state without its links. -/
def SlotState.bare : SlotState → SlotState
  | .unusedWarm u =>
    .unusedWarm { u with affineListLink := ⟨none, none⟩, unusedListLink := ⟨none, none⟩ }
  | st => st

/-- The links of the other list are the same. -/
abbrev OtherLinks (lens : Lens) (states' states : List SlotState) : Prop :=
  ∀ lens', lens' ≠ lens → linkOf lens' states' = linkOf lens' states

/-- The slots are the same up to their links. -/
def SameSlots (states' states : List SlotState) : Prop :=
  states'.map SlotState.bare = states.map SlotState.bare

/-- The affinity of an unused warm slot. -/
def SlotState.affinity? : SlotState → Option (Option MemoryInModule)
  | .unusedWarm u => some u.affinity
  | _ => none

/-- The affinity of the slot at an index, if it is warm. -/
def affinityAt (i : ℕ) : Option (Option MemoryInModule) :=
  states[i]?.bind SlotState.affinity?

/-- The bytes that an unused warm slot keeps. -/
def SlotState.residentBytes : SlotState → ℕ
  | .unusedWarm u => u.bytesResident
  | _ => 0

/-- The bytes that all unused warm slots keep. -/
def residentBytes (states : List SlotState) : ℕ := (states.map SlotState.residentBytes).sum

theorem linkOf_eq_some {lens : Lens} {states : List SlotState} {i : ℕ} {k : Link ℕ} :
    linkOf lens states i = some k ↔ ∃ u, states[i]? = some (.unusedWarm u) ∧ lens.get u = k := by
  rw [linkOf]
  split
  · simp_all
  rename_i h
  simp only [reduceCtorEq, false_iff, not_exists, not_and]
  intro u hu
  exact absurd hu (h u)

theorem affinityAt_eq_some {states : List SlotState} {i : ℕ} {a : Option MemoryInModule} :
    affinityAt states i = some a ↔ ∃ u, states[i]? = some (.unusedWarm u) ∧ u.affinity = a := by
  rw [affinityAt]
  rcases states[i]? with _ | (_ | _ | u)
  · simp
  · simp [SlotState.affinity?]
  · simp [SlotState.affinity?]
  · simp [SlotState.affinity?]

namespace SameSlots

variable {states states' states'' : List SlotState}

theorem refl (states : List SlotState) : SameSlots states states := rfl

theorem trans (h : SameSlots states'' states') (h' : SameSlots states' states) :
    SameSlots states'' states := Eq.trans h h'

variable (h : SameSlots states' states)
include h

theorem length_eq : states'.length = states.length := by
  simpa using congrArg length h

theorem getElem?_bare (i : ℕ) : states'[i]?.map SlotState.bare = states[i]?.map SlotState.bare := by
  rw [← getElem?_map, ← getElem?_map, h]

/-- A question about a slot that does not read links has the same answer. -/
theorem map_eq {α : Type} (f : SlotState → α)
    (hf : ∀ st, f st.bare = f st) (i : ℕ) : states'[i]?.map f = states[i]?.map f := by
  have hbare := congrArg (Option.map f) (h.getElem?_bare i)
  have hcomp : f ∘ SlotState.bare = f := funext hf
  simpa [Option.map_map, hcomp] using hbare

theorem affinityAt_eq (i : ℕ) : affinityAt states' i = affinityAt states i := by
  have key := h.map_eq SlotState.affinity? (by rintro (_ | _ | _) <;> rfl) i
  simpa [affinityAt, Option.bind_map] using congrArg (fun o => o.bind id) key

theorem residentBytes_eq : residentBytes states' = residentBytes states := by
  have hcomp : SlotState.residentBytes ∘ SlotState.bare = SlotState.residentBytes := by
    funext st
    cases st <;> rfl
  have := congrArg (fun l => (l.map SlotState.residentBytes).sum) h
  simpa [residentBytes, map_map, hcomp] using this

theorem getElem?_iff {st : SlotState} (hst : ∀ u, st ≠ .unusedWarm u) (i : ℕ) :
    states'[i]? = some st ↔ states[i]? = some st := by
  have key : ∀ l : List SlotState, l[i]? = some st ↔ l[i]?.map SlotState.bare = some st := by
    intro l
    rcases l[i]? with _ | (_ | _ | u)
    · simp
    · simp [SlotState.bare]
    · simp [SlotState.bare]
    · simp [SlotState.bare, (hst _).symm]
  rw [key, key, h.getElem?_bare]

end SameSlots

/-! ## What the list operations do -/

section ListOperations

variable {lens : Lens} {states : List SlotState} {l : SlotList} {id : ℕ}

theorem unwrapUnused_of_linkOf {k : Link ℕ} (h : linkOf lens states id = some k) :
    ∃ u, unwrapUnused states id = .ok u ∧ lens.get u = k := by
  obtain ⟨u, hu, hk⟩ := linkOf_eq_some.mp h
  exact ⟨u, by simp [unwrapUnused, hu], hk⟩

/-- Changing a link changes no other. -/
theorem modifyLink_spec {k : Link ℕ} (h : linkOf lens states id = some k) (f : Link ℕ → Link ℕ) :
    ∃ states', modifyLink states lens id f = .ok states' ∧ SameSlots states' states ∧
      (∀ i, linkOf lens states' i =
        if i = id then some (f k) else linkOf lens states i) ∧
      OtherLinks lens states' states := by
  obtain ⟨u, hu, hk⟩ := linkOf_eq_some.mp h
  obtain ⟨hlt, hidx⟩ := List.getElem?_eq_some_iff.mp hu
  have hget : lens.get (lens.modify f u) = f (lens.get u) := by cases lens <;> rfl
  refine ⟨states.set id (.unusedWarm (lens.modify f u)), ?_, ?_, ?_, ?_⟩
  · simp [modifyLink, unwrapUnused, hu]
  · have hbare : (SlotState.unusedWarm (lens.modify f u)).bare = (SlotState.unusedWarm u).bare := by
      cases lens <;> rfl
    rw [SameSlots, map_set, hbare, ← map_set, ← hidx, set_getElem_self]
  · intro i
    by_cases hi : i = id <;> simp [linkOf, getElem?_set_of_lt hlt, hi, hget, hk]
  · intro lens' hne
    have hother : lens'.get (lens.modify f u) = lens'.get u := by
      cases lens <;> cases lens' <;> first | rfl | exact absurd rfl hne
    funext i
    by_cases hi : i = id <;> simp [linkOf, getElem?_set_of_lt hlt, hi, hu, hother]

theorem relink_spec (neighbour : Option ℕ) (f : Link ℕ → Link ℕ) (oldEnd newEnd : Option ℕ)
    (h : ∀ i, neighbour = some i → ∃ k, linkOf lens states i = some k) :
    ∃ states', SlotList.relink states lens neighbour f oldEnd newEnd =
        .ok (states', if neighbour.isSome then oldEnd else newEnd) ∧
      SameSlots states' states ∧
      (∀ i, linkOf lens states' i = (linkOf lens states i).map fun k =>
        if neighbour = some i then f k else k) ∧
      OtherLinks lens states' states := by
  cases neighbour with
  | none => exact ⟨states, by simp [SlotList.relink], .refl _, by simp, fun _ _ => rfl⟩
  | some slot =>
    obtain ⟨k, hk⟩ := h slot rfl
    obtain ⟨states', hok, hsame, hlinks, hother⟩ := modifyLink_spec hk f
    refine ⟨states', by simp [SlotList.relink, hok], hsame, fun i => ?_, hother⟩
    rw [hlinks i]
    by_cases hi : i = slot
    · subst hi
      simp [hk]
    · simp [hi, Ne.symm hi]

variable {xs : List ℕ}

/-- Appending to a list. -/
theorem append_spec (h : Linked (linkOf lens states) l xs) (id : ℕ) :
    ∃ states', l.append id states lens =
        .ok (⟨l.head.or (some id), some id⟩, states', ⟨l.tail, none⟩) ∧
      SameSlots states' states ∧
      (∀ i, linkOf lens states' i = (linkOf lens states i).map fun k =>
        if l.tail = some i then { k with next := some id } else k) ∧
      OtherLinks lens states' states := by
  have hlink : ∀ i, l.tail = some i → ∃ k, linkOf lens states i = some k := by
    intro i hi
    obtain ⟨pre, post, hxs⟩ := append_of_mem (h.mem_of_tail hi)
    exact ⟨_, h.link_eq pre i post hxs⟩
  have hhead : (if l.tail.isSome then l.head else some id) = l.head.or (some id) := by
    rw [h.tail_eq, h.head_eq]
    cases xs <;> simp
  obtain ⟨states', hok, hrest⟩ :=
    relink_spec l.tail (fun k => { k with next := some id }) l.head (some id) hlink
  refine ⟨states', ?_, hrest⟩
  simp [SlotList.append, hok, hhead]

/-- Removing from a list. -/
theorem remove_spec {pre post : List ℕ} (h : Linked (linkOf lens states) l (pre ++ id :: post)) :
    ∃ states', l.remove id states lens = .ok
        ({ head := if pre.getLast?.isSome then l.head else post.head?
           tail := if post.head?.isSome then l.tail else pre.getLast? }, states') ∧
      SameSlots states' states ∧
      (∀ i, linkOf lens states' i = (linkOf lens states i).map fun k =>
        { prev := if post.head? = some i then pre.getLast? else k.prev
          next := if pre.getLast? = some i then post.head? else k.next }) ∧
      OtherLinks lens states' states := by
  have hlink : ∀ i ∈ pre ++ id :: post, ∃ k, linkOf lens states i = some k := by
    intro i hi
    obtain ⟨p, q, hpq⟩ := append_of_mem hi
    exact ⟨_, h.link_eq p i q hpq⟩
  obtain ⟨u, hu, hk⟩ := unwrapUnused_of_linkOf (h.link_eq pre id post rfl)
  obtain ⟨states1, hok1, hsame1, hlinks1, hother1⟩ :=
    relink_spec post.head? (fun k => { k with prev := pre.getLast? })
      l.tail pre.getLast? fun i hi => hlink i (by simp [mem_of_mem_head? hi])
  obtain ⟨states2, hok2, hsame2, hlinks2, hother2⟩ := relink_spec pre.getLast?
      (fun k => { k with next := post.head? }) l.head post.head? (by
        intro i hi
        obtain ⟨k, hki⟩ := hlink i (by simp [mem_of_getLast? hi])
        exact ⟨_, by rw [hlinks1, hki]; rfl⟩)
  refine ⟨states2, ?_, hsame2.trans hsame1, fun i => ?_, fun lens' hne => ?_⟩
  · simp [SlotList.remove, hu, hk, hok1, hok2]
  · rw [hlinks2, hlinks1, Option.map_map]
    congr 1
    funext k
    split <;> split <;> rfl
  · rw [hother2 lens' hne, hother1 lens' hne]

theorem linkOf_set_ne {i j : ℕ} (h : i ≠ j) (st : SlotState) :
    linkOf lens (states.set i st) j = linkOf lens states j := by
  simp [linkOf, getElem?_set_ne h]

theorem linkOf_set_of_mem {i j : ℕ} (hi : i ∉ xs) (hj : j ∈ xs) (st : SlotState) :
    linkOf lens (states.set i st) j = linkOf lens states j := by
  refine linkOf_set_ne ?_ st
  rintro rfl
  exact hi hj

/-- Appending a slot appends it to the represented sequence, once the slot has the
returned link. -/
theorem append_linked (h : Linked (linkOf lens states) l xs) (hid : id ∉ xs)
    (hlt : id < states.length) :
    ∃ l' states' link, l.append id states lens = .ok (l', states', link) ∧
      SameSlots states' states ∧
      (∀ u, lens.get u = link →
        Linked (linkOf lens (states'.set id (.unusedWarm u))) l' (xs ++ [id])) ∧
      (∀ i, i ∉ xs → linkOf lens states' i = linkOf lens states i) ∧
      OtherLinks lens states' states := by
  obtain ⟨states', hok, hsame, hlinks, hother⟩ := append_spec h id
  refine ⟨_, states', _, hok, hsame, fun u hu => ?_, fun i hi => ?_, hother⟩
  · refine h.append hid ?_ fun i hi => ?_
    · simp [linkOf, hsame.length_eq, hlt, hu]
    · rw [linkOf_set_of_mem hid hi, hlinks]
  · have htail : l.tail ≠ some i := fun h' => hi (h.mem_of_tail h')
    simp [hlinks, htail]

/-- Removing keeps the rest in its order. -/
theorem remove_linked (h : Linked (linkOf lens states) l xs) (hid : id ∈ xs) :
    ∃ l' states', l.remove id states lens = .ok (l', states') ∧
      SameSlots states' states ∧
      Linked (linkOf lens states') l' (xs.erase id) ∧
      (∀ i, i ∉ xs → linkOf lens states' i = linkOf lens states i) ∧
      OtherLinks lens states' states := by
  obtain ⟨pre, post, rfl⟩ := append_of_mem hid
  obtain ⟨states', hok, hsame, hlinks, hother⟩ := remove_spec h
  refine ⟨_, states', hok, hsame, ?_, fun i hi => ?_, hother⟩
  · have hnot : id ∉ pre := fun hmem =>
      (nodup_append.mp h.nodup).2.2 id hmem id (by simp) rfl
    have herase : (pre ++ id :: post).erase id = pre ++ post := by
      simp [erase_append_right _ hnot]
    rw [herase]
    exact h.remove fun i _ => hlinks i
  · have hhead : post.head? ≠ some i := fun h' => hi (by simp [mem_of_mem_head? h'])
    have hlast : pre.getLast? ≠ some i := fun h' => hi (by simp [mem_of_getLast? h'])
    simp [hlinks, hhead, hlast]

end ListOperations

end WasmDeps.Pooling
