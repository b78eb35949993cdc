import Mathlib.Algebra.Order.Ring.Int

/-!
# Calls that may fail, and machines built from them

A modelled call returns a value or a `Fault`.  An `error` is an `Err` value that
the caller receives; a `panic` is a failed assertion, an `unwrap` on `None`, an
`unreachable!()` or a checked arithmetic operation that leaves its range.  Both
carry the message the source gives them.

A `Machine` packages an initial-state predicate, a caller contract and a fallible
step.  `Machine.Reaches` is reachability through steps whose contract holds, and
`Machine.Reaches.invariant` is the one induction every run-level theorem uses.
-/

namespace WasmDeps.Lib

universe u v

/-- How a modelled call fails to return a value. -/
inductive Fault
  /-- An `Err` value, with its message. -/
  | error (msg : String)
  | panic (msg : String)
  /-- A loop of the model was given too little fuel; no behaviour of the source. -/
  | outOfFuel
  deriving DecidableEq, Repr

abbrev Exec := Except Fault

namespace Exec

variable {α β : Type u}

@[simp] theorem ok_bind (a : α) (f : α → Exec β) : ((Except.ok a : Exec α) >>= f) = f a := rfl

@[simp] theorem error_bind (e : Fault) (f : α → Exec β) :
    ((Except.error e : Exec α) >>= f) = Except.error e := rfl

@[simp] theorem pure_eq (a : α) : (pure a : Exec α) = .ok a := rfl

@[simp] theorem throw_eq (e : Fault) : (throw e : Exec α) = Except.error e := rfl

/-- A sequenced call returns exactly when both parts do. -/
theorem bind_eq_ok {x : Exec α} {f : α → Exec β} {b : β} :
    (x >>= f) = .ok b ↔ ∃ a, x = .ok a ∧ f a = .ok b := by
  cases x with
  | error e => simp
  | ok a => simp

/-- What is known of a result of a call holds of every result of it. -/
theorem of_exists_ok {x : Exec α} {a : α} {p : α → Prop} (h : ∃ b, x = .ok b ∧ p b)
    (ha : x = .ok a) : p a := by
  obtain ⟨b, hb, hp⟩ := h
  obtain rfl := Except.ok.inj (hb.symm.trans ha)
  exact hp

/-- The fault of a call that does not return. -/
def fault? : Exec α → Option Fault
  | .ok _ => none
  | .error e => some e

end Exec

/-- An assertion: `assert!`, `debug_assert!` and their relatives. -/
def ensure (p : Prop) [Decidable p] (msg : String) : Exec Unit :=
  if p then pure () else throw (.panic msg)

@[simp] theorem ensure_of {p : Prop} [Decidable p] (h : p) (msg : String) :
    ensure p msg = .ok () := by
  simp [ensure, h]

@[simp] theorem ensure_of_not {p : Prop} [Decidable p] (h : ¬p) (msg : String) :
    ensure p msg = Except.error (.panic msg) := by
  simp [ensure, h]

def unwrap {α : Type u} (x : Option α) (msg : String) : Exec α :=
  match x with
  | some a => pure a
  | none => throw (.panic msg)

@[simp] theorem unwrap_some {α : Type u} (a : α) (msg : String) : unwrap (some a) msg = .ok a := rfl

theorem unwrap_eq_ok {α : Type u} {x : Option α} {msg : String} {a : α} :
    unwrap x msg = .ok a ↔ x = some a := by
  cases x <;> simp [unwrap]

/-- A call that does not return an `Err` value. -/
def Exec.NoErr {α : Type u} (x : Exec α) : Prop := ∀ msg, x ≠ Except.error (.error msg)

theorem noErr_ok {α : Type u} (a : α) : Exec.NoErr (.ok a) := nofun

theorem noErr_unwrap {α : Type u} (x : Option α) (msg : String) : Exec.NoErr (unwrap x msg) := by
  cases x <;> simp [Exec.NoErr, unwrap]

theorem ensure_bind_eq_ok {α : Type} {p : Prop} [Decidable p] {msg : String} {f : Unit → Exec α}
    {a : α} : (ensure p msg >>= f) = .ok a ↔ p ∧ f () = .ok a := by
  by_cases h : p <;> simp [h]

theorem noErr_ensure (p : Prop) [Decidable p] (msg : String) : Exec.NoErr (ensure p msg) := by
  by_cases h : p <;> simp [Exec.NoErr, h]

theorem Exec.NoErr.bind {α β : Type u} {x : Exec α} {f : α → Exec β} (hx : Exec.NoErr x)
    (hf : ∀ a, Exec.NoErr (f a)) : Exec.NoErr (x >>= f) := by
  cases x with
  | error e =>
    intro msg h
    obtain rfl : e = .error msg := by simpa using h
    exact hx msg rfl
  | ok a => exact hf a

/-- `Option::ok_or_else`, and a match that bails out on `None`. -/
def okOr {α : Type u} (x : Option α) (msg : String) : Exec α :=
  match x with
  | some a => pure a
  | none => throw (.error msg)

@[simp] theorem okOr_some {α : Type u} (a : α) (msg : String) : okOr (some a) msg = .ok a := rfl

theorem lt_of_getElem? {α : Type u} {l : List α} {i : ℕ} {a : α} (h : l[i]? = some a) :
    i < l.length :=
  (List.getElem?_eq_some_iff.mp h).1

theorem getElem?_concat {α : Type u} (l : List α) (a : α) (i : ℕ) :
    (l ++ [a])[i]? = if i = l.length then some a else l[i]? := by
  rcases lt_trichotomy i l.length with hlt | rfl | hgt
  · rw [List.getElem?_append_left hlt, if_neg (ne_of_lt hlt)]
  · simp
  · rw [List.getElem?_append_right hgt.le, if_neg (ne_of_gt hgt), List.getElem?_eq_none hgt.le,
      List.getElem?_eq_none (by rw [List.length_singleton]; omega)]

theorem getElem?_set_of_lt {α : Type u} {l : List α} {i : ℕ} (h : i < l.length) (a : α) (j : ℕ) :
    (l.set i a)[j]? = if j = i then some a else l[j]? := by
  grind

theorem sum_map_set {α : Type u} (f : α → ℕ) {l : List α} {i : ℕ} {a : α} (h : l[i]? = some a)
    (b : α) : ((l.set i b).map f).sum + f a = (l.map f).sum + f b := by
  induction l generalizing i with
  | nil => simp at h
  | cons x xs ih =>
    cases i with
    | zero =>
      obtain rfl : x = a := by simpa using h
      simp only [List.set_cons_zero, List.map_cons, List.sum_cons]
      omega
    | succ i =>
      have := ih (by simpa using h)
      simp only [List.set_cons_succ, List.map_cons, List.sum_cons]
      omega

/-! ## Machine integers

Machine integers are natural numbers; the operations below fail where the
machine's would leave the range. -/

def u32Max : ℕ := 4294967295

/-- `usize::MAX` on a 64-bit host. -/
def usizeMax : ℕ := 18446744073709551615

def addU32 (a b : ℕ) : Exec ℕ :=
  if a + b ≤ u32Max then pure (a + b) else throw (.panic "attempt to add with overflow")

def addUsize (a b : ℕ) : Exec ℕ :=
  if a + b ≤ usizeMax then pure (a + b) else throw (.panic "attempt to add with overflow")

def mulU32 (a b : ℕ) : Exec ℕ :=
  if a * b ≤ u32Max then pure (a * b) else throw (.panic "attempt to multiply with overflow")

def subU32 (a b : ℕ) : Exec ℕ :=
  if b ≤ a then pure (a - b) else throw (.panic "attempt to subtract with overflow")

def subUsize (a b : ℕ) : Exec ℕ :=
  if b ≤ a then pure (a - b) else throw (.panic "attempt to subtract with overflow")

variable {a b : ℕ}

theorem addU32_of_le (h : a + b ≤ u32Max) : addU32 a b = .ok (a + b) := by
  simp [addU32, h]

theorem mulU32_of_le (h : a * b ≤ u32Max) : mulU32 a b = .ok (a * b) := by
  simp [mulU32, h]

theorem addUsize_of_le (h : a + b ≤ usizeMax) : addUsize a b = .ok (a + b) := by
  simp [addUsize, h]

theorem addUsize_eq_ok {a b c : ℕ} : addUsize a b = .ok c ↔ a + b ≤ usizeMax ∧ a + b = c := by
  rw [addUsize]
  split
  · simp_all
  · rename_i h
    simp [h]

theorem addU32_eq_ok {a b c : ℕ} : addU32 a b = .ok c ↔ a + b ≤ u32Max ∧ a + b = c := by
  rw [addU32]
  split
  · simp_all
  · rename_i h
    simp [h]

theorem subU32_eq_ok {a b c : ℕ} : subU32 a b = .ok c ↔ b ≤ a ∧ a - b = c := by
  rw [subU32]
  split
  · simp_all
  · rename_i h
    simp [h]

theorem subU32_of_le (h : b ≤ a) : subU32 a b = .ok (a - b) := by
  simp [subU32, h]

theorem subUsize_of_le (h : b ≤ a) : subUsize a b = .ok (a - b) := by
  simp [subUsize, h]

/-! ## Alignment

Rounding to a multiple of `a`.  For a power of two, `roundDown n a` is the source's
`n & !(a - 1)`. -/

/-- The largest multiple of `a` that is at most `n`. -/
def roundDown (n a : ℕ) : ℕ := n / a * a

/-- The smallest multiple of `a` that is at least `n`. -/
def roundUp (n a : ℕ) : ℕ := roundDown (n + (a - 1)) a

theorem roundDown_le (n a : ℕ) : roundDown n a ≤ n := Nat.div_mul_le_self n a

theorem dvd_roundDown (n a : ℕ) : a ∣ roundDown n a := Nat.dvd_mul_left a _

theorem lt_roundDown_add (n : ℕ) (ha : 0 < a) : n < roundDown n a + a := by
  have h := Nat.div_add_mod n a
  have hlt := Nat.mod_lt n ha
  rw [roundDown, Nat.mul_comm]
  omega

theorem roundDown_spec (n : ℕ) (ha : 0 < a) :
    a ∣ roundDown n a ∧ roundDown n a ≤ n ∧ n < roundDown n a + a :=
  ⟨dvd_roundDown n a, roundDown_le n a, lt_roundDown_add n ha⟩

theorem dvd_roundUp (n a : ℕ) : a ∣ roundUp n a := dvd_roundDown _ a

theorem le_roundUp (n : ℕ) (ha : 0 < a) : n ≤ roundUp n a := by
  have := lt_roundDown_add (n + (a - 1)) ha
  rw [roundUp]
  omega

/-! ## Machines and their runs -/

/-- A state machine with a caller contract.  `allowed s i` is what the caller of
operation `i` promises in state `s`; `step` is the operation itself. -/
structure Machine (σ : Type u) (ι : Type v) where
  start : σ → Prop
  allowed : σ → ι → Prop
  step : σ → ι → Exec σ

namespace Machine

variable {σ : Type u} {ι : Type v}

/-- The states that some run reaches. -/
inductive Reaches (M : Machine σ ι) : σ → Prop
  | start {s : σ} (h : M.start s) : Reaches M s
  | step {s s' : σ} {i : ι} (hs : Reaches M s) (ha : M.allowed s i)
      (hstep : M.step s i = Except.ok s') : Reaches M s'

variable {M : Machine σ ι}

/-- **Induction along a run.**  A predicate that holds at the start and that
every allowed step preserves holds in every state reached. -/
theorem Reaches.invariant {P : σ → Prop} (h0 : ∀ s, M.start s → P s)
    (hstep : ∀ s i s', P s → M.allowed s i → M.step s i = .ok s' → P s') {s : σ}
    (hs : M.Reaches s) : P s := by
  induction hs with
  | start h => exact h0 _ h
  | step _ ha hok ih => exact hstep _ _ _ ih ha hok

/-- The same machine, run only through steps that also meet `cond`. -/
def onlyWhen (M : Machine σ ι) (cond : σ → ι → Prop) : Machine σ ι where
  start := M.start
  allowed := fun s i => M.allowed s i ∧ cond s i
  step := M.step

instance {M : Machine σ ι} {cond : σ → ι → Prop} [∀ s i, Decidable (M.allowed s i)]
    [∀ s i, Decidable (cond s i)] (s : σ) (i : ι) : Decidable ((M.onlyWhen cond).allowed s i) :=
  inferInstanceAs (Decidable (M.allowed s i ∧ cond s i))

theorem Reaches.of_onlyWhen {cond : σ → ι → Prop} {s : σ} (hs : (M.onlyWhen cond).Reaches s) :
    M.Reaches s := by
  induction hs with
  | start h => exact .start h
  | step _ ha hok ih => exact .step ih ha.1 hok

/-- The same machine, started in the given state. -/
def startingAt (M : Machine σ ι) (s : σ) : Machine σ ι := { M with start := (· = s) }

/-- Run a list of operations, giving up at the first that is not allowed or that
faults. -/
def run? (M : Machine σ ι) [∀ s i, Decidable (M.allowed s i)] : σ → List ι → Option σ
  | s, [] => some s
  | s, i :: is =>
    if M.allowed s i then
      match M.step s i with
      | .ok s' => run? M s' is
      | .error _ => none
    else none

theorem Reaches.of_run? [∀ s i, Decidable (M.allowed s i)] {s s' : σ} {is : List ι}
    (hs : M.Reaches s) (h : M.run? s is = some s') : M.Reaches s' := by
  induction is generalizing s with
  | nil =>
    obtain rfl : s = s' := by simpa [run?] using h
    exact hs
  | cons i is ih =>
    rw [run?] at h
    split at h
    · rename_i ha
      split at h
      · rename_i t hok
        exact ih (.step hs ha hok) h
      · cases h
    · cases h

/-- A concrete run that ends in a state with a decidable property reaches one. -/
theorem reaches_of_run? [∀ s i, Decidable (M.allowed s i)] {s : σ} {p : σ → Bool}
    (is : List ι) (hs : M.start s) (h : (M.run? s is).any p = true) :
    ∃ s', M.Reaches s' ∧ p s' = true := by
  obtain ⟨s', hrun, hp⟩ := (Option.any_eq_true _ _).mp h
  exact ⟨s', .of_run? (.start hs) hrun, hp⟩

end Machine

end WasmDeps.Lib
