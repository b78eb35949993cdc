import WasmDeps.Lib.Exec

/-!
# Calls on a mutable state

A `Call σ α` runs on a state of type `σ`.  Unlike a pure `Exec` computation it leaves a
state behind also when it faults, so an operation that mutates first and fails
afterwards shows in the model.  `Call.Clean` is the opposite: a call whose errors leave
no trace.
-/

namespace WasmDeps.Lib

universe u v

/-- A call on a state of type `σ`: an outcome, and the state it leaves behind. -/
structure Call (σ : Type u) (α : Type u) where
  run : σ → Exec α × σ

namespace Call

variable {σ τ α β : Type u}

def ret (a : α) : Call σ α := ⟨fun s => (.ok a, s)⟩

/-- Continue with the value returned, in the state left behind. -/
def andThen (c : Call σ α) (f : α → Call σ β) : Call σ β :=
  ⟨fun s =>
    match c.run s with
    | (.ok a, s') => (f a).run s'
    | (.error e, s') => (.error e, s')⟩

instance : Monad (Call σ) where
  pure := ret
  bind := andThen

def get : Call σ σ := ⟨fun s => (.ok s, s)⟩

def set (s : σ) : Call σ PUnit := ⟨fun _ => (.ok ⟨⟩, s)⟩

/-- Return an `Err` value with the given message. -/
def bail (msg : String) : Call σ α := ⟨fun s => (.error (.error msg), s)⟩

/-- A fallible computation that does not touch the state. -/
def lift (x : Exec α) : Call σ α := ⟨fun s => (x, s)⟩

def zoom (part : σ → τ) (put : σ → τ → σ) (c : Call τ α) : Call σ α :=
  ⟨fun s => ((c.run (part s)).1, put s (c.run (part s)).2)⟩

@[simp] theorem run_pure (a : α) (s : σ) : (pure a : Call σ α).run s = (.ok a, s) := rfl

@[simp] theorem run_get (s : σ) : (get : Call σ σ).run s = (.ok s, s) := rfl

@[simp] theorem run_set (s t : σ) : (set t : Call σ PUnit).run s = (.ok ⟨⟩, t) := rfl

@[simp] theorem run_bail (msg : String) (s : σ) :
    (bail msg : Call σ α).run s = (.error (.error msg), s) := rfl

@[simp] theorem run_lift (x : Exec α) (s : σ) : (lift x : Call σ α).run s = (x, s) := rfl

@[simp] theorem run_zoom (part : σ → τ) (put : σ → τ → σ) (c : Call τ α) (s : σ) :
    (zoom part put c).run s = ((c.run (part s)).1, put s (c.run (part s)).2) := rfl

theorem run_bind (c : Call σ α) (f : α → Call σ β) (s : σ) :
    (c >>= f).run s =
      match c.run s with
      | (.ok a, s') => (f a).run s'
      | (.error e, s') => (.error e, s') := rfl

theorem run_bind_ok {c : Call σ α} {s t : σ} {a : α} (h : c.run s = (.ok a, t)) (f : α → Call σ β) :
    (c >>= f).run s = (f a).run t := by
  rw [run_bind, h]

theorem run_bind_error {c : Call σ α} {s t : σ} {e : Fault} (h : c.run s = (.error e, t))
    (f : α → Call σ β) : (c >>= f).run s = (.error e, t) := by
  rw [run_bind, h]

/-- A sequenced call returns exactly when both parts do. -/
theorem run_bind_eq_ok {c : Call σ α} {f : α → Call σ β} {s u : σ} {b : β} :
    (c >>= f).run s = (.ok b, u) ↔ ∃ a t, c.run s = (.ok a, t) ∧ (f a).run t = (.ok b, u) := by
  rw [run_bind]
  rcases c.run s with ⟨_ | a, t⟩ <;> simp

/-- A sequenced call fails where one of its parts does. -/
theorem run_bind_eq_error {c : Call σ α} {f : α → Call σ β} {s u : σ} {e : Fault}
    (h : (c >>= f).run s = (.error e, u)) :
    c.run s = (.error e, u) ∨ ∃ a t, c.run s = (.ok a, t) ∧ (f a).run t = (.error e, u) := by
  rw [run_bind] at h
  generalize c.run s = r at h ⊢
  obtain ⟨_ | a, t⟩ := r
  · obtain ⟨rfl, rfl⟩ : _ = e ∧ t = u := by simpa using h
    exact .inl rfl
  · exact .inr ⟨a, t, rfl, h⟩

theorem run_lift_bind_error {x : Exec α} (hx : Exec.NoErr x) {f : α → Call σ β} {s u : σ}
    {msg : String} (h : (lift x >>= f).run s = (.error (.error msg), u)) :
    ∃ a, x = .ok a ∧ (f a).run s = (.error (.error msg), u) := by
  cases x with
  | error e =>
    obtain ⟨rfl, -⟩ : e = .error msg ∧ s = u := by simpa [run_bind] using h
    exact absurd rfl (hx msg)
  | ok a => exact ⟨a, rfl, h⟩

/-- The state that a call leaves when it returns. -/
def exec (c : Call σ α) (s : σ) : Exec σ := (fun _ => (c.run s).2) <$> (c.run s).1

theorem exec_eq_ok {c : Call σ α} {s t : σ} : c.exec s = .ok t ↔ ∃ a, c.run s = (.ok a, t) := by
  rw [exec]
  rcases c.run s with ⟨_ | a, u⟩ <;> simp [Functor.map, Except.map, eq_comm]

theorem bind_assoc {γ : Type u} (c : Call σ α) (f : α → Call σ β) (g : β → Call σ γ) :
    ((c >>= f) >>= g) = c >>= fun a => f a >>= g := by
  refine congrArg mk (funext fun s => ?_)
  change (match (c >>= f).run s with
    | (.ok b, t) => (g b).run t
    | (.error e, t) => (.error e, t)) = (c >>= fun a => f a >>= g).run s
  rw [run_bind, run_bind]
  rcases c.run s with ⟨_ | a, t⟩ <;> rfl

theorem run_map (f : α → β) (c : Call σ α) (s : σ) :
    (f <$> c).run s = ((c.run s).1.map f, (c.run s).2) := by
  change (c >>= fun a => pure (f a)).run s = _
  rw [run_bind]
  rcases c.run s with ⟨_ | a, s'⟩ <;> rfl

/-- An `Err` result leaves the state as it was. -/
def Clean (c : Call σ α) (s : σ) : Prop :=
  ∀ msg, (c.run s).1 = .error (.error msg) → (c.run s).2 = s

section Clean

variable {s : σ} {f : α → Call σ β}

theorem clean_get_bind {f : σ → Call σ β} (h : (f s).Clean s) : (get >>= f).Clean s := h

theorem clean_lift_bind {x : Exec α} (h : ∀ a, x = .ok a → (f a).Clean s) :
    (lift x >>= f).Clean s := by
  cases x with
  | error e => exact fun _ _ => rfl
  | ok a => exact h a rfl

theorem clean_of_ok {c : Call σ α} {a : α} (h : (c.run s).1 = .ok a) : c.Clean s := by
  intro msg hmsg
  rw [h] at hmsg
  cases hmsg

end Clean

/-! ## Postconditions

`c.Meets s Q R` is the weakest-precondition reading of a call: run from `s` it does not
panic, a returned value and the state left satisfy `Q`, and the state an `Err` leaves
satisfies `R`. -/

/-- From `s` the call returns with `Q` or fails with an `Err` that leaves `R`. -/
def Meets (c : Call σ α) (s : σ) (Q : α → σ → Prop) (R : σ → Prop) : Prop :=
  match c.run s with
  | (.ok a, t) => Q a t
  | (.error (.error _), t) => R t
  | (.error _, _) => False

section Meets

variable {c : Call σ α} {f : α → Call σ β} {s : σ} {R R' : σ → Prop}

theorem Meets.mono {Q Q' : α → σ → Prop} (h : c.Meets s Q R)
    (hQ : ∀ a t, Q a t → Q' a t) (hR : ∀ t, R t → R' t) : c.Meets s Q' R' := by
  rw [Meets] at h ⊢
  revert h
  rcases c.run s with ⟨e | a, t⟩ <;> intro h
  · cases e with
    | error msg => exact hR t h
    | panic msg => exact h
    | outOfFuel => exact h
  · exact hQ a t h

theorem Meets.imp {Q Q' : α → σ → Prop} (h : c.Meets s Q R) (hQ : ∀ a t, Q a t → Q' a t) :
    c.Meets s Q' R :=
  h.mono hQ fun _ => id

theorem Meets.bind {Q : β → σ → Prop} (h : c.Meets s (fun a t => (f a).Meets t Q R) R) :
    (c >>= f).Meets s Q R := by
  rw [Meets] at h
  rw [Meets]
  rw [run_bind]
  split at h
  · rename_i heq
    rw [heq]
    exact h
  · rename_i heq
    rw [heq]
    exact h
  · exact h.elim

variable {Q : α → σ → Prop}

theorem meets_pure {a : α} (h : Q a s) : (pure a : Call σ α).Meets s Q R := h

theorem meets_get {Q : σ → σ → Prop} (h : Q s s) : (get : Call σ σ).Meets s Q R := h

theorem meets_set {Q : PUnit → σ → Prop} {t : σ} (h : Q ⟨⟩ t) :
    (set t : Call σ PUnit).Meets s Q R := h

theorem meets_bail {msg : String} (h : R s) : (bail msg : Call σ α).Meets s Q R := h

theorem meets_lift {x : Exec α} {a : α} (hx : x = .ok a) (h : Q a s) :
    (lift x : Call σ α).Meets s Q R := by
  subst hx
  exact h

/-- **Loops.**  An invariant over what is left of the list, kept by every iteration, holds
with nothing left at the end. -/
theorem meets_forM {f : α → Call σ PUnit} (I : List α → σ → Prop)
    (hstep : ∀ a rest t, I (a :: rest) t → (f a).Meets t (fun _ u => I rest u) R)
    (xs : List α) (h : I xs s) : (xs.forM f).Meets s (fun _ t => I [] t) R := by
  induction xs generalizing s with
  | nil => exact h
  | cons a rest ih =>
    refine .bind ((hstep a rest s h).imp fun _ t ht => ?_)
    exact ih ht

/-- A call that meets a postcondition and cannot fail otherwise returns. -/
theorem Meets.run_eq (h : c.Meets s Q R) :
    (∃ a t, c.run s = (.ok a, t) ∧ Q a t) ∨
      ∃ msg t, c.run s = (.error (.error msg), t) ∧ R t := by
  rw [Meets] at h
  split at h
  · rename_i a t heq
    exact .inl ⟨a, t, heq, h⟩
  · rename_i msg t heq
    exact .inr ⟨msg, t, heq, h⟩
  · exact h.elim

end Meets

end Call

end WasmDeps.Lib
