import WasmDeps.Lib.Exec

/-!
# Fuel

A store with fuel splits it: compiled code counts the injected part up from its negation, and the
rest waits in a reserve.  The injected part is at most the yield interval, and refuelling takes the
next part out of the reserve.  The engine is one that consumes fuel: otherwise the calls fail.
-/

namespace WasmDeps.Store

open Lib Exec

def i64Max : ℕ := 9223372036854775807

def u64Max : ℕ := 18446744073709551615

/-- The fuel of a store. -/
structure FuelTank where
  /-- The counter of compiled code, an `i64`. -/
  injectedFuel : ℤ
  fuelReserve : ℕ
  yieldInterval : Option ℕ

namespace FuelTank

/-- `fuel_reserve.saturating_add_signed(-injected_fuel)`. -/
def getFuel (t : FuelTank) : ℕ := min (t.fuelReserve - t.injectedFuel).toNat u64Max

/-- Splits an amount into the part that runs before the next yield and the reserve. -/
def setFuel (t : FuelTank) (newFuelAmount : ℕ) : FuelTank :=
  let interval := t.yieldInterval.getD u64Max
  let injected := min (min interval newFuelAmount) i64Max
  { t with fuelReserve := newFuelAmount - injected, injectedFuel := -injected }

/-- The next part of the reserve, if there is any fuel left. -/
def refuel (t : FuelTank) : Bool × FuelTank :=
  if 0 < t.getFuel then (true, t.setFuel t.getFuel) else (false, t)

/-- Sets how much fuel runs before a yield. -/
def fuelAsyncYieldInterval (t : FuelTank) (interval : Option ℕ) : Exec FuelTank :=
  if interval = some 0 then throw (.error "fuel_async_yield_interval must not be 0")
  else pure ({ t with yieldInterval := interval }.setFuel t.getFuel)

/-- A tank with the amount last set and what compiled code consumed since. -/
structure Metered where
  tank : FuelTank
  amount : ℕ
  consumed : ℕ

/-- What happens to the fuel. -/
inductive Op
  | setFuel (fuel : ℕ)
  | yieldInterval (interval : Option ℕ)
  | refuel
  | consume (n : ℕ)

/-- Amounts are `u64`, and the counter of compiled code stays an `i64`. -/
def Op.Allowed (m : Metered) : Op → Prop
  | setFuel fuel => fuel ≤ u64Max
  | consume n => m.tank.injectedFuel + n ≤ i64Max
  | _ => True

/-- One operation, with the amount set and what was consumed since. -/
def Op.apply (m : Metered) : Op → Exec Metered
  | setFuel fuel => pure ⟨m.tank.setFuel fuel, fuel, 0⟩
  | yieldInterval interval => do
    let tank ← m.tank.fuelAsyncYieldInterval interval
    pure { m with tank }
  | refuel => pure { m with tank := m.tank.refuel.2 }
  | consume n => pure { m with
      tank := { m.tank with injectedFuel := m.tank.injectedFuel + n }
      consumed := m.consumed + n }

/-- The runs of a store and its compiled code. -/
def machine : Machine Metered Op where
  start := (· = ⟨⟨0, 0, none⟩, 0, 0⟩)
  allowed := Op.Allowed
  step := Op.apply

/-- The two parts together are what is left, or not positive if more was consumed. -/
structure Accounted (t : FuelTank) (amount consumed : ℕ) : Prop where
  amount_le : amount ≤ u64Max
  /-- The counter can be negated. -/
  counter_le : -t.injectedFuel ≤ i64Max
  left : t.fuelReserve - t.injectedFuel = (amount - consumed : ℤ) ∨
    amount ≤ consumed ∧ t.fuelReserve ≤ t.injectedFuel

variable {t t' : FuelTank} {amount consumed : ℕ}

/-- No more is injected than the interval. -/
theorem setFuel_injected (t : FuelTank) (fuel : ℕ) :
    -(t.setFuel fuel).injectedFuel ≤ t.yieldInterval.getD u64Max := by
  simp only [setFuel]
  omega

namespace Accounted

/-- Setting the fuel keeps the account. -/
theorem set (hle : amount ≤ u64Max) (t : FuelTank) (consumed : ℕ) :
    Accounted (t.setFuel (amount - consumed)) amount consumed := by
  constructor
  · exact hle
  · simp only [setFuel]
    omega
  · simp only [setFuel]
    omega

variable (h : Accounted t amount consumed)
include h

theorem getFuel_eq : t.getFuel = amount - consumed := by
  have := h.amount_le
  have := h.left
  rw [getFuel]
  omega

/-- Refuelling keeps the account. -/
theorem refuel : Accounted t.refuel.2 amount consumed := by
  rw [FuelTank.refuel, h.getFuel_eq]
  split
  · exact .set h.amount_le t consumed
  · exact h

theorem yieldInterval {interval : Option ℕ} (hok : t.fuelAsyncYieldInterval interval = .ok t') :
    Accounted t' amount consumed := by
  rw [fuelAsyncYieldInterval, h.getFuel_eq] at hok
  split at hok
  · cases hok
  cases hok
  exact .set h.amount_le _ consumed

/-- Consuming keeps the account. -/
theorem consume (n : ℕ) :
    Accounted { t with injectedFuel := t.injectedFuel + n } amount (consumed + n) := by
  have := h.counter_le
  have := h.left
  constructor
  · exact h.amount_le
  · simp only
    omega
  · simp only
    omega

end Accounted

/-- The account holds in every state that is reached. -/
theorem accounted_of_reaches (h : machine.Reaches ⟨t, amount, consumed⟩) :
    Accounted t amount consumed := by
  refine Machine.Reaches.invariant (P := fun m => Accounted m.tank m.amount m.consumed) ?_ ?_ h
  · rintro _ rfl
    exact ⟨by decide, by decide, .inl rfl⟩
  · rintro m op m' ih hop hstep
    cases op with
    | setFuel fuel =>
      obtain rfl := Except.ok.inj hstep
      exact .set hop _ 0
    | yieldInterval interval =>
      obtain ⟨t', hok, hstep⟩ := Exec.bind_eq_ok.mp hstep
      obtain rfl := Except.ok.inj hstep
      exact ih.yieldInterval hok
    | refuel =>
      obtain rfl := Except.ok.inj hstep
      exact ih.refuel
    | consume n =>
      obtain rfl := Except.ok.inj hstep
      exact ih.consume n

/-- **Fuel is conserved.**  What is reported is the amount last set without what was consumed since.
A change of the yield interval and refuelling do not change it, refuelling fails exactly if nothing
is left, and the part injected is at most the yield interval. -/
theorem fuel_conserved (h : machine.Reaches ⟨t, amount, consumed⟩) :
    t.getFuel = amount - consumed ∧
    (∀ interval t', t.fuelAsyncYieldInterval interval = .ok t' → t'.getFuel = t.getFuel) ∧
    t.refuel.2.getFuel = t.getFuel ∧ (t.refuel.1 = false ↔ t.getFuel = 0) ∧
    (t.refuel.1 = true → -t.refuel.2.injectedFuel ≤ t.yieldInterval.getD u64Max) ∧
    ∀ fuel, -(t.setFuel fuel).injectedFuel ≤ t.yieldInterval.getD u64Max := by
  have h := accounted_of_reaches h
  refine ⟨h.getFuel_eq, fun interval t' ht => ?_, ?_, ?_, ?_, setFuel_injected t⟩
  · rw [(h.yieldInterval ht).getFuel_eq, h.getFuel_eq]
  · rw [h.refuel.getFuel_eq, h.getFuel_eq]
  · rw [refuel]
    split <;> simp <;> omega
  · rw [refuel]
    split
    · exact fun _ => setFuel_injected _ _
    · exact nofun

/-- More is consumed than was injected. -/
theorem fuel_conserved_owed : ∃ t, machine.Reaches ⟨t, 42, 14⟩ ∧ 0 < t.injectedFuel ∧
    t.getFuel = 28 := by
  have hset : machine.Reaches _ := .step (i := .setFuel 42) (.start rfl)
    (by decide : 42 ≤ u64Max) rfl
  have hyield : machine.Reaches _ := .step (i := .yieldInterval (some 10)) hset trivial rfl
  have h : machine.Reaches ⟨_, 42, 14⟩ := .step (i := .consume 14) hyield
    (by decide : (-10 + 14 : ℤ) ≤ i64Max) rfl
  exact ⟨_, h, by decide, (fuel_conserved h).1⟩

/-! ## Fuel checks of compiled code -/

def outOfFuel : Fault := .error "all fuel consumed by WebAssembly"

/-- What the store does but for yielding, which changes no fuel. -/
def outOfGas (t : FuelTank) : Exec FuelTank :=
  if t.refuel.1 then pure t.refuel.2 else throw outOfFuel

/-- The code that `fuel_check` emits, when `consumption` was not yet counted. -/
def fuelCheck (t : FuelTank) (consumption : ℕ) : Exec FuelTank :=
  let t := { t with injectedFuel := (t.injectedFuel + consumption).bmod (2 ^ 64) }
  if 0 ≤ t.injectedFuel then t.outOfGas else pure t

/-- Code that gets to checks after the given costs. -/
def fuelChecks (t : FuelTank) (costs : List ℕ) : Exec FuelTank := costs.foldlM fuelCheck t

/-- A check passes exactly if some fuel is left, wherever it is. -/
theorem Accounted.fuelCheck (h : Accounted t amount consumed) (hneg : t.injectedFuel ≤ 0) {n : ℕ}
    (hn : n ≤ i64Max) :
    (consumed + n < amount ∧ ∃ t', t.fuelCheck n = .ok t' ∧
      Accounted t' amount (consumed + n) ∧ t'.injectedFuel ≤ 0) ∨
    (amount ≤ consumed + n ∧ t.fuelCheck n = .error outOfFuel) := by
  have hwrap : (t.injectedFuel + n).bmod (2 ^ 64) = t.injectedFuel + n := by
    have := h.counter_le
    apply Int.bmod_eq_of_le <;> simp only [i64Max] at * <;> omega
  have h' := h.consume n
  have hleft := h'.left
  simp only [FuelTank.fuelCheck, hwrap, outOfGas, FuelTank.refuel, h'.getFuel_eq] at hleft ⊢
  by_cases hcheck : 0 ≤ t.injectedFuel + n
  · rw [if_pos hcheck]
    by_cases hpos : 0 < amount - (consumed + n)
    · simp only [if_pos hpos]
      refine .inl ⟨by omega, _, rfl, .set h.amount_le _ _, ?_⟩
      simp only [setFuel]
      omega
    · simp only [if_neg hpos]
      exact .inr ⟨by omega, rfl⟩
  · rw [if_neg hcheck]
    exact .inl ⟨by omega, _, rfl, h', by simp only; omega⟩

/-- The checks stop exactly when the amount is used up. -/
theorem Accounted.fuelChecks (h : Accounted t amount consumed) (hneg : t.injectedFuel ≤ 0)
    {costs : List ℕ} (hcosts : ∀ n ∈ costs, n ≤ i64Max) :
    (consumed + costs.sum < amount →
      ∃ t', t.fuelChecks costs = .ok t' ∧ Accounted t' amount (consumed + costs.sum)) ∧
    (amount ≤ consumed + costs.sum → costs ≠ [] → t.fuelChecks costs = .error outOfFuel) := by
  induction costs generalizing t consumed with
  | nil => exact ⟨fun _ => ⟨t, rfl, h⟩, fun _ hne => absurd rfl hne⟩
  | cons n costs ih =>
    rw [List.sum_cons, ← Nat.add_assoc, FuelTank.fuelChecks, List.foldlM_cons]
    rcases h.fuelCheck hneg (hcosts n (.head _)) with ⟨hlt, t', ht', h', hneg'⟩ | ⟨hge, herr⟩
    · obtain ⟨hok, herr⟩ := ih h' hneg' fun m hm => hcosts m (.tail _ hm)
      rw [ht', ok_bind]
      refine ⟨hok, fun hge _ => herr hge ?_⟩
      rintro rfl
      exact absurd hlt (Nat.not_lt.mpr hge)
    · rw [herr]
      exact ⟨fun hlt => absurd hlt (by omega), fun _ _ => rfl⟩

/-- **Compiled code runs out of fuel at the first check** at which it has consumed what it was
given, whatever the yield interval is. -/
theorem fuelChecks_exact (t : FuelTank) {fuel : ℕ} (hfuel : fuel ≤ u64Max) {costs : List ℕ}
    (hcosts : ∀ n ∈ costs, n ≤ i64Max) :
    (costs.sum < fuel →
      ∃ t', (t.setFuel fuel).fuelChecks costs = .ok t' ∧ t'.getFuel = fuel - costs.sum) ∧
    (fuel ≤ costs.sum → costs ≠ [] →
      (t.setFuel fuel).fuelChecks costs = .error outOfFuel) := by
  have hneg : (t.setFuel fuel).injectedFuel ≤ 0 := by
    simp only [setFuel]
    omega
  have h := Accounted.fuelChecks (.set hfuel t 0) hneg hcosts
  rw [Nat.zero_add] at h
  refine ⟨fun hlt => ?_, h.2⟩
  obtain ⟨t', ht', h'⟩ := h.1 hlt
  exact ⟨t', ht', h'.getFuel_eq⟩

theorem fuelChecks_exact_refuelled :
    (∃ t', (setFuel ⟨0, 0, some 10⟩ 42).fuelChecks [14, 3, 24] = .ok t' ∧ t'.getFuel = 1) ∧
    (setFuel ⟨0, 0, some 10⟩ 42).fuelChecks [14, 3, 24, 1] = .error outOfFuel :=
  ⟨(fuelChecks_exact _ (by decide) (by decide)).1 (by decide),
    (fuelChecks_exact _ (by decide) (by decide)).2 (by decide) nofun⟩

end FuelTank

end WasmDeps.Store
