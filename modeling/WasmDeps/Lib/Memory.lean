import Mathlib.Algebra.Order.Ring.Int

/-!
# Byte memories

A memory has a length and a byte at every address; what lies beyond the length is never
read by a program that checks its accesses.  32-bit words are little-endian.
-/

namespace WasmDeps.Lib

structure Memory where
  len : ℕ
  byte : ℕ → UInt8

namespace Memory

variable {m m' : Memory} {a b i n v : ℕ}

def readU32 (m : Memory) (a : ℕ) : ℕ :=
  (m.byte a).toNat + 2 ^ 8 * (m.byte (a + 1)).toNat + 2 ^ 16 * (m.byte (a + 2)).toNat +
    2 ^ 24 * (m.byte (a + 3)).toNat

def writeU32 (m : Memory) (a v : ℕ) : Memory where
  len := m.len
  byte i := if a ≤ i ∧ i < a + 4 then UInt8.ofNat (v / 2 ^ (8 * (i - a))) else m.byte i

def copyWithin (m : Memory) (src dst n : ℕ) : Memory where
  len := m.len
  byte i := if dst ≤ i ∧ i < dst + n then m.byte (src + (i - dst)) else m.byte i

@[simp] theorem len_copyWithin : (m.copyWithin a b n).len = m.len := rfl

theorem readU32_congr (h : ∀ k < 4, m'.byte (b + k) = m.byte (a + k)) :
    m'.readU32 b = m.readU32 a := by
  have h0 := h 0 (by decide)
  have h1 := h 1 (by decide)
  have h2 := h 2 (by decide)
  have h3 := h 3 (by decide)
  rw [Nat.add_zero, Nat.add_zero] at h0
  rw [readU32, readU32, h0, h1, h2, h3]

theorem readU32_add_congr {o : ℕ}
    (h : ∀ k, o ≤ k → k < o + 4 → m'.byte (b + k) = m.byte (a + k)) :
    m'.readU32 (b + o) = m.readU32 (a + o) :=
  readU32_congr fun k hk => by
    rw [add_assoc, add_assoc]
    exact h (o + k) (by omega) (by omega)

/-! ## Reads after writes -/

theorem byte_writeU32_of (h : i < a ∨ a + 4 ≤ i) : (m.writeU32 a v).byte i = m.byte i :=
  if_neg (by omega)

theorem readU32_writeU32_of (h : b + 4 ≤ a ∨ a + 4 ≤ b) :
    (m.writeU32 a v).readU32 b = m.readU32 b :=
  readU32_congr fun k hk => byte_writeU32_of (by omega)

theorem toNat_byte_writeU32 {k : ℕ} (hk : k < 4) :
    ((m.writeU32 a v).byte (a + k)).toNat = v / 2 ^ (8 * k) % 2 ^ 8 := by
  have hin : a ≤ a + k ∧ a + k < a + 4 := by omega
  rw [writeU32]
  simp only [if_pos hin, Nat.add_sub_cancel_left]
  exact UInt8.toNat_ofNat'

theorem readU32_writeU32_self (hv : v < 2 ^ 32) : (m.writeU32 a v).readU32 a = v := by
  have h0 := toNat_byte_writeU32 (m := m) (a := a) (v := v) (k := 0) (by decide)
  rw [Nat.add_zero] at h0
  rw [readU32, toNat_byte_writeU32 (by decide), toNat_byte_writeU32 (by decide),
    toNat_byte_writeU32 (by decide)]
  omega

/-! ## Copies -/

theorem byte_copyWithin {src dst k : ℕ} (hk : k < n) :
    (m.copyWithin src dst n).byte (dst + k) = m.byte (src + k) := by
  have hin : dst ≤ dst + k ∧ dst + k < dst + n := by omega
  rw [copyWithin]
  simp only [if_pos hin, Nat.add_sub_cancel_left]

theorem byte_copyWithin_of_disjoint {src dst : ℕ} (h : i < dst ∨ dst + n ≤ i) :
    (m.copyWithin src dst n).byte i = m.byte i := if_neg (by omega)

end Memory

end WasmDeps.Lib
