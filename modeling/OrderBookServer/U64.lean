import Mathlib.Tactic

/-!
# Machine words

Values of the word types `u64` and `usize` are natural numbers. The operations
that can leave the range are spelt out here: they wrap, as in a release build,
saturate, or return nothing, as the operation at hand is documented to do.
-/
namespace OrderBookServer.U64

def modulus : ℕ := 2 ^ 64

def max : ℕ := modulus - 1

def wrappingAdd (a b : ℕ) : ℕ := (a + b) % modulus

def wrappingSub (a b : ℕ) : ℕ := (a + (modulus - b % modulus)) % modulus

def wrappingMul (a b : ℕ) : ℕ := (a * b) % modulus

def wrappingPow (a n : ℕ) : ℕ := a ^ n % modulus

def checkedAdd (a b : ℕ) : Option ℕ := if a + b < modulus then some (a + b) else none

def checkedMul (a b : ℕ) : Option ℕ := if a * b < modulus then some (a * b) else none

def checkedPow (a n : ℕ) : Option ℕ := if a ^ n < modulus then some (a ^ n) else none

/-- `div_ceil`: the quotient, plus one when the division leaves a remainder. -/
def divCeil (a b : ℕ) : ℕ := if a % b = 0 then a / b else a / b + 1

theorem wrappingAdd_lt (a b : ℕ) : wrappingAdd a b < modulus :=
  Nat.mod_lt _ (by decide)

theorem wrappingSub_of_le {a b : ℕ} (ha : a < modulus) (hb : b ≤ a) : wrappingSub a b = a - b := by
  have hsum : a + (modulus - b) = a - b + modulus := by omega
  rw [wrappingSub, Nat.mod_eq_of_lt (a := b) (by omega), hsum, Nat.add_mod_right,
    Nat.mod_eq_of_lt (by omega)]

theorem wrappingMul_of_lt {a b : ℕ} (h : a * b < modulus) : wrappingMul a b = a * b :=
  Nat.mod_eq_of_lt h

/-! A checked operation that returns a value returns what the wrapping one does. -/

theorem mod_of_checked {x c : ℕ} (h : (if x < modulus then some x else none) = some c) :
    x % modulus = c := by
  obtain ⟨hlt, hc⟩ := Option.ite_none_right_eq_some.mp h
  rw [Nat.mod_eq_of_lt hlt]
  exact Option.some.inj hc

theorem wrappingAdd_of_checked {a b c : ℕ} (h : checkedAdd a b = some c) : wrappingAdd a b = c :=
  mod_of_checked h

theorem wrappingMul_of_checked {a b c : ℕ} (h : checkedMul a b = some c) : wrappingMul a b = c :=
  mod_of_checked h

theorem wrappingPow_of_checked {a n c : ℕ} (h : checkedPow a n = some c) : wrappingPow a n = c :=
  mod_of_checked h

theorem wrappingAdd_assoc (a b c : ℕ) :
    wrappingAdd (wrappingAdd a b) c = wrappingAdd a (wrappingAdd b c) := by
  simp only [wrappingAdd, Nat.mod_add_mod, Nat.add_mod_mod, Nat.add_assoc]

theorem divCeil_eq {a b : ℕ} (hb : 0 < b) : divCeil a b = (a + b - 1) / b := by
  have hab := Nat.div_add_mod a b
  have hlt := Nat.mod_lt a hb
  unfold divCeil
  symm
  split_ifs with h
  · calc (a + b - 1) / b = (b - 1 + b * (a / b)) / b := by congr 1; omega
      _ = (b - 1) / b + a / b := Nat.add_mul_div_left _ _ hb
      _ = a / b := by rw [Nat.div_eq_of_lt (by omega), Nat.zero_add]
  · calc (a + b - 1) / b = (a % b - 1 + b * (a / b + 1)) / b := by
          congr 1; rw [Nat.mul_add]; omega
      _ = (a % b - 1) / b + (a / b + 1) := Nat.add_mul_div_left _ _ hb
      _ = a / b + 1 := by rw [Nat.div_eq_of_lt (a := a % b - 1) (by omega), Nat.zero_add]

end OrderBookServer.U64
