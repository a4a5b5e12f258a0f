import Mathlib.Order.Closure
import Mathlib.Data.Nat.Log
import Mathlib.Tactic

/-!
# Rounding to significant decimal figures

A number is rounded, up or down, to a multiple of `m * 10 ^ (d - n)`, where `d`
is its own digit count. The width of the grid so depends on the number, and
rounding up can add a digit. For at least two figures and a mantissa `m` that
divides ten both roundings are nevertheless closure operators, rounding down in
the dual order, and their closed numbers are those that lie on their own grid.
-/
namespace OrderBookServer.SigFigs

/-- The count of decimal digits; zero has one. -/
def digits (x : ℕ) : ℕ := Nat.log 10 x + 1

theorem one_le_digits (x : ℕ) : 1 ≤ digits x := Nat.le_add_left 1 _

theorem lt_pow_digits (x : ℕ) : x < 10 ^ digits x := Nat.lt_pow_succ_log_self (by omega) x

theorem pow_le_of_two_le_digits {x : ℕ} (h : 2 ≤ digits x) : 10 ^ (digits x - 1) ≤ x := by
  have hne : x ≠ 0 := by
    rintro rfl
    simp [digits] at h
  exact Nat.pow_log_le_self 10 hne

theorem digits_le_iff {x d : ℕ} (hd : 1 ≤ d) : digits x ≤ d ↔ x < 10 ^ d := by
  rw [digits, Nat.add_one_le_iff]
  obtain rfl | hx := Nat.eq_zero_or_pos x
  · have hpos : 0 < d := hd
    simpa using hpos
  · exact Nat.log_lt_iff_lt_pow (by omega) (by omega)

theorem digits_mono {x y : ℕ} (h : x ≤ y) : digits x ≤ digits y :=
  Nat.succ_le_succ (Nat.log_mono_right h)

theorem digits_pow (d : ℕ) : digits (10 ^ d) = d + 1 := by
  rw [digits, Nat.log_pow (by omega)]

/-- The width of the grid a number is rounded to. -/
def width (n m x : ℕ) : ℕ := m * 10 ^ (digits x - n)

def roundDown (n m x : ℕ) : ℕ := x / width n m x * width n m x

def roundUp (n m x : ℕ) : ℕ := (x + width n m x - 1) / width n m x * width n m x

/-- A number that lies on its own grid. -/
def OnGrid (n m x : ℕ) : Prop := width n m x ∣ x

instance (n m x : ℕ) : Decidable (OnGrid n m x) := Nat.decidable_dvd _ _

theorem width_eq_of_digits_eq (n m : ℕ) {x y : ℕ} (h : digits x = digits y) :
    width n m x = width n m y := by rw [width, width, h]

theorem roundDown_le (n m x : ℕ) : roundDown n m x ≤ x := Nat.div_mul_le_self x _

/-- A grid point at or below `x` is at or below the rounding down. -/
theorem le_roundDown {n m x k : ℕ} (hk : width n m x ∣ k) (h : k ≤ x) : k ≤ roundDown n m x := by
  obtain ⟨c, rfl⟩ := hk
  obtain hw | hw := Nat.eq_zero_or_pos (width n m x)
  · simp [hw]
  · rw [roundDown, Nat.mul_comm]
    exact Nat.mul_le_mul_right _ ((Nat.le_div_iff_mul_le hw).mpr (by rwa [Nat.mul_comm]))

section

variable {n m : ℕ} (hn : 2 ≤ n) (hm : m ∣ 10)

include hm

theorem width_pos (n x : ℕ) : 0 < width n m x :=
  Nat.mul_pos (Nat.pos_of_dvd_of_pos hm (by omega)) (by positivity)

theorem le_roundUp (n x : ℕ) : x ≤ roundUp n m x := by
  have hw := width_pos hm n x
  have hmod := Nat.div_add_mod (x + width n m x - 1) (width n m x)
  have hlt := Nat.mod_lt (x + width n m x - 1) hw
  rw [roundUp, Nat.mul_comm]
  omega

/-- A grid point at or above `x` is at or above the rounding up. -/
theorem roundUp_le {x k : ℕ} (hk : width n m x ∣ k) (h : x ≤ k) : roundUp n m x ≤ k := by
  have hw := width_pos hm n x
  obtain ⟨c, rfl⟩ := hk
  rw [roundUp, Nat.mul_comm (width n m x) c]
  apply Nat.mul_le_mul_right
  rw [← Nat.lt_add_one_iff, Nat.div_lt_iff_lt_mul hw]
  calc x + width n m x - 1 < x + width n m x := by omega
    _ ≤ (c + 1) * width n m x := by rw [Nat.add_mul, Nat.one_mul, Nat.mul_comm c]; omega

include hn

theorem width_dvd_pow_pred {x : ℕ} (h : 2 ≤ digits x) : width n m x ∣ 10 ^ (digits x - 1) := by
  calc width n m x ∣ 10 * 10 ^ (digits x - n) := Nat.mul_dvd_mul_right hm _
    _ = 10 ^ (digits x - n + 1) := by rw [pow_succ']
    _ ∣ 10 ^ (digits x - 1) := pow_dvd_pow 10 (by omega)

theorem width_dvd_pow (x : ℕ) : width n m x ∣ 10 ^ digits x := by
  have hd := one_le_digits x
  calc width n m x ∣ 10 * 10 ^ (digits x - n) := Nat.mul_dvd_mul_right hm _
    _ = 10 ^ (digits x - n + 1) := by rw [pow_succ']
    _ ∣ 10 ^ digits x := pow_dvd_pow 10 (by omega)

theorem onGrid_roundDown (x : ℕ) : OnGrid n m (roundDown n m x) := by
  have hdigits : digits (roundDown n m x) = digits x := by
    apply le_antisymm (digits_mono (roundDown_le n m x))
    by_cases hd : 2 ≤ digits x
    · -- Rounding down does not fall below the least number of as many digits.
      have hlow := le_roundDown (width_dvd_pow_pred hn hm hd) (pow_le_of_two_le_digits hd)
      calc digits x = digits (10 ^ (digits x - 1)) := by rw [digits_pow]; omega
        _ ≤ digits (roundDown n m x) := digits_mono hlow
    · have := one_le_digits (roundDown n m x)
      omega
  rw [OnGrid, width_eq_of_digits_eq n m hdigits]
  exact Nat.dvd_mul_left _ _

theorem onGrid_roundUp (x : ℕ) : OnGrid n m (roundUp n m x) := by
  have hle : roundUp n m x ≤ 10 ^ digits x :=
    roundUp_le hm (width_dvd_pow hn hm x) (lt_pow_digits x).le
  obtain hlt | heq := lt_or_eq_of_le hle
  · have hdigits : digits (roundUp n m x) = digits x :=
      le_antisymm ((digits_le_iff (one_le_digits x)).mpr hlt) (digits_mono (le_roundUp hm n x))
    rw [OnGrid, width_eq_of_digits_eq n m hdigits]
    exact Nat.dvd_mul_left _ _
  · -- The rounding is the next power of ten, and lies on the coarser grid as well.
    have hd := one_le_digits x
    have hpow := width_dvd_pow_pred hn hm (x := 10 ^ digits x) (by rw [digits_pow]; omega)
    rw [digits_pow, Nat.add_sub_cancel] at hpow
    rw [OnGrid, heq]
    exact hpow

theorem le_roundDown_of_onGrid {x y : ℕ} (hyx : y ≤ x) (hy : OnGrid n m y) :
    y ≤ roundDown n m x := by
  obtain hlt | heq := lt_or_eq_of_le (digits_mono hyx)
  · have hy1 := one_le_digits y
    have hd : 2 ≤ digits x := by omega
    calc y ≤ 10 ^ digits y := (lt_pow_digits y).le
      _ ≤ 10 ^ (digits x - 1) := Nat.pow_le_pow_right (by omega) (by omega)
      _ ≤ roundDown n m x := le_roundDown (width_dvd_pow_pred hn hm hd) (pow_le_of_two_le_digits hd)
  · exact le_roundDown (width_eq_of_digits_eq n m heq ▸ hy) hyx

theorem roundUp_le_of_onGrid {x y : ℕ} (hxy : x ≤ y) (hy : OnGrid n m y) : roundUp n m x ≤ y := by
  obtain hlt | heq := lt_or_eq_of_le (digits_mono hxy)
  · have hx1 := one_le_digits x
    calc roundUp n m x ≤ 10 ^ digits x :=
          roundUp_le hm (width_dvd_pow hn hm x) (lt_pow_digits x).le
      _ ≤ 10 ^ (digits y - 1) := Nat.pow_le_pow_right (by omega) (by omega)
      _ ≤ y := pow_le_of_two_le_digits (by omega)
  · exact roundUp_le hm (width_eq_of_digits_eq n m heq ▸ hy) hxy

end

/-- Rounding up, as a closure operator. -/
def up (n m : ℕ) (hn : 2 ≤ n) (hm : m ∣ 10) : ClosureOperator ℕ :=
  ClosureOperator.ofPred (roundUp n m) (OnGrid n m) (le_roundUp hm n) (onGrid_roundUp hn hm)
    fun _ _ h hy => roundUp_le_of_onGrid hn hm h hy

/-- Rounding down, as a closure operator of the dual order. -/
def down (n m : ℕ) (hn : 2 ≤ n) (hm : m ∣ 10) : ClosureOperator ℕᵒᵈ :=
  ClosureOperator.ofPred (roundDown n m) (OnGrid n m) (roundDown_le n m) (onGrid_roundDown hn hm)
    fun _ _ h hy => le_roundDown_of_onGrid hn hm h hy

end OrderBookServer.SigFigs
