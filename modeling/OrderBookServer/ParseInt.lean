import Mathlib.Data.List.Basic
import Mathlib.Tactic.Common

/-!
# Reading unsigned integers

An unsigned integer is read digit by digit below a bound, after a plus sign that may be
there. The first character that is no digit, or that takes the number to the bound, ends
the reading with an error. What is printed is read back.
-/
namespace OrderBookServer

inductive ParseIntError where
  | empty
  | invalidDigit
  | posOverflow
  deriving DecidableEq, Repr

def ParseIntError.display : ParseIntError → String
  | .empty => "cannot parse integer from empty string"
  | .invalidDigit => "invalid digit found in string"
  | .posOverflow => "number too large to fit in target type"

namespace ParseInt

/-- Read on from the number `n`. -/
def digits (bound : ℕ) : ℕ → List Char → Except ParseIntError ℕ
  | n, [] => .ok n
  | n, c :: cs =>
    if !c.isDigit then .error .invalidDigit
    else
      let next := 10 * n + (c.toNat - '0'.toNat)
      if bound ≤ next then .error .posOverflow else digits bound next cs

/-- `parse` for an unsigned type whose values are below `bound`. -/
def parse (bound : ℕ) (text : String) : Except ParseIntError ℕ :=
  match text.toList with
  | [] => .error .empty
  | ['+'] => .error .invalidDigit
  | '+' :: cs => digits bound 0 cs
  | cs => digits bound 0 cs

variable {bound n m : ℕ} {cs : List Char} {text : String}

theorem lt_of_digits (h : digits bound n cs = .ok m) (hn : n < bound) : m < bound := by
  induction cs generalizing n with
  | nil =>
    simp only [digits, Except.ok.injEq] at h
    omega
  | cons c cs ih =>
    simp only [digits] at h
    split_ifs at h with hdigit hover
    exact ih h (by omega)

theorem lt_of_parse (h : parse bound text = .ok m) (hbound : 0 < bound) : m < bound := by
  unfold parse at h
  split at h
  · simp at h
  · simp at h
  · exact lt_of_digits h hbound
  · exact lt_of_digits h hbound

theorem le_ofDigitChars (cs : List Char) (n : ℕ) : n ≤ Nat.ofDigitChars 10 cs n := by
  induction cs generalizing n with
  | nil => simp
  | cons c cs ih =>
    have hrest := ih (10 * n + (c.toNat - '0'.toNat))
    rw [Nat.ofDigitChars_cons]
    omega

/-- Digits are read unless they make a number that is too large. -/
theorem digits_of_lt (hall : ∀ c ∈ cs, c.isDigit = true) (hlt : Nat.ofDigitChars 10 cs n < bound) :
    digits bound n cs = .ok (Nat.ofDigitChars 10 cs n) := by
  induction cs generalizing n with
  | nil => simp [digits]
  | cons c cs ih =>
    rw [Nat.ofDigitChars_cons] at hlt ⊢
    have hle := le_ofDigitChars cs (10 * n + (c.toNat - '0'.toNat))
    have hnext : ¬ bound ≤ 10 * n + (c.toNat - '0'.toNat) := by omega
    simp only [digits, hall c List.mem_cons_self, hnext, Bool.not_true, Bool.false_eq_true,
      if_false]
    exact ih (fun d hd => hall d (List.mem_cons_of_mem c hd)) hlt

theorem parse_repr (h : n < bound) : parse bound n.repr = .ok n := by
  have hall (c : Char) (hc : c ∈ Nat.toDigits 10 n) : c.isDigit = true :=
    Nat.isDigit_of_mem_toDigits (by omega) (by omega) hc
  have hread : digits bound 0 (Nat.toDigits 10 n) = .ok n := by
    rw [digits_of_lt hall (by simpa using h), Nat.ofDigitChars_ten_toDigits]
  unfold parse
  rw [Nat.toList_repr]
  split
  · rename_i hnil
    exact absurd hnil Nat.toDigits_ne_nil
  · rename_i hplus
    have := hall '+' (by simp [hplus])
    simp at this
  · rename_i hplus
    have := hall '+' (by simp [hplus])
    simp at this
  · exact hread

end ParseInt
end OrderBookServer
