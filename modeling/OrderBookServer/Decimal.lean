import OrderBookServer.U64
import Mathlib.Data.List.DropRight

/-!
# Prices and sizes from text

Prices and sizes arrive as decimal text. The source parses the text as a double,
multiplies it by `10^8`, rounds to the nearest integer (halves away from zero)
and casts to `u64`, which saturates. A finite double is kept exactly, as
`q * 2^k`; `roundToDouble` is the correct rounding to 53 bits, ties to even, that
both the parse and the product perform.
-/
namespace OrderBookServer.Decimal

/-- `2^k` for a signed exponent, as the numerator and denominator of a fraction. -/
def scale (k : ℤ) : ℕ × ℕ := (2 ^ k.toNat, 2 ^ (-k).toNat)

/-- The exponent of the last bit kept of `num / den`: 53 significant bits, or
fewer when the value is subnormal. -/
def lastBit (num den : ℕ) : ℤ :=
  let e : ℤ := (Nat.log2 num : ℤ) - Nat.log2 den
  let s := scale e
  let top := if s.1 * den ≤ num * s.2 then e else e - 1
  max (top - 52) (-1074)

/-- The double nearest to `num / den` as `q * 2^k`, or nothing past the largest. -/
def roundToDouble (num den : ℕ) : Option (ℕ × ℤ) :=
  if num = 0 then some (0, 0)
  else
    let k := lastBit num den
    let s := scale k
    let n := num * s.2
    let d := den * s.1
    let q := n / d
    let r := n % d
    let q := if d < 2 * r ∨ (d = 2 * r ∧ q % 2 = 1) then q + 1 else q
    if 2 ^ 1024 * s.2 ≤ q * s.1 then none else some (q, k)

/-- A float literal that `f64::from_str` accepts. -/
inductive Literal where
  | number (neg : Bool) (mantissa : ℕ) (exp10 : ℤ)
  | inf (neg : Bool)
  | nan
  deriving DecidableEq, Repr

def digits (cs : List Char) : List Char := cs.takeWhile Char.isDigit

def afterDigits (cs : List Char) : List Char := cs.dropWhile Char.isDigit

def digitsValue (cs : List Char) : ℕ := cs.foldl (fun n c => 10 * n + (c.toNat - '0'.toNat)) 0

/-- A leading sign: whether it is a minus, and what follows it. -/
def sign : List Char → Bool × List Char
  | '-' :: cs => (true, cs)
  | '+' :: cs => (false, cs)
  | cs => (false, cs)

/-- The decimal exponent after `e` or `E`, which must be the rest of the text. -/
def exponent : List Char → Option ℤ
  | [] => some 0
  | c :: cs =>
    if c = 'e' ∨ c = 'E' then
      let (neg, cs) := sign cs
      if digits cs = [] ∨ afterDigits cs ≠ [] then none
      else some (if neg then -(digitsValue cs : ℤ) else digitsValue cs)
    else none

/-- Digits with an optional point, at least one digit in all, and an exponent. -/
def number (cs : List Char) : Option (ℕ × ℤ) :=
  let whole := digits cs
  let rest := afterDigits cs
  let (fraction, rest) := match rest with
    | '.' :: rest => (digits rest, afterDigits rest)
    | rest => ([], rest)
  if whole ++ fraction = [] then none
  else (exponent rest).map fun e => (digitsValue (whole ++ fraction), e - fraction.length)

def word (cs : List Char) : String := String.ofList (cs.map Char.toLower)

/-- `f64::from_str`, up to the rounding of the number read. -/
def literal (text : String) : Except String Literal :=
  if text.toList = [] then .error "cannot parse float from empty string"
  else
    let (neg, cs) := sign text.toList
    match number cs with
    | some (m, e) => .ok (.number neg m e)
    | none =>
      if word cs = "inf" ∨ word cs = "infinity" then .ok (.inf neg)
      else if word cs = "nan" then .ok .nan
      else .error "invalid float literal"

/-- `round() as u64` of a nonnegative double: halves go up, and the cast
saturates, also for infinity. -/
def castU64 : Option (ℕ × ℤ) → ℕ
  | none => U64.max
  | some (q, k) => min ((2 * (q * (scale k).1) + (scale k).2) / (2 * (scale k).2)) U64.max

theorem castU64_le_max (x : Option (ℕ × ℤ)) : castU64 x ≤ U64.max := by
  cases x with
  | none => exact le_rfl
  | some x => exact min_le_right _ _

/-- `(x * MULTIPLIER).round() as u64` for the double `x` a literal denotes. The
cast sends NaN and every negative value to zero. -/
def scaled : Literal → ℕ
  | .nan => 0
  | .inf neg => if neg then 0 else U64.max
  | .number true _ _ => 0
  | .number false m e =>
    castU64 ((roundToDouble (m * 10 ^ e.toNat) (10 ^ (-e).toNat)).bind fun x =>
      roundToDouble (x.1 * 100000000 * (scale x.2).1) (scale x.2).2)

/-- `parse_from_str`, the same for prices and sizes. -/
def parseFromStr (text : String) : Except String ℕ := (literal text).map scaled

theorem scaled_le_max (x : Literal) : scaled x ≤ U64.max := by
  cases x with
  | nan => exact Nat.zero_le _
  | inf neg => cases neg <;> simp [scaled]
  | number neg m e =>
    cases neg with
    | true => exact Nat.zero_le _
    | false => exact castU64_le_max _

/-- A parsed price or size is a `u64`. -/
theorem parseFromStr_lt {text : String} {v : ℕ} (h : parseFromStr text = .ok v) : v < U64.modulus := by
  unfold parseFromStr at h
  cases hl : literal text with
  | error e => rw [hl] at h; cases h
  | ok x =>
    rw [hl] at h
    cases h
    have := scaled_le_max x
    exact Nat.lt_of_le_of_lt this (Nat.sub_lt (by decide) (by decide))

example : parseFromStr "7.917" = .ok 791700000 := by decide +kernel

/-- The integer nearest to `n / d`, halves to even. -/
def nearest (n d : ℕ) : ℕ :=
  let q := n / d
  let r := n % d
  if d < 2 * r ∨ (d = 2 * r ∧ q % 2 = 1) then q + 1 else q

/-- Eight decimals, with zeros in front. -/
def decimals (n : ℕ) : List Char :=
  let ds := Nat.toDigits 10 n
  List.replicate (8 - ds.length) '0' ++ ds

/-- `format!("{:.8}")` of a double, in units of `10^-8`. -/
def fixed (units : ℕ) : List Char :=
  Nat.toDigits 10 (units / 100000000) ++ '.' :: decimals (units % 100000000)

/-- `value as f64 / MULTIPLIER`, which no word overflows. -/
def unscaled (value : ℕ) : Option (ℕ × ℤ) :=
  (roundToDouble value 1).bind fun x =>
    roundToDouble (x.1 * (scale x.2).1) (100000000 * (scale x.2).2)

/-- `to_str`, the same for prices and sizes: eight decimals without the zeros at their
end, nor the point when nothing follows it. -/
def toStr (value : ℕ) : String :=
  match unscaled value with
  | none => "inf"
  | some x =>
    let text := fixed (nearest (x.1 * 100000000 * (scale x.2).1) (scale x.2).2)
    String.ofList ((text.rdropWhile (· = '0')).rdropWhile (· = '.'))

example : toStr 791700000 = "7.917" := by decide +kernel

end OrderBookServer.Decimal
