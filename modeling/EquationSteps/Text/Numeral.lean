import EquationSteps.Text.Basic

/-!
# Numerals

The numeric literals that stand in the leaves of a tree. A *decimal literal* is a run of ASCII
digits with at most one point and at least one digit; an *integer literal* is a nonempty run of
digits. Neither carries a sign, and neither has a bound on its length: a literal denotes an exact
natural number or fraction.

`decimalFraction?` reads every digit of a literal, and `fractionText` writes a fraction back as
`n` or as `n/d` in lowest terms.
-/

namespace EquationSteps.Numeral

/-- Digits with at most one point and at least one digit. -/
def isDecimal (text : Text) : Bool :=
  text.all (fun c ↦ c.isDigit || c == '.') && decide (text.count '.' ≤ 1) && text.any Char.isDigit

/-- A nonempty run of digits. -/
def isInteger (text : Text) : Bool :=
  !text.isEmpty && text.all Char.isDigit

/-- A text without its leading zeros; `0` where nothing else is left. -/
def canonicalInteger (text : Text) : Text :=
  match text.dropWhile (· == '0') with
  | [] => ['0']
  | digits => digits

/-- The number that a run of digits denotes in base ten. -/
def value (digits : Text) : Nat :=
  Nat.ofDigitChars 10 digits 0

/-- The decimal digits of a number. -/
def digits (n : Nat) : Text :=
  Nat.toDigits 10 n

/-- The number that an integer literal denotes. -/
def integer? (text : Text) : Option Nat :=
  if isInteger text then some (value text) else none

/-- The exact value of a decimal literal. -/
def decimalFraction? (text : Text) : Option Rat :=
  if isDecimal text then
    let (whole, places) := (Text.cut? '.' text).getD (text, [])
    some (mkRat (value (whole ++ places)) (Nat.pow 10 places.length))
  else none

/-- The digits of an integer, with a minus sign where it is negative. -/
def integerText (n : Int) : Text :=
  if n < 0 then '-' :: digits n.natAbs else digits n.natAbs

/-- A fraction in lowest terms as the reader understands it: `n/d`, or `n` alone where `d` is
one. -/
def fractionText (q : Rat) : Text :=
  if q.den = 1 then integerText q.num else integerText q.num ++ '/' :: digits q.den

/-- Writing a number and reading it back gives the number. -/
theorem value_digits (n : Nat) : value (digits n) = n :=
  Nat.ofDigitChars_toDigits (by decide) (by decide)

/-- An integer literal is one of digits only, and it is read in full. -/
theorem integer?_eq_some_iff {text : Text} {n : Nat} :
    integer? text = some n ↔ isInteger text = true ∧ value text = n := by
  by_cases h : isInteger text <;> simp [integer?, h]

end EquationSteps.Numeral
