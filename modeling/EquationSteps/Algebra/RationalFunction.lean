import EquationSteps.Algebra.Polynomial
import EquationSteps.Failure

/-!
# Rational functions

Quotients of polynomials. A quotient is kept just as it was computed and is never reduced, so one
function has many representations; `equals` compares the functions, by multiplying crosswise. The
only operation that can fail is division, and it fails exactly by a divisor whose numerator is the
zero polynomial, which keeps every denominator away from zero.
-/

namespace EquationSteps

/-- A quotient of two polynomials. -/
structure RationalFunction where
  numerator : Polynomial
  denominator : Polynomial
  deriving DecidableEq

namespace RationalFunction

/-- A polynomial over one. -/
def ofPolynomial (p : Polynomial) : RationalFunction :=
  ⟨p, 1⟩

/-- A constant function. -/
def constant (c : Rat) : RationalFunction :=
  ofPolynomial (.constant c)

/-- A variable. -/
def ofVariable (name : Char) : RationalFunction :=
  ofPolynomial (.ofVariable name)

/-- Whether the function is zero. -/
def isZero (f : RationalFunction) : Bool :=
  f.numerator.isZero

/-- The sum, over the product of the denominators. -/
def add (f g : RationalFunction) : RationalFunction :=
  ⟨f.numerator * g.denominator + g.numerator * f.denominator, f.denominator * g.denominator⟩

/-- The function with its numerator negated. -/
def neg (f : RationalFunction) : RationalFunction :=
  ⟨-f.numerator, f.denominator⟩

/-- The difference. -/
def sub (f g : RationalFunction) : RationalFunction :=
  f.add g.neg

/-- The product. -/
def mul (f g : RationalFunction) : RationalFunction :=
  ⟨f.numerator * g.numerator, f.denominator * g.denominator⟩

/-- The quotient, unless the divisor is zero. -/
def div? (f g : RationalFunction) : Except ValueError RationalFunction :=
  if g.isZero then .error .divisionByZero
  else .ok ⟨f.numerator * g.denominator, f.denominator * g.numerator⟩

/-- Whether two quotients are the same function. -/
def equals (f g : RationalFunction) : Bool :=
  (f.numerator * g.denominator - g.numerator * f.denominator).isZero

/-- Division fails by zero alone. -/
theorem div?_eq_error_iff {f g : RationalFunction} {e : ValueError} :
    f.div? g = .error e ↔ g.isZero = true ∧ e = .divisionByZero := by
  unfold div?
  split
  · rename_i h
    simp [h, eq_comm]
  · rename_i h
    simp [h]

end RationalFunction

end EquationSteps
