import EquationSteps.Algebra.RationalFunction
import EquationSteps.Proofs.Algebra.Polynomial
import Mathlib.Algebra.CharP.Algebra
import Mathlib.RingTheory.Localization.FractionRing

/-!
# Rational functions as elements of the function field

A quotient as it is computed stands for an element of the field of fractions of the polynomial ring,
by `RationalFunction.toField`. On quotients that are kept as they should be
(`RationalFunction.IsProper`: numerator and denominator are in canonical form, and the denominator
is not zero) the operations are those of the field, and `equals` is equality in the field:
`equals_iff`. So however a function is represented, only its element of the field counts.

**No quotient is ever reduced.** Adding multiplies the denominators and dividing multiplies
crosswise, so the same function has many representations, and none of them is singled out. That is
why the comparison multiplies crosswise, and why everything said of values elsewhere is said in the
field rather than about pairs of polynomials.

What each lemma needs is kept apart:

* negation and multiplication agree with the field for any two quotients (`toField_neg`,
  `toField_mul`), as a quotient by zero is zero in the field and both sides are;
* addition and subtraction need denominators that are not zero (`toField_add`, `toField_sub`), for a
  common denominator is only common if both parts of it can be divided by;
* `isZero`, `div?` and `equals` look at lists of terms, and lists are compared to what they stand
  for by canonical form alone.
-/

namespace EquationSteps

/-- The field of rational functions, in which expressions have their values: fractions of
polynomials with rational coefficients in letters. -/
abbrev FunctionField := FractionRing (MvPolynomial Char ℚ)

/-- However it is seen that there are no zero divisors, the function field is the same. Naming the
instance once keeps the ones that are found in different ways from being compared again. -/
instance instNoZeroDivisors : NoZeroDivisors (MvPolynomial Char ℚ) := inferInstance

/-- The rational numbers are part of the field, so no positive number is zero in it. -/
instance FunctionField.instCharZero : CharZero FunctionField :=
  charZero_of_injective_algebraMap (algebraMap ℚ FunctionField).injective

namespace Polynomial

/-- A polynomial as a rational function. -/
noncomputable def toField (p : Polynomial) : FunctionField :=
  algebraMap (MvPolynomial Char ℚ) FunctionField p.toRing

@[simp] theorem toField_one : (1 : Polynomial).toField = 1 := by
  simp [toField]

@[simp] theorem toField_add (p q : Polynomial) : (p + q).toField = p.toField + q.toField := by
  simp [toField]

@[simp] theorem toField_neg (p : Polynomial) : (-p).toField = -p.toField := by
  simp [toField]

@[simp] theorem toField_sub (p q : Polynomial) : (p - q).toField = p.toField - q.toField := by
  simp [toField]

@[simp] theorem toField_mul (p q : Polynomial) : (p * q).toField = p.toField * q.toField := by
  simp [toField]

/-- A polynomial in canonical form is zero in the field only if its list of terms is empty: nothing
is lost from the ring to its fractions, and nothing from canonical lists to the ring. -/
theorem toField_eq_zero_iff {p : Polynomial} (hp : p.IsCanonical) : p.toField = 0 ↔ p = 0 := by
  rw [← toRing_eq_zero_iff hp, toField]
  exact map_eq_zero_iff _ (IsFractionRing.injective _ _)

end Polynomial

namespace RationalFunction

/-- A quotient as an element of the function field. -/
noncomputable def toField (f : RationalFunction) : FunctionField :=
  f.numerator.toField / f.denominator.toField

/-- A quotient as it is kept: both polynomials are in canonical form, and the denominator is not
zero. Numerator and denominator may have factors in common. -/
structure IsProper (f : RationalFunction) : Prop where
  numerator : f.numerator.IsCanonical
  denominator : f.denominator.IsCanonical
  denominator_ne_zero : f.denominator ≠ 0

namespace IsProper

variable {f g : RationalFunction}

/-- The denominator of a proper quotient can be divided by in the field. -/
theorem toField_denominator_ne_zero (hf : f.IsProper) : f.denominator.toField ≠ 0 := fun h ↦
  hf.denominator_ne_zero ((Polynomial.toField_eq_zero_iff hf.denominator).1 h)

/-- A quotient of canonical polynomials is proper if its denominator is not zero in the field. This
is how products of denominators are seen to be proper: there are no zero divisors. -/
theorem of_toField {p q : Polynomial} (hp : p.IsCanonical) (hq : q.IsCanonical)
    (h : q.toField ≠ 0) : IsProper ⟨p, q⟩ :=
  ⟨hp, hq, fun hzero ↦ h ((Polynomial.toField_eq_zero_iff hq).2 hzero)⟩

/-! ### Operations keep quotients proper -/

theorem ofPolynomial {p : Polynomial} (hp : p.IsCanonical) : (ofPolynomial p).IsProper :=
  of_toField hp Polynomial.isCanonical_one (by simp)

theorem constant (c : ℚ) : (constant c).IsProper :=
  ofPolynomial (Polynomial.isCanonical_constant c)

theorem ofVariable (name : Char) : (ofVariable name).IsProper :=
  ofPolynomial (Polynomial.isCanonical_ofVariable name)

theorem neg (hf : f.IsProper) : f.neg.IsProper :=
  ⟨hf.numerator.neg, hf.denominator, hf.denominator_ne_zero⟩

theorem add (hf : f.IsProper) (hg : g.IsProper) : (f.add g).IsProper := by
  refine of_toField ((hf.numerator.mul hg.denominator).add (hg.numerator.mul hf.denominator))
    (hf.denominator.mul hg.denominator) ?_
  rw [Polynomial.toField_mul]
  exact mul_ne_zero hf.toField_denominator_ne_zero hg.toField_denominator_ne_zero

theorem sub (hf : f.IsProper) (hg : g.IsProper) : (f.sub g).IsProper :=
  hf.add hg.neg

theorem mul (hf : f.IsProper) (hg : g.IsProper) : (f.mul g).IsProper := by
  refine of_toField (hf.numerator.mul hg.numerator) (hf.denominator.mul hg.denominator) ?_
  rw [Polynomial.toField_mul]
  exact mul_ne_zero hf.toField_denominator_ne_zero hg.toField_denominator_ne_zero

end IsProper

variable {f g : RationalFunction}

/-! ### Operations are those of the field -/

@[simp] theorem toField_constant (c : ℚ) :
    (constant c).toField = algebraMap (MvPolynomial Char ℚ) FunctionField (MvPolynomial.C c) := by
  rw [toField, show (constant c).denominator = 1 from rfl, Polynomial.toField_one, div_one]
  simp [constant, ofPolynomial, Polynomial.toField]

@[simp] theorem toField_neg (f : RationalFunction) : f.neg.toField = -f.toField := by
  simp [toField, neg, neg_div]

theorem toField_add (hf : f.IsProper) (hg : g.IsProper) :
    (f.add g).toField = f.toField + g.toField := by
  rw [toField, toField, toField, div_add_div _ _ hf.toField_denominator_ne_zero
    hg.toField_denominator_ne_zero]
  simp only [add, Polynomial.toField_add, Polynomial.toField_mul]
  ring

theorem toField_sub (hf : f.IsProper) (hg : g.IsProper) :
    (f.sub g).toField = f.toField - g.toField := by
  rw [sub, toField_add hf hg.neg, toField_neg, sub_eq_add_neg]

theorem toField_mul (f g : RationalFunction) : (f.mul g).toField = f.toField * g.toField := by
  simp only [toField, mul, Polynomial.toField_mul]
  exact (div_mul_div_comm _ _ _ _).symm

/-- A proper quotient is zero only if its numerator has no terms. -/
theorem isZero_iff (hf : f.IsProper) : f.isZero = true ↔ f.toField = 0 := by
  rw [isZero, Polynomial.isZero_iff, ← Polynomial.toField_eq_zero_iff hf.numerator, toField,
    div_eq_zero_iff, or_iff_left hf.toField_denominator_ne_zero]

/-- Division fails by the zero function alone, and else it is the one of the field. -/
theorem div?_eq_ok (hf : f.IsProper) (hg : g.IsProper) (h : g.toField ≠ 0) :
    ∃ q, f.div? g = .ok q ∧ q.IsProper ∧ q.toField = f.toField * g.toField⁻¹ := by
  have hnumerator : g.numerator.toField ≠ 0 := fun hzero ↦ h (by rw [toField, hzero, zero_div])
  have hzero : g.isZero ≠ true := fun hzero ↦ h ((isZero_iff hg).1 hzero)
  refine ⟨_, if_neg hzero, ?_, ?_⟩
  · refine IsProper.of_toField (hf.numerator.mul hg.denominator)
      (hf.denominator.mul hg.numerator) ?_
    rw [Polynomial.toField_mul]
    exact mul_ne_zero hf.toField_denominator_ne_zero hnumerator
  · simp only [toField, Polynomial.toField_mul, inv_div]
    exact (div_mul_div_comm _ _ _ _).symm

/-- And by the zero function it fails, whatever is divided. -/
theorem div?_eq_error (hg : g.IsProper) (h : g.toField = 0) :
    f.div? g = .error .divisionByZero :=
  if_pos ((isZero_iff hg).2 h)

/-- Crosswise multiplication decides equality in the field, however differently the two functions
are written as quotients. -/
theorem equals_iff (hf : f.IsProper) (hg : g.IsProper) :
    f.equals g = true ↔ f.toField = g.toField := by
  rw [equals, Polynomial.isZero_iff, ← Polynomial.toField_eq_zero_iff
    ((hf.numerator.mul hg.denominator).sub (hg.numerator.mul hf.denominator)), toField, toField,
    div_eq_div_iff hf.toField_denominator_ne_zero hg.toField_denominator_ne_zero,
    Polynomial.toField_sub, sub_eq_zero, Polynomial.toField_mul, Polynomial.toField_mul]

end RationalFunction

end EquationSteps
