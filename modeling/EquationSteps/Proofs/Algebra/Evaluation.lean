import EquationSteps.Proofs.Algebra.FunctionField
import Mathlib.Algebra.CharZero.Infinite
import Mathlib.Algebra.MvPolynomial.Funext

/-!
# Values of rational functions at points

A rational function has a value at a point if it is a quotient of polynomials of which the
denominator is not zero there (`HasValueAt`). The value does not depend on the quotient
(`HasValueAt.unique`), and it is computed by ordinary arithmetic along with the field operations; a
quotient has the value of the quotient as long as the divisor's value is not zero.

What holds wherever some polynomial other than zero does not vanish holds *generically*. Finitely
many such statements hold at one point at once (`Generically.and`, `Generically.exists_point`),
since there are no zero divisors and a polynomial over the rationals that vanishes everywhere is
zero.

These two notions are what connects the function field to texts. A text is evaluated at a point by
ordinary arithmetic, and that succeeds if no divisor is zero there. For a function other than zero
this is so at most points, and at a generic point at which two functions agree everything that was
divided by can be kept away from zero (`Generically.exists_value`). A statement about all points at
which divisors are nonzero is therefore never empty.

Note that a value is asked of *some* quotient that represents the function: `x / x` has the value
one at zero. A text that divides by `x` has no value there. The step from texts to functions goes in
one direction only, from the value of the text to that of the function.
-/

namespace EquationSteps

open MvPolynomial

/-- The function has the given value at a point: it can be written as a quotient with a denominator
that does not vanish there, and the value is the quotient of the values. -/
def HasValueAt (point : Char → ℚ) (k : FunctionField) (q : ℚ) : Prop :=
  ∃ p d : MvPolynomial Char ℚ, eval point d ≠ 0 ∧
    k = algebraMap _ FunctionField p / algebraMap _ FunctionField d ∧
      q = eval point p / eval point d

namespace HasValueAt

variable {point : Char → ℚ} {k l : FunctionField} {q r : ℚ}

/-- A polynomial that does not vanish at a point is not zero in the field. -/
theorem algebraMap_ne_zero {d : MvPolynomial Char ℚ} (h : eval point d ≠ 0) :
    algebraMap _ FunctionField d ≠ 0 := by
  intro hzero
  rw [map_eq_zero_iff _ (IsFractionRing.injective (MvPolynomial Char ℚ) FunctionField)] at hzero
  rw [hzero, map_zero] at h
  exact h rfl

/-- A polynomial has its value at every point. -/
theorem polynomial (point : Char → ℚ) (p : MvPolynomial Char ℚ) :
    HasValueAt point (algebraMap _ FunctionField p) (eval point p) :=
  ⟨p, 1, by simp, by simp, by simp⟩

/-- A function has at most one value at a point, however it is written as a quotient. -/
theorem unique (h : HasValueAt point k q) (h' : HasValueAt point k r) : q = r := by
  obtain ⟨p, d, hd, rfl, rfl⟩ := h
  obtain ⟨p', d', hd', hk, rfl⟩ := h'
  rw [div_eq_div_iff (algebraMap_ne_zero hd) (algebraMap_ne_zero hd'), ← map_mul, ← map_mul] at hk
  have hcross := congrArg (eval point)
    (IsFractionRing.injective (MvPolynomial Char ℚ) FunctionField hk)
  rw [map_mul, map_mul] at hcross
  rwa [div_eq_div_iff hd hd']

theorem neg (h : HasValueAt point k q) : HasValueAt point (-k) (-q) := by
  obtain ⟨p, d, hd, rfl, rfl⟩ := h
  exact ⟨-p, d, hd, by rw [map_neg, neg_div], by rw [map_neg, neg_div]⟩

theorem add (hk : HasValueAt point k q) (hl : HasValueAt point l r) :
    HasValueAt point (k + l) (q + r) := by
  obtain ⟨p, d, hd, rfl, rfl⟩ := hk
  obtain ⟨p', d', hd', rfl, rfl⟩ := hl
  refine ⟨p * d' + d * p', d * d', by simp [hd, hd'], ?_, ?_⟩
  · rw [div_add_div _ _ (algebraMap_ne_zero hd) (algebraMap_ne_zero hd')]
    simp only [map_add, map_mul]
  · rw [div_add_div _ _ hd hd']
    simp only [map_add, map_mul]

theorem sub (hk : HasValueAt point k q) (hl : HasValueAt point l r) :
    HasValueAt point (k - l) (q - r) := by
  rw [sub_eq_add_neg, sub_eq_add_neg]
  exact hk.add hl.neg

theorem mul (hk : HasValueAt point k q) (hl : HasValueAt point l r) :
    HasValueAt point (k * l) (q * r) := by
  obtain ⟨p, d, hd, rfl, rfl⟩ := hk
  obtain ⟨p', d', hd', rfl, rfl⟩ := hl
  refine ⟨p * p', d * d', by simp [hd, hd'], ?_, ?_⟩
  · rw [div_mul_div_comm, map_mul, map_mul]
  · rw [div_mul_div_comm, map_mul, map_mul]

/-- A quotient has the quotient of the values, if the divisor's value is not zero. Nothing is
claimed where it is, not even that the quotient has no value. -/
theorem div (hk : HasValueAt point k q) (hl : HasValueAt point l r) (hr : r ≠ 0) :
    HasValueAt point (k / l) (q / r) := by
  obtain ⟨p, d, hd, rfl, rfl⟩ := hk
  obtain ⟨p', d', hd', rfl, rfl⟩ := hl
  have hp' : eval point p' ≠ 0 := fun hzero ↦ hr (by rw [hzero, zero_div])
  refine ⟨p * d', d * p', by simp [hd, hp'], ?_, ?_⟩
  · rw [div_div_div_eq, map_mul, map_mul]
  · rw [div_div_div_eq, map_mul, map_mul]

/-- A function is not zero if it has another value than zero somewhere. -/
theorem ne_zero (h : HasValueAt point k q) (hq : q ≠ 0) : k ≠ 0 := by
  rintro rfl
  have hzero := polynomial point 0
  rw [map_zero, map_zero] at hzero
  exact hq (h.unique hzero)

end HasValueAt

/-! ### Generic points

A property of points holds generically if a single polynomial other than zero can be named that
vanishes wherever it fails. The polynomials of two such properties multiply. -/

/-- The property holds of all points at which some polynomial other than zero does not vanish. -/
def Generically (property : (Char → ℚ) → Prop) : Prop :=
  ∃ g : MvPolynomial Char ℚ, g ≠ 0 ∧ ∀ point, eval point g ≠ 0 → property point

namespace Generically

variable {property other : (Char → ℚ) → Prop}

/-- What holds everywhere holds generically. -/
theorem of_forall (h : ∀ point, property point) : Generically property :=
  ⟨1, one_ne_zero, fun point _ ↦ h point⟩

theorem mono (h : Generically property) (himp : ∀ point, property point → other point) :
    Generically other := by
  obtain ⟨g, hg, hpoint⟩ := h
  exact ⟨g, hg, fun point hne ↦ himp point (hpoint point hne)⟩

/-- Two properties that hold generically hold generically together: the product of the two
polynomials is not zero. -/
theorem and (h : Generically property) (h' : Generically other) :
    Generically fun point ↦ property point ∧ other point := by
  obtain ⟨g, hg, hpoint⟩ := h
  obtain ⟨g', hg', hpoint'⟩ := h'
  refine ⟨g * g', mul_ne_zero hg hg', fun point hne ↦ ?_⟩
  rw [map_mul] at hne
  exact ⟨hpoint point (left_ne_zero_of_mul hne), hpoint' point (right_ne_zero_of_mul hne)⟩

/-- What holds generically holds somewhere, as no polynomial but zero vanishes at all points. -/
theorem exists_point (h : Generically property) : ∃ point, property point := by
  obtain ⟨g, hg, hpoint⟩ := h
  by_contra hnone
  refine hg (MvPolynomial.funext fun point ↦ ?_)
  rw [map_zero]
  by_contra hne
  exact hnone ⟨point, hpoint point hne⟩

/-- A function other than zero has generically a value, which is not zero: where neither its
numerator nor its denominator vanishes. -/
theorem exists_value {k : FunctionField} (hk : k ≠ 0) :
    Generically fun point ↦ ∃ q, q ≠ 0 ∧ HasValueAt point k q := by
  obtain ⟨p, d, hd, rfl⟩ := IsFractionRing.div_surjective (MvPolynomial Char ℚ) k
  have hp : p ≠ 0 := by
    rintro rfl
    rw [map_zero, zero_div] at hk
    exact hk rfl
  refine ⟨p * d, mul_ne_zero hp (nonZeroDivisors.ne_zero hd), fun point hne ↦ ?_⟩
  rw [map_mul] at hne
  have hp' := left_ne_zero_of_mul hne
  have hd' := right_ne_zero_of_mul hne
  exact ⟨eval point p / eval point d, div_ne_zero hp' hd', p, d, hd', rfl, rfl⟩

end Generically

end EquationSteps
