import EquationSteps.Proofs.Algebra.Polynomial
import Mathlib.Algebra.CharZero.Infinite
import Mathlib.Algebra.MvPolynomial.Funext

/-!
# Exact polynomial arithmetic

A list of terms has a value at every point (`Polynomial.evalAt`), and the operations on lists of
terms are the operations on values. This needs no care about how the lists are kept: it comes from
the polynomial ring (`Polynomial.eval_toRing`). Exponents are numbers without a bound here.

That the values determine the list is another matter. It holds of the polynomials that arise by
arithmetic (`Polynomial.IsBuilt`), since these are kept in canonical form. Two of them with the same
values everywhere are the same element of the ring, as a polynomial over an infinite field is
determined by its values, and so they are the same list (`Polynomial.IsBuilt.ext`). Hence comparing
lists decides equality, and what holds of all values holds of the lists, the laws of a commutative
ring among them (`Polynomial.IsBuilt.arithmetic_exact`).

**Values are defined without the ring.** `evalAt` adds up coefficients times powers as the list has
them, so that the statement of exactness can be read without knowing how polynomials are represented
in the library. The ring is only the way to the proof.

**Built polynomials, not canonical ones.** The main theorem is about whatever constants, variables
and the four operations lead to, and says of these that no coefficient and no exponent in them is
zero. That an arbitrary list of terms in order behaves as well is true too, but nothing ever sees a
list that was not built.
-/

namespace EquationSteps

namespace Monomial

/-- The value of a monomial at a point. -/
def evalAt (point : Char → ℚ) (m : Monomial) : ℚ :=
  (m.map fun factor ↦ point factor.1 ^ factor.2).prod

/-- The product over the factors as they are listed is the one over the exponents. -/
theorem evalAt_eq_prod (point : Char → ℚ) (m : Monomial) :
    m.evalAt point = m.exponents.prod fun name power ↦ point name ^ power := by
  induction m with
  | nil => rfl
  | cons factor m ih =>
    have hfactor : (Finsupp.single factor.1 factor.2).prod (fun name power ↦ point name ^ power) =
        point factor.1 ^ factor.2 := Finsupp.prod_single_index (pow_zero _)
    calc evalAt point (factor :: m)
        = point factor.1 ^ factor.2 * evalAt point m := by
          rw [evalAt, List.map_cons, List.prod_cons, evalAt]
      _ = (exponents (factor :: m)).prod fun name power ↦ point name ^ power := by
          rw [exponents,
            Finsupp.prod_add_index' (fun name ↦ pow_zero _) (fun name i j ↦ pow_add _ i j),
            hfactor, ih]

end Monomial

namespace Polynomial

/-! ### Values

At a fixed point, the value is a homomorphism on all lists of terms, in order or not. -/

section Values

variable (point : Char → ℚ)

/-- The value of a polynomial at a point. -/
def evalAt (p : Polynomial) : ℚ :=
  (p.terms.map fun term ↦ term.2 * term.1.evalAt point).sum

/-- The value of a polynomial is that of the element of the ring that it stands for. -/
theorem eval_toRing (p : Polynomial) : MvPolynomial.eval point p.toRing = p.evalAt point := by
  rw [toRing, evalAt, termsToRing, map_list_sum, List.map_map]
  refine congrArg List.sum (List.map_congr_left fun term _ ↦ ?_)
  rw [Function.comp_apply, termToRing, MvPolynomial.eval_monomial, Monomial.evalAt_eq_prod]

@[simp] theorem evalAt_zero : evalAt point 0 = 0 := rfl

@[simp] theorem evalAt_constant (c : ℚ) : evalAt point (constant c) = c := by
  rw [← eval_toRing, toRing_constant, MvPolynomial.eval_C]

@[simp] theorem evalAt_one : evalAt point 1 = 1 :=
  evalAt_constant point 1

@[simp] theorem evalAt_ofVariable (name : Char) : evalAt point (ofVariable name) = point name := by
  rw [← eval_toRing, toRing_ofVariable, MvPolynomial.eval_X]

@[simp] theorem evalAt_add (p q : Polynomial) :
    evalAt point (p + q) = evalAt point p + evalAt point q := by
  rw [← eval_toRing, toRing_add, map_add, eval_toRing, eval_toRing]

@[simp] theorem evalAt_neg (p : Polynomial) : evalAt point (-p) = -evalAt point p := by
  rw [← eval_toRing, toRing_neg, map_neg, eval_toRing]

@[simp] theorem evalAt_sub (p q : Polynomial) :
    evalAt point (p - q) = evalAt point p - evalAt point q := by
  rw [← eval_toRing, toRing_sub, map_sub, eval_toRing, eval_toRing]

@[simp] theorem evalAt_mul (p q : Polynomial) :
    evalAt point (p * q) = evalAt point p * evalAt point q := by
  rw [← eval_toRing, toRing_mul, map_mul, eval_toRing, eval_toRing]

end Values

/-! ### What arises by arithmetic

Nothing but arithmetic makes polynomials, so what the operations keep holds of all of them. -/

/-- The polynomials that arise by arithmetic. -/
inductive IsBuilt : Polynomial → Prop where
  | zero : IsBuilt 0
  | one : IsBuilt 1
  | constant (c : ℚ) : IsBuilt (constant c)
  | ofVariable (name : Char) : IsBuilt (ofVariable name)
  | add {p q : Polynomial} (hp : IsBuilt p) (hq : IsBuilt q) : IsBuilt (p + q)
  | sub {p q : Polynomial} (hp : IsBuilt p) (hq : IsBuilt q) : IsBuilt (p - q)
  | mul {p q : Polynomial} (hp : IsBuilt p) (hq : IsBuilt q) : IsBuilt (p * q)
  | neg {p : Polynomial} (hp : IsBuilt p) : IsBuilt (-p)

/-- The laws of a commutative ring, for three polynomials. -/
structure ObeysRingLaws (p q r : Polynomial) : Prop where
  add_comm : p + q = q + p
  add_assoc : p + q + r = p + (q + r)
  zero_add : 0 + p = p
  add_neg : p + -p = 0
  sub_eq : p - q = p + -q
  mul_comm : p * q = q * p
  mul_assoc : p * q * r = p * (q * r)
  one_mul : 1 * p = p
  mul_add : p * (q + r) = p * q + p * r

namespace IsBuilt

variable {p q r : Polynomial}

/-- What arises by arithmetic is in canonical form, by one lemma for each operation. -/
theorem isCanonical (h : p.IsBuilt) : p.IsCanonical := by
  induction h with
  | zero => exact isCanonical_zero
  | one => exact isCanonical_one
  | constant c => exact isCanonical_constant c
  | ofVariable name => exact isCanonical_ofVariable name
  | add _ _ hp hq => exact hp.add hq
  | sub _ _ hp hq => exact hp.sub hq
  | mul _ _ hp hq => exact hp.mul hq
  | neg _ hp => exact hp.neg

/-- **Polynomials are told apart by their values.** The field has infinitely many elements, so a
polynomial that is zero at all points is zero. -/
theorem ext (hp : p.IsBuilt) (hq : q.IsBuilt) (h : ∀ point, p.evalAt point = q.evalAt point) :
    p = q := by
  refine toRing_injective hp.isCanonical hq.isCanonical (MvPolynomial.funext fun point ↦ ?_)
  rw [eval_toRing, eval_toRing, h point]

/-- What holds of rational numbers at every point holds of polynomials: each law is an equation
between polynomials that arise by arithmetic, and its two sides have the same values. -/
theorem obeysRingLaws (hp : p.IsBuilt) (hq : q.IsBuilt) (hr : r.IsBuilt) : ObeysRingLaws p q r where
  add_comm := (hp.add hq).ext (hq.add hp) fun point ↦ by
    rw [evalAt_add, evalAt_add, add_comm]
  add_assoc := ((hp.add hq).add hr).ext (hp.add (hq.add hr)) fun point ↦ by
    simp only [evalAt_add, add_assoc]
  zero_add := (zero.add hp).ext hp fun point ↦ by
    rw [evalAt_add, evalAt_zero, zero_add]
  add_neg := (hp.add hp.neg).ext .zero fun point ↦ by
    rw [evalAt_add, evalAt_neg, add_neg_cancel, evalAt_zero]
  sub_eq := Polynomial.sub_eq_add_neg p q
  mul_comm := (hp.mul hq).ext (hq.mul hp) fun point ↦ by
    rw [evalAt_mul, evalAt_mul, mul_comm]
  mul_assoc := ((hp.mul hq).mul hr).ext (hp.mul (hq.mul hr)) fun point ↦ by
    simp only [evalAt_mul, mul_assoc]
  one_mul := (one.mul hp).ext hp fun point ↦ by
    rw [evalAt_mul, evalAt_one, one_mul]
  mul_add := (hp.mul (hq.add hr)).ext ((hp.mul hq).add (hp.mul hr)) fun point ↦ by
    simp only [evalAt_add, evalAt_mul, mul_add]

/-- **Polynomial arithmetic is exact**, on all polynomials that arise by it. Their terms have no
coefficient and no exponent that is zero; the operations are those on values at every point; two
polynomials are equal exactly if they have equal values everywhere, and a polynomial is zero exactly
if all of its values are; so the laws of a commutative ring hold. -/
theorem arithmetic_exact (hp : p.IsBuilt) (hq : q.IsBuilt) (hr : r.IsBuilt) :
    (∀ term ∈ p.terms, term.2 ≠ 0 ∧ ∀ factor ∈ term.1, factor.2 ≠ 0) ∧
    (∀ point, evalAt point (p + q) = evalAt point p + evalAt point q ∧
      evalAt point (p - q) = evalAt point p - evalAt point q ∧
      evalAt point (p * q) = evalAt point p * evalAt point q ∧
      evalAt point (-p) = -evalAt point p ∧
      evalAt point 0 = 0 ∧ evalAt point 1 = 1 ∧
      (∀ c, evalAt point (Polynomial.constant c) = c) ∧
      ∀ name, evalAt point (Polynomial.ofVariable name) = point name) ∧
    (p = q ↔ ∀ point, evalAt point p = evalAt point q) ∧
    (p.isZero = true ↔ ∀ point, evalAt point p = 0) ∧
    ObeysRingLaws p q r := by
  refine ⟨fun term hterm ↦ ?_, fun point ↦ ⟨evalAt_add point p q, evalAt_sub point p q,
    evalAt_mul point p q, evalAt_neg point p, evalAt_zero point, evalAt_one point,
    evalAt_constant point, evalAt_ofVariable point⟩,
      ⟨fun h point ↦ congrArg (evalAt point) h, hp.ext hq⟩, ?_,
    hp.obeysRingLaws hq hr⟩
  · obtain ⟨hmonomial, hcoefficient⟩ := hp.isCanonical.term term hterm
    exact ⟨hcoefficient, fun factor hfactor ↦ (hmonomial.2 factor hfactor).ne'⟩
  · rw [isZero_iff]
    exact ⟨fun h point ↦ congrArg (evalAt point) h, hp.ext .zero⟩

/-- The terms in `x` cancel in the middle of the product `(x + 1) * (x - 1)`, which is `x * x -
1`. -/
theorem arithmetic_exact_conjugates :
    IsBuilt ((Polynomial.ofVariable 'x' + 1) * (Polynomial.ofVariable 'x' - 1)) ∧
      IsBuilt (Polynomial.ofVariable 'x' * Polynomial.ofVariable 'x' - 1) ∧
        (Polynomial.ofVariable 'x' + 1) * (Polynomial.ofVariable 'x' - 1) =
          Polynomial.ofVariable 'x' * Polynomial.ofVariable 'x' - 1 := by
  have hx := ofVariable 'x'
  have hproduct := (hx.add one).mul (hx.sub one)
  have hdifference := (hx.mul hx).sub one
  obtain ⟨-, -, hext, -⟩ := arithmetic_exact hproduct hdifference zero
  refine ⟨hproduct, hdifference, hext.2 fun point ↦ ?_⟩
  simp only [evalAt_mul, evalAt_add, evalAt_sub, evalAt_one]
  ring

end IsBuilt

end Polynomial

end EquationSteps
