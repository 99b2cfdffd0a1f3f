import EquationSteps.Proofs.Algebra.Evaluation
import EquationSteps.Proofs.Meaning.Basic

/-!
# Formulas

What an expression says, without regard to how it is written or read: numbers and letters, joined by
the operations of arithmetic. A formula has a value at each assignment of numbers to the letters
(`Formula.evalAt`) and a function in the function field (`Formula.toField`), both with the
convention that a quotient by zero is zero. The convention is of no account: everything is said
under the condition that the divisors of the formula (`Formula.divisors`) are not zero.

`Formula.meaning` does without the convention, and is undefined exactly if some divisor is the zero
function (`Formula.meaning_eq_undefined_iff`). Where all divisors are other than zero at a point,
the function of the formula has the formula's value there (`Formula.hasValueAt`), and generically
they are (`Formula.generically_isDefinedAt`). So two formulas have the same function exactly if they
have the same values wherever they are defined (`Formula.toField_eq_iff`).

**The yardstick of the development.** Formulas and their values at points are what a reader can
check without knowing the program: there is no parsing in them, no tree, no normal form and no
polynomial. Every statement that something computes the right value comes down to them in the end.

**Two notions of defined.** No divisor is the zero function (`IsDefined`), and no divisor is zero at
a point (`IsDefinedAt`). The first says that the formula has a meaning at all; the second depends on
the point, and implies the first. `x/x` is defined but not at zero, and `1/(x-x)` is defined
nowhere. In the other direction a formula that is defined is so at most points.
-/

namespace EquationSteps

/-- Numbers and letters, joined by the operations of arithmetic. -/
inductive Formula where
  /-- A number, which may be any fraction. -/
  | number (q : ℚ)
  /-- A variable, of which the name is a letter. -/
  | letter (c : Char)
  /-- The negation of a formula. -/
  | neg (e : Formula)
  /-- A sum of two formulas. -/
  | add (e f : Formula)
  /-- A difference of two. -/
  | sub (e f : Formula)
  /-- A product of two. -/
  | mul (e f : Formula)
  /-- A quotient of two, of which the second is a divisor. -/
  | div (e f : Formula)

namespace Formula

/-- The value of a formula where the letters have the given values. -/
def evalAt (point : Char → ℚ) : Formula → ℚ
  | number q => q
  | letter c => point c
  | neg e => -e.evalAt point
  | add e f => e.evalAt point + f.evalAt point
  | sub e f => e.evalAt point - f.evalAt point
  | mul e f => e.evalAt point * f.evalAt point
  | div e f => e.evalAt point / f.evalAt point

/-- The rational function of a formula. -/
noncomputable def toField : Formula → FunctionField
  | number q => algebraMap (MvPolynomial Char ℚ) FunctionField (.C q)
  | letter c => algebraMap (MvPolynomial Char ℚ) FunctionField (.X c)
  | neg e => -e.toField
  | add e f => e.toField + f.toField
  | sub e f => e.toField - f.toField
  | mul e f => e.toField * f.toField
  | div e f => e.toField / f.toField

/-- The divisors that occur in a formula. -/
def divisors : Formula → List Formula
  | number _ | letter _ => []
  | neg e => e.divisors
  | add e f | sub e f | mul e f => e.divisors ++ f.divisors
  | div e f => f :: (e.divisors ++ f.divisors)

/-- The meaning of a formula, which is undefined where a divisor is the zero function. -/
noncomputable def meaning : Formula → Meaning
  | number q => .of (algebraMap (MvPolynomial Char ℚ) FunctionField (.C q))
  | letter c => .of (algebraMap (MvPolynomial Char ℚ) FunctionField (.X c))
  | neg e => -e.meaning
  | add e f => e.meaning + f.meaning
  | sub e f => e.meaning + -f.meaning
  | mul e f => e.meaning * f.meaning
  | div e f => e.meaning * f.meaning⁻¹

/-- No divisor of the formula is the zero function. -/
def IsDefined (e : Formula) : Prop :=
  ∀ d ∈ e.divisors, d.toField ≠ 0

/-- All divisors of the formula are other than zero at the point. -/
def IsDefinedAt (point : Char → ℚ) (e : Formula) : Prop :=
  ∀ d ∈ e.divisors, d.evalAt point ≠ 0

variable {e f : Formula} {point : Char → ℚ}

/-- A quotient is defined if its divisor is not the zero function and both parts are defined. -/
theorem isDefined_div_iff :
    (div e f).IsDefined ↔ f.toField ≠ 0 ∧ e.IsDefined ∧ f.IsDefined :=
  List.forall_mem_cons.trans (and_congr_right fun _ ↦ List.forall_mem_append)

/-- And it is defined at a point if its divisor is not zero there and both parts are defined
there. -/
theorem isDefinedAt_div_iff :
    (div e f).IsDefinedAt point ↔
      f.evalAt point ≠ 0 ∧ e.IsDefinedAt point ∧ f.IsDefinedAt point :=
  List.forall_mem_cons.trans (and_congr_right fun _ ↦ List.forall_mem_append)

/-! ### Meanings and functions

By induction on the formula: each operation is undefined if an operand is, and a quotient also if
its divisor is zero. -/

/-- A formula that is defined means its function. -/
theorem meaning_of_isDefined (h : e.IsDefined) : e.meaning = .of e.toField := by
  induction e with
  | number q => rfl
  | letter c => rfl
  | neg e ih => rw [meaning, ih h, Meaning.neg_of, toField]
  | add e f ihe ihf =>
    obtain ⟨he, hf⟩ := List.forall_mem_append.1 h
    rw [meaning, ihe he, ihf hf, Meaning.of_add, toField]
  | sub e f ihe ihf =>
    obtain ⟨he, hf⟩ := List.forall_mem_append.1 h
    rw [meaning, ihe he, ihf hf, Meaning.neg_of, Meaning.of_add, toField, sub_eq_add_neg]
  | mul e f ihe ihf =>
    obtain ⟨he, hf⟩ := List.forall_mem_append.1 h
    rw [meaning, ihe he, ihf hf, Meaning.of_mul, toField]
  | div e f ihe ihf =>
    obtain ⟨hdivisor, he, hf⟩ := isDefined_div_iff.1 h
    rw [meaning, ihe he, ihf hf, Meaning.inv_of hdivisor, Meaning.of_mul, toField, div_eq_mul_inv]

/-- And one that is not means nothing. -/
theorem meaning_of_not_isDefined (h : ¬e.IsDefined) : e.meaning = .undefined := by
  have hpair : ∀ {e f : Formula}, ¬(∀ d ∈ e.divisors ++ f.divisors, d.toField ≠ 0) →
      ¬e.IsDefined ∨ ¬f.IsDefined := fun h ↦
    not_and_or.1 fun hboth ↦ h (List.forall_mem_append.2 hboth)
  induction e with
  | number q => exact absurd (List.forall_mem_nil _) h
  | letter c => exact absurd (List.forall_mem_nil _) h
  | neg e ih => rw [meaning, ih h, Meaning.neg_undefined]
  | add e f ihe ihf =>
    rcases hpair h with he | hf
    · rw [meaning, ihe he, Meaning.undefined_add]
    · rw [meaning, ihf hf, Meaning.add_undefined]
  | sub e f ihe ihf =>
    rcases hpair h with he | hf
    · rw [meaning, ihe he, Meaning.undefined_add]
    · rw [meaning, ihf hf, Meaning.neg_undefined, Meaning.add_undefined]
  | mul e f ihe ihf =>
    rcases hpair h with he | hf
    · rw [meaning, ihe he, Meaning.undefined_mul]
    · rw [meaning, ihf hf, Meaning.mul_undefined]
  | div e f ihe ihf =>
    by_cases he : e.IsDefined
    case neg => rw [meaning, ihe he, Meaning.undefined_mul]
    by_cases hf : f.IsDefined
    case neg => rw [meaning, ihf hf, Meaning.inv_undefined, Meaning.mul_undefined]
    have hzero : f.toField = 0 := by
      by_contra hne
      exact h (isDefined_div_iff.2 ⟨hne, he, hf⟩)
    rw [meaning, meaning_of_isDefined hf, hzero, Meaning.of_zero, Meaning.inv_zero,
      Meaning.mul_undefined]

/-- A formula is undefined exactly if one of its divisors is the zero function. -/
theorem meaning_eq_undefined_iff : e.meaning = .undefined ↔ ∃ d ∈ e.divisors, d.toField = 0 := by
  have hnot : ¬e.IsDefined ↔ ∃ d ∈ e.divisors, d.toField = 0 := by simp [IsDefined]
  rw [← hnot]
  refine ⟨fun h hdefined ↦ ?_, meaning_of_not_isDefined⟩
  rw [meaning_of_isDefined hdefined] at h
  exact Meaning.of_ne_undefined _ h

/-! ### Functions and values

From the function to its values where the formula is defined, and back from the values at all such
points to the function. -/

/-- Where a formula is defined, its function has its value. -/
theorem hasValueAt (h : e.IsDefinedAt point) : HasValueAt point e.toField (e.evalAt point) := by
  induction e with
  | number q =>
    have hvalue := HasValueAt.polynomial point (.C q)
    rwa [MvPolynomial.eval_C] at hvalue
  | letter c =>
    have hvalue := HasValueAt.polynomial point (.X c)
    rwa [MvPolynomial.eval_X] at hvalue
  | neg e ih => exact (ih h).neg
  | add e f ihe ihf =>
    obtain ⟨he, hf⟩ := List.forall_mem_append.1 h
    exact (ihe he).add (ihf hf)
  | sub e f ihe ihf =>
    obtain ⟨he, hf⟩ := List.forall_mem_append.1 h
    exact (ihe he).sub (ihf hf)
  | mul e f ihe ihf =>
    obtain ⟨he, hf⟩ := List.forall_mem_append.1 h
    exact (ihe he).mul (ihf hf)
  | div e f ihe ihf =>
    obtain ⟨hdivisor, he, hf⟩ := isDefinedAt_div_iff.1 h
    exact (ihe he).div (ihf hf) hdivisor

/-- A formula without a divisor that is the zero function is defined generically. -/
theorem generically_isDefinedAt (h : e.IsDefined) : Generically (IsDefinedAt · e) := by
  have hpair : ∀ {e f : Formula}, Generically (IsDefinedAt · e) → Generically (IsDefinedAt · f) →
      Generically fun point ↦ ∀ d ∈ e.divisors ++ f.divisors, d.evalAt point ≠ 0 := fun he hf ↦
    (he.and hf).mono fun _ hboth ↦ List.forall_mem_append.2 hboth
  induction e with
  | number q => exact .of_forall fun _ ↦ List.forall_mem_nil _
  | letter c => exact .of_forall fun _ ↦ List.forall_mem_nil _
  | neg e ih => exact ih h
  | add e f ihe ihf =>
    obtain ⟨he, hf⟩ := List.forall_mem_append.1 h
    exact hpair (ihe he) (ihf hf)
  | sub e f ihe ihf =>
    obtain ⟨he, hf⟩ := List.forall_mem_append.1 h
    exact hpair (ihe he) (ihf hf)
  | mul e f ihe ihf =>
    obtain ⟨he, hf⟩ := List.forall_mem_append.1 h
    exact hpair (ihe he) (ihf hf)
  | div e f ihe ihf =>
    obtain ⟨hdivisor, he, hf⟩ := isDefined_div_iff.1 h
    refine ((Generically.exists_value hdivisor).and ((ihe he).and (ihf hf))).mono
      fun point ⟨⟨q, hq, hvalue⟩, he, hf⟩ ↦ isDefinedAt_div_iff.2 ⟨?_, he, hf⟩
    rwa [(hasValueAt hf).unique hvalue]

/-- **Functions are told apart by their values.** Two formulas have the same function exactly if
they have the same values at all points at which both are defined. -/
theorem toField_eq_iff (he : e.IsDefined) (hf : f.IsDefined) :
    e.toField = f.toField ↔ ∀ point, e.IsDefinedAt point → f.IsDefinedAt point →
      e.evalAt point = f.evalAt point := by
  constructor
  · intro h point hepoint hfpoint
    have hvalue := hasValueAt hepoint
    rw [h] at hvalue
    exact hvalue.unique (hasValueAt hfpoint)
  · intro h
    by_contra hne
    -- the difference of the two has another value than zero at a point where both are defined
    obtain ⟨point, ⟨q, hq, hvalue⟩, hepoint, hfpoint⟩ :=
      ((Generically.exists_value (sub_ne_zero.2 hne)).and
        ((generically_isDefinedAt he).and (generically_isDefinedAt hf))).exists_point
    have hdifference := (hasValueAt hepoint).sub (hasValueAt hfpoint)
    rw [h point hepoint hfpoint, sub_self] at hdifference
    exact hq (hvalue.unique hdifference)

end Formula

end EquationSteps
