import EquationSteps.Algebra.Monomial

/-!
# Polynomials

Polynomials in any number of variables with exact rational coefficients. A polynomial is the list
of its terms in increasing order of their monomials; a zero coefficient is never stored. All
arithmetic goes through `addTerm`, which keeps both properties, so two polynomials built by it are
equal exactly if their lists of terms are, and testing for zero is testing for the empty list.
-/

namespace EquationSteps

/-- A polynomial as the list of its monomials with their coefficients. -/
structure Polynomial where
  terms : List (Monomial × Rat)
  deriving DecidableEq

namespace Polynomial

/-- Adds a nonzero multiple of a monomial to a list of terms. -/
def insertTerm (monomial : Monomial) (coefficient : Rat) :
    List (Monomial × Rat) → List (Monomial × Rat)
  | [] => [(monomial, coefficient)]
  | (other, present) :: rest =>
    match Monomial.order monomial other with
    | .lt => (monomial, coefficient) :: (other, present) :: rest
    | .eq =>
      if present + coefficient = 0 then rest else (other, present + coefficient) :: rest
    | .gt => (other, present) :: insertTerm monomial coefficient rest

/-- Adds a multiple of a monomial to a polynomial. -/
def addTerm (p : Polynomial) (monomial : Monomial) (coefficient : Rat) : Polynomial :=
  if coefficient = 0 then p else ⟨insertTerm monomial coefficient p.terms⟩

/-- The polynomial without terms. -/
def zero : Polynomial := ⟨[]⟩

/-- A constant polynomial. -/
def constant (c : Rat) : Polynomial :=
  zero.addTerm Monomial.one c

/-- The constant one. -/
def one : Polynomial := constant 1

/-- A variable as a polynomial. -/
def ofVariable (name : Char) : Polynomial :=
  zero.addTerm (Monomial.ofVariable name) 1

/-- Whether a polynomial is zero. -/
def isZero (p : Polynomial) : Bool :=
  p.terms.isEmpty

/-- The sum of two polynomials. -/
def add (p q : Polynomial) : Polynomial :=
  q.terms.foldl (fun sum term ↦ sum.addTerm term.1 term.2) p

/-- The polynomial with all coefficients negated. -/
def neg (p : Polynomial) : Polynomial :=
  ⟨p.terms.map fun term ↦ (term.1, -term.2)⟩

/-- The difference of two polynomials. -/
def sub (p q : Polynomial) : Polynomial :=
  p.add q.neg

/-- The product of two polynomials, term by term. -/
def mul (p q : Polynomial) : Polynomial :=
  p.terms.foldl
    (fun product left ↦
      q.terms.foldl
        (fun product right ↦ product.addTerm (left.1.mul right.1) (left.2 * right.2)) product)
    zero

instance : Zero Polynomial := ⟨zero⟩
instance : One Polynomial := ⟨one⟩
instance : Add Polynomial := ⟨add⟩
instance : Neg Polynomial := ⟨neg⟩
instance : Sub Polynomial := ⟨sub⟩
instance : Mul Polynomial := ⟨mul⟩

theorem sub_eq_add_neg (p q : Polynomial) : p - q = p + -q := rfl

theorem isZero_iff {p : Polynomial} : p.isZero = true ↔ p = 0 := by
  cases p with
  | mk terms => cases terms <;> simp [isZero, show (0 : Polynomial) = ⟨[]⟩ from rfl]

@[simp] theorem terms_zero : (0 : Polynomial).terms = [] := rfl

@[simp] theorem add_zero (p : Polynomial) : p + 0 = p := rfl

@[simp] theorem terms_neg (p : Polynomial) :
    (-p).terms = p.terms.map fun term ↦ (term.1, -term.2) := rfl

end Polynomial

end EquationSteps
