/-!
# Monomials

A monomial is a product of powers of variables, kept as the list of its variables with their
exponents. The monomials that arise here list each variable once, in increasing order of code
point and with a positive exponent, so that equal products are equal lists; the empty list is the
constant one.
-/

namespace EquationSteps

/-- Variables with their exponents. -/
abbrev Monomial := List (Char × Nat)

namespace Monomial

/-- The constant one. -/
def one : Monomial := []

/-- A single variable. -/
def ofVariable (name : Char) : Monomial := [(name, 1)]

/-- Multiplies by a power of one variable, which is put in its place in the order. -/
def raise (name : Char) (power : Nat) : Monomial → Monomial
  | [] => [(name, power)]
  | (other, exponent) :: rest =>
    if name = other then (other, exponent + power) :: rest
    else if name < other then (name, power) :: (other, exponent) :: rest
    else (other, exponent) :: raise name power rest

/-- The product of two monomials. -/
def mul (m n : Monomial) : Monomial :=
  n.foldl (fun product factor ↦ raise factor.1 factor.2 product) m

/-- The order in which a polynomial lists its monomials: lexicographic in the pairs of variable and
exponent, and a monomial comes before its extensions. -/
def order : Monomial → Monomial → Ordering
  | [], [] => .eq
  | [], _ :: _ => .lt
  | _ :: _, [] => .gt
  | (x, i) :: m, (y, j) :: n => (compare x y).then ((compare i j).then (order m n))

@[simp] theorem mul_one (m : Monomial) : mul m one = m := rfl

/-- The order tells monomials apart. -/
theorem order_eq_iff {m n : Monomial} : order m n = .eq ↔ m = n := by
  induction m generalizing n with
  | nil => cases n <;> simp [order]
  | cons factor m ih =>
    cases n with
    | nil => simp [order]
    | cons factor' n =>
      simp [order, ih, Ordering.then_eq_eq, Prod.ext_iff, and_assoc]

end Monomial

end EquationSteps
