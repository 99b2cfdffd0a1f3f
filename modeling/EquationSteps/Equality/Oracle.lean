import EquationSteps.Tree.Reader
import EquationSteps.Tree.Value

/-!
# Oracles

No edit decides on its own whether two expressions are equal, nor which fraction a decimal
literal is: it asks an oracle. An oracle is a pair of plain functions on texts, so the same question
always gets the same answer.

`Oracle.exact` is the oracle that knows: it evaluates both texts to rational functions and compares
these, without any approximation. That one expression is the opposite of another is no question of
its own, it is equality with the negated expression (`negatedText`).
-/

namespace EquationSteps

/-- The text of the negation of an expression. -/
def negatedText (text : Text) : Text :=
  '-' :: '(' :: (text ++ [')'])

/-- Answers questions about expressions. -/
structure Oracle where
  /-- Whether two expressions are equal. -/
  exactlyEqual : Text → Text → Except ValueError Bool
  /-- The fraction that a decimal literal denotes, as a text that can be read. -/
  rationalize : Text → Except ValueError Text

/-- Whether the first expression is the negation of the second. -/
def Oracle.exactlyOpposite (oracle : Oracle) (a b : Text) : Except ValueError Bool :=
  oracle.exactlyEqual a (negatedText b)

/-- The rational function that a text denotes. -/
def evaluate (limits : Limits) (text : Text) : Except ValueError RationalFunction :=
  match Node.read limits text false with
  | .ok node => node.value
  | .error cause => .error (.unreadable cause)

namespace Oracle

/-- The fraction of a decimal literal in lowest terms, written `n` or `n/d`. -/
def exactFraction (literal : Text) : Except ValueError Text :=
  match Numeral.decimalFraction? literal with
  | some q => .ok (Numeral.fractionText q)
  | none => .error (.invalidDecimal literal)

/-- The oracle that compares expressions as rational functions. -/
def exact (limits : Limits) : Oracle where
  exactlyEqual a b := do
    let f ← evaluate limits a
    let g ← evaluate limits b
    .ok (f.equals g)
  rationalize := exactFraction

end Oracle

end EquationSteps
