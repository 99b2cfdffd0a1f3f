import EquationSteps.Side.Cancellation
import EquationSteps.Side.Terms

/-!
# Multiplying a side

A side is multiplied term by term. A term that is no fraction gets the factor as one more factor. In
a fraction the factor is first tried against the denominator: it may cancel against one of the
denominator's factors, against the denominator as a whole, or in part, by the common factor of two
integers; only otherwise does the numerator grow. A fraction whose denominator is used up gives way
to its numerator, and is then pending, so that a numerator which is a sum joins the side.
-/

namespace EquationSteps

namespace Node

/-- The fraction gives way to its numerator. -/
def adoptNumerator (term numerator : Node) : Node :=
  (term.withContent numerator.content).withPending true

/-- Multiplies a fraction by a factor that does not cancel as an expression. What the factor and the
denominator share as integers is divided out, and the rest goes to the numerator. -/
def multiplyNumerator (factor : Operand) (term numerator denominator : Node) : Node :=
  match factor.integer?.bind fun n ↦ denominator.reduce? n with
  | some (denominator, rest) =>
    if denominator.atomText? = some ['1'] then
      (term.adoptNumerator numerator).appendNumber rest
    else term.withContent (.group [numerator.appendNumber rest, denominator])
  | none => term.withContent (.group [numerator.appendFactor (factor.node .times), denominator])

/-- Multiplies a fraction. -/
def multiplyFraction (factor : Operand) (term numerator denominator : Node) : Inquiry Node := do
  let found ←
    if denominator.family? = some .product then
      Cancellation.find? denominator.children factor.text
    else pure none
  match found with
  | some (place, cancellation) =>
    let term := cancellation.applySign term
    let factors := denominator.children.eraseIdx place
    if factors.isEmpty then return term.adoptNumerator numerator
    else return term.withContent (.group [numerator, denominator.withChildren factors])
  | none =>
    match ← Cancellation.compare denominator.contentText factor.text with
    | some cancellation => return (cancellation.applySign term).adoptNumerator numerator
    | none => return term.multiplyNumerator factor numerator denominator

/-- Multiplies a term by the magnitude of a factor. The term `0` stays. -/
def multiplyTerm (factor : Operand) (term : Node) : Inquiry Node :=
  if term.isZeroAtom then pure term
  else if term.family? = some .quotient then
    match term.parts? with
    | some (numerator, denominator) => term.multiplyFraction factor numerator denominator
    | none => pure (term.appendFactor (factor.node .times))
  else pure (term.appendFactor (factor.node .times))

end Node

/-- Multiplies every term of a side by a factor and normalizes the side. -/
def multiplySide : (Text → Except ValueError Text) → Limits → Text → Node →
    Inquiry (Except TreeError Unit × Node) :=
  transformSide fun factor term ↦ term.multiplyTerm factor

end EquationSteps
