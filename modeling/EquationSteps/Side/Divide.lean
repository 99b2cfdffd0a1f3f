import EquationSteps.Side.Multiply

/-!
# Dividing a side

A side is divided term by term, and a divisor cancels wherever it can: against the whole term, a
factor of it, the numerator of a fraction or a factor of the numerator. What an integer divisor
shares with the number in a term is divided out. What is left of the divisor becomes the denominator
of the term, or one more factor of the denominator that is there.
-/

namespace EquationSteps

namespace Node

/-- What is left of a node that cancelled as a whole. -/
def cancelled (node : Node) : Node :=
  node.withContent (.atom ['1'])

/-- Divides a term with which the divisor does not cancel as an expression. -/
def reduceOrDivide (divisor : Operand) (term : Node) : Node :=
  match divisor.integer?.bind fun d ↦ term.reduce? d with
  | some (term, rest) =>
    if rest = 1 then term else term.intoQuotient (leaf .divide (Numeral.digits rest))
  | none => term.intoQuotient (divisor.node .divide)

/-- Divides a product. -/
def divideProduct (divisor : Operand) (term : Node) : Inquiry Node := do
  match ← Cancellation.find? term.children divisor.text with
  | some (place, cancellation) => return cancellation.applySign (term.withoutFactor place)
  | none => return term.reduceOrDivide divisor

/-- Divides a fraction by a divisor that does not cancel against its numerator as an expression. -/
def divideDenominator (divisor : Operand) (term numerator denominator : Node) : Node :=
  match divisor.integer?.bind fun d ↦ numerator.reduce? d with
  | some (numerator, rest) => term.withContent (.group [numerator, denominator.appendNumber rest])
  | none => term.withContent (.group [numerator, denominator.appendFactor (divisor.node .times)])

/-- Divides a fraction. The factors of the numerator are asked about first, but the numerator as a
whole is preferred. -/
def divideFraction (divisor : Operand) (term numerator denominator : Node) : Inquiry Node := do
  let found ←
    if numerator.family? = some .product then Cancellation.find? numerator.children divisor.text
    else pure none
  match ← Cancellation.compare numerator.contentText divisor.text with
  | some cancellation =>
    return cancellation.applySign (term.withContent (.group [numerator.cancelled, denominator]))
  | none =>
    match found with
    | some (place, cancellation) =>
      return cancellation.applySign
        (term.withContent (.group [numerator.withoutFactor place, denominator]))
    | none => return term.divideDenominator divisor numerator denominator

/-- Divides a term by the magnitude of a divisor. The term `0` stays. -/
def divideTerm (divisor : Operand) (term : Node) : Inquiry Node := do
  if term.isZeroAtom then return term
  match ← Cancellation.compare term.contentText divisor.text with
  | some cancellation => return cancellation.applySign term.cancelled
  | none =>
    match term.family? with
    | some .product => term.divideProduct divisor
    | some .quotient =>
      match term.parts? with
      | some (numerator, denominator) => term.divideFraction divisor numerator denominator
      | none => return term.intoQuotient (divisor.node .divide)
    | some .sum | none => return term.reduceOrDivide divisor

end Node

/-- Divides every term of a side by a divisor and normalizes the side. -/
def divideSide : (Text → Except ValueError Text) → Limits → Text → Node →
    Inquiry (Except TreeError Unit × Node) :=
  transformSide fun divisor term ↦ term.divideTerm divisor

end EquationSteps
