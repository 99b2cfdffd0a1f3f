import EquationSteps.Equality.Inquiry
import EquationSteps.Side.Operand

/-!
# All terms of a side

Multiplying and dividing a side have their frame in common. The operand is read first, so that an
operand that cannot be read changes nothing. Its sign then acts on the sign of each term, and its
magnitude acts on each term by the rules of the operation, unless the magnitude is one. In the end
the side is normalized.
-/

namespace EquationSteps

/-- Applies an operand to all terms of a side: its sign acts on each term's sign, and its magnitude
acts by `onTerm`. A unit has no magnitude to act with. -/
def Operand.applyTo (onTerm : Operand → Node → Inquiry Node) (operand : Operand) (side : Node) :
    Inquiry Node := do
  let terms := side.children.map operand.applySign
  if operand.isUnit then return side.withChildren terms
  else return side.withChildren (← terms.mapM' (onTerm operand))

/-- Reads an operand, applies it to all terms of a side, and normalizes the side. An operand that
cannot be read leaves the side as it is. -/
def transformSide (onTerm : Operand → Node → Inquiry Node)
    (rationalize : Text → Except ValueError Text) (limits : Limits) (text : Text) (side : Node) :
    Inquiry (Except TreeError Unit × Node) :=
  match Operand.read rationalize limits text with
  | .error cause => pure (.error cause, side)
  | .ok operand => do
    let (result, side) := (← operand.applyTo onTerm side).normalize rationalize limits
    return (result.map fun _ ↦ (), side)

end EquationSteps
