import EquationSteps.Canonical.Pass

/-!
# Operands

What a side is multiplied or divided by. An operand is read from its text and normalized, and it is
then taken apart into its magnitude and its sign: the sign goes to the terms of the side, and the
magnitude is what the terms grow by or cancel against.
-/

namespace EquationSteps

/-- A normalized operand. -/
structure Operand where
  /-- The operand without its sign. -/
  magnitude : Content
  /-- The text of the magnitude. -/
  text : Text
  /-- Whether the operand has a minus in front. -/
  negative : Bool

namespace Operand

/-- The operand that a normalized tree is. -/
def ofNode (node : Node) : Operand where
  magnitude := node.content
  text := (node.withSign .plus).contentText
  negative := node.sign == .minus

/-- Reads an operand and brings it into canonical form. -/
def read (rationalize : Text → Except ValueError Text) (limits : Limits) (text : Text) :
    Except TreeError Operand := do
  let node ← Node.read limits text false
  match node.normalize rationalize limits with
  | (.ok _, node) => .ok (ofNode node)
  | (.error cause, _) => .error cause

/-- Whether the operand is `1` or `-1`. -/
def isUnit (operand : Operand) : Bool :=
  operand.text == ['1']

/-- The number that the magnitude is, if it is an integer. -/
def integer? (operand : Operand) : Option Nat :=
  match operand.magnitude with
  | .atom text => Numeral.integer? text
  | .group _ => none

/-- The magnitude as a new node. -/
def node (operand : Operand) (sign : Sign) : Node :=
  .fresh sign operand.magnitude

/-- The operand's sign as it acts on a term. -/
def applySign (operand : Operand) (term : Node) : Node :=
  if operand.negative then term.flipSign else term

end Operand

end EquationSteps
