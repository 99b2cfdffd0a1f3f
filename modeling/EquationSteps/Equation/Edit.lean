import EquationSteps.Equation.Replacement

/-!
# Edits

The edits of an equation as data, so that a history of edits is a list. `Edit.apply` is what an edit
does to the equation, and `Edit.run` also issues identities to the nodes it made. The counter from
which identities are issued is handed from edit to edit, and from an equation to its copies, so that
no identity is ever issued twice.
-/

namespace EquationSteps

/-- One edit of an equation. -/
inductive Edit where
  /-- Multiply both sides by a factor. -/
  | multiply (factor : Text)
  /-- Divide both sides by a divisor. -/
  | divide (divisor : Text)
  /-- Put an expression in the place of the selected nodes. -/
  | replace (selection : List NodeId) (expression : Text)
  /-- Exchange the sides. -/
  | swapSides
  /-- Normalize both sides. -/
  | normalize
  /-- Go on with a copy of the equation. -/
  | copy

/-- Why an edit failed. -/
inductive Rejection where
  /-- A tree could not be read or did not settle. -/
  | tree (cause : TreeError)
  /-- The input was not admitted. -/
  | input (errors : List InputError)
  deriving DecidableEq

namespace Edit

/-- The outcome of an edit that fails by a tree. -/
def ofTree (outcome : Except TreeError Unit × Equation) : Except Rejection Unit × Equation :=
  (outcome.1.mapError .tree, outcome.2)

/-- The outcome of an edit that fails by its input. -/
def ofInput (outcome : Except (List InputError) Unit × Equation) :
    Except Rejection Unit × Equation :=
  (outcome.1.mapError .input, outcome.2)

/-- What an edit does to an equation. After a failure the equation is as the failure left it. -/
def apply (equation : Equation) : Edit → Inquiry (Except Rejection Unit × Equation)
  | multiply factor => do return ofTree (← equation.multiply factor)
  | divide divisor => do return ofTree (← equation.divide divisor)
  | replace selection expression => do return ofInput (← equation.replace selection expression)
  | swapSides => return (.ok (), equation.swapSides)
  | normalize => return ofTree equation.normalize
  | copy => return (.ok (), equation.copy)

/-- Applies an edit and issues identities to the nodes that it made, from `next` on. Returns the
outcome, the equation and the next identity to issue. -/
def run (next : NodeId) (equation : Equation) (edit : Edit) :
    Inquiry (Except Rejection Unit × Equation × NodeId) := do
  let (result, equation) ← edit.apply equation
  return (result, equation.number next)

end Edit

end EquationSteps
