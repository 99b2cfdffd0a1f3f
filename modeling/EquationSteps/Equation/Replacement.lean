import EquationSteps.Equation.Admission

/-!
# Replacing selected nodes

The selected nodes give way to an expression of the same value. The first of them, in the order of
the tree, takes over the expression. The others become zeros with the default sign of the group, and
all of them are marked as pending: normalization drops the zeros and splices the expression into the
group where it continues it.

How a node takes over the expression depends on where it stands. A whole side gets it as its only
term, a term takes over its sign along with its content, and a factor or divisor, which has no room
for a minus sign, keeps its own sign.
-/

namespace EquationSteps

namespace Node

/-- The node with the expression in its place. -/
def takeOver (expression : Node) (node : Node) : Node :=
  if node.isRoot then node.withContent (.group [expression.anonymous.withPending true])
  else if node.sign.isAdditive then
    (node.withSign expression.sign).withContent expression.anonymous.content
  else node.withContent (expression.anonymous.asOperand node.sign).content

/-- The node as a zero that normalization drops. -/
def toFiller (sign : Sign) (node : Node) : Node :=
  (node.withSign sign).withContent (.atom ['0'])

end Node

namespace Equation

/-- Changes the nodes with the given identities, one after the other, and marks them as pending. It
ends at an identity that is not there. -/
def substitute (f : Node → Node) : List NodeId → Equation → Except TreeError Unit × Equation
  | [], equation => (.ok (), equation)
  | id :: ids, equation =>
    match equation.modify? id fun node ↦ (f node).withPending true with
    | some equation => substitute f ids equation
    | none => (.error .noSuchNode, equation)

/-- Puts a normalized expression in the place of the nodes with the given identities, the first of
which takes it over, and normalizes the equation. -/
def putInPlace (expression : Node) (ids : List NodeId) (equation : Equation) :
    Except (List InputError) Unit × Equation :=
  match ids with
  | [] => (.error [.nothingSelected], equation)
  | first :: rest =>
    let filler := ((equation.findParent? first).bind Node.family?).elim .plus Family.defaultSign
    let outcome := match equation.substitute (Node.takeOver expression) [first] with
      | (.ok (), equation) => equation.substitute (Node.toFiller filler) rest
      | failed => failed
    match outcome with
    | (.error cause, equation) => (.error [.tree cause], equation)
    | (.ok (), equation) =>
      match equation.normalize with
      | (.ok (), equation) => (.ok (), equation)
      | (.error cause, equation) => (.error [.tree cause], equation)

/-- Reads a replacement and brings it into canonical form. -/
def readReplacement (text : Text) (equation : Equation) : Except (List InputError) Node :=
  match Node.read equation.limits text false with
  | .error cause => .error [.tree cause]
  | .ok node =>
    match node.normalize equation.oracle.rationalize equation.limits with
    | (.ok _, node) => .ok node
    | (.error cause, _) => .error [.tree cause]

/-- Replaces the selected nodes by an expression, which must have the same value. Input that is not
admitted leaves the equation as it is. -/
def replace (selection : List NodeId) (text : Text) (equation : Equation) :
    Inquiry (Except (List InputError) Unit × Equation) := do
  match ← equation.checkInput (.replace selection) text with
  | .error errors => return (.error errors, equation)
  | .ok () =>
    match equation.selectedNodes selection with
    | .error cause => return (.error [cause], equation)
    | .ok nodes =>
      match equation.readReplacement text with
      | .error errors => return (.error errors, equation)
      | .ok expression => return equation.putInPlace expression (nodes.filterMap Node.id?)

end Equation

end EquationSteps
