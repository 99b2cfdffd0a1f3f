import EquationSteps.Side.Divide
import EquationSteps.Tree.Identity

/-!
# Equations

An equation has two sides, each a tree with a root, and the limits and the oracle under which it is
edited. Its text is `left=right`, and reading that text gives an equation again.

The operations that change both sides change the left one first. Where a side fails, the equation is
as the failure left it: an operation returns its outcome and the equation side by side. The nodes
that an operation makes have no identities yet; `number` issues them.
-/

namespace EquationSteps

/-- Two sides, and what they are edited under. -/
structure Equation where
  left : Node
  right : Node
  limits : Limits
  oracle : Oracle

namespace Equation

/-! ### Building and printing -/

/-- Changes the left side and then, if that succeeded, the right side. -/
def onSides (f : Node → Inquiry (Except TreeError Unit × Node)) (equation : Equation) :
    Inquiry (Except TreeError Unit × Equation) := do
  let (result, left) ← f equation.left
  let equation := { equation with left }
  match result with
  | .error cause => return (.error cause, equation)
  | .ok () =>
    let (result, right) ← f equation.right
    return (result, { equation with right })

/-- Normalizes a side. -/
def normalizeSide (equation : Equation) (side : Node) : Except TreeError Unit × Node :=
  let (result, side) := side.normalize equation.oracle.rationalize equation.limits
  (result.map fun _ ↦ (), side)

/-- Normalizes the left side and then, if it settled, the right side. -/
def normalize (equation : Equation) : Except TreeError Unit × Equation :=
  match equation.normalizeSide equation.left with
  | (.error cause, left) => (.error cause, { equation with left })
  | (.ok (), left) =>
    let (result, right) := equation.normalizeSide equation.right
    (result, { equation with left, right })

/-- Reads and normalizes both sides. -/
def ofSides (limits : Limits) (oracle : Oracle) (left right : Text) :
    Except TreeError Equation := do
  let left ← Node.read limits left true
  let right ← Node.read limits right true
  match normalize { left, right, limits, oracle } with
  | (.ok (), equation) => .ok equation
  | (.error cause, _) => .error cause

/-- Reads and normalizes both sides under the standard limits and with the exact oracle. -/
def new (left right : Text) : Except TreeError Equation :=
  ofSides .standard (.exact .standard) left right

/-- Reads an equation from its text, which is cut at its first sign of equality. -/
def ofText (text : Text) : Except InputError Equation :=
  match Text.cut? '=' text with
  | none => .error .incomplete
  | some (left, right) =>
    match new left right with
    | .ok equation => .ok equation
    | .error cause => .error (.tree cause)

/-- Reads an equation under the limits and with the oracle of another one. -/
def readLike (equation : Equation) (left right : Text) : Except TreeError Equation :=
  ofSides equation.limits equation.oracle left right

/-- The text of an equation. -/
def toText (equation : Equation) : Text :=
  equation.left.toText ++ '=' :: equation.right.toText

/-! ### What an equation is made of -/

/-- The distinct variables of both sides, in the order of their first appearance. -/
def variableNames (equation : Equation) : Text :=
  (equation.left.letters ++ equation.right.letters).eraseDups

/-- Whether all leaves are literals or letters, and at most one letter is in use. -/
def isValid (equation : Equation) : Bool :=
  equation.left.isValid && equation.right.isValid && decide (equation.variableNames.length ≤ 1)

/-- The node with an identity, on either side. -/
def find? (id : NodeId) (equation : Equation) : Option Node :=
  (equation.left.find? id).or (equation.right.find? id)

/-- The node that has an identity among its children, on either side. -/
def findParent? (id : NodeId) (equation : Equation) : Option Node :=
  (equation.left.findParent? id).or (equation.right.findParent? id)

/-- Whether two identities are children of one node, on either side. -/
def areSiblings (a b : NodeId) (equation : Equation) : Bool :=
  equation.left.areSiblings a b || equation.right.areSiblings a b

/-- The equation with the node of an identity changed, if it has that node. -/
def modify? (id : NodeId) (f : Node → Node) (equation : Equation) : Option Equation :=
  match equation.left.modify? id f with
  | some left => some { equation with left }
  | none => (equation.right.modify? id f).map fun right ↦ { equation with right }

/-! ### Identities -/

/-- Issues an identity to each node that has none, on the left side first. Returns the next identity
to issue as well. -/
def number (next : NodeId) (equation : Equation) : Equation × NodeId :=
  let (left, next) := equation.left.number next
  let (right, next) := equation.right.number next
  ({ equation with left, right }, next)

/-- A copy of an equation, all of whose nodes count as new. -/
def copy (equation : Equation) : Equation :=
  { equation with left := equation.left.anonymous, right := equation.right.anonymous }

/-! ### Operations on both sides -/

/-- Multiplies both sides by a factor. -/
def multiply (factor : Text) (equation : Equation) : Inquiry (Except TreeError Unit × Equation) :=
  equation.onSides (multiplySide equation.oracle.rationalize equation.limits factor)

/-- Divides both sides by a divisor. -/
def divide (divisor : Text) (equation : Equation) : Inquiry (Except TreeError Unit × Equation) :=
  equation.onSides (divideSide equation.oracle.rationalize equation.limits divisor)

/-- Exchanges the sides. -/
def swapSides (equation : Equation) : Equation :=
  { equation with left := equation.right, right := equation.left }

@[simp] theorem swapSides_swapSides (equation : Equation) :
    equation.swapSides.swapSides = equation := rfl

end Equation

end EquationSteps
