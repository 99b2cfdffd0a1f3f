import EquationSteps.Algebra.CommonFactor
import EquationSteps.Equality.Inquiry
import EquationSteps.Tree.Printer

/-!
# Cancellation

Where an operand meets a part of a term, the two may cancel instead of growing the tree. Whether an
expression equals the operand or is its negation is asked, never decided here; equal texts need no
asking, and a question that has no answer counts as a no. Integers cancel by themselves: an operand
and a number in the term are reduced by their common factor.
-/

namespace EquationSteps

/-- How an expression cancels against an operand. -/
inductive Cancellation where
  /-- The expression equals the operand. -/
  | equal
  /-- The expression is the negation of the operand. -/
  | opposite
  deriving DecidableEq

namespace Cancellation

/-- An answer as a yes or no; no answer is a no. -/
def confirmed : Except ValueError Bool → Bool
  | .ok answer => answer
  | .error _ => false

/-- Whether a text is the operand or is confirmed to equal it. -/
def isEqual (text operand : Text) : Inquiry Bool :=
  if text = operand then pure true
  else do return confirmed (← Inquiry.equal text operand)

/-- Whether a text is confirmed to be the negation of the operand. -/
def isOpposite (text operand : Text) : Inquiry Bool :=
  do return confirmed (← Inquiry.opposite text operand)

/-- How a text cancels against the operand, if it does. -/
def compare (text operand : Text) : Inquiry (Option Cancellation) := do
  if ← isEqual text operand then return some equal
  if ← isOpposite text operand then return some opposite
  return none

/-- The place of the first text that passes a test. -/
def position? (test : Text → Inquiry Bool) : List Text → Inquiry (Option Nat)
  | [] => pure none
  | text :: texts => do
    if ← test text then return some 0
    return (← position? test texts).map (· + 1)

/-- The first of several nodes whose content cancels against the operand, and how it does. An equal
one anywhere is preferred to an opposite one. -/
def find? (candidates : List Node) (operand : Text) : Inquiry (Option (Nat × Cancellation)) := do
  let texts := candidates.map Node.contentText
  match ← position? (isEqual · operand) texts with
  | some place => return some (place, equal)
  | none => return (← position? (isOpposite · operand) texts).map (·, opposite)

/-- A term from which something was cancelled: its sign turns if that was the operand's negation. -/
def applySign (cancellation : Cancellation) (term : Node) : Node :=
  match cancellation with
  | equal => term
  | opposite => term.flipSign

end Cancellation

namespace Node

/-! ### Common factors of integers -/

/-- Reduces an integer leaf and the integer `d` by their common factor. Returns the leaf and what is
left of `d`, if there is a common factor. -/
def reduceAtom? (node : Node) (d : Nat) : Option (Node × Nat) := do
  let n ← node.integer?
  let reduction ← Reduction.of? n d
  return (node.withContent (.atom (Numeral.integerText reduction.left)), reduction.right.toNat)

/-- Reduces the first of several nodes that has a common factor with `d`. -/
def reduceFirst? (d : Nat) : List Node → Option (List Node × Nat)
  | [] => none
  | node :: nodes =>
    match node.reduceAtom? d with
    | some (node, left) => some (node :: nodes, left)
    | none => (reduceFirst? d nodes).map fun (nodes, left) ↦ (node :: nodes, left)

/-- Reduces an integer leaf, or the first integer factor of a product for which that is possible,
and the integer `d` by their common factor. Returns the node and what is left of `d`. -/
def reduce? (node : Node) (d : Nat) : Option (Node × Nat) :=
  if node.family? = some .product then
    (reduceFirst? d node.children).map fun (factors, left) ↦ (node.withChildren factors, left)
  else node.reduceAtom? d

/-! ### Growing and shrinking a term -/

/-- The numerator and the denominator of a group of two operands. -/
def parts? (node : Node) : Option (Node × Node) :=
  match node.children with
  | [numerator, denominator] => some (numerator, denominator)
  | _ => none

/-- Multiplies a node by a factor: a product gets one more factor, any other node becomes a product
of its content and the factor. -/
def appendFactor (node factor : Node) : Node :=
  if node.family? = some .product then node.withChildren (node.children ++ [factor])
  else node.withContent (.group [fresh .times node.content, factor])

/-- Multiplies a node by a number, unless that is one. -/
def appendNumber (node : Node) (n : Nat) : Node :=
  if n = 1 then node else node.appendFactor (leaf .times (Numeral.digits n))

/-- Puts a node's content over a denominator. -/
def intoQuotient (node denominator : Node) : Node :=
  node.withContent (.group [fresh .divide node.content, denominator])

/-- The node that is left of a product after one factor was taken out of it; the empty product is
`1`. -/
def withoutFactor (node : Node) (place : Nat) : Node :=
  let factors := node.children.eraseIdx place
  if factors.isEmpty then node.withContent (.atom ['1']) else node.withChildren factors

end Node

end EquationSteps
