import EquationSteps.Algebra.CommonFactor
import EquationSteps.Algebra.Monomial
import EquationSteps.Algebra.Polynomial
import EquationSteps.Algebra.RationalFunction
import EquationSteps.Canonical.Pass
import EquationSteps.Canonical.Rule
import EquationSteps.Equality.Inquiry
import EquationSteps.Equality.Memo
import EquationSteps.Equality.Oracle
import EquationSteps.Equation.Admission
import EquationSteps.Equation.Basic
import EquationSteps.Equation.Edit
import EquationSteps.Equation.Replacement
import EquationSteps.Failure
import EquationSteps.Limits
import EquationSteps.Session.Selection
import EquationSteps.Session.Timeline
import EquationSteps.Side.Cancellation
import EquationSteps.Side.Divide
import EquationSteps.Side.Multiply
import EquationSteps.Side.Operand
import EquationSteps.Side.Terms
import EquationSteps.Text.Basic
import EquationSteps.Text.Blank
import EquationSteps.Text.Juxtaposition
import EquationSteps.Text.Numeral
import EquationSteps.Tree.Basic
import EquationSteps.Tree.Identity
import EquationSteps.Tree.Operator
import EquationSteps.Tree.Printer
import EquationSteps.Tree.Reader
import EquationSteps.Tree.Value
import EquationSteps.Proofs.Fallible
import EquationSteps.Proofs.Algebra.FunctionField
import EquationSteps.Proofs.Meaning.Basic
import EquationSteps.Proofs.Meaning.Tree
import EquationSteps.Proofs.Meaning.Group
import EquationSteps.Proofs.Reading.Grammar
import EquationSteps.Proofs.Reading.Structure
import EquationSteps.Proofs.Reading.Acceptance
import EquationSteps.Proofs.Reading.Printed
import EquationSteps.Proofs.Meaning.Literal
import EquationSteps.Proofs.Canonical.Rules
import EquationSteps.Proofs.Canonical.Passes
import EquationSteps.Proofs.Canonical.Rest
import EquationSteps.Proofs.Canonical.Soundness
import EquationSteps.Proofs.Reading.Root
import EquationSteps.Proofs.Canonical.Tags
import EquationSteps.Proofs.Canonical.Form
import EquationSteps.Proofs.Canonical.RoundTrip
import EquationSteps.Proofs.Tree.Numbering
import EquationSteps.Proofs.Tree.Place
import EquationSteps.Proofs.Canonical.Place
import EquationSteps.Proofs.Meaning.Printed
import EquationSteps.Proofs.Equation.Slot
import EquationSteps.Proofs.Equation.Factors
import EquationSteps.Proofs.Equation.Side
import EquationSteps.Proofs.Equation.Admission
import EquationSteps.Proofs.Equation.Soundness
import EquationSteps.Proofs.Canonical.Potential
import EquationSteps.Proofs.Canonical.Termination
import EquationSteps.Proofs.Algebra.Evaluation
import EquationSteps.Proofs.Meaning.Formula
import EquationSteps.Proofs.Reading.Denotation
import EquationSteps.Proofs.Meaning.Read
import EquationSteps.Proofs.Reading.Depth
import EquationSteps.Proofs.Equality.Exact
import EquationSteps.Proofs.Equality.Soundness
import EquationSteps.Proofs.Side.Cancellation
import EquationSteps.Proofs.Side.Parts
import EquationSteps.Proofs.Side.Unit
import EquationSteps.Proofs.Side.Terms
import EquationSteps.Proofs.Side.Multiply
import EquationSteps.Proofs.Side.Divide
import EquationSteps.Proofs.Meaning.LeftToRight
import EquationSteps.Proofs.Canonical.ReadBack
import EquationSteps.Proofs.Equation.ReadBack
import EquationSteps.Proofs.Reading.Levels
import EquationSteps.Proofs.Canonical.Remains
import EquationSteps.Proofs.Equality.MayReturn
import EquationSteps.Proofs.Side.Remains
import EquationSteps.Proofs.Equation.Run
import EquationSteps.Proofs.Equation.Form
import EquationSteps.Proofs.Session.Timeline
import EquationSteps.Proofs.Session.Loss
import EquationSteps.Proofs.Canonical.Rewriting
import EquationSteps.Proofs.Canonical.Identity
import EquationSteps.Proofs.Side.Identity
import EquationSteps.Proofs.Equation.Workspace
import EquationSteps.Proofs.Reading.Letters
import EquationSteps.Proofs.Canonical.Symbols
import EquationSteps.Proofs.Equation.Typed
import EquationSteps.Proofs.Meaning.Constant
import EquationSteps.Proofs.Equation.Selection
import EquationSteps.Proofs.Equation.Input
import EquationSteps.Proofs.Equality.Transparency
import EquationSteps.Proofs.Equality.Printed
import EquationSteps.Proofs.Session.Selection
import EquationSteps.Proofs.Canonical.Normal
import EquationSteps.Proofs.Algebra.Arithmetic
import EquationSteps.Proofs.Algebra.FieldLaws
import EquationSteps.Proofs.Equation.Rejection
import EquationSteps.Proofs.Reading.Cap
import EquationSteps.Proofs.Equation.Marks
import EquationSteps.Proofs.Side.Integer
import EquationSteps.Proofs.Session.Bubbling
import EquationSteps.Proofs.Algebra.Exponents
import EquationSteps.Proofs.Equality.Exponents
import EquationSteps.Proofs.Equality.Decimal
import EquationSteps.Proofs.Equation.Search
import EquationSteps.Proofs.Reading.Juxtaposition
