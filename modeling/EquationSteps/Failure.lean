import EquationSteps.Text.Numeral

/-!
# Failures

Why an operation did not do what it was asked to. There are three layers, each wrapping the one
below: a tree can be too deep, fail to settle, or lack a node (`TreeError`); a value can fail to
exist (`ValueError`); and typed input can be unusable for the equation at hand (`InputError`).
Every failure is one diagnostic, and its `message` is the sentence shown for it.
-/

namespace EquationSteps

/-- A failure that concerns the shape of a tree. -/
inductive TreeError where
  /-- A text nests deeper than the limit. -/
  | nestingTooDeep (limit : Nat)
  /-- Normalization was still changing the tree after the given number of passes. -/
  | notSettled (passes : Nat)
  /-- No node has the identity asked for. -/
  | noSuchNode
  deriving DecidableEq

/-- The sentence shown for a failure of a tree. -/
def TreeError.message : TreeError → Text
  | nestingTooDeep limit =>
    "expression nests deeper than ".toList ++ Numeral.digits limit ++ " levels".toList
  | notSettled passes =>
    "normalization did not settle after ".toList ++ Numeral.digits passes ++ " passes".toList
  | noSuchNode => "node not found".toList

/-- A failure to give an expression a value. -/
inductive ValueError where
  /-- Some divisor is zero as a rational function. -/
  | divisionByZero
  /-- A leaf is neither a letter nor a decimal literal. -/
  | illegalAtom (text : Text)
  /-- A text offered as a decimal literal is none. -/
  | invalidDecimal (text : Text)
  /-- The expression could not be read. -/
  | unreadable (cause : TreeError)
  deriving DecidableEq

/-- The sentence shown for a failure to evaluate. -/
def ValueError.message : ValueError → Text
  | divisionByZero => "division by zero".toList
  | illegalAtom text => "illegal atom '".toList ++ text ++ "'".toList
  | invalidDecimal text => "'".toList ++ text ++ "' is not a decimal literal".toList
  | unreadable cause => cause.message

/-- A reason why typed input cannot be used for an equation. -/
inductive InputError where
  /-- The input is empty or blank. -/
  | empty
  /-- The input has characters that are never legal, each named once. -/
  | illegalCharacters (found : Text)
  /-- The input has variables that the equation does not have. -/
  | foreignVariables (found : Text)
  /-- A typed equation has these variables, and not exactly one. -/
  | variableCount (found : Text)
  /-- The input is not a well-formed expression, or it has no value. -/
  | malformed
  /-- A typed equation lacks its sign of equality or one of its sides. -/
  | incomplete
  /-- A replacement was asked for with nothing selected. -/
  | nothingSelected
  /-- The selected nodes are not all children of one node. -/
  | notSiblings
  /-- The replacement does not have the value of the selection. -/
  | notEquivalent
  /-- The operand is zero. -/
  | zeroOperand
  /-- The operand has a variable. -/
  | variableOperand
  /-- A tree could not be read or normalized. -/
  | tree (cause : TreeError)
  deriving DecidableEq

/-- The sentence shown for unusable input. -/
def InputError.message : InputError → Text
  | empty => "the input is empty".toList
  | illegalCharacters found => "the input must not contain: ".toList ++ found
  | foreignVariables found => "the input must not contain the variables: ".toList ++ found
  | variableCount [] => "the equation must contain one variable".toList
  | variableCount found => "the equation may contain only one variable, found: ".toList ++ found
  | malformed => "the input contains an error".toList
  | incomplete => "the equation is not complete".toList
  | nothingSelected => "nothing is selected to replace".toList
  | notSiblings => "the selected terms are not siblings".toList
  | notEquivalent => "the value of the selection differs from the input".toList
  | zeroOperand => "the operand must not be zero".toList
  | variableOperand => "the operand must not contain a variable".toList
  | tree cause => cause.message

end EquationSteps
