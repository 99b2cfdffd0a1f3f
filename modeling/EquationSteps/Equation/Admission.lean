import EquationSteps.Equation.Basic

/-!
# Admitting input

What a user types is checked before it is used. Every problem that is found is reported, each as one
`InputError`, except that empty input, illegal characters and a text that cannot be read end the
check at once, and so does a malformed expression.

An operand has to be a number other than zero. A replacement has to have the value of the nodes that
it is to replace; these have to be children of one node, or else one whole side. A typed equation
has to have exactly one variable.
-/

namespace EquationSteps

/-- What a typed expression is for. -/
inductive Purpose where
  /-- To take the place of the selected nodes. -/
  | replace (selection : List NodeId)
  /-- To multiply both sides by it. -/
  | multiply
  /-- To divide both sides by it. -/
  | divide

/-- Whether a character may stand in an expression. -/
def isLegal (c : Char) : Bool :=
  c.isAlphanum || isBlank c || isStructural c || c == '.'

/-- The distinct characters that may not stand in an expression, in the order of their first
appearance; `=` is one of them unless it is allowed. -/
def illegalCharacters (text : Text) (allowEquals : Bool) : Text :=
  (text.filter fun c ↦ !(isLegal c || (allowEquals && c == '='))).eraseDups

namespace Equation

/-- The nodes that a selection stands for, in the order of the tree. -/
def selectedNodes (selection : List NodeId) (equation : Equation) :
    Except InputError (List Node) :=
  match selection with
  | [] => .error .nothingSelected
  | first :: rest =>
    if rest.any fun id ↦ id != first && !equation.areSiblings first id then .error .notSiblings
    else
      match equation.findParent? first with
      | some parent =>
        .ok (parent.children.filter fun child ↦ selection.any fun id ↦ child.id? == some id)
      | none =>
        if rest.isEmpty then
          match equation.find? first with
          | some node => .ok [node]
          | none => .error (.tree .noSuchNode)
        else .error (.tree .noSuchNode)

/-- The text whose value is compared with that of a replacement: a whole side as it is, and else the
chain of the selected nodes. -/
def selectionText (nodes : List Node) : Text :=
  match nodes with
  | [node] => if node.isRoot then node.toText else Node.linksText true nodes
  | nodes => Node.linksText true nodes

/-- Checks that a text has the value of the selected nodes. -/
def checkReplacement (selection : List NodeId) (text : Text) (equation : Equation) :
    Inquiry (Except InputError Unit) :=
  match equation.selectedNodes selection with
  | .error cause => pure (.error cause)
  | .ok [] => pure (.error .nothingSelected)
  | .ok nodes => do
    match ← Inquiry.equal (selectionText nodes) text with
    | .ok true => return .ok ()
    | .ok false => return .error .notEquivalent
    | .error _ => return .error .notEquivalent

/-- What is wrong with an expression as an operand. -/
def operandErrors (text : Text) (expression : Node) : Inquiry (List InputError) := do
  let value ← Inquiry.equal text ['0']
  let zero := match value with
    | .ok true => [.zeroOperand]
    | .ok false => []
    | .error _ => [.malformed]
  return zero ++ if expression.variableNames.isEmpty then [] else [.variableOperand]

/-- What is wrong with a well-formed expression for its purpose. -/
def purposeErrors (purpose : Purpose) (text : Text) (expression : Node) (equation : Equation) :
    Inquiry (List InputError) :=
  match purpose with
  | .replace selection => do
    match ← equation.checkReplacement selection text with
    | .ok () => return []
    | .error cause => return [cause]
  | .multiply | .divide => operandErrors text expression

/-- The variables of an expression that the equation does not have, as what is wrong with it. -/
def foreignErrors (expression : Node) (equation : Equation) : List InputError :=
  match expression.variableNames.filter fun c ↦ !equation.variableNames.contains c with
  | [] => []
  | c :: found => [.foreignVariables (c :: found)]

/-- What is wrong with a text as input for the purpose. -/
def inputErrors (purpose : Purpose) (text : Text) (equation : Equation) :
    Inquiry (List InputError) :=
  if Text.isBlank text then pure [.empty]
  else
    match illegalCharacters text false with
    | c :: found => pure [.illegalCharacters (c :: found)]
    | [] =>
      match Node.read equation.limits text false with
      | .error cause => pure [.tree cause]
      | .ok expression => do
        let foreign := equation.foreignErrors expression
        if expression.isValid then
          return foreign ++ (← equation.purposeErrors purpose text expression)
        else return foreign ++ [.malformed]

/-- Checks whether a text can be used for the purpose. -/
def checkInput (purpose : Purpose) (text : Text) (equation : Equation) :
    Inquiry (Except (List InputError) Unit) := do
  match ← equation.inputErrors purpose text with
  | [] => return .ok ()
  | errors => return .error errors

/-- What is wrong with an equation that was just typed. -/
def typedErrors (equation : Equation) : List InputError :=
  (if equation.variableNames.length = 1 then [] else [.variableCount equation.variableNames]) ++
    if equation.left.isValid && equation.right.isValid then [] else [.malformed]

/-- The sides of a typed equation: there is exactly one sign of equality, and no side is blank. -/
def typedSides? (text : Text) : Option (Text × Text) :=
  match Text.cut? '=' text with
  | some (left, right) =>
    if Text.isBlank left || Text.isBlank right || right.contains '=' then none
    else some (left, right)
  | none => none

/-- Checks a typed equation, and builds it. -/
def ofTyped (text : Text) : Except (List InputError) Equation :=
  if Text.isBlank text then .error [.empty]
  else
    match illegalCharacters text true with
    | c :: found => .error [.illegalCharacters (c :: found)]
    | [] =>
      match typedSides? text with
      | none => .error [.incomplete]
      | some (left, right) =>
        match new left right with
        | .error cause => .error [.tree cause]
        | .ok equation =>
          match equation.typedErrors with
          | [] => .ok equation
          | errors => .error errors

end Equation

end EquationSteps
