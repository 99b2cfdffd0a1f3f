import EquationSteps.Algebra.RationalFunction
import EquationSteps.Tree.Basic

/-!
# The value of a tree

An expression denotes a rational function of its letters. The value of a group is computed from left
to right, and the first failure met on that way is the one reported. In a sum the operands are added
and subtracted; in a product or a quotient each later operand multiplies or divides what stands
before it, as its own sign says. The sign of a node is no part of its content's value: it is the
concern of the group around it, or of `value` for a whole tree.
-/

namespace EquationSteps

namespace RationalFunction

/-- The function, or its negation in front of which a minus stands. -/
def negateIf (sign : Sign) (f : RationalFunction) : RationalFunction :=
  if sign = .minus then f.neg else f

/-- One step of computing a group: takes in an operand by its sign. -/
def combine (family : Family) (f : RationalFunction) (sign : Sign) (g : RationalFunction) :
    Except ValueError RationalFunction :=
  match family with
  | .sum => .ok (if sign = .minus then f.sub g else f.add g)
  | .product | .quotient =>
    match sign with
    | .divide => f.div? g
    | .minus => .ok (f.mul g.neg)
    | .plus | .times => .ok (f.mul g)

end RationalFunction

namespace Node

/-- The value of a leaf: a letter is a variable, a literal is a constant. -/
def atomValue (text : Text) : Except ValueError RationalFunction :=
  match text with
  | [c] =>
    if c.isAlpha then .ok (.ofVariable c)
    else numeralValue [c]
  | text => numeralValue text
where
  /-- The value of a numeral. -/
  numeralValue (text : Text) : Except ValueError RationalFunction :=
    match Numeral.integer? text with
    | some n => .ok (.constant n)
    | none =>
      match Numeral.decimalFraction? text with
      | some q => .ok (.constant q)
      | none => .error (.illegalAtom text)

mutual

/-- The value of a node's content. An empty group is zero. -/
def contentValue : Node → Except ValueError RationalFunction
  | .atom _ text => atomValue text
  | .group _ [] => .ok (.constant 0)
  | .group _ (first :: rest) => do
    let f ← contentValue first
    chainValue (.ofSign first.sign) (f.negateIf first.sign) rest

/-- The value of a group of which the operands up to some place have the value `f`. -/
def chainValue (family : Family) (f : RationalFunction) :
    List Node → Except ValueError RationalFunction
  | [] => .ok f
  | node :: nodes => do
    let g ← contentValue node
    let f ← f.combine family node.sign g
    chainValue family f nodes

end

/-- The value of a tree, its own sign included. -/
def value (node : Node) : Except ValueError RationalFunction := do
  let f ← node.contentValue
  .ok (f.negateIf node.sign)

end Node

end EquationSteps
