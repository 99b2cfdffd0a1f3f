import EquationSteps.Tree.Basic

/-!
# Printing trees

The text of a tree, in the grammar that `Tree.Reader` reads. The operands of a group are printed as
a chain of links. The first link of a chain shows its sign only if that is a minus, as the others
are the defaults of their families; each later link shows its sign.

Parentheses go around a sum wherever it is not a whole side, around a product that is itself a
factor or a divisor, and around a quotient that is itself a part of a quotient.
-/

namespace EquationSteps.Node

/-- Whether a group with the given tag and operands is printed in parentheses. -/
def isParenthesized (tag : Tag) (children : List Node) : Bool :=
  !tag.root &&
    match (group tag children).family? with
    | some .product => !tag.sign.isAdditive
    | some .quotient => tag.sign == .divide
    | some .sum => true
    | none => true

/-- The sign of a link as it is printed. -/
def linkSign (first : Bool) (sign : Sign) : Text :=
  if first && sign != .minus then [] else [sign.symbol]

mutual

/-- The text of a node's content, without the node's own sign. -/
def contentText : Node → Text
  | .atom _ text => text
  | .group tag children =>
    if isParenthesized tag children then '(' :: linksText true children ++ [')']
    else linksText true children

/-- The text of a chain of links, of which the first may be the first of its group. -/
def linksText (first : Bool) : List Node → Text
  | [] => []
  | node :: nodes => linkSign first node.sign ++ contentText node ++ linksText false nodes

end

/-- The text of a tree. -/
def toText (node : Node) : Text :=
  linkSign true node.sign ++ node.contentText

theorem toText_eq (node : Node) : node.toText = linksText true [node] := by
  simp [toText, linksText]

/-- Chains are printed one after the other. -/
theorem linksText_append {first : Bool} {nodes others : List Node} (h : nodes ≠ []) :
    linksText first (nodes ++ others) = linksText first nodes ++ linksText false others := by
  induction nodes generalizing first with
  | nil => exact absurd rfl h
  | cons node nodes ih =>
    cases nodes with
    | nil => simp [linksText]
    | cons next nodes => simp [linksText] at ih ⊢; simp [ih]

/-- A node without a minus sign prints like its content. -/
theorem toText_of_sign_ne_minus {node : Node} (h : node.sign ≠ .minus) :
    node.toText = node.contentText := by
  simp [toText, linkSign, h]

end EquationSteps.Node
