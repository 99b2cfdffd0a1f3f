import EquationSteps.Equality.Oracle
import EquationSteps.Tree.Printer

/-!
# The rules of normalization

The local rules by which a tree is brought into canonical form. Each rule looks at one node and its
children, and is a function to `Option Node`: `none` says that the rule does not apply, `some` that
it fired and what it made of the node. On the trees of an equation a rule keeps the value of the
node; the pending zeros that it drops are the fillers that an edit left behind. The node keeps its
identity, and the nodes that a rule makes are new.

* `wrapRoot?`: a root that is a leaf becomes a group of one term;
* `settle?`: children that an edit substituted are examined, a zero is dropped and a group that
  continues its parent is spliced in;
* `canonicalNumber?`: an integer loses its leading zeros, a decimal becomes a fraction;
* `regroup?`: a chain of divisions `a/b/c` becomes `(a/b)/c`;
* `collapse?`: a group of one operand becomes that operand;
* `prune`: factors `1` and terms `0` are dropped.
-/

namespace EquationSteps.Node

/-- The term `0`. -/
def zeroTerm : Node :=
  leaf .plus ['0']

/-- An empty root gets the term `0`. -/
def fillRoot? (node : Node) : Option Node :=
  match node.isRoot, node.content with
  | true, .group [] => some (node.withContent (.group [zeroTerm]))
  | _, _ => none

/-- A root that is a leaf becomes a group with the leaf as its only term, to which its sign
moves. -/
def wrapRoot? (node : Node) : Option Node :=
  match node.isRoot, node.content with
  | true, .atom text => some ((node.withSign .plus).withContent (.group [leaf node.sign text]))
  | _, _ => none

/-! ### Substituted children -/

/-- What a child leaves in a group of the given family once it is examined. A child that is not
pending stays as it is. A zero leaves nothing, and a sum in a sum or a product in a product leaves
its own operands, with their signs turned under a minus. -/
def settled (family : Option Family) (child : Node) : List Node :=
  if child.isPending then
    let child := child.withPending false
    if child.isZeroAtom then []
    else if family = some .sum ∧ child.family? = some .sum ∧ child.sign.isAdditive = true then
      if child.sign = .minus then child.children.map flipSign else child.children
    else if family = some .product ∧ child.family? = some .product ∧ child.sign = .times then
      child.children
    else [child]
  else [child]

/-- Examines the pending children of a group. A group of which nothing is left becomes `0`, unless
it is a root. -/
def settle? (node : Node) : Option Node :=
  if node.children.any isPending then
    let children := node.children.flatMap (settled node.family?)
    if children.isEmpty ∧ node.isRoot = false then some (node.withContent (.atom ['0']))
    else some (node.withContent (.group children))
  else none

/-! ### Numbers -/

/-- The content that an oracle's answer for a decimal literal stands for, if there is an answer and
it can be read. -/
def fraction? (rationalize : Text → Except ValueError Text) (literal : Text) : Option Content :=
  match rationalize literal with
  | .ok answer =>
    match read .standard answer false with
    | .ok node => some node.content
    | .error _ => none
  | .error _ => none

/-- An integer loses its leading zeros, and a decimal literal with a point becomes the fraction that
it denotes. -/
def canonicalNumber? (rationalize : Text → Except ValueError Text) (node : Node) : Option Node :=
  match node.content with
  | .group _ => none
  | .atom text =>
    if Numeral.isInteger text then
      if Numeral.canonicalInteger text = text then none
      else some (node.withContent (.atom (Numeral.canonicalInteger text)))
    else if Numeral.isDecimal text then (fraction? rationalize text).map (withContent · node)
    else none

/-! ### Shape -/

/-- A quotient of more than two parts becomes a quotient of two, all parts but the last over the
last. -/
def regroup? (node : Node) : Option Node :=
  if node.family? = some .quotient ∧ 2 < node.children.length then
    match node.children.getLast? with
    | some last =>
      some (node.withContent (.group [branch .divide node.children.dropLast, last]))
    | none => none
  else none

/-- A root whose only term is a sum with a plus takes over the terms of that sum. -/
def lift? (node : Node) : Option Node :=
  match node.children with
  | [only] =>
    if only.sign = .plus ∧ only.family? = some .sum then
      some (node.withContent (.group only.children))
    else none
  | _ => none

/-- A group of one operand becomes that operand. A minus of the operand turns the group's sign, and
where the group's sign has no opposite, the group stays. A root only gives way to a sum. -/
def collapse? (node : Node) : Option Node :=
  if node.isRoot then node.lift?
  else
    match node.children with
    | [only] =>
      if only.sign = .minus then
        if node.sign.isAdditive then some (node.flipSign.withContent only.content) else none
      else some (node.withContent only.content)
    | _ => none

/-! ### Ones and zeros -/

/-- What dropping ones and zeros made of a node. -/
inductive Pruned where
  /-- There was nothing to drop. -/
  | unchanged
  /-- Something was dropped. -/
  | changed (node : Node)
  /-- All terms of a root were dropped, and it got the term `0`. -/
  | emptiedRoot (node : Node)

/-- The node with only those operands left that pass the test. A group of which nothing is left
becomes the given leaf, and a root gets the term `0`. -/
def pruneBy (keep : Node → Bool) (identity : Text) (node : Node) : Pruned :=
  let kept := node.children.filter keep
  if kept.length = node.children.length then .unchanged
  else if kept.isEmpty then
    if node.isRoot then .emptiedRoot (node.withContent (.group [zeroTerm]))
    else .changed (node.withContent (.atom identity))
  else .changed (node.withContent (.group kept))

/-- Drops the factors `1` of a product, and the terms `0` of a sum of several terms. -/
def prune (node : Node) : Pruned :=
  match node.family? with
  | some .product => node.pruneBy (fun child ↦ child.toText != ['1']) ['1']
  | some .sum =>
    if 1 < node.children.length then node.pruneBy (fun child ↦ !child.isZeroAtom) ['0']
    else .unchanged
  | _ => .unchanged

end EquationSteps.Node
