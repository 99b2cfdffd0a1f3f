import EquationSteps.Canonical.Rule

/-!
# Normalization

A pass applies the rules to a node, each at most once and in a fixed order, and then goes on to the
children that the rules left. It reports whether anything changed. `normalize` repeats passes until
one reports no change, or until the limit is reached. A root that the rules emptied gets the term
`0` and ends the pass, which then reports no change.

A pass goes down one level at a time, and its `reach` bounds the levels. The children that the rules
leave weigh less than the node, except where the answer of an oracle was put in, so the weight of
the tree is reach enough for the tree itself; `answerReach` is left for what stands in the answers.
An answer that nests further decimals beyond this reach waits for the next pass, which there will
be, since taking in an answer is a change.
-/

namespace EquationSteps.Node

/-- Applies a rule to what the rules before it left, and notes whether it fired. -/
def attempt (rule : Node → Option Node) (state : Bool × Node) : Bool × Node :=
  match rule state.2 with
  | some node => (true, node)
  | none => state

/-- What the rules made of a node, its children apart. -/
inductive Reshaped where
  /-- The node is finished, and so is the pass below it. -/
  | closed (node : Node)
  /-- The pass goes on to the children. -/
  | opened (changed : Bool) (node : Node)

/-- Applies all rules to one node. -/
def reshape (rationalize : Text → Except ValueError Text) (node : Node) : Reshaped :=
  match node.fillRoot? with
  | some node => .closed node
  | none =>
    let (changed, node) :=
      attempt collapse? (attempt regroup? (attempt (canonicalNumber? rationalize)
        (attempt settle? (attempt wrapRoot? (false, node)))))
    match node.prune with
    | .unchanged => .opened changed node
    | .changed node => .opened true node
    | .emptiedRoot node => .closed node

/-- One pass over the levels of a tree that are within reach: whether anything changed, and the
tree. -/
def passWithin (rationalize : Text → Except ValueError Text) : Nat → Node → Bool × Node
  | 0, node => (false, node)
  | reach + 1, node =>
    match node.reshape rationalize with
    | .closed node => (false, node)
    | .opened changed node =>
      let visited := node.children.map (passWithin rationalize reach)
      (changed || visited.any (·.1), node.withChildren (visited.map (·.2)))

/-- How many levels deep a pass follows the answers of an oracle. -/
def answerReach : Nat := 4096

/-- One pass over a tree. -/
def pass (rationalize : Text → Except ValueError Text) (node : Node) : Bool × Node :=
  passWithin rationalize (node.weight + answerReach) node

/-- Repeats passes, at most as many as are left, until one changes nothing. `done` is the number of
passes that changed something before. -/
def normalizeFrom (rationalize : Text → Except ValueError Text) (done : Nat) :
    Nat → Node → Except TreeError Nat × Node
  | 0, node => (.error (.notSettled done), node)
  | left + 1, node =>
    match node.pass rationalize with
    | (true, node) => normalizeFrom rationalize (done + 1) left node
    | (false, node) => (.ok done, node)

/-- Brings a tree into canonical form. The result is the number of passes that changed something, or
the failure to settle within the limit; the tree is there in either case, as the last pass left
it. -/
def normalize (rationalize : Text → Except ValueError Text) (limits : Limits) (node : Node) :
    Except TreeError Nat × Node :=
  normalizeFrom rationalize 0 limits.passes node

end EquationSteps.Node
