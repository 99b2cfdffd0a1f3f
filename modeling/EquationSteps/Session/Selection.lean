import EquationSteps.Equation.Basic

/-!
# Selections

Which nodes are selected for replacement. A selection refers to nodes by their identities and is no
part of the equation; it stays meaningful until the equation is edited.

Only children of one node can be selected together. A click on a sibling of the selection adds it, a
click on a selected sibling removes it, and a click anywhere else starts over. A fraction has two
parts, and selecting both of them selects the fraction.

A click on a nested node reaches the nodes above it as well, one after the other. These echoes are
told from new clicks by the node clicked last: it is a child of the one that is reached.
-/

namespace EquationSteps

/-- The selected nodes. -/
structure Selection where
  /-- The identities of the selected nodes, in the order of their selection. -/
  ids : List NodeId
  /-- The node that the last click reached. -/
  lastClicked : Option NodeId
  deriving DecidableEq

namespace Selection

/-- Nothing is selected. -/
def empty : Selection := ⟨[], none⟩

/-- Whether a click on a node is the echo of a click on one of its children. -/
def isEcho (equation : Equation) (id : NodeId) (selection : Selection) : Bool :=
  match selection.lastClicked, equation.find? id with
  | some last, some node => node.hasChild last
  | _, _ => false

/-- Two selected parts of a fraction are the fraction. -/
def promote (equation : Equation) (ids : List NodeId) : List NodeId :=
  match ids with
  | [first, _] =>
    if (equation.find? first).any fun node ↦ node.sign == .divide then
      match (equation.findParent? first).bind Node.id? with
      | some fraction => [fraction]
      | none => ids
    else ids
  | _ => ids

/-- What a click on a node, which is no echo, makes of the selected identities. -/
def click (equation : Equation) (id : NodeId) (ids : List NodeId) : List NodeId :=
  if ids.head?.any fun first ↦ equation.areSiblings id first then
    if ids.contains id then ids.filter (· != id) else promote equation (ids ++ [id])
  else promote equation [id]

/-- What a click that reaches a node makes of a selection. -/
def toggle (equation : Equation) (id : NodeId) (selection : Selection) : Selection :=
  if selection.isEcho equation id then { selection with lastClicked := some id }
  else ⟨click equation id selection.ids, some id⟩

/-- Whether a node is selected. -/
def contains (id : NodeId) (selection : Selection) : Bool :=
  selection.ids.contains id

/-- Whether nothing is selected. -/
def isEmpty (selection : Selection) : Bool :=
  selection.ids.isEmpty

@[simp] theorem promote_singleton (equation : Equation) (id : NodeId) :
    promote equation [id] = [id] := rfl

@[simp] theorem lastClicked_toggle (equation : Equation) (id : NodeId) (selection : Selection) :
    (selection.toggle equation id).lastClicked = some id := by
  unfold toggle
  split <;> rfl

end Selection

end EquationSteps
