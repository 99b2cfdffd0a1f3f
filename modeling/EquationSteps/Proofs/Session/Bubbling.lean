import EquationSteps.Proofs.Session.Selection

/-!
# A click that bubbles acts once

A click on a nested node reaches the node and then each node above it, up to the side
(`Equation.Ascends`), and each time the selection is toggled. A selection only remembers which node
was reached last. This is enough to tell an echo from a new click, in both directions:

* Each node that a click reaches on its way up has the one reached before among its children, so it
  is taken for an echo, and what is selected stays as it is (`Selection.foldl_toggle`).
* On its way up every click ends at a side. No node has a side among its children, so the next click
  is never taken for an echo, wherever it is (`Selection.IsAtRest.toggle`).

So what is selected after many clicks is what the clicked nodes alone select by the rule without
echoes, `Selection.click` (`Selection.ids_bubbling`). That the identities are found where they are
is `Equation.find?_eq_some_iff`; nothing depends on the shape of the equation, nor on what is
selected.

**Different identities are needed**, and that all nodes have one. If an identity occurred twice,
then a side might be found as a child of another node, and if a node had none, a click could not go
through it. An equation has both between edits.

**A click that does not go all the way up** is not covered. It would leave the last reached node
inside the equation, and a click on its parent would then be swallowed as an echo. The way up that
`Ascends` gives is the only one from a node, so there is no choice in what counts as a whole click.
-/

namespace EquationSteps

open Node

namespace Equation

variable {equation : Equation} {id above : NodeId} {node parent : Node} {rest rest' : List NodeId}

/-! ### The way up -/

/-- The identities of the nodes above a node, up to a side: first that of the node that has it among
its children, then that of the node that has this one among its children, and so on. -/
inductive Ascends (equation : Equation) : NodeId → List NodeId → Prop where
  /-- The way up ends at a side. -/
  | whole {id : NodeId} {side : Node} (hside : side ∈ [equation.left, equation.right])
      (hid : side.id? = some id) : Ascends equation id []
  /-- Above a node there is the node that has it among its children. -/
  | operand {id above : NodeId} {rest : List NodeId} {parent : Node}
    (hparent : equation.Contains parent)
      (hchild : parent.hasChild id = true) (hid : parent.id? = some above)
      (h : Ascends equation above rest) : Ascends equation id (above :: rest)

/-- There is one way up from a node. -/
theorem Ascends.unique (hnodup : (equation.left.ids ++ equation.right.ids).Nodup)
    (h : equation.Ascends id rest) (h' : equation.Ascends id rest') : rest = rest' := by
  -- a side has no parent, so both ways end there, or else both go on to the same node
  have hside : ∀ {side parent : Node} {id : NodeId}, side ∈ [equation.left, equation.right] →
      side.id? = some id → equation.Contains parent → parent.hasChild id ≠ true := by
    intro side parent id hside hid hparent hchild
    cases (find_root hnodup hside hid).1.symm.trans
      ((findParent?_eq_some_iff hnodup).2 ⟨hparent, hchild⟩)
  induction h generalizing rest' with
  | whole hmem hid =>
    cases h' with
    | whole => rfl
    | operand hparent hchild => exact absurd hchild (hside hmem hid hparent)
  | operand hparent hchild hid _ ih =>
    cases h' with
    | whole hmem hid' => exact absurd hchild (hside hmem hid' hparent)
    | operand hparent' hchild' hid' h' =>
      obtain rfl := hparent.unique hnodup hparent' hchild hchild'
      obtain rfl := Option.some.inj (hid.symm.trans hid')
      rw [ih h']

/-- There is a way up from every node, if all nodes have identities. -/
theorem exists_ascends (hnumbered : none ∉ equation.left.ids ++ equation.right.ids)
    (hnode : equation.Contains node) (hid : node.id? = some id) :
    ∃ rest, equation.Ascends id rest := by
  obtain ⟨side, hside, frames, hplug⟩ := hnode
  induction frames using List.reverseRecOn generalizing node id with
  | nil => exact ⟨[], .whole hside (hplug ▸ hid)⟩
  | append_singleton frames frame ih =>
    have hparent : side = plug frames (frame.plug node) := hplug.trans (plug_append _ _ _)
    have hcontains : equation.Contains (frame.plug node) := ⟨side, hside, frames, hparent⟩
    have hchild : (frame.plug node).hasChild id = true :=
      hasChild_iff.2 ⟨node, List.mem_append_cons_self, hid⟩
    cases habove : (frame.plug node).id? with
    | none =>
      refine absurd (hcontains.ids_subset ?_) hnumbered
      rw [ids_eq_cons, habove]
      exact List.mem_cons_self
    | some above =>
      obtain ⟨rest, hrest⟩ := ih habove hparent
      exact ⟨above :: rest, .operand hcontains hchild habove hrest⟩

/-- The parent that a search finds is the next node on the way up. -/
theorem Ascends.of_findParent? (hnodup : (equation.left.ids ++ equation.right.ids).Nodup)
    (hparent : (equation.findParent? id).bind Node.id? = some above)
    (h : equation.Ascends above rest) :
    equation.Ascends id (above :: rest) := by
  obtain ⟨parent, hfound, hid⟩ := Option.bind_eq_some_iff.1 hparent
  obtain ⟨hcontains, hchild⟩ := (findParent?_eq_some_iff hnodup).1 hfound
  exact .operand hcontains hchild hid h

end Equation

namespace Selection

variable {equation : Equation} {selection : Selection} {id above : NodeId} {rest : List NodeId}
  {parent : Node}

/-! ### Clicks that bubble

The invariant between clicks is `IsAtRest`. It makes the first step of a click a new one, and the
last step restores it. -/

/-- What a click makes of a selection: it reaches a node, and then the nodes above it. -/
def bubble (equation : Equation) (selection : Selection)
    (reached : NodeId × List NodeId) : Selection :=
  (reached.1 :: reached.2).foldl (fun selection id ↦ selection.toggle equation id) selection

/-- Between clicks, the node that was reached last is a side, if there was a click at all. -/
def IsAtRest (equation : Equation) (selection : Selection) : Prop :=
  ∀ last, selection.lastClicked = some last →
    ∃ side ∈ [equation.left, equation.right], side.id? = some last

/-- Before the first click no node has been reached. -/
theorem isAtRest_empty (equation : Equation) : empty.IsAtRest equation := by
  intro last hlast
  cases hlast

section Nodup

variable (hnodup : (equation.left.ids ++ equation.right.ids).Nodup)

include hnodup

/-- A new click is never an echo. -/
theorem IsAtRest.toggle (h : selection.IsAtRest equation) (id : NodeId) :
    selection.toggle equation id = ⟨click equation id selection.ids, some id⟩ := by
  refine if_neg fun hecho ↦ ?_
  unfold isEcho at hecho
  split at hecho
  · rename_i last node hlast hfound
    -- the node would be the parent of a side
    obtain ⟨side, hside, hid⟩ := h last hlast
    obtain ⟨hnode, -⟩ := (Equation.find?_eq_some_iff hnodup).1 hfound
    cases (Equation.find_root hnodup hside hid).1.symm.trans
      ((Equation.findParent?_eq_some_iff hnodup).2 ⟨hnode, hecho⟩)
  · cases hecho

/-- A parent that is reached after its child is an echo. -/
theorem toggle_of_hasChild (hlast : selection.lastClicked = some id)
    (hparent : equation.Contains parent) (hchild : parent.hasChild id = true)
    (hid : parent.id? = some above) :
    selection.toggle equation above = { selection with lastClicked := some above } := by
  refine if_pos ?_
  rw [isEcho, hlast, Equation.find?_of_contains hnodup hparent hid]
  exact hchild

/-- **On its way up** a click selects nothing more, and it ends at a side. -/
theorem foldl_toggle (h : equation.Ascends id rest) (hlast : selection.lastClicked = some id) :
    (rest.foldl (fun selection id ↦ selection.toggle equation id) selection).ids = selection.ids ∧
      (rest.foldl (fun selection id ↦ selection.toggle equation id) selection).IsAtRest
        equation := by
  induction h generalizing selection with
  | whole hside hid =>
    refine ⟨rfl, fun last h ↦ ⟨_, hside, hid.trans ?_⟩⟩
    exact hlast.symm.trans h
  | operand hparent hchild hid _ ih =>
    rw [List.foldl_cons, toggle_of_hasChild hnodup hlast hparent hchild hid]
    exact ih rfl

/-- **One click** that bubbles selects what the click on its node selects. -/
theorem IsAtRest.bubble (hrest : selection.IsAtRest equation) (h : equation.Ascends id rest) :
    (selection.bubble equation (id, rest)).ids = click equation id selection.ids ∧
      (selection.bubble equation (id, rest)).IsAtRest equation := by
  rw [Selection.bubble, List.foldl_cons, hrest.toggle hnodup id]
  exact foldl_toggle hnodup h rfl

/-- **Many clicks** that bubble select what the clicks on their nodes select. -/
theorem IsAtRest.foldl_bubble {clicks : List (NodeId × List NodeId)}
    (hrest : selection.IsAtRest equation)
    (h : ∀ reached ∈ clicks, equation.Ascends reached.1 reached.2) :
    (clicks.foldl (Selection.bubble equation) selection).ids =
      (clicks.map Prod.fst).foldl (fun ids id ↦ click equation id ids) selection.ids := by
  induction clicks generalizing selection with
  | nil => rfl
  | cons reached clicks ih =>
    obtain ⟨hreached, hclicks⟩ := List.forall_mem_cons.1 h
    obtain ⟨hids, hrest⟩ := hrest.bubble hnodup hreached
    rw [List.foldl_cons, ih hrest hclicks, List.map_cons, List.foldl_cons, hids]

end Nodup

/-- **A click that bubbles acts once.** In an equation whose nodes have different identities there
is exactly one way up from each node. Any clicks, on any nodes, each of which reaches its node and
then all nodes above it, select from the empty selection what the rule without echoes selects from
nothing when it is applied to the clicked nodes alone, and in the same order. -/
theorem ids_bubbling (hnodup : (equation.left.ids ++ equation.right.ids).Nodup)
    (hnumbered : none ∉ equation.left.ids ++ equation.right.ids) :
    (∀ id ∈ equation.issued, ∃! rest, equation.Ascends id rest) ∧
      ∀ clicks : List (NodeId × List NodeId),
        (∀ reached ∈ clicks, equation.Ascends reached.1 reached.2) →
        (clicks.foldl (bubble equation) empty).ids =
          (clicks.map Prod.fst).foldl (fun ids id ↦ click equation id ids) [] := by
  refine ⟨fun id hid ↦ ?_, fun clicks h ↦ (isAtRest_empty equation).foldl_bubble hnodup h⟩
  obtain ⟨node, hnode, hid⟩ := Equation.exists_contains_of_mem_ids (Equation.mem_issued_iff.1 hid)
  obtain ⟨rest, hrest⟩ := Equation.exists_ascends hnumbered hnode hid
  exact ⟨rest, hrest, fun rest' hrest' ↦ hrest'.unique hnodup hrest⟩

/-- In `x/2+1=5`, clicks on both parts of the fraction and on the term behind it select the fraction
and the term, each click being echoed at all nodes above. -/
theorem ids_bubbling_fraction : ∃ built : Equation, Equation.new "x/2+1".toList ['5'] = .ok built ∧
    ((built.number 0).1.left.ids ++ (built.number 0).1.right.ids).Nodup ∧
      none ∉ (built.number 0).1.left.ids ++ (built.number 0).1.right.ids ∧
        (∀ reached ∈ [(2, [1, 0]), (3, [1, 0]), (4, [0])],
          (built.number 0).1.Ascends reached.1 reached.2) ∧
          ([(2, [1, 0]), (3, [1, 0]), (4, [0])].foldl
            (bubble (built.number 0).1) empty).ids = [1, 4] := by
  have hfacts : ((Equation.new "x/2+1".toList ['5']).toOption.map fun built ↦
      let equation := (built.number 0).1
      decide ((equation.left.ids ++ equation.right.ids).Nodup ∧
        none ∉ equation.left.ids ++ equation.right.ids ∧ equation.left.id? = some 0 ∧
          (equation.findParent? 1).bind Node.id? = some 0 ∧
            (equation.findParent? 2).bind Node.id? = some 1 ∧
            (equation.findParent? 3).bind Node.id? = some 1 ∧
              (equation.findParent? 4).bind Node.id? = some 0 ∧
              [2, 3, 4].foldl (fun ids id ↦ click equation id ids) [] = [1, 4])) = some true := by
    decide +kernel
  obtain ⟨built, hbuilt, hnodup, hnumbered, hside, hfraction, hdividend, hdivisor, hterm, hids⟩ :=
    Except.exists_ok_of_toOption hfacts
  have hleft : (built.number 0).1.Ascends 0 [] := .whole List.mem_cons_self hside
  have habove := hleft.of_findParent? hnodup hfraction
  have hclicks : ∀ reached ∈ [(2, [1, 0]), (3, [1, 0]), (4, [0])],
      (built.number 0).1.Ascends reached.1 reached.2 :=
    List.forall_mem_cons.2 ⟨habove.of_findParent? hnodup hdividend, List.forall_mem_cons.2
      ⟨habove.of_findParent? hnodup hdivisor,
        List.forall_mem_singleton.2 (hleft.of_findParent? hnodup hterm)⟩⟩
  exact ⟨built, hbuilt, hnodup, hnumbered, hclicks,
    ((ids_bubbling hnodup hnumbered).2 _ hclicks).trans hids⟩

end Selection

end EquationSteps
