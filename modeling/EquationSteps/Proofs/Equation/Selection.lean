import EquationSteps.Proofs.Equation.Admission

/-!
# What is selected

A selection is a list of identities. The identities are resolved one at a time, by searching both
sides from their roots: the first one for its parent, and each other one for a node that has both of
them among its children. While no identity occurs twice there is only one parent to be found for
each (`Node.findParent?_eq_some_iff`), so all of these searches end at one node, and what is
selected is either one whole side or some operands of one node (`Equation.Selects`). Order and
repetitions do not matter for operands, but a whole side is to be named once
(`Equation.selectedNodes_eq_ok_iff`).

**The relation and the computation.** `Selects` says what a list of identities means without a
search: the node with a name, or the operands of a node that are named. The equivalence has two
halves with different uses. That a selection which is resolved is meant that way
(`selects_of_selectedNodes`) is used for what a replacement does; that a selection which is meant
that way is resolved (`Selects.selectedNodes_eq`) is used for what input is accepted, and for the
fact that a selection made by clicks is never rejected.

A whole side that is named twice is not resolved: the first name has no parent, and then a second
name is one too many, even the same one.
-/

namespace EquationSteps

namespace Node

variable {id a b : NodeId} {node parent : Node}

/-! ### Searching a tree

A search stops at the first node that passes its test. Without repeated identities there is at most
one such node, so it does not matter in what order the tree is searched. -/

/-- The identities of a tree are that of its topmost node and those below. -/
theorem ids_eq_cons (node : Node) : node.ids = node.id? :: node.children.flatMap ids := by
  cases node with
  | atom tag text => rfl
  | group tag children => exact ids_group tag children

/-- A child's identity is below its parent. -/
theorem mem_ids_below (h : node.hasChild id = true) : some id ∈ node.children.flatMap ids := by
  obtain ⟨child, hmem, hid⟩ := hasChild_iff.1 h
  exact List.mem_flatMap.2 ⟨child, hmem, mem_ids_of_id? hid⟩

/-- So it is in the tree of the parent. -/
theorem mem_ids_of_hasChild (h : node.hasChild id = true) : some id ∈ node.ids := by
  rw [ids_eq_cons]
  exact List.mem_cons_of_mem _ (mem_ids_below h)

/-- A node that a tree contains has no identities but those of the tree. -/
theorem Contains.ids_subset (h : node.Contains parent) : parent.ids ⊆ node.ids := by
  obtain ⟨frames, rfl⟩ := h
  exact fun id hid ↦ (ids_plug frames parent).mem_iff.2 (List.mem_append_right _ hid)

/-- The identity of a child is not the identity of its parent. -/
theorem id?_ne_of_hasChild (hnodup : node.ids.Nodup) (h : node.hasChild id = true) :
    node.id? ≠ some id := by
  rw [ids_eq_cons] at hnodup
  exact fun hid ↦ (List.nodup_cons.1 hnodup).1 (hid ▸ mem_ids_below h)

/-- **The parent that is found** for an identity is the one node that has the identity among its
children. -/
theorem findParent?_eq_some_iff (hnodup : node.ids.Nodup) :
    node.findParent? id = some parent ↔ node.Contains parent ∧ parent.hasChild id = true := by
  constructor
  · intro h
    obtain ⟨frames, hplug, hchild, -⟩ := exists_plug_of_findParent? h
    exact ⟨⟨frames, hplug⟩, hchild⟩
  · rintro ⟨⟨frames, rfl⟩, hchild⟩
    -- the identity is at the place of the parent, so the search does not stop around it
    obtain ⟨hparent, hframes⟩ := not_mem_of_nodup_plug hnodup
    rw [findParent?_plug (hframes id (mem_ids_of_hasChild hchild))
      (id?_ne_of_hasChild hparent hchild), findParent?_of_hasChild hchild]

/-- Nothing is above the topmost node. -/
theorem findParent?_topmost (hnodup : node.ids.Nodup) (hid : node.id? = some id) :
    node.findParent? id = none := by
  rw [Option.eq_none_iff_forall_ne_some]
  intro parent hparent
  obtain ⟨⟨frames, rfl⟩, hchild⟩ := (findParent?_eq_some_iff hnodup).1 hparent
  obtain ⟨hparentNodup, hframes⟩ := not_mem_of_nodup_plug hnodup
  exact id?_plug_ne (hframes id (mem_ids_of_hasChild hchild))
    (id?_ne_of_hasChild hparentNodup hchild) hid

/-- Two identities are siblings in a tree if some node has both among its children. -/
theorem areSiblings_iff : node.areSiblings a b = true ↔
    ∃ parent, node.Contains parent ∧ parent.hasChild a = true ∧ parent.hasChild b = true := by
  constructor
  · intro h
    induction node using Node.induction with
    | atom tag text => cases h
    | group tag children ih =>
      rw [areSiblings, Bool.or_eq_true, areSiblingsAmong_eq_any, List.any_eq_true] at h
      rcases h with hhere | ⟨child, hmem, hbelow⟩
      · exact ⟨_, contains_self _, Bool.and_eq_true_iff.1 hhere⟩
      · obtain ⟨parent, hparent, hchildren⟩ := ih child hmem hbelow
        exact ⟨parent, hparent.group hmem, hchildren⟩
  · rintro ⟨parent, ⟨frames, rfl⟩, ha, hb⟩
    induction frames with
    | nil =>
      cases parent with
      | atom tag text => cases ha
      | group tag children => rw [plug_nil, areSiblings, ha, hb]; rfl
    | cons frame frames ih =>
      rw [plug_cons, areSiblings, areSiblingsAmong_eq_any, Bool.or_eq_true]
      exact Or.inr (List.any_eq_true.2 ⟨_, by simp, ih⟩)

/-- The topmost node is found first. -/
theorem find?_topmost (hid : node.id? = some id) : node.find? id = some node := by
  cases node with
  | atom tag text => rw [find?, if_pos (show tag.id = some id from hid)]
  | group tag children => rw [find?, if_pos (show tag.id = some id from hid)]

/-- What is not there is not found. -/
theorem find?_eq_none (h : some id ∉ node.ids) : node.find? id = none := by
  induction node using Node.induction with
  | atom tag text => rw [find?, if_neg fun hid ↦ h (List.mem_singleton.2 hid.symm)]
  | group tag children ih =>
    rw [ids_group, List.mem_cons, not_or] at h
    rw [find?, if_neg fun hid ↦ h.1 hid.symm, findAmong?_eq_findSome?, List.findSome?_eq_none_iff]
    exact fun child hmem ↦ ih child hmem fun hid ↦ h.2 (List.mem_flatMap.2 ⟨child, hmem, hid⟩)

end Node

namespace Equation

variable {equation : Equation} {selection : List NodeId} {nodes : List Node} {id a b : NodeId}
  {parent : Node}

/-- The node is one of the two sides or below one of them. -/
def Contains (equation : Equation) (node : Node) : Prop :=
  ∃ side ∈ [equation.left, equation.right], side.Contains node

/-- What a list of identities selects: a whole side, which is named once, or operands of one node,
which are named in any order and as often as one likes. Operands are selected in the order of the
tree. -/
inductive Selects (equation : Equation) : List NodeId → List Node → Prop where
  | whole {id : NodeId} {side : Node} (hside : side ∈ [equation.left, equation.right])
      (hid : side.id? = some id) : Selects equation [id] [side]
  | operands {selection : List NodeId} {parent : Node} (hparent : equation.Contains parent)
      (hne : selection ≠ []) (hchildren : ∀ id ∈ selection, parent.hasChild id = true) :
    Selects equation selection (parent.children.filter (Node.isSelected selection))

/-! ### Searching both sides

The left side is searched first, and the right one if nothing was found. As the sides have no
identity in common, a search in the wrong one finds nothing. -/

/-- Two identities are siblings in an equation if some node of it has both among its children. -/
theorem areSiblings_iff : equation.areSiblings a b = true ↔
    ∃ parent, equation.Contains parent ∧ parent.hasChild a = true ∧ parent.hasChild b = true := by
  rw [areSiblings, Bool.or_eq_true, Node.areSiblings_iff, Node.areSiblings_iff]
  constructor
  · rintro (⟨parent, hparent, hchildren⟩ | ⟨parent, hparent, hchildren⟩)
    · exact ⟨parent, ⟨_, List.mem_cons_self, hparent⟩, hchildren⟩
    · exact ⟨parent, ⟨_, by simp, hparent⟩, hchildren⟩
  · rintro ⟨parent, ⟨side, hside, hparent⟩, hchildren⟩
    rcases List.mem_pair.1 hside with rfl | rfl
    · exact Or.inl ⟨parent, hparent, hchildren⟩
    · exact Or.inr ⟨parent, hparent, hchildren⟩

/-- What has no parent is a whole side. -/
theorem of_find? {node : Node} (hnone : equation.findParent? id = none)
    (h : equation.find? id = some node) :
    node ∈ [equation.left, equation.right] ∧ node.id? = some id := by
  rw [findParent?, Option.or_eq_none_iff] at hnone
  rw [find?, Option.or_eq_some_iff] at h
  rcases h with hleft | ⟨-, hright⟩
  · exact ⟨List.mem_pair.2 (Or.inl (Node.eq_of_find? hnone.1 hleft)), Node.id?_of_find? hleft⟩
  · exact ⟨List.mem_pair.2 (Or.inr (Node.eq_of_find? hnone.2 hright)), Node.id?_of_find? hright⟩

section Nodup

variable (hnodup : (equation.left.ids ++ equation.right.ids).Nodup)

include hnodup

/-- **The parent that is found** on either side is the one node that has the identity among its
children. -/
theorem findParent?_eq_some_iff :
    equation.findParent? id = some parent ↔ equation.Contains parent ∧
      parent.hasChild id = true := by
  obtain ⟨hleft, hright, hdisjoint⟩ := List.nodup_append.1 hnodup
  rw [findParent?, Option.or_eq_some_iff, Node.findParent?_eq_some_iff hleft,
    Node.findParent?_eq_some_iff hright]
  constructor
  · rintro (⟨hparent, hchild⟩ | ⟨-, hparent, hchild⟩)
    · exact ⟨⟨_, List.mem_cons_self, hparent⟩, hchild⟩
    · exact ⟨⟨_, by simp, hparent⟩, hchild⟩
  · rintro ⟨⟨side, hside, hparent⟩, hchild⟩
    rcases List.mem_pair.1 hside with rfl | rfl
    · exact Or.inl ⟨hparent, hchild⟩
    · -- an identity on the right is not on the left
      have hid := hparent.ids_subset (Node.mem_ids_of_hasChild hchild)
      exact Or.inr ⟨Node.findParent?_eq_none fun hleft ↦ hdisjoint _ hleft _ hid rfl,
        hparent, hchild⟩

/-- Two nodes with a common child are the same node. -/
theorem Contains.unique {other : Node} (hparent : equation.Contains parent)
    (hother : equation.Contains other) (hid : parent.hasChild id = true)
    (hid' : other.hasChild id = true) : parent = other :=
  Option.some.inj (((findParent?_eq_some_iff hnodup).2 ⟨hparent, hid⟩).symm.trans
    ((findParent?_eq_some_iff hnodup).2 ⟨hother, hid'⟩))

/-- The identity of a root is found at the root only. -/
theorem find_root {side : Node} (hside : side ∈ [equation.left, equation.right])
    (hid : side.id? = some id) :
    equation.findParent? id = none ∧ equation.find? id = some side := by
  obtain ⟨hleft, hright, hdisjoint⟩ := List.nodup_append.1 hnodup
  have hmem := Node.mem_ids_of_id? hid
  rw [findParent?, find?]
  rcases List.mem_pair.1 hside with rfl | rfl
  · rw [Node.findParent?_topmost hleft hid,
      Node.findParent?_eq_none fun hright ↦ hdisjoint _ hmem _ hright rfl, Node.find?_topmost hid]
    exact ⟨rfl, rfl⟩
  · have hother : some id ∉ equation.left.ids := fun hleft ↦ hdisjoint _ hleft _ hmem rfl
    rw [Node.findParent?_topmost hright hid, Node.findParent?_eq_none hother,
      Node.find?_eq_none hother, Node.find?_topmost hid]
    exact ⟨rfl, rfl⟩

/-! ### Resolving a selection

The parent of the first name decides which of the two cases it is. -/

/-- What a selection is resolved to is selected by it. -/
theorem selects_of_selectedNodes (h : equation.selectedNodes selection = .ok nodes) :
    equation.Selects selection nodes := by
  unfold selectedNodes at h
  split at h
  · cases h
  · rename_i first rest
    split at h
    · cases h
    · rename_i hsiblings
      split at h
      · rename_i parent hparent
        cases h
        obtain ⟨hcontains, hfirst⟩ := (findParent?_eq_some_iff hnodup).1 hparent
        refine .operands hcontains (List.cons_ne_nil _ _)
          (List.forall_mem_cons.2 ⟨hfirst, fun id hmem ↦ ?_⟩)
        -- each other identity has a common parent with the first one
        have hid : id = first ∨ equation.areSiblings first id = true := by
          by_contra hnot
          rw [not_or] at hnot
          exact hsiblings (List.any_eq_true.2 ⟨id, hmem, by simpa using hnot⟩)
        rcases hid with rfl | hid
        · exact hfirst
        · obtain ⟨other, hother, hfirst', hid⟩ := areSiblings_iff.1 hid
          rwa [hcontains.unique hnodup hother hfirst hfirst']
      · rename_i hnone
        split at h
        · rename_i hsingle
          obtain rfl := List.isEmpty_iff.1 hsingle
          split at h
          · rename_i node hnode
            cases h
            obtain ⟨hside, hid⟩ := of_find? hnone hnode
            exact .whole hside hid
          · cases h
        · cases h

/-- A selection is resolved to what it selects. -/
theorem Selects.selectedNodes_eq (h : equation.Selects selection nodes) :
    equation.selectedNodes selection = .ok nodes := by
  cases h with
  | whole hside hid =>
    obtain ⟨hparent, hfind⟩ := find_root hnodup hside hid
    simp [selectedNodes, hparent, hfind]
  | @operands _ parent hparent hne hchildren =>
    obtain ⟨first, rest, rfl⟩ := List.exists_cons_of_ne_nil hne
    obtain ⟨hfirst, hrest⟩ := List.forall_mem_cons.1 hchildren
    have hsiblings : (rest.any fun id ↦ id != first && !equation.areSiblings first id) = false := by
      refine List.any_eq_false.2 fun id hmem ↦ ?_
      rw [areSiblings_iff.2 ⟨parent, hparent, hfirst, hrest id hmem⟩]
      simp
    have hfound := (findParent?_eq_some_iff hnodup).2 ⟨hparent, hfirst⟩
    rw [selectedNodes, if_neg (Bool.eq_false_iff.1 hsiblings), hfound]
    rfl

/-- **What a selection is resolved to.** Identities are resolved exactly if they name one whole side
once, or else operands of one node. -/
theorem selectedNodes_eq_ok_iff :
    equation.selectedNodes selection = .ok nodes ↔ equation.Selects selection nodes :=
  ⟨selects_of_selectedNodes hnodup, fun h ↦ h.selectedNodes_eq hnodup⟩

end Nodup

/-- Something is selected by every selection. -/
theorem Selects.ne_nil (h : equation.Selects selection nodes) : nodes ≠ [] := by
  cases h with
  | whole => exact List.cons_ne_nil _ _
  | operands hparent hne hchildren =>
    obtain ⟨first, hfirst⟩ := List.exists_mem_of_ne_nil _ hne
    obtain ⟨child, hmem, hid⟩ := Node.hasChild_iff.1 (hchildren first hfirst)
    refine List.ne_nil_of_mem (List.mem_filter.2 ⟨hmem, ?_⟩)
    exact List.any_eq_true.2 ⟨first, hfirst, beq_iff_eq.2 hid⟩

end Equation

end EquationSteps
