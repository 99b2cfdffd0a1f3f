import Mathlib.Data.List.Basic
import EquationSteps.Proofs.Tree.Numbering

/-!
# Places in a tree

A place is what is around one node of a tree: for each group above the node its tag, and the
operands before and after the one that the node is in, the topmost group first (`Frame`).
`Node.plug` puts a node into a place, and the nodes of a tree are those that it has at some place
(`Node.Contains`).

An operation that searches for an identity works at the place where the identity is, if the place
itself does not have it: `Node.findParent?_plug`, `Node.modify?_plug`. The parent of an identity is
always found at some place (`Node.exists_plug_of_findParent?`). While no identity occurs twice, each
one is at one place only (`Node.plug_inj`).

**Why places.** Searching and changing go through the whole tree, and what is to be said about them
concerns one node. With places a tree is split at that node once, and then what is around it is the
same before and after, as it is the same list of frames. This is how an edit is seen to leave all
the rest alone, and how two searches for one identity are seen to come to the same node.

**What is not assumed.** The lemmas on searching and changing ask only that the identity is not
found outside of the node, which is weaker than that no identity occurs twice. So they apply to
trees in which some nodes have no identity yet.
-/

namespace EquationSteps

/-! ### Places -/

/-- One group above a node. -/
structure Frame where
  /-- The tag of the group. -/
  tag : Tag
  /-- The operands to the left of the one that the node is in. -/
  before : List Node
  /-- The operands to its right. -/
  after : List Node

namespace Frame

/-- The identities of a group, its one operand apart. -/
def ids (frame : Frame) : List (Option NodeId) :=
  frame.tag.id :: (frame.before ++ frame.after).flatMap Node.ids

/-- The group with the operand put in. -/
def plug (frame : Frame) (node : Node) : Node :=
  .group frame.tag (frame.before ++ node :: frame.after)

end Frame

namespace Node

/-- The tree that has the node at the place. -/
def plug (frames : List Frame) (node : Node) : Node :=
  frames.foldr Frame.plug node

/-- The topmost place has nothing around it. -/
@[simp] theorem plug_nil (node : Node) : plug [] node = node := rfl

/-- A place below a group. -/
@[simp] theorem plug_cons (frame : Frame) (frames : List Frame) (node : Node) :
    plug (frame :: frames) node =
      group frame.tag (frame.before ++ plug frames node :: frame.after) := rfl

/-- The place of a node at a place. -/
theorem plug_append (frames frames' : List Frame) (node : Node) :
    plug (frames ++ frames') node = plug frames (plug frames' node) :=
  List.foldr_append

variable {id : NodeId} {node : Node}

/-! ### The nodes of a tree -/

/-- The second node is the first one or below it. -/
def Contains (node inner : Node) : Prop :=
  ∃ frames, node = plug frames inner

/-- A tree is one of its nodes. -/
theorem contains_self (node : Node) : node.Contains node :=
  ⟨[], rfl⟩

/-- What is below an operand of a group is below the group. -/
theorem Contains.group {tag : Tag} {children : List Node} {child : Node} (hmem : child ∈ children)
    (h : child.Contains node) : (Node.group tag children).Contains node := by
  obtain ⟨frames, rfl⟩ := h
  obtain ⟨before, after, rfl⟩ := List.append_of_mem hmem
  exact ⟨⟨tag, before, after⟩ :: frames, rfl⟩

/-- The operands of a node of a tree are nodes of the tree. -/
theorem Contains.operand {parent inner : Node} (h : node.Contains parent)
    (hmem : inner ∈ parent.children) : node.Contains inner := by
  obtain ⟨frames, rfl⟩ := h
  cases parent with
  | atom tag text => cases hmem
  | group tag children =>
    obtain ⟨before, after, rfl⟩ := List.append_of_mem hmem
    exact ⟨frames ++ [⟨tag, before, after⟩], by rw [plug_append, plug_cons, plug_nil]⟩

/-! ### Identities

What is known about the identities of a tree when it is split at a node. They are those of the node
and those around it, so if none occurs twice, the two have nothing in common. -/

/-- The identity of a node is one of its tree. -/
theorem mem_ids_of_id? (h : node.id? = some id) : some id ∈ node.ids := by
  cases node with
  | atom tag text => exact List.mem_singleton.2 h.symm
  | group tag children =>
    rw [ids_group]
    exact List.mem_cons.2 (Or.inl h.symm)

/-- The identities of a tree are those of the place and those of the node there. -/
theorem ids_plug (frames : List Frame) (node : Node) :
    (plug frames node).ids.Perm (frames.flatMap Frame.ids ++ node.ids) := by
  induction frames with
  | nil => exact List.Perm.refl _
  | cons frame frames ih =>
    rw [plug_cons, ids_group, List.flatMap_cons, Frame.ids, List.cons_append, List.cons_append,
      List.flatMap_append, List.flatMap_cons, List.flatMap_append, List.append_assoc,
      List.append_assoc]
    refine List.Perm.cons _ (List.Perm.append_left _ ?_)
    refine (List.Perm.append_right _ ih).trans ?_
    exact List.perm_append_comm

/-- In a tree without repeated identities, those of a node are not around it. -/
theorem not_mem_of_nodup_plug {frames : List Frame} (h : (plug frames node).ids.Nodup) :
    node.ids.Nodup ∧ ∀ id, some id ∈ node.ids → some id ∉ frames.flatMap Frame.ids := by
  have hnodup := (ids_plug frames node).nodup_iff.1 h
  obtain ⟨-, hnode, hdisjoint⟩ := List.nodup_append.1 hnodup
  exact ⟨hnode, fun id hid hframes ↦ hdisjoint (some id) hframes (some id) hid rfl⟩

/-- A tree does not have an identity at its top that neither the place nor the node at the place
has. -/
theorem id?_plug_ne {frames : List Frame} (hframes : some id ∉ frames.flatMap Frame.ids)
    (hnode : node.id? ≠ some id) : (plug frames node).id? ≠ some id := by
  cases frames with
  | nil => exact hnode
  | cons frame frames =>
    intro h
    refine hframes (List.mem_append_left _ ?_)
    exact List.mem_cons.2 (Or.inl h.symm)

/-- A node with the identity of the topmost node is that node. -/
theorem eq_nil_of_id?_plug {frames : List Frame} (hnodup : (plug frames node).ids.Nodup)
    (hid : node.id? = some id) (htop : (plug frames node).id? = some id) : frames = [] := by
  cases frames with
  | nil => rfl
  | cons frame frames =>
    have hframes := (not_mem_of_nodup_plug hnodup).2 id (mem_ids_of_id? hid)
    have htag : frame.tag.id = some id := htop
    exact absurd (List.mem_append_left _ (List.mem_cons.2 (Or.inl htag.symm))) hframes

/-- **There is one place** in a tree for each identity, while no identity occurs twice. -/
theorem plug_inj {frames frames' : List Frame} {node' : Node}
    (hnodup : (plug frames node).ids.Nodup) (hid : node.id? = some id) (hid' : node'.id? = some id)
    (h : plug frames node = plug frames' node') :
    frames = frames' ∧ node = node' := by
  induction frames generalizing frames' with
  | nil =>
    obtain rfl := eq_nil_of_id?_plug (h ▸ hnodup) hid' (h ▸ hid)
    exact ⟨rfl, h⟩
  | cons frame frames ih =>
    have haround : (plug [frame] (plug frames node)).ids.Nodup := hnodup
    obtain ⟨hinner, hframe⟩ := not_mem_of_nodup_plug haround
    cases frames' with
    | nil =>
      have htop : (plug (frame :: frames) node).id? = some id := h ▸ hid'
      cases eq_nil_of_id?_plug hnodup hid htop
    | cons frame' frames' =>
      obtain ⟨tag, before, after⟩ := frame
      obtain ⟨tag', before', after'⟩ := frame'
      rw [plug_cons, plug_cons, group.injEq] at h
      obtain ⟨rfl, hoperands⟩ := h
      -- the operand that has the identity below it is not among the others
      have hmem' : some id ∈ (plug frames' node').ids :=
        (ids_plug frames' node').mem_iff.2 (List.mem_append_right _ (mem_ids_of_id? hid'))
      have hmem : some id ∈ (plug frames node).ids :=
        (ids_plug frames node).mem_iff.2 (List.mem_append_right _ (mem_ids_of_id? hid))
      have hbeside : plug frames' node' ∉ before ++ after := fun hother ↦
        hframe id hmem (List.mem_append_left _
          (List.mem_cons_of_mem _ (List.mem_flatMap.2 ⟨_, hother, hmem'⟩)))
      rw [List.mem_append, not_or] at hbeside
      obtain ⟨rfl, hsame, rfl⟩ := (List.append_cons_inj_of_notMem hbeside.1 hbeside.2).1 hoperands
      obtain ⟨rfl, rfl⟩ := ih hinner hsame
      exact ⟨rfl, rfl⟩

/-! ### Searching

A search goes from left to right and looks at a group before its operands. What the place does not
have cannot be found there, so the search comes to the node. -/

/-- A node has the identities of its operands among its children. -/
theorem hasChild_iff : node.hasChild id = true ↔ ∃ child ∈ node.children, child.id? = some id := by
  simp [hasChild]

/-- A group does not have an identity among its children that is not among the identities below. -/
theorem hasChild_eq_false {tag : Tag} {children : List Node}
    (h : ∀ child ∈ children, child.id? ≠ some id) : (group tag children).hasChild id = false := by
  rw [← Bool.not_eq_true, hasChild_iff]
  rintro ⟨child, hmem, hid⟩
  exact h child hmem hid

/-- An identity that is nowhere in a tree has no parent in it. -/
theorem findParent?_eq_none (h : some id ∉ node.ids) : node.findParent? id = none := by
  induction node using Node.induction with
  | atom tag text => rfl
  | group tag children ih =>
    rw [ids_group] at h
    have hchildren : ∀ child ∈ children, some id ∉ child.ids := fun child hmem hid ↦
      h (List.mem_cons_of_mem _ (List.mem_flatMap.2 ⟨child, hmem, hid⟩))
    rw [findParent?, hasChild_eq_false fun child hmem hid ↦
      hchildren child hmem (mem_ids_of_id? hid), findParentAmong?_eq_findSome?,
      if_neg Bool.false_ne_true, List.findSome?_eq_none_iff]
    exact fun child hmem ↦ ih child hmem (hchildren child hmem)

/-- The parent of an identity that is nowhere in the place is found in the node there. -/
theorem findParent?_plug {frames : List Frame} (hframes : some id ∉ frames.flatMap Frame.ids)
    (hnode : node.id? ≠ some id) :
    (plug frames node).findParent? id = node.findParent? id := by
  induction frames with
  | nil => rfl
  | cons frame frames ih =>
    rw [List.flatMap_cons, List.mem_append, not_or] at hframes
    obtain ⟨hframe, hframes⟩ := hframes
    have hothers : ∀ other ∈ frame.before ++ frame.after, some id ∉ other.ids :=
      fun other hmem hid ↦ hframe (List.mem_cons_of_mem _ (List.mem_flatMap.2 ⟨other, hmem, hid⟩))
    have hchild : (group frame.tag (frame.before ++ plug frames node :: frame.after)).hasChild id =
        false := by
      refine hasChild_eq_false fun child hmem ↦ ?_
      rw [List.mem_append, List.mem_cons] at hmem
      rcases hmem with hmem | rfl | hmem
      · exact fun hid ↦ hothers child (List.mem_append_left _ hmem) (mem_ids_of_id? hid)
      · exact id?_plug_ne hframes hnode
      · exact fun hid ↦ hothers child (List.mem_append_right _ hmem) (mem_ids_of_id? hid)
    have hbefore : ∀ other ∈ frame.before, other.findParent? id = none := fun other hmem ↦
      findParent?_eq_none (hothers other (List.mem_append_left _ hmem))
    have hafter : ∀ other ∈ frame.after, other.findParent? id = none := fun other hmem ↦
      findParent?_eq_none (hothers other (List.mem_append_right _ hmem))
    rw [plug_cons, findParent?, hchild, if_neg Bool.false_ne_true, findParentAmong?_eq_findSome?,
      List.findSome?_append, List.findSome?_eq_none_iff.2 hbefore, Option.none_or,
      List.findSome?_cons, ih hframes, List.findSome?_eq_none_iff.2 hafter]
    cases node.findParent? id <;> rfl

/-- The topmost node is the first one that a search looks at. -/
theorem findParent?_of_hasChild (h : node.hasChild id = true) :
    node.findParent? id = some node := by
  cases node with
  | atom tag text => cases h
  | group tag children => rw [findParent?, if_pos h]

/-- What is found for an identity is the tree itself, or it has a parent. -/
theorem eq_or_exists_of_find? {found : Node} (h : node.find? id = some found) :
    found = node ∨ ∃ parent, node.findParent? id = some parent := by
  induction node using Node.induction with
  | atom tag text =>
    rw [find?] at h
    split at h
    · cases h
      exact Or.inl rfl
    · cases h
  | group tag children ih =>
    rw [find?] at h
    split at h
    · cases h
      exact Or.inl rfl
    · refine Or.inr ?_
      rw [findParent?, findParentAmong?_eq_findSome?]
      split
      · exact ⟨_, rfl⟩
      · rename_i hchild
        rw [findAmong?_eq_findSome?] at h
        obtain ⟨child, hmem, hfound⟩ := List.exists_of_findSome?_eq_some h
        have hparent : ∃ parent, child.findParent? id = some parent := by
          refine (ih child hmem hfound).resolve_left ?_
          rintro rfl
          exact hchild (hasChild_iff.2 ⟨found, hmem, id?_of_find? hfound⟩)
        obtain ⟨parent, hparent⟩ := hparent
        cases hfirst : children.findSome? (findParent? id) with
        | some parent => exact ⟨parent, rfl⟩
        | none => cases hparent.symm.trans (List.findSome?_eq_none_iff.1 hfirst child hmem)

/-- What is found and has no parent is the tree itself. -/
theorem eq_of_find? {found : Node} (hnone : node.findParent? id = none)
    (h : node.find? id = some found) : found = node := by
  refine (eq_or_exists_of_find? h).resolve_right ?_
  rintro ⟨parent, hparent⟩
  cases hnone.symm.trans hparent

/-! ### Changing

Changing the node of an identity, or the parent of one. A change is a search that puts the tree
together again, so the lemmas follow those on searching. -/

section Changing

variable {f : Node → Node} {before after : List Node}

/-- The operand that has the identity is changed if no other operand has it. -/
theorem modifyAmong?_append (hbefore : ∀ other ∈ before, other.modify? id f = none)
    (hafter : ∀ other ∈ after, other.modify? id f = none) :
    modifyAmong? id f (before ++ node :: after) =
      (node.modify? id f).map fun node' ↦ before ++ node' :: after := by
  have hnone : modifyAmong? id f after = none := by
    clear hbefore
    induction after with
    | nil => rfl
    | cons other after ih =>
      obtain ⟨hother, hafter⟩ := List.forall_mem_cons.1 hafter
      rw [modifyAmong?, hother, ih hafter]
      rfl
  induction before with
  | nil =>
    rw [List.nil_append, modifyAmong?]
    cases node.modify? id f with
    | none => rw [hnone]; rfl
    | some node' => rfl
  | cons other before ih =>
    obtain ⟨hother, hbefore⟩ := List.forall_mem_cons.1 hbefore
    rw [List.cons_append, modifyAmong?, hother, ih hbefore]
    cases node.modify? id f <;> rfl

/-- Nothing is changed if no node has the identity. -/
theorem modify?_eq_none (h : some id ∉ node.ids) : node.modify? id f = none := by
  induction node using Node.induction with
  | atom tag text =>
    have htag : tag.id ≠ some id := fun hid ↦ h (List.mem_singleton.2 hid.symm)
    rw [modify?, if_neg htag]
  | group tag children ih =>
    rw [ids_group, List.mem_cons, not_or] at h
    obtain ⟨htag, hchildren⟩ := h
    have hnone : ∀ child ∈ children, child.modify? id f = none := fun child hmem ↦
      ih child hmem fun hid ↦ hchildren (List.mem_flatMap.2 ⟨child, hmem, hid⟩)
    rw [modify?, if_neg fun hid ↦ htag hid.symm]
    cases children with
    | nil => rfl
    | cons first rest =>
      obtain ⟨hfirst, hrest⟩ := List.forall_mem_cons.1 hnone
      have hamong : modifyAmong? id f ([] ++ first :: rest) = none := by
        rw [modifyAmong?_append (List.forall_mem_nil _) hrest, hfirst]
        rfl
      rw [← List.nil_append (first :: rest), hamong]
      rfl

/-- The node of an identity that is nowhere in the place is changed where it is. -/
theorem modify?_plug {frames : List Frame} (hframes : some id ∉ frames.flatMap Frame.ids) :
    (plug frames node).modify? id f = (node.modify? id f).map (plug frames) := by
  induction frames with
  | nil =>
    rw [plug_nil]
    cases node.modify? id f <;> rfl
  | cons frame frames ih =>
    rw [List.flatMap_cons, List.mem_append, not_or] at hframes
    obtain ⟨hframe, hframes⟩ := hframes
    rw [Frame.ids, List.mem_cons, not_or] at hframe
    obtain ⟨htag, hothers⟩ := hframe
    have hnone : ∀ other ∈ frame.before ++ frame.after, other.modify? id f = none :=
      fun other hmem ↦ modify?_eq_none fun hid ↦ hothers (List.mem_flatMap.2 ⟨other, hmem, hid⟩)
    rw [plug_cons, modify?, if_neg fun hid ↦ htag hid.symm,
      modifyAmong?_append (fun other hmem ↦ hnone other (List.mem_append_left _ hmem))
        (fun other hmem ↦ hnone other (List.mem_append_right _ hmem)), ih hframes,
      Option.map_map, Option.map_map]
    rfl

/-- A node that has the identity itself is the one that is changed. -/
theorem modify?_topmost (hid : node.id? = some id) : node.modify? id f = some (f node) := by
  cases node with
  | atom tag text =>
    have htag : tag.id = some id := hid
    rw [modify?, if_pos htag]
  | group tag children =>
    have htag : tag.id = some id := hid
    rw [modify?, if_pos htag]

/-- A change below a node keeps the topmost tag. -/
theorem tag_of_modify? (hid : node.id? ≠ some id) (h : node.modify? id f = some node') :
    node'.tag = node.tag := by
  cases node with
  | atom tag text =>
    have htag : tag.id ≠ some id := hid
    rw [modify?, if_neg htag] at h
    cases h
  | group tag children =>
    have htag : tag.id ≠ some id := hid
    rw [modify?, if_neg htag] at h
    obtain ⟨children', -, rfl⟩ := Option.map_eq_some_iff.1 h
    rfl

/-- The operand of an identity is changed if no operand before it has the identity. -/
theorem modify?_operand {tag : Tag} (htag : tag.id ≠ some id) (hnode : node.id? = some id)
    (hbefore : some id ∉ before.flatMap ids) :
    (group tag (before ++ node :: after)).modify? id f =
      some (group tag (before ++ f node :: after)) := by
  have hnone : ∀ other ∈ before, other.modify? id f = none := fun other hmem ↦
    modify?_eq_none fun hid ↦ hbefore (List.mem_flatMap.2 ⟨other, hmem, hid⟩)
  have hamong : modifyAmong? id f (before ++ node :: after) = some (before ++ f node :: after) := by
    clear hbefore
    induction before with
    | nil => rw [List.nil_append, modifyAmong?, modify?_topmost hnode]; rfl
    | cons other before ih =>
      obtain ⟨hother, hnone⟩ := List.forall_mem_cons.1 hnone
      rw [List.cons_append, modifyAmong?, hother, ih hnone]
      rfl
  rw [modify?, if_neg htag, hamong]
  rfl

/-- Nor is it if no node is the parent of it. -/
theorem modifyParent?_eq_none (h : node.findParent? id = none) :
    node.modifyParent? id f = none := by
  induction node using Node.induction with
  | atom tag text => rfl
  | group tag children ih =>
    rw [findParent?] at h
    split at h
    · cases h
    · rename_i hchild
      rw [findParentAmong?_eq_findSome?, List.findSome?_eq_none_iff] at h
      have hamong : modifyParentAmong? id f children = none := by
        clear hchild
        induction children with
        | nil => rfl
        | cons first rest ihRest =>
          obtain ⟨hfirst, hrest⟩ := List.forall_mem_cons.1 h
          obtain ⟨ihFirst, ih⟩ := List.forall_mem_cons.1 ih
          rw [modifyParentAmong?, ihFirst hfirst, ihRest ih hrest]
          rfl
      rw [modifyParent?, if_neg hchild, hamong]
      rfl

/-- The parent of an identity is at some place, and it is the one that is changed there. -/
theorem exists_plug_of_findParent? {parent : Node} (h : node.findParent? id = some parent) :
    ∃ frames, node = plug frames parent ∧ parent.hasChild id = true ∧
      ∀ f, node.modifyParent? id f = some (plug frames (f parent)) := by
  induction node using Node.induction with
  | atom tag text => cases h
  | group tag children ih =>
    rw [findParent?] at h
    split at h
    · rename_i hchild
      cases h
      exact ⟨[], rfl, hchild, fun f ↦ by rw [modifyParent?, if_pos hchild]; rfl⟩
    · rename_i hchild
      rw [findParentAmong?_eq_findSome?, List.findSome?_eq_some_iff] at h
      obtain ⟨before, child, after, rfl, hparent, hbefore⟩ := h
      obtain ⟨frames, hplug, hhas, hmodify⟩ := ih child (by simp) hparent
      refine ⟨⟨tag, before, after⟩ :: frames, ?_, hhas, fun f ↦ ?_⟩
      · rw [plug_cons, ← hplug]
      · have hamong : modifyParentAmong? id f (before ++ child :: after) =
            some (before ++ plug frames (f parent) :: after) := by
          clear hchild ih
          induction before with
          | nil => rw [List.nil_append, modifyParentAmong?, hmodify]; rfl
          | cons first before ihBefore =>
            obtain ⟨hfirst, hbefore⟩ := List.forall_mem_cons.1 hbefore
            rw [List.cons_append, modifyParentAmong?, modifyParent?_eq_none hfirst,
              ihBefore hbefore]
            rfl
        rw [modifyParent?, if_neg hchild, hamong]
        rfl

end Changing

end Node

end EquationSteps
