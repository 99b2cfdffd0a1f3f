import EquationSteps.Proofs.Canonical.Identity
import EquationSteps.Proofs.Equation.Slot

/-!
# Putting a replacement in place

Replacing operands searches for each of them by its identity. Where identities are not repeated, all
of these searches end at the same group: an operation on a node there is the operation on the
equation (`Equation.IsReached`), on the left side as well as on the right one. What is put in has no
identities of its own (`Node.issued_takeOver`), so no substitution gets in the way of the next one,
and one after the other they are what `Node.replaced` says (`Equation.putInPlace_operands`).

**From lists of identities to lists of operands.** The loop goes through the identities of the
selected nodes and searches the equation for each of them, and the equation changes with every turn.
The induction is on the operands that are still to come, with those that are done before them
(`substitute_toFiller`). It needs that an identity of an operand to come is not among those done,
which holds as identities are not repeated and as substituting brings none in.

**Reaching a place** is stated for any function from nodes to equations, so that left and right are
treated once. `IsReached` asks two things of it for an identity: changing the node with that
identity in the equation is changing it at the place, and its parent in the equation is its parent
there. Both hold when the identity occurs neither in the groups above the place nor on the other
side (`isReached_left`, `isReached_right`).

What is left to do after the substitutions is to normalize (`Equation.conclude`), so each of the
main lemmas gives the equation to which that is applied.
-/

namespace EquationSteps

open Node

variable {id : NodeId} {selection : List NodeId} {filler : Sign}
  {expression node : Node} {tag : Tag} {before after done : List Node} {frames : List Frame}

namespace Node

/-! ### Identities of what is put in

Nothing that is put in could be found in the place of a node that is still to be searched for. -/

/-- A node that takes over an expression gets a copy of it, and has no identity but its own. -/
theorem issued_takeOver (expression node : Node) :
    (takeOver expression node).issued = node.id?.toList := by
  have hcontent : (fresh .plus expression.anonymous.content).issued = [] := by
    have hissued := issued_anonymous expression
    rw [issued_eq, List.append_eq_nil_iff] at hissued
    exact hissued.2
  have hown : ∀ {content : Content} (node : Node), (fresh .plus content).issued = [] →
      (node.withContent content).issued = node.id?.toList := fun node hnone ↦ by
    rw [issued_withContent, hnone, List.append_nil]
  unfold takeOver
  split
  · refine hown node ?_
    rw [issued_fresh_group, List.flatMap_singleton, withPending, issued_mapTag rfl,
      issued_anonymous]
  · split
    · rw [hown _ hcontent, id?, withSign, tag_mapTag]
      rfl
    · refine hown node ?_
      unfold asOperand
      split
      · rw [branch, content, issued_fresh_group, List.flatMap_singleton, issued_fresh, hcontent]
      · rw [fresh, fresh, content_ofContent]
        exact hcontent

/-- The only identity in a node that took over the expression is its own. -/
theorem id?_of_mem_ids_takeOver (h : some id ∈ ((takeOver expression node).withPending true).ids) :
    node.id? = some id := by
  rwa [← mem_issued_iff, withPending, issued_mapTag rfl, issued_takeOver, Option.mem_toList] at h

/-- A node that becomes a zero has no identity that it did not have. It keeps its own and loses
those below it. -/
theorem mem_ids_of_mem_ids_marked (h : some id ∈ (node.marked selection filler).ids) :
    some id ∈ node.ids := by
  cases hselected : node.isSelected selection with
  | true =>
    rw [marked, if_pos hselected, toFiller_withPending] at h
    have hid : node.id? = some id := (List.mem_singleton.1 h).symm
    exact mem_ids_of_id? hid
  | false =>
    rw [marked_of_not_selected hselected] at h
    exact h

/-- A selected node has an identity, and it is one of the selected ones. -/
theorem exists_id_of_isSelected (h : node.isSelected selection = true) :
    ∃ id ∈ selection, node.id? = some id := by
  obtain ⟨id, hmem, hid⟩ := List.any_eq_true.1 h
  exact ⟨id, hmem, beq_iff_eq.1 hid⟩

end Node

namespace Equation

variable {equation : Equation} {outer : Node → Equation}

/-! ### Reaching a place

From the equation to a place in it. -/

/-- The node of an identity is found at a place of an equation, if it is there at all. -/
structure IsReached (id : NodeId) (outer : Node → Equation) : Prop where
  /-- Changing the node with the identity in the equation is changing it at the place. -/
  modify : ∀ (node : Node) (f : Node → Node),
    (outer node).modify? id f = (node.modify? id f).map outer
  /-- The parent of the identity in the equation is its parent at the place. -/
  parent : ∀ node : Node, node.id? ≠ some id → (outer node).findParent? id = node.findParent? id

/-- A place on the left is reached by an identity that is not above it and not on the right. The
search looks at the left side first, so the right side matters only where nothing is found at the
place. -/
theorem isReached_left (hframes : some id ∉ frames.flatMap Frame.ids)
    (hright : some id ∉ equation.right.ids) :
    IsReached id fun node ↦ { equation with left := plug frames node } where
  modify node f := by
    rw [modify?, modify?_plug hframes]
    cases node.modify? id f with
    | some node' => rfl
    | none =>
      show (equation.right.modify? id f).map _ = none
      rw [modify?_eq_none hright]
      rfl
  parent node hnode := by
    rw [findParent?, findParent?_plug hframes hnode, findParent?_eq_none hright, Option.or_none]

/-- And one on the right by an identity that is not above it and not on the left. -/
theorem isReached_right (hframes : some id ∉ frames.flatMap Frame.ids)
    (hleft : some id ∉ equation.left.ids) :
    IsReached id fun node ↦ { equation with right := plug frames node } where
  modify node f := by
    rw [modify?, modify?_eq_none hleft, modify?_plug hframes, Option.map_map]
    rfl
  parent node hnode := by
    rw [findParent?, findParent?_eq_none hleft, findParent?_plug hframes hnode, Option.none_or]

section Nodup

variable (hnodup : (equation.left.ids ++ equation.right.ids).Nodup)

include hnodup

/-- While no identity occurs twice, what is at a place on the left is reached there. -/
theorem reached_left (hplug : equation.left = plug frames node) :
    node.ids.Nodup ∧
      ∀ id, some id ∈ node.ids → IsReached id fun node ↦
        { equation with left := plug frames node } := by
  obtain ⟨hleft, -, hdisjoint⟩ := List.nodup_append.1 hnodup
  rw [hplug] at hleft hdisjoint
  obtain ⟨hnode, hframes⟩ := not_mem_of_nodup_plug hleft
  refine ⟨hnode, fun id hid ↦ isReached_left (hframes id hid) fun hright ↦ ?_⟩
  exact hdisjoint _ ((ids_plug frames node).mem_iff.2 (List.mem_append_right _ hid)) _ hright rfl

/-- And so is what is at a place on the right. -/
theorem reached_right (hplug : equation.right = plug frames node) :
    node.ids.Nodup ∧
      ∀ id, some id ∈ node.ids → IsReached id fun node ↦
        { equation with right := plug frames node } := by
  obtain ⟨-, hright, hdisjoint⟩ := List.nodup_append.1 hnodup
  rw [hplug] at hright hdisjoint
  obtain ⟨hnode, hframes⟩ := not_mem_of_nodup_plug hright
  refine ⟨hnode, fun id hid ↦ isReached_right (hframes id hid) fun hleft ↦ ?_⟩
  exact hdisjoint _ hleft _ ((ids_plug frames node).mem_iff.2 (List.mem_append_right _ hid)) rfl

end Nodup

/-! ### Substituting one node after the other

The loop over identities as a map over operands. -/

/-- A single substitution that finds its node succeeds. The node is marked as pending. -/
theorem substitute_singleton {f : Node → Node} {equation' : Equation}
    (h : (equation.modify? id fun node ↦ (f node).withPending true) = some equation') :
    substitute f [id] equation = (.ok (), equation') := by
  rw [substitute, h]
  rfl

/-- The selected ones of the operands become zeros. `done` are the operands before them, which have
had their turn. The induction is on the operands that follow, and moves them over one by one. -/
theorem substitute_toFiller
    (houter : ∀ id, some id ∈ after.flatMap ids → IsReached id outer)
    (hnodup : (tag.id :: after.flatMap ids).Nodup)
    (hdone : ∀ id, some id ∈ after.flatMap ids → some id ∉ done.flatMap ids) :
    substitute (toFiller filler) ((after.filter (isSelected selection)).filterMap id?)
        (outer (group tag (done ++ after))) =
      (.ok (), outer (group tag (done ++ after.map (marked selection filler)))) := by
  induction after generalizing done with
  | nil => rfl
  | cons other after ih =>
    rw [List.flatMap_cons] at houter hnodup hdone
    obtain ⟨htag, hnodup⟩ := List.nodup_cons.1 hnodup
    obtain ⟨-, hnodupAfter, hdisjoint⟩ := List.nodup_append.1 hnodup
    -- the operands that are done with now have no identity of the others
    have hrest := @ih (done ++ [other.marked selection filler])
      (fun id hmem ↦ houter id (List.mem_append_right _ hmem))
      (List.nodup_cons.2 ⟨fun hmem ↦ htag (List.mem_append_right _ hmem), hnodupAfter⟩)
      fun id hmem hmemDone ↦ by
        rw [List.flatMap_append, List.mem_append, List.flatMap_singleton] at hmemDone
        rcases hmemDone with hmemDone | hmemDone
        · exact hdone id (List.mem_append_right _ hmem) hmemDone
        · exact hdisjoint (some id) (mem_ids_of_mem_ids_marked hmemDone) (some id) hmem rfl
    rw [List.append_assoc, List.append_assoc, List.singleton_append, List.singleton_append] at hrest
    rw [List.map_cons, ← hrest]
    cases hselected : other.isSelected selection with
    | true =>
      obtain ⟨id, -, hid⟩ := exists_id_of_isSelected hselected
      have hmem := List.mem_append_left (after.flatMap ids) (mem_ids_of_id? hid)
      have htagId : tag.id ≠ some id := fun h ↦ htag (h ▸ hmem)
      have hmodify : (outer (group tag (done ++ other :: after))).modify? id
          (fun node ↦ (node.toFiller filler).withPending true) =
            some
              (outer (group tag (done ++ (other.toFiller filler).withPending true :: after))) := by
        rw [(houter id hmem).modify, modify?_operand htagId hid (hdone id hmem)]
        rfl
      rw [List.filter_cons_of_pos hselected, List.filterMap_cons_some hid, substitute,
        hmodify, marked, if_pos hselected]
    | false =>
      rw [List.filter_cons_of_neg (by rw [hselected]; exact Bool.false_ne_true),
        marked_of_not_selected hselected]

/-! ### Concluding with a normalization

Both kinds of replacement, of operands and of a whole side, up to the normalization at their end. -/

/-- The outcome of a replacement that is in place: what is left to do is to normalize the
equation. -/
def conclude (equation : Equation) : Except (List InputError) Unit × Equation :=
  (equation.normalize.1.mapError fun cause ↦ [.tree cause], equation.normalize.2)

/-- A replacement in place succeeds if normalizing does, and then the equation is the normalized
one. -/
theorem conclude_eq_ok_iff {changed : Equation} :
    changed.conclude = (.ok (), equation) ↔ changed.normalize = (.ok (), equation) := by
  rw [conclude]
  obtain ⟨result, normalized⟩ := changed.normalize
  cases result with
  | ok _ =>
    rw [Except.mapError, Prod.mk.injEq, Prod.mk.injEq]
    exact and_congr_left fun _ ↦ iff_of_true rfl rfl
  | error cause => exact ⟨fun h ↦ (by cases h), fun h ↦ (by cases h)⟩

/-- If both substitutions succeed, the replacement is concluded. -/
theorem putInPlace_eq_conclude {first : NodeId} {rest : List NodeId} {filler : Sign}
    {taken filled : Equation}
    (hfiller : ((equation.findParent? first).bind Node.family?).elim .plus
      Family.defaultSign = filler)
    (hfirst : substitute (takeOver expression) [first] equation = (.ok (), taken))
    (hrest : substitute (toFiller filler) rest taken = (.ok (), filled)) :
    putInPlace expression (first :: rest) equation = filled.conclude := by
  rw [putInPlace, hfiller, hfirst]
  dsimp only
  rw [hrest]
  dsimp only
  rw [conclude]
  split
  · rename_i hnormalize
    rw [hnormalize]
    rfl
  · rename_i hnormalize
    rw [hnormalize]
    rfl

section Operands

variable (houter : ∀ id, some id ∈ (before ++ node :: after).flatMap ids → IsReached id outer)
  (hnodup : (group tag (before ++ node :: after)).ids.Nodup)
  (hbefore : ∀ other ∈ before, other.isSelected selection = false)
  (hnode : node.isSelected selection = true)

include houter hnodup hbefore hnode

/-- **Putting an expression in the place of operands** of one group. The selected ones are given in
the order in which they stand; the first of them is `node`, and it takes over the expression, and
the others become zeros. -/
theorem putInPlace_operands {family : Family}
    (hfamily : (group tag (before ++ node :: after)).family? = some family) :
    putInPlace expression
      (((before ++ node :: after).filter (isSelected selection)).filterMap id?)
      (outer (group tag (before ++ node :: after))) =
        (outer (group tag
          (replaced selection family.defaultSign expression before node after))).conclude := by
  obtain ⟨id, -, hid⟩ := exists_id_of_isSelected hnode
  rw [ids_group, List.flatMap_append, List.flatMap_cons] at hnodup
  rw [List.flatMap_append, List.flatMap_cons] at houter
  obtain ⟨htag, hnodup⟩ := List.nodup_cons.1 hnodup
  obtain ⟨-, hnodupRest, hdisjoint⟩ := List.nodup_append.1 hnodup
  obtain ⟨-, hnodupAfter, hdisjointAfter⟩ := List.nodup_append.1 hnodupRest
  have hmem : some id ∈ before.flatMap ids ++ (node.ids ++ after.flatMap ids) :=
    List.mem_append_right _ (List.mem_append_left _ (mem_ids_of_id? hid))
  have hafter : ∀ id, some id ∈ after.flatMap ids →
      some id ∈ before.flatMap ids ++ (node.ids ++ after.flatMap ids) := fun id hmem ↦
    List.mem_append_right _ (List.mem_append_right _ hmem)
  have htagId : tag.id ≠ some id := fun h ↦ htag (h ▸ hmem)
  -- the first selected operand is found: its identity is not in front of it
  have hfirst : (outer (group tag (before ++ node :: after))).modify? id
      (fun node ↦ (takeOver expression node).withPending true) =
        some
          (outer (group tag (before ++ (takeOver expression node).withPending true :: after))) := by
    have hnotBefore : some id ∉ before.flatMap ids := fun hbefore ↦
      hdisjoint (some id) hbefore (some id) (List.mem_append_left _ (mem_ids_of_id? hid)) rfl
    rw [(houter id hmem).modify, modify?_operand htagId hid hnotBefore]
    rfl
  -- the others are found, as they are not among the operands that are done
  have hrest := @substitute_toFiller selection family.defaultSign tag after
    (before ++ [(takeOver expression node).withPending true]) outer
    (fun id hmem ↦ houter id (hafter id hmem))
    (List.nodup_cons.2 ⟨fun hmem ↦ htag (List.mem_append_right _ (List.mem_append_right _ hmem)),
      hnodupAfter⟩)
    fun id hmem hmemDone ↦ by
      rw [List.flatMap_append, List.mem_append, List.flatMap_singleton] at hmemDone
      rcases hmemDone with hmemDone | hmemDone
      · exact hdisjoint (some id) hmemDone (some id) (List.mem_append_right _ hmem) rfl
      · have hid := id?_of_mem_ids_takeOver hmemDone
        exact hdisjointAfter (some id) (mem_ids_of_id? hid) (some id) hmem rfl
  rw [List.append_assoc, List.append_assoc, List.singleton_append, List.singleton_append] at hrest
  -- the sign of the zeros is looked up in the equation as it was
  have hparent : (outer (group tag (before ++ node :: after))).findParent? id =
      some (group tag (before ++ node :: after)) := by
    have hhas : (group tag (before ++ node :: after)).hasChild id = true :=
      hasChild_iff.2 ⟨node, List.mem_append_cons_self, hid⟩
    rw [(houter id hmem).parent (group tag (before ++ node :: after)) htagId,
      findParent?_of_hasChild hhas]
  rw [filter_isSelected hbefore hnode, List.filterMap_cons_some hid]
  refine putInPlace_eq_conclude ?_ (substitute_singleton hfirst) hrest
  rw [hparent, Option.bind_some, hfamily, Option.elim_some]

end Operands

/-- One of the selected operands is the first of them, and it is the one that takes over the
expression. -/
theorem exists_putInPlace_operands {parent : Node}
    (houter : ∀ id, some id ∈ parent.ids → IsReached id outer) (hnodup : parent.ids.Nodup)
    (hne : parent.children.filter (isSelected selection) ≠ []) (expression : Node) :
    ∃ tag before node after family, parent = group tag (before ++ node :: after) ∧
      parent.family? = some family ∧ (∀ other ∈ before, other.isSelected selection = false) ∧
        node.isSelected selection = true ∧
          putInPlace expression ((parent.children.filter (isSelected selection)).filterMap id?)
            (outer parent) = (outer (group tag
              (replaced selection family.defaultSign expression before node after))).conclude := by
  obtain ⟨first, hfirst⟩ := List.exists_mem_of_ne_nil _ hne
  obtain ⟨hmem, hselected⟩ := List.mem_filter.1 hfirst
  obtain ⟨tag, children, rfl⟩ : ∃ tag children, parent = group tag children := by
    cases parent with
    | atom tag text => exact absurd hmem List.not_mem_nil
    | group tag children => exact ⟨tag, children, rfl⟩
  rw [Node.children] at hmem
  obtain ⟨node, hfind⟩ : ∃ node, children.find? (isSelected selection) = some node :=
    Option.isSome_iff_exists.1 (List.find?_isSome.2 ⟨first, hmem, hselected⟩)
  obtain ⟨hnode, before, after, rfl, hnone⟩ := List.find?_eq_some_iff_append.1 hfind
  have hbefore : ∀ other ∈ before, other.isSelected selection = false := fun other hmem ↦ by
    simpa using hnone other hmem
  obtain ⟨family, hfamily⟩ : ∃ family,
      (group tag (before ++ node :: after)).family? = some family := by
    cases before with
    | nil => exact ⟨_, rfl⟩
    | cons => exact ⟨_, rfl⟩
  have hreached : ∀ id, some id ∈ (before ++ node :: after).flatMap ids → IsReached id outer :=
    fun id hid ↦ houter id (by
      rw [ids_group]
      exact List.mem_cons_of_mem _ hid)
  exact ⟨tag, before, node, after, family, rfl, hfamily, hbefore, hnode,
    putInPlace_operands hreached hnodup hbefore hnode hfamily⟩

/-- Putting an expression in the place of a whole side. There is no parent to take a family from,
and no other node to become a zero. -/
theorem putInPlace_whole {side : Node} (houter : IsReached id outer) (hid : side.id? = some id) :
    putInPlace expression [id] (outer side) =
      (outer ((takeOver expression side).withPending true)).conclude := by
  have hfirst : (outer side).modify? id (fun node ↦ (takeOver expression node).withPending true) =
      some (outer ((takeOver expression side).withPending true)) := by
    rw [houter.modify, modify?_topmost hid]
    rfl
  exact putInPlace_eq_conclude rfl (substitute_singleton hfirst) rfl

end Equation

end EquationSteps
