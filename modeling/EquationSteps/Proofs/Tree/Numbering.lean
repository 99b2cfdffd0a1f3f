import EquationSteps.Proofs.Tree.Shape
import EquationSteps.Tree.Identity
import EquationSteps.Tree.Printer

/-!
# Numbered trees

Numbering a tree without identities issues the next identities in a row, each to one node
(`Node.number_spec`), and changes nothing else: without its identities the tree is what it was. What
does not depend on identities is carried over that way.

The identities that a tree has are in `Node.issued`, and numbering a tree of which some nodes have
identities adds new ones to these (`Node.issued_number`). Once all nodes have identities it does
nothing (`Node.number_eq_self`).

**Carrying over.** A property of trees that does not look at identities holds of a tree exactly if
it holds of the tree without them. There is a lemma of this kind for each notion that is used of
numbered trees: the shape, the family, the printed text. A statement about a numbered tree is then
one about the tree that was numbered.

**Two specifications.** `number_spec` is about trees without identities, as they are read, and gives
the identities in the order of the nodes. `issued_number` is about any tree, as it is after an edit,
and gives them up to a permutation, since the new ones stand among the old. The first is not a case
of the second.
-/

namespace EquationSteps.Node

/-! ### Trees without identities -/

/-- Identities are taken off a group and its operands. -/
@[simp] theorem anonymous_group (tag : Tag) (children : List Node) :
    (group tag children).anonymous = group { tag with id := none } (children.map anonymous) := by
  rw [anonymous, anonymousAll_eq_map]

/-- Taking off the identity keeps the sign, -/
@[simp] theorem sign_anonymous (node : Node) : node.anonymous.sign = node.sign := by
  cases node <;> rfl

/-- the mark of a root, -/
@[simp] theorem isRoot_anonymous (node : Node) : node.anonymous.isRoot = node.isRoot := by
  cases node <;> rfl

/-- and the mark of what is pending. -/
@[simp] theorem isPending_anonymous (node : Node) : node.anonymous.isPending = node.isPending := by
  cases node <;> rfl

/-- Whether a node is a leaf with a zero does not depend on identities. -/
@[simp] theorem isZeroAtom_anonymous (node : Node) :
    node.anonymous.isZeroAtom = node.isZeroAtom := by
  cases node <;> rfl

/-- The family of a group is that of its operands. -/
@[simp] theorem family?_anonymous (node : Node) : node.anonymous.family? = node.family? := by
  cases node with
  | atom tag text => rfl
  | group tag children =>
    rw [anonymous_group]
    cases children with
    | nil => rfl
    | cons first rest =>
      exact congrArg (fun sign ↦ some (Family.ofSign sign)) (sign_anonymous first)

/-- A tag without an identity is as it is without it. -/
theorem withId_none {tag : Tag} (h : tag.id.isNone = true) : { tag with id := none } = tag := by
  obtain ⟨id, sign, root, pending⟩ := tag
  cases id with
  | none => rfl
  | some id => cases h

/-- A tree without identities is anonymous. -/
theorem anonymous_eq_self {node : Node} (h : node.everyTag (fun tag ↦ tag.id.isNone) = true) :
    node.anonymous = node := by
  induction node using Node.induction with
  | atom tag text => rw [anonymous, withId_none h]
  | group tag children ih =>
    obtain ⟨hid, hchildren⟩ := everyTag_group_iff.1 h
    have hsame : children.map anonymous = children :=
      (List.map_congr_left fun child hmem ↦ ih child hmem (hchildren child hmem)).trans
        (List.map_id _)
    rw [anonymous_group, hsame, withId_none hid]

/-- Whether nodes can be operands of one group depends on their signs. -/
theorem isChain_map_anonymous (nodes : List Node) :
    isChain (nodes.map anonymous) = isChain nodes := by
  cases nodes with
  | nil => rfl
  | cons first rest =>
    have hsigns : ((fun node : Node ↦ Family.ofSign node.sign == Family.ofSign first.sign) ∘
        anonymous) = fun node ↦ Family.ofSign node.sign == Family.ofSign first.sign :=
      funext fun node ↦ by rw [Function.comp_apply, sign_anonymous]
    rw [List.map_cons, isChain, isChain, List.all_map, sign_anonymous, hsigns]

/-- A tree without its identities is regular exactly if it was. -/
theorem isRegular_anonymous (node : Node) : node.anonymous.isRegular = node.isRegular := by
  induction node using Node.induction with
  | atom tag text => rfl
  | group tag children ih =>
    refine Bool.eq_iff_iff.2 ?_
    rw [anonymous_group, isRegular_group_iff, isRegular_group_iff, isChain_map_anonymous,
      List.forall_mem_map]
    exact and_congr_right fun _ ↦ and_congr_right fun _ ↦
      forall₂_congr fun child hmem ↦ by rw [ih child hmem]

/-- And it is shaped exactly if it was. -/
theorem isShaped_anonymous (node : Node) : node.anonymous.isShaped = node.isShaped := by
  cases node with
  | atom tag text => rfl
  | group tag children =>
    refine Bool.eq_iff_iff.2 ?_
    rw [anonymous_group, isShaped_group_iff, isShaped_group_iff, isChain_map_anonymous,
      List.forall_mem_map, List.map_eq_nil_iff]
    exact and_congr_right fun _ ↦ and_congr_left fun _ ↦
      forall₂_congr fun child _ ↦ by rw [isRegular_anonymous]

/-- A group is printed in parentheses with or without identities. -/
theorem isParenthesized_anonymous (tag : Tag) (children : List Node) :
    isParenthesized { tag with id := none } (children.map anonymous) =
      isParenthesized tag children := by
  have hfamily := family?_anonymous (group tag children)
  rw [anonymous_group] at hfamily
  rw [isParenthesized, isParenthesized, hfamily]

mutual

/-- Identities are not printed. -/
theorem contentText_anonymous : ∀ node : Node, node.anonymous.contentText = node.contentText
  | .atom _ _ => rfl
  | .group tag children => by
    rw [anonymous_group, contentText, contentText, isParenthesized_anonymous,
      linksText_anonymous true children]

/-- `contentText_anonymous` on a chain of links. -/
theorem linksText_anonymous (first : Bool) :
    ∀ nodes : List Node, linksText first (nodes.map anonymous) = linksText first nodes
  | [] => rfl
  | node :: nodes => by
    rw [List.map_cons, linksText, linksText, contentText_anonymous node,
      linksText_anonymous false nodes, sign_anonymous]

end

/-- A tree without identities has the same text. -/
theorem toText_anonymous (node : Node) : node.anonymous.toText = node.toText := by
  rw [toText, toText, contentText_anonymous, sign_anonymous]

/-! ### Numbering

Numbering goes through a tree in the order in which a search does. The lemmas on a list of nodes
follow the recursion, with the next identity handed on from one node to the next. -/

/-- The identities of a group are its own and those of its operands in order. -/
@[simp] theorem ids_group (tag : Tag) (children : List Node) :
    (group tag children).ids = tag.id :: children.flatMap ids := by
  rw [ids, idsOfAll_eq_flatMap]

/-- The identities that the nodes of a tree have, in the order in which a search visits them. -/
def issued (node : Node) : List NodeId :=
  node.ids.filterMap id

/-- An identity is issued if some node has it. -/
theorem mem_issued_iff {id : NodeId} {node : Node} : id ∈ node.issued ↔ some id ∈ node.ids := by
  simp [issued]

/-- A leaf has at most one identity. -/
theorem issued_atom (tag : Tag) (text : Text) : (atom tag text).issued = tag.id.toList := by
  cases h : tag.id <;> simp [issued, ids, h]

/-- A group has its own, if any, and those of its operands. -/
theorem issued_group (tag : Tag) (children : List Node) :
    (group tag children).issued = tag.id.toList ++ children.flatMap issued := by
  have hchildren : (children.flatMap ids).filterMap id = children.flatMap issued := by
    induction children with
    | nil => rfl
    | cons child children ih =>
      rw [List.flatMap_cons, List.filterMap_append, ih, List.flatMap_cons, issued]
  rw [issued, ids_group, ← hchildren]
  cases h : tag.id <;> simp

/-- In a numbered tree the identities are all that there is. -/
theorem ids_eq_map_issued {node : Node} (h : none ∉ node.ids) :
    node.ids = node.issued.map some := by
  rw [issued]
  generalize node.ids = ids at h
  induction ids with
  | nil => rfl
  | cons id ids ih =>
    rw [List.mem_cons, not_or] at h
    cases id with
    | none => exact absurd rfl h.1
    | some issued => exact congrArg (some issued :: ·) (ih h.2)

/-- Without identities none is issued. -/
theorem issued_anonymous (node : Node) : node.anonymous.issued = [] := by
  induction node using Node.induction with
  | atom tag text => rfl
  | group tag children ih =>
    rw [anonymous_group, issued_group, List.flatMap_map]
    exact List.flatMap_eq_nil_iff.2 ih

/-- A node's content has identities of its own. -/
theorem issued_ofContent (tag : Tag) (node : Node) :
    (ofContent tag node.content).issued = tag.id.toList ++ (fresh .plus node.content).issued := by
  cases node with
  | atom _ text =>
    show (atom tag text).issued = tag.id.toList ++ (atom (.fresh .plus) text).issued
    rw [issued_atom, issued_atom]
    exact (List.append_nil _).symm
  | group _ children =>
    show (group tag children).issued = tag.id.toList ++ (group (.fresh .plus) children).issued
    rw [issued_group, issued_group]
    rfl

/-- A tag without an identity gets the next one. -/
theorem numberTag_of_isNone {tag : Tag} (h : tag.id.isNone = true) (next : NodeId) :
    numberTag next tag = ({ tag with id := some next }, next + 1) := by
  rw [numberTag, Option.isNone_iff_eq_none.1 h]

mutual

/-- A tree without identities gets the next ones in a row, and is otherwise as before. -/
theorem number_spec : ∀ (node : Node) (next : NodeId),
    node.everyTag (fun tag ↦ tag.id.isNone) = true →
      (number next node).1.anonymous = node ∧
        (number next node).1.ids = (List.range' next node.ids.length).map some ∧
          (number next node).2 = next + node.ids.length
  | .atom tag text, next, h => by
    have htag : tag.id.isNone = true := h
    rw [number, numberTag_of_isNone htag]
    exact ⟨congrArg (Node.atom · text) (withId_none htag), rfl, rfl⟩
  | .group tag children, next, h => by
    obtain ⟨htag, hchildren⟩ := everyTag_group_iff.1 h
    obtain ⟨hanonymous, hids, hnext⟩ := numberAll_spec children (next + 1) hchildren
    rw [number, numberTag_of_isNone htag]
    refine ⟨?_, ?_, ?_⟩
    · rw [anonymous_group, hanonymous]
      exact congrArg (Node.group · children) (withId_none htag)
    · rw [ids_group, hids, ids_group, List.length_cons, List.range'_succ, List.map_cons]
    · dsimp only
      rw [hnext, ids_group, List.length_cons, Nat.add_assoc, Nat.add_comm 1]

/-- `number_spec` on a list of nodes. -/
theorem numberAll_spec : ∀ (nodes : List Node) (next : NodeId),
    (∀ node ∈ nodes, node.everyTag (fun tag ↦ tag.id.isNone) = true) →
      (numberAll next nodes).1.map anonymous = nodes ∧
        (numberAll next nodes).1.flatMap ids =
          (List.range' next (nodes.flatMap ids).length).map some ∧
            (numberAll next nodes).2 = next + (nodes.flatMap ids).length
  | [], next, _ => ⟨rfl, rfl, rfl⟩
  | node :: nodes, next, h => by
    obtain ⟨hnode, hnodes⟩ := List.forall_mem_cons.1 h
    obtain ⟨hanonymous, hids, hnext⟩ := number_spec node next hnode
    rw [numberAll]
    cases hfirst : number next node with
    | mk numbered after =>
      rw [hfirst] at hanonymous hids hnext
      dsimp only at hanonymous hids hnext ⊢
      obtain ⟨hanonymousAll, hidsAll, hnextAll⟩ := numberAll_spec nodes after hnodes
      refine ⟨?_, ?_, ?_⟩
      · rw [List.map_cons, hanonymous, hanonymousAll]
      · rw [List.flatMap_cons, hids, hidsAll, hnext, List.flatMap_cons, List.length_append,
          ← List.map_append, List.range'_append_1]
      · rw [hnextAll, hnext, List.flatMap_cons, List.length_append, Nat.add_assoc]

end

/-- A tag that has an identity keeps it, and none is used up. -/
theorem numberTag_of_eq_some {tag : Tag} {id : NodeId} (h : tag.id = some id) (next : NodeId) :
    numberTag next tag = (tag, next) := by
  rw [numberTag, h]

mutual

/-- Numbering keeps the identities that there are, and issues the next ones in a row to the other
nodes. -/
theorem issued_number : ∀ (node : Node) (next : NodeId),
    (number next node).1.anonymous = node.anonymous ∧ none ∉ (number next node).1.ids ∧
      (number next node).1.issued.Perm (node.issued ++ List.range' next (node.ids.count none)) ∧
        (number next node).2 = next + node.ids.count none
  | .atom tag text, next => by
    cases hid : tag.id with
    | none =>
      rw [number, numberTag_of_isNone (Option.isNone_iff_eq_none.2 hid), issued_atom,
        issued_atom, hid]
      exact ⟨rfl, by simp [ids], by simp [ids, hid], by simp [ids, hid]⟩
    | some id =>
      rw [number, numberTag_of_eq_some hid, issued_atom, hid]
      exact ⟨rfl, by simp [ids, hid], by simp [ids, hid], by simp [ids, hid]⟩
  | .group tag children, next => by
    cases hid : tag.id with
    | none =>
      obtain ⟨hanonymous, hnone, hissued, hnext⟩ := issued_numberAll children (next + 1)
      rw [number, numberTag_of_isNone (Option.isNone_iff_eq_none.2 hid), issued_group, issued_group,
        ids_group, ids_group, hid, List.count_cons_self]
      dsimp only
      refine ⟨?_, ?_, ?_, ?_⟩
      · rw [anonymous_group, hanonymous, anonymous_group]
      · rw [List.mem_cons, not_or]
        exact ⟨nofun, hnone⟩
      · rw [List.range'_succ]
        exact (hissued.cons next).trans List.perm_middle.symm
      · rw [hnext, Nat.add_right_comm, Nat.add_assoc]
    | some id =>
      obtain ⟨hanonymous, hnone, hissued, hnext⟩ := issued_numberAll children next
      have hcount : (some id :: children.flatMap ids).count none =
          (children.flatMap ids).count none :=
        List.count_cons_of_ne (Option.some_ne_none id)
      rw [number, numberTag_of_eq_some hid, issued_group, issued_group, ids_group,
        ids_group, hid, hcount]
      dsimp only
      refine ⟨?_, ?_, hissued.cons id, hnext⟩
      · rw [anonymous_group, hanonymous, anonymous_group]
      · rw [List.mem_cons, not_or]
        exact ⟨nofun, hnone⟩

/-- `issued_number` on a list of nodes. -/
theorem issued_numberAll : ∀ (nodes : List Node) (next : NodeId),
    (numberAll next nodes).1.map anonymous = nodes.map anonymous ∧
      none ∉ (numberAll next nodes).1.flatMap ids ∧
        ((numberAll next nodes).1.flatMap issued).Perm
          (nodes.flatMap issued ++ List.range' next ((nodes.flatMap ids).count none)) ∧
          (numberAll next nodes).2 = next + (nodes.flatMap ids).count none
  | [], next => ⟨rfl, List.not_mem_nil, List.Perm.refl _, rfl⟩
  | node :: nodes, next => by
    obtain ⟨hanonymous, hnone, hissued, hnext⟩ := issued_number node next
    rw [numberAll]
    cases hfirst : number next node with
    | mk numbered after =>
      rw [hfirst] at hanonymous hnone hissued hnext
      dsimp only at hanonymous hnone hissued hnext ⊢
      obtain ⟨hanonymousAll, hnoneAll, hissuedAll, hnextAll⟩ := issued_numberAll nodes after
      refine ⟨?_, ?_, ?_, ?_⟩
      · rw [List.map_cons, hanonymous, hanonymousAll, List.map_cons]
      · rw [List.flatMap_cons, List.mem_append, not_or]
        exact ⟨hnone, hnoneAll⟩
      · rw [List.flatMap_cons, List.flatMap_cons, List.flatMap_cons, List.count_append,
          ← List.range'_append_1, ← hnext]
        refine (hissued.append hissuedAll).trans ?_
        rw [List.append_assoc, List.append_assoc]
        refine List.Perm.append_left _ ?_
        rw [← List.append_assoc, ← List.append_assoc]
        exact List.perm_append_comm.append_right _
      · rw [hnextAll, hnext, List.flatMap_cons, List.count_append, Nat.add_assoc]

end

mutual

/-- In a tree that is numbered there is nothing to number. -/
theorem number_eq_self :
    ∀ (node : Node) (next : NodeId), none ∉ node.ids → number next node = (node, next)
  | .atom tag text, next, h => by
    obtain ⟨id, hid⟩ := Option.ne_none_iff_exists'.1 fun hnone ↦ h (List.mem_singleton.2 hnone.symm)
    rw [number, numberTag_of_eq_some hid]
  | .group tag children, next, h => by
    rw [ids_group, List.mem_cons, not_or] at h
    obtain ⟨id, hid⟩ := Option.ne_none_iff_exists'.1 fun hnone ↦ h.1 hnone.symm
    rw [number, numberTag_of_eq_some hid]
    dsimp only
    rw [numberAll_eq_self children next h.2]

/-- `number_eq_self` on a list of nodes. -/
theorem numberAll_eq_self : ∀ (nodes : List Node) (next : NodeId),
    none ∉ nodes.flatMap ids → numberAll next nodes = (nodes, next)
  | [], _, _ => rfl
  | node :: nodes, next, h => by
    rw [List.flatMap_cons, List.mem_append, not_or] at h
    rw [numberAll, number_eq_self node next h.1]
    dsimp only
    rw [numberAll_eq_self nodes next h.2]

end

/-- Numbering changes no sign, so the family stays as it is. -/
@[simp] theorem family?_number (node : Node) (next : NodeId) :
    (number next node).1.family? = node.family? := by
  rw [← family?_anonymous, (issued_number node next).1, family?_anonymous]

end EquationSteps.Node
