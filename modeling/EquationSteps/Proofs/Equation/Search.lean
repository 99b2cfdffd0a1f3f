import EquationSteps.Proofs.Equation.Selection

/-!
# Searches by identity agree

An equation is searched for a node, for the parent of a node and for two siblings, and a node or a
parent is searched for again when it is changed in place. Each of these searches walks down from the
roots on its own, the left side first, and stops at the first node that passes its test.

While no identity occurs twice, there is one place in the equation for each identity
(`Equation.IsAt.unique`), so there is nothing for two searches to disagree about: a search finds
what is at that place (`Equation.find?_eq_some_iff`, `Equation.findParent?_eq_some_iff`), and a
change is made there and leaves the rest of the equation as it is (`Equation.IsAt.modify?`,
`Node.modifyParent?_plug`).

**Places, and not paths of positions.** A place is a side and the groups around a node, from the
outside inwards, each with the operands before and after. To have a node at a place is an equation
between trees (`IsAt`), and to change it there is to put another node into the same groups (`put`).
So that nothing else changes need not be said: the rest of the tree is literally the same.

**What the condition on identities is for.** Without it the searches still return something, but the
first node with an identity need not be the one whose parent is found, since the two walks ask
different questions of the nodes on the way. Equations that were built, edited and copied satisfy
the condition, as is shown where their identities are counted.

`SearchesAgree` puts together all that is claimed of the searches, one field for each claim.
-/

namespace EquationSteps

open Node

namespace Node

variable {id : NodeId} {node inner parent : Node} {f : Node → Node}

/-- Each identity of a tree is the one of its topmost node, or a node has it among its children. -/
theorem id?_or_hasChild_of_mem_ids (h : some id ∈ node.ids) :
    node.id? = some id ∨ ∃ parent, node.Contains parent ∧ parent.hasChild id = true := by
  induction node using Node.induction with
  | atom tag text => exact Or.inl (List.mem_singleton.1 h).symm
  | group tag children ih =>
    rw [ids_group] at h
    rcases List.mem_cons.1 h with hid | hbelow
    · exact Or.inl hid.symm
    · obtain ⟨child, hmem, hid⟩ := List.mem_flatMap.1 hbelow
      right
      rcases ih child hmem hid with htop | ⟨parent, hparent, hchild⟩
      · exact ⟨_, contains_self _, hasChild_iff.2 ⟨child, hmem, htop⟩⟩
      · exact ⟨parent, hparent.group hmem, hchild⟩

/-- A child that is asked for by its identity is a node of the tree. -/
theorem Contains.exists_child (h : node.Contains parent) (hchild : parent.hasChild id = true) :
    ∃ child, node.Contains child ∧ child.id? = some id := by
  obtain ⟨child, hmem, hid⟩ := hasChild_iff.1 hchild
  exact ⟨child, h.operand hmem, hid⟩

/-- Each identity of a tree belongs to a node of it. -/
theorem exists_contains_of_mem_ids (h : some id ∈ node.ids) :
    ∃ inner, node.Contains inner ∧ inner.id? = some id := by
  rcases id?_or_hasChild_of_mem_ids h with htop | ⟨parent, hparent, hchild⟩
  · exact ⟨node, contains_self node, htop⟩
  · exact hparent.exists_child hchild

/-- While no identity occurs twice, a node is found by its identity wherever it is. -/
theorem find?_of_contains (hnodup : node.ids.Nodup) (h : node.Contains inner)
    (hid : inner.id? = some id) : node.find? id = some inner := by
  obtain ⟨frames, rfl⟩ := h
  have hframes := (not_mem_of_nodup_plug hnodup).2 id (mem_ids_of_id? hid)
  clear hnodup
  induction frames with
  | nil => exact find?_topmost hid
  | cons frame frames ih =>
    rw [List.flatMap_cons, List.mem_append, not_or, Frame.ids, List.mem_cons, not_or] at hframes
    obtain ⟨⟨htag, hbeside⟩, hframes⟩ := hframes
    have hbefore : frame.before.findSome? (find? id) = none := by
      rw [List.findSome?_eq_none_iff]
      exact fun other hmem ↦ find?_eq_none fun hother ↦
        hbeside (List.mem_flatMap.2 ⟨other, List.mem_append_left _ hmem, hother⟩)
    rw [plug_cons, find?, if_neg fun hsame ↦ htag hsame.symm, findAmong?_eq_findSome?,
      List.findSome?_append, hbefore, List.findSome?_cons, ih hframes]
    rfl

/-- What is found is a node of the tree. -/
theorem contains_of_find? (h : node.find? id = some inner) : node.Contains inner := by
  induction node using Node.induction with
  | atom tag text =>
    rw [find?] at h
    split at h
    · cases h
      exact contains_self _
    · cases h
  | group tag children ih =>
    rw [find?] at h
    split at h
    · cases h
      exact contains_self _
    · rw [findAmong?_eq_findSome?] at h
      obtain ⟨child, hmem, hchild⟩ := List.exists_of_findSome?_eq_some h
      exact (ih child hmem hchild).group hmem

/-- The parent of an identity is changed at its place. -/
theorem modifyParent?_plug {frames : List Frame} (hnodup : (plug frames parent).ids.Nodup)
    (hchild : parent.hasChild id = true) :
    (plug frames parent).modifyParent? id f = some (plug frames (f parent)) := by
  have hfound : (plug frames parent).findParent? id = some parent :=
    (findParent?_eq_some_iff hnodup).2 ⟨⟨frames, rfl⟩, hchild⟩
  obtain ⟨frames', hplug, -, hmodify⟩ := exists_plug_of_findParent? hfound
  obtain ⟨child, hmem, hid⟩ := hasChild_iff.1 hchild
  -- the place of the child is the place of the parent and the parent's operands around the child
  obtain ⟨tag, before, after, rfl⟩ : ∃ tag before after, parent =
    group tag (before ++ child :: after) := by
    cases parent with
    | atom tag text => cases hmem
    | group tag children =>
      obtain ⟨before, after, rfl⟩ := List.append_of_mem hmem
      exact ⟨tag, before, after, rfl⟩
  have hbelow : ∀ frames, plug (frames ++ [⟨tag, before, after⟩]) child =
      plug frames (group tag (before ++ child :: after)) := fun frames ↦ plug_append _ _ _
  rw [← hbelow] at hnodup
  obtain ⟨hsame, -⟩ :=
    plug_inj hnodup hid hid ((hbelow frames).trans (hplug.trans (hbelow frames').symm))
  rw [hmodify, List.append_cancel_right hsame]

end Node

/-- A place in an equation: on which side it is, and its place there. -/
inductive Place where
  | onLeft (frames : List Frame)
  | onRight (frames : List Frame)

namespace Equation

variable {equation : Equation} {place place' : Place} {id a b : NodeId}
  {node node' inner parent : Node} {f : Node → Node}

/-- The equation with the node at the place. Outside of the place's own side nothing changes. -/
def put (equation : Equation) : Place → Node → Equation
  | .onLeft frames, node => { equation with left := plug frames node }
  | .onRight frames, node => { equation with right := plug frames node }

/-- The node is at the place: it is what the equation has there. -/
def IsAt (equation : Equation) (place : Place) (node : Node) : Prop :=
  equation.put place node = equation

/-- The identity is that of a node below a side, and not that of a side itself. -/
def IsInner (equation : Equation) (id : NodeId) : Prop :=
  (∃ place node, equation.IsAt place node ∧ node.id? = some id) ∧
    equation.left.id? ≠ some id ∧ equation.right.id? ≠ some id

/-! ### The nodes of an equation

A node of the equation is one that some place holds, on the left side or on the right. -/

/-- A node is at a place on the left if the left side consists of the groups and the node. -/
theorem isAt_onLeft_iff {frames : List Frame} :
    equation.IsAt (.onLeft frames) node ↔ equation.left = plug frames node := by
  refine ⟨fun h ↦ (congrArg left h).symm, fun h ↦ ?_⟩
  rw [IsAt, put, ← h]

/-- And so it is on the right. -/
theorem isAt_onRight_iff {frames : List Frame} :
    equation.IsAt (.onRight frames) node ↔ equation.right = plug frames node := by
  refine ⟨fun h ↦ (congrArg right h).symm, fun h ↦ ?_⟩
  rw [IsAt, put, ← h]

/-- The nodes of an equation are those that it has at some place. -/
theorem contains_iff : equation.Contains node ↔ ∃ place, equation.IsAt place node := by
  constructor
  · rintro ⟨side, hside, frames, hplug⟩
    rcases List.mem_pair.1 hside with rfl | rfl
    · exact ⟨.onLeft frames, isAt_onLeft_iff.2 hplug⟩
    · exact ⟨.onRight frames, isAt_onRight_iff.2 hplug⟩
  · rintro ⟨place, hplace⟩
    cases place with
    | onLeft frames => exact ⟨_, List.mem_cons_self, frames, isAt_onLeft_iff.1 hplace⟩
    | onRight frames => exact ⟨_, by simp, frames, isAt_onRight_iff.1 hplace⟩

/-- The operands of a node of the equation are nodes of the equation. -/
theorem Contains.operand (h : equation.Contains parent) (hmem : inner ∈ parent.children) :
    equation.Contains inner := by
  obtain ⟨side, hside, hparent⟩ := h
  exact ⟨side, hside, Node.Contains.operand hparent hmem⟩

/-- The identities below a node are identities of the equation. -/
theorem Contains.ids_subset (h : equation.Contains node) :
    node.ids ⊆ equation.left.ids ++ equation.right.ids := by
  obtain ⟨side, hside, hnode⟩ := h
  intro id hid
  rcases List.mem_pair.1 hside with rfl | rfl
  · exact List.mem_append_left _ (hnode.ids_subset hid)
  · exact List.mem_append_right _ (hnode.ids_subset hid)

/-- Each identity of an equation belongs to a node of it. -/
theorem exists_contains_of_mem_ids (h : some id ∈ equation.left.ids ++ equation.right.ids) :
    ∃ node, equation.Contains node ∧ node.id? = some id := by
  rcases List.mem_append.1 h with hleft | hright
  · obtain ⟨node, hnode, hid⟩ := Node.exists_contains_of_mem_ids hleft
    exact ⟨node, ⟨_, List.mem_cons_self, hnode⟩, hid⟩
  · obtain ⟨node, hnode, hid⟩ := Node.exists_contains_of_mem_ids hright
    exact ⟨node, ⟨_, by simp, hnode⟩, hid⟩

/-- Each identity of an equation is that of a side, or a node has it among its children. -/
theorem id?_or_hasChild_of_contains (h : equation.Contains node) (hid : node.id? = some id) :
    (equation.left.id? = some id ∨ equation.right.id? = some id) ∨
      ∃ parent, equation.Contains parent ∧ parent.hasChild id = true := by
  obtain ⟨side, hside, hnode⟩ := h
  rcases id?_or_hasChild_of_mem_ids (hnode.ids_subset (mem_ids_of_id? hid)) with htop |
    ⟨parent, hparent, hchild⟩
  · rcases List.mem_pair.1 hside with rfl | rfl
    · exact Or.inl (Or.inl htop)
    · exact Or.inl (Or.inr htop)
  · exact Or.inr ⟨parent, ⟨side, hside, hparent⟩, hchild⟩

/-! ### While no identity occurs twice -/

section Nodup

variable (hnodup : (equation.left.ids ++ equation.right.ids).Nodup)

include hnodup

/-- **There is one place** in an equation for each identity. -/
theorem IsAt.unique (h : equation.IsAt place node) (hid : node.id? = some id)
    (h' : equation.IsAt place' node') (hid' : node'.id? = some id) :
    place = place' ∧ node = node' := by
  obtain ⟨hleft, hright, hdisjoint⟩ := List.nodup_append.1 hnodup
  -- the same identity is not on both sides
  have hapart : ∀ {frames frames' : List Frame} {inner inner' : Node}, inner.id? = some id →
      inner'.id? = some id → equation.left = plug frames inner →
        equation.right ≠ plug frames' inner' := by
    intro frames frames' inner inner' hinner hinner' hplug hplug'
    have hmem : some id ∈ equation.left.ids :=
      Node.Contains.ids_subset ⟨frames, hplug⟩ (mem_ids_of_id? hinner)
    have hmem' : some id ∈ equation.right.ids :=
      Node.Contains.ids_subset ⟨frames', hplug'⟩ (mem_ids_of_id? hinner')
    exact hdisjoint _ hmem _ hmem' rfl
  cases place with
  | onLeft frames =>
    have hplug := isAt_onLeft_iff.1 h
    cases place' with
    | onLeft frames' =>
      obtain ⟨rfl, rfl⟩ :=
        plug_inj (hplug ▸ hleft) hid hid' (hplug.symm.trans (isAt_onLeft_iff.1 h'))
      exact ⟨rfl, rfl⟩
    | onRight frames' => exact absurd (isAt_onRight_iff.1 h') (hapart hid hid' hplug)
  | onRight frames =>
    have hplug := isAt_onRight_iff.1 h
    cases place' with
    | onLeft frames' => exact absurd hplug (hapart hid' hid (isAt_onLeft_iff.1 h'))
    | onRight frames' =>
      obtain ⟨rfl, rfl⟩ :=
        plug_inj (hplug ▸ hright) hid hid' (hplug.symm.trans (isAt_onRight_iff.1 h'))
      exact ⟨rfl, rfl⟩

/-- While no identity occurs twice, a node is found by its identity wherever it is. -/
theorem find?_of_contains (h : equation.Contains node) (hid : node.id? = some id) :
    equation.find? id = some node := by
  obtain ⟨hleft, hright, hdisjoint⟩ := List.nodup_append.1 hnodup
  obtain ⟨side, hside, hnode⟩ := h
  rw [find?]
  rcases List.mem_pair.1 hside with rfl | rfl
  · rw [Node.find?_of_contains hleft hnode hid]
    rfl
  · have hmem := hnode.ids_subset (mem_ids_of_id? hid)
    rw [Node.find?_eq_none fun hleft ↦ hdisjoint _ hleft _ hmem rfl,
      Node.find?_of_contains hright hnode hid]
    rfl

/-- **The node that is found** on either side is the one that has the identity. -/
theorem find?_eq_some_iff :
    equation.find? id = some node ↔ equation.Contains node ∧ node.id? = some id := by
  refine ⟨fun h ↦ ?_, fun h ↦ find?_of_contains hnodup h.1 h.2⟩
  rw [find?, Option.or_eq_some_iff] at h
  rcases h with hleft | ⟨-, hright⟩
  · exact ⟨⟨_, List.mem_cons_self, contains_of_find? hleft⟩, id?_of_find? hleft⟩
  · exact ⟨⟨_, by simp, contains_of_find? hright⟩, id?_of_find? hright⟩

/-- Nothing is found exactly if there is nothing to find. -/
theorem find?_eq_none_iff :
    equation.find? id = none ↔ ∀ node, equation.Contains node → node.id? ≠ some id := by
  rw [Option.eq_none_iff_forall_ne_some]
  exact forall_congr' fun node ↦ by rw [ne_eq, find?_eq_some_iff hnodup, not_and]

/-- The parent is found of all nodes but the two sides. -/
theorem findParent?_eq_none_iff : equation.findParent? id = none ↔
    equation.left.id? = some id ∨ equation.right.id? = some id ∨ equation.find? id = none := by
  constructor
  · intro h
    rw [← or_assoc, or_iff_not_imp_right]
    intro hfound
    obtain ⟨node, hnode⟩ := Option.ne_none_iff_exists'.1 hfound
    obtain ⟨hcontains, hid⟩ := (find?_eq_some_iff hnodup).1 hnode
    refine (id?_or_hasChild_of_contains hcontains hid).resolve_right ?_
    rintro ⟨parent, hparent, hchild⟩
    cases h.symm.trans ((findParent?_eq_some_iff hnodup).2 ⟨hparent, hchild⟩)
  · rintro (hleft | hright | hmissing)
    · exact (find_root hnodup List.mem_cons_self hleft).1
    · exact (find_root hnodup (List.mem_cons_of_mem _ List.mem_cons_self) hright).1
    · rw [Option.eq_none_iff_forall_ne_some]
      intro parent hparent
      obtain ⟨hcontains, hchild⟩ := (findParent?_eq_some_iff hnodup).1 hparent
      obtain ⟨child, hmem, hid⟩ := hasChild_iff.1 hchild
      exact (find?_eq_none_iff hnodup).1 hmissing child (hcontains.operand hmem) hid

/-- **Siblings have the same parent.** -/
theorem areSiblings_iff_findParent? : equation.areSiblings a b = true ↔
    ∃ parent, equation.findParent? a = some parent ∧ equation.findParent? b = some parent := by
  rw [areSiblings_iff]
  refine exists_congr fun parent ↦ ?_
  rw [findParent?_eq_some_iff hnodup, findParent?_eq_some_iff hnodup]
  constructor
  · rintro ⟨hparent, ha, hb⟩
    exact ⟨⟨hparent, ha⟩, hparent, hb⟩
  · rintro ⟨⟨hparent, ha⟩, -, hb⟩
    exact ⟨hparent, ha, hb⟩

/-- A node is inner exactly if it has a parent. -/
theorem isInner_iff : equation.IsInner id ↔ ∃ parent, equation.findParent? id = some parent := by
  have hfound : (∃ place node, equation.IsAt place node ∧ node.id? = some id) ↔
      equation.find? id ≠ none := by
    rw [Option.ne_none_iff_exists', exists_comm]
    refine exists_congr fun node ↦ ?_
    rw [find?_eq_some_iff hnodup, contains_iff, exists_and_right]
  rw [← Option.ne_none_iff_exists', ne_eq, findParent?_eq_none_iff hnodup, IsInner, hfound]
  tauto

/-- The node of an identity is changed at its place. -/
theorem IsAt.modify? (h : equation.IsAt place node) (hid : node.id? = some id) :
    equation.modify? id f = some (equation.put place (f node)) := by
  obtain ⟨hleft, hright, hdisjoint⟩ := List.nodup_append.1 hnodup
  cases place with
  | onLeft frames =>
    have hplug := isAt_onLeft_iff.1 h
    have hframes := (not_mem_of_nodup_plug (hplug ▸ hleft)).2 id (mem_ids_of_id? hid)
    rw [Equation.modify?, hplug, modify?_plug hframes, modify?_topmost hid]
    rfl
  | onRight frames =>
    have hplug := isAt_onRight_iff.1 h
    have hframes := (not_mem_of_nodup_plug (hplug ▸ hright)).2 id (mem_ids_of_id? hid)
    have hmem : some id ∈ equation.right.ids :=
      Node.Contains.ids_subset ⟨frames, hplug⟩ (mem_ids_of_id? hid)
    rw [Equation.modify?, modify?_eq_none fun hleft ↦ hdisjoint _ hleft _ hmem rfl, hplug,
      modify?_plug hframes, modify?_topmost hid]
    rfl

/-- Where nothing is found, nothing is changed. -/
theorem modify?_eq_none_of_find? (h : equation.find? id = none) : equation.modify? id f = none := by
  have hmissing : some id ∉ equation.left.ids ++ equation.right.ids := fun hmem ↦ by
    obtain ⟨node, hnode, hid⟩ := exists_contains_of_mem_ids hmem
    exact (find?_eq_none_iff hnodup).1 h node hnode hid
  rw [List.mem_append, not_or] at hmissing
  rw [Equation.modify?, modify?_eq_none hmissing.1]
  dsimp only
  rw [modify?_eq_none hmissing.2]
  rfl

end Nodup

/-! ### All searches together

The claims as fields of one structure, each of them an equivalence or an equation where that can
be. -/

/-- The searches of an equation by identity agree, and so do the changes in place. -/
structure SearchesAgree (equation : Equation) : Prop where
  /-- A search for an identity finds the node that has it. -/
  found : ∀ id node, equation.find? id = some node ↔
    ∃ place, equation.IsAt place node ∧ node.id? = some id
  /-- There is only one such node, and one place where it is. -/
  unique : ∀ id place place' node node', equation.IsAt place node → node.id? = some id →
    equation.IsAt place' node' → node'.id? = some id → place = place' ∧ node = node'
  /-- Nothing is found exactly if no node has the identity. -/
  missing : ∀ id, equation.find? id = none ↔
    ∀ place node, equation.IsAt place node → node.id? ≠ some id
  /-- The parent of an identity is the node that has it among its children. -/
  parent : ∀ id parent, equation.findParent? id = some parent ↔
    (∃ place, equation.IsAt place parent) ∧ parent.hasChild id = true
  /-- There is no parent of a side, nor of an identity that is not there, and of nothing else. -/
  orphan : ∀ id, equation.findParent? id = none ↔
    equation.left.id? = some id ∨ equation.right.id? = some id ∨ equation.find? id = none
  /-- Two identities are siblings exactly if both have a parent, and it is the same one. -/
  siblings : ∀ a b, equation.areSiblings a b = true ↔
    ∃ parent, equation.findParent? a = some parent ∧ equation.findParent? b = some parent
  /-- Only nodes below the sides are siblings. -/
  inner : ∀ a b, equation.areSiblings a b = true → equation.IsInner a ∧ equation.IsInner b
  /-- On the nodes below the sides, being siblings is an equivalence relation. -/
  equivalence : Equivalence fun a b : {id // equation.IsInner id} ↦
    equation.areSiblings a b = true
  /-- Nodes of different sides are no siblings. -/
  apart : ∀ a b, some a ∈ equation.left.ids → some b ∈ equation.right.ids →
    equation.areSiblings a b = false ∧ equation.areSiblings b a = false
  /-- Changing a node by its identity changes the node that is found, and nothing else. -/
  changed : ∀ id place node, equation.IsAt place node → node.id? = some id →
    ∀ f, equation.modify? id f = some (equation.put place (f node))
  /-- Where no node is found, none is changed. -/
  unchanged : ∀ id, equation.find? id = none → ∀ f, equation.modify? id f = none
  /-- Changing a parent on its side changes the one that is found, and nothing else. -/
  parentChanged : ∀ id, ∀ side ∈ [equation.left, equation.right], ∀ frames parent,
    side = plug frames parent → parent.hasChild id = true →
      ∀ f, side.modifyParent? id f = some (plug frames (f parent))
  /-- Where no parent is found, none is changed. -/
  parentUnchanged : ∀ id, ∀ side ∈ [equation.left, equation.right], side.findParent? id = none →
    ∀ f, side.modifyParent? id f = none

/-- A parent is on the side of its children. -/
theorem mem_ids_of_areSiblings (h : equation.areSiblings a b = true) :
    ∃ side ∈ [equation.left, equation.right], some a ∈ side.ids ∧ some b ∈ side.ids := by
  obtain ⟨parent, ⟨side, hside, hparent⟩, ha, hb⟩ := areSiblings_iff.1 h
  exact ⟨side, hside, hparent.ids_subset (mem_ids_of_hasChild ha),
    hparent.ids_subset (mem_ids_of_hasChild hb)⟩

/-- Being siblings does not depend on the order of the two. -/
theorem areSiblings_comm : equation.areSiblings a b = true ↔ equation.areSiblings b a = true := by
  rw [areSiblings_iff, areSiblings_iff]
  exact exists_congr fun parent ↦ and_congr_right fun _ ↦ and_comm

/-- **Searches by identity agree.** While no identity occurs twice in an equation, a search finds
the one node with the identity, or nothing if there is none. The parent of an identity is the one
node that has it among its children, which fails exactly for the two sides and for what is not
there. Two nodes are siblings exactly if their parents are the same node: an equivalence relation on
the nodes below the sides, which never relates nodes of different sides. Changing a node or a parent
in place changes the node that is found, and no other. -/
theorem searchesAgree (hnodup : (equation.left.ids ++ equation.right.ids).Nodup) :
    equation.SearchesAgree where
  found := fun id node ↦ by
    rw [find?_eq_some_iff hnodup, contains_iff, exists_and_right]
  unique := fun id place place' node node' h hid h' hid' ↦ h.unique hnodup hid h' hid'
  missing := fun id ↦ by
    rw [find?_eq_none_iff hnodup]
    constructor
    · exact fun h place node hplace ↦ h node (contains_iff.2 ⟨place, hplace⟩)
    · intro h node hnode
      obtain ⟨place, hplace⟩ := contains_iff.1 hnode
      exact h place node hplace
  parent := fun id parent ↦ by
    rw [findParent?_eq_some_iff hnodup, contains_iff]
  orphan := fun id ↦ findParent?_eq_none_iff hnodup
  siblings := fun a b ↦ areSiblings_iff_findParent? hnodup
  inner := fun a b h ↦ by
    obtain ⟨parent, ha, hb⟩ := (areSiblings_iff_findParent? hnodup).1 h
    exact ⟨(isInner_iff hnodup).2 ⟨parent, ha⟩, (isInner_iff hnodup).2 ⟨parent, hb⟩⟩
  equivalence := by
    constructor
    · intro a
      obtain ⟨parent, hparent⟩ := (isInner_iff hnodup).1 a.2
      exact (areSiblings_iff_findParent? hnodup).2 ⟨parent, hparent, hparent⟩
    · exact fun h ↦ areSiblings_comm.1 h
    · intro a b c hab hbc
      obtain ⟨parent, ha, hb⟩ := (areSiblings_iff_findParent? hnodup).1 hab
      obtain ⟨parent', hb', hc⟩ := (areSiblings_iff_findParent? hnodup).1 hbc
      obtain rfl := Option.some.inj (hb.symm.trans hb')
      exact (areSiblings_iff_findParent? hnodup).2 ⟨parent, ha, hc⟩
  apart := fun a b ha hb ↦ by
    have hnot : equation.areSiblings a b ≠ true := fun h ↦ by
      obtain ⟨-, -, hdisjoint⟩ := List.nodup_append.1 hnodup
      obtain ⟨side, hside, ha', hb'⟩ := mem_ids_of_areSiblings h
      rcases List.mem_pair.1 hside with rfl | rfl
      · exact hdisjoint _ hb' _ hb rfl
      · exact hdisjoint _ ha _ ha' rfl
    exact ⟨Bool.eq_false_iff.2 hnot, Bool.eq_false_iff.2 fun h ↦ hnot (areSiblings_comm.1 h)⟩
  changed := fun id place node h hid f ↦ h.modify? hnodup hid
  unchanged := fun id h f ↦ modify?_eq_none_of_find? hnodup h
  parentChanged := fun id side hside frames parent hplug hchild f ↦ by
    obtain ⟨hleft, hright, -⟩ := List.nodup_append.1 hnodup
    have hsides : side.ids.Nodup := by
      rcases List.mem_pair.1 hside with rfl | rfl
      · exact hleft
      · exact hright
    subst hplug
    exact modifyParent?_plug hsides hchild
  parentUnchanged := fun id side _ h f ↦ modifyParent?_eq_none h

/-- In `2*x+1=5`, the factors of the product are found below it, and have it as their parent. -/
theorem searchesAgree_product : ∃ (built : Equation) (product : Node),
    Equation.new "2*x+1".toList ['5'] = .ok built ∧
      ((built.number 0).1.left.ids ++ (built.number 0).1.right.ids).Nodup ∧
        (built.number 0).1.SearchesAgree ∧ (built.number 0).1.findParent? 3 = some product ∧
          product.id? = some 1 ∧ (built.number 0).1.find? 1 = some product ∧
            (built.number 0).1.areSiblings 2 3 = true ∧
              (built.number 0).1.areSiblings 1 6 = false := by
  have hfacts : ((Equation.new "2*x+1".toList ['5']).toOption.map fun built ↦
      let equation := (built.number 0).1
      decide ((equation.left.ids ++ equation.right.ids).Nodup ∧
        ((equation.findParent? 3).bind Node.id?) = some 1 ∧ (some 1 ∈ equation.left.ids) ∧
          (some 6 ∈ equation.right.ids) ∧ equation.areSiblings 2 3 = true)) = some true := by
    decide +kernel
  obtain ⟨built, hbuilt, hnodup, hparent, hleft, hright, hsiblings⟩ :=
    Except.exists_ok_of_toOption hfacts
  have hagree := searchesAgree hnodup
  obtain ⟨product, hproduct, hid⟩ := Option.bind_eq_some_iff.1 hparent
  obtain ⟨⟨place, hplace⟩, -⟩ := (hagree.parent 3 product).1 hproduct
  exact ⟨built, product, hbuilt, hnodup, hagree, hproduct, hid,
    (hagree.found 1 product).2 ⟨place, hplace, hid⟩, hsiblings, (hagree.apart 1 6 hleft hright).1⟩

end Equation

end EquationSteps
