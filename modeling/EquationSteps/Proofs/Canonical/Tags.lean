import EquationSteps.Proofs.Canonical.Rewriting

/-!
# Normalization and tags

The nodes that the rules make are new, those of an oracle's answers included, and of the tags that
are there the rules change no more than the sign and the mark of pending. So whatever holds of all
tags, of those of new nodes too, and does not depend on the sign, holds of all tags of the
normalized tree (`Node.everyTag_normalize`). That no node has an identity and none is pending is
such a property, and so is that no node is a root.

A side has one root, and that is its topmost node. The topmost tag only changes its sign
(`Node.Fires.exists_sign`), so what holds of all tags below it holds of them afterwards, whatever
the topmost one is (`Node.EveryTagBelow`).

**Properties of tags are stated once.** A test of tags is *lasting* (`IsLasting`) if new tags pass
it, and if a tag that passes it does so with any other sign and with the mark of pending cleared.
These are all the ways in which a rule treats tags, so what is needed of a particular test is seen
without looking at a rule:

* that a node is no root (`isLasting_not_root`), on which the bound on the number of passes and the
  description of settled trees rest;
* that a node has neither an identity nor a mark of pending (`isLasting_isNew`), by which what is
  read and normalized without identities is determined by its text.

**The topmost tag is another matter**, since it is the one that a rule leaves to the node itself. It
keeps its identity and both of its marks: a root stays a root (`isRoot_of_reflTransGen`), and a node
that is pending is examined by the group around it and by nothing else
(`isPending_of_reflTransGen`).
-/

namespace EquationSteps

/-- A test of tags that new nodes pass, and that is passed whatever the sign becomes and when the
mark of pending is cleared. -/
structure IsLasting (test : Tag → Bool) : Prop where
  fresh : ∀ sign, test (.fresh sign) = true
  sign : ∀ tag sign, test tag = true → test { tag with sign } = true
  examined : ∀ tag, test tag = true → test { tag with pending := false } = true

/-- That a node is no root lasts. -/
theorem isLasting_not_root : IsLasting fun tag ↦ !tag.root where
  fresh _ := rfl
  sign _ _ h := h
  examined _ h := h

/-- That a node is new lasts. -/
theorem isLasting_isNew : IsLasting Tag.isNew where
  fresh _ := rfl
  sign _ _ h := h
  examined tag h := by
    obtain ⟨hid, -⟩ := Bool.and_eq_true_iff.1 h
    exact Bool.and_eq_true_iff.2 ⟨hid, rfl⟩

namespace Node

open Relation

variable {rationalize : Text → Except ValueError Text} {test : Tag → Bool} {node node' : Node}

/-- All tags below the topmost one pass a test. -/
def EveryTagBelow (test : Tag → Bool) (node : Node) : Prop :=
  ∀ child ∈ node.children, child.everyTag test = true

/-- All tags are the topmost one and those below it. -/
theorem everyTag_iff :
    node.everyTag test = true ↔ test node.tag = true ∧ node.EveryTagBelow test := by
  cases node with
  | atom tag text => exact iff_self_and.2 fun _ ↦ List.forall_mem_nil _
  | group tag children => exact everyTag_group_iff

/-- What holds of all tags of a tree holds of those of its operands. -/
theorem everyTag_of_mem_children {child : Node} (h : node.everyTag test = true)
    (hmem : child ∈ node.children) : child.everyTag test = true :=
  (everyTag_iff.1 h).2 child hmem

/-- Changing the topmost tag keeps what holds of all tags, if the new one passes the test. -/
theorem everyTag_mapTag {f : Tag → Tag} (h : node.everyTag test = true)
    (hf : test (f node.tag) = true) : (node.mapTag f).everyTag test = true := by
  cases node with
  | atom tag text => exact hf
  | group tag children => exact everyTag_group_iff.2 ⟨hf, (everyTag_group_iff.1 h).2⟩

/-- What is below a tag is in the content. -/
theorem EveryTagBelow.ofContent (tag : Tag) (h : node.EveryTagBelow test) :
    (ofContent tag node.content).EveryTagBelow test := by
  cases node with
  | atom _ text => exact List.forall_mem_nil _
  | group _ children => exact h

/-- The answer of an oracle for a literal is read as a new tree. -/
theorem isFresh_of_fraction? {literal : Text} {content : Content}
    (h : fraction? rationalize literal = some content) :
    ∃ node : Node, node.everyTag (fun tag ↦ tag == .fresh tag.sign) = true ∧
      node.content = content := by
  unfold fraction? at h
  split at h
  · split at h
    · rename_i hread
      cases h
      obtain ⟨inner, rfl, hbuild⟩ := exists_of_read hread
      exact ⟨inner, (Reads.of_build hbuild).isFresh, (content_mapTag _ _).symm⟩
    · cases h
  · cases h

/-- Dropping operands keeps the tag. -/
theorem tag_of_prune (h : node.prune = .changed node' ∨ node.prune = .emptiedRoot node') :
    node'.tag = node.tag := by
  rcases h with h | h
  · obtain ⟨keep, identity, hby⟩ := exists_pruneBy h nofun
    rcases of_pruneBy_eq_changed hby with ⟨-, -, rfl⟩ | ⟨-, rfl⟩ <;> exact tag_withContent _ _
  · obtain ⟨keep, identity, hby⟩ := exists_pruneBy h nofun
    obtain ⟨-, -, rfl⟩ := of_pruneBy_eq_emptiedRoot hby
    exact tag_withContent _ _

/-- **The rules keep the topmost tag**, up to its sign. -/
theorem Fires.exists_sign (h : Fires rationalize node node') :
    ∃ sign, node'.tag = { node.tag with sign } := by
  cases h with
  | fillRoot hrule =>
    obtain ⟨tag, rfl, -, rfl⟩ := of_fillRoot? hrule
    exact ⟨_, rfl⟩
  | wrapRoot hrule =>
    obtain ⟨tag, text, rfl, -, rfl⟩ := of_wrapRoot? hrule
    exact ⟨_, rfl⟩
  | settle hrule =>
    obtain ⟨tag, operands, rfl, -, ⟨-, -, rfl⟩ | ⟨-, rfl⟩⟩ := of_settle? hrule <;> exact ⟨_, rfl⟩
  | canonicalNumber hrule =>
    obtain ⟨tag, text, rfl, ⟨-, -, rfl⟩ | ⟨-, -, content, -, rfl⟩⟩ := of_canonicalNumber? hrule
    · exact ⟨_, rfl⟩
    · exact ⟨_, tag_ofContent _ _⟩
  | regroup hrule =>
    obtain ⟨tag, first, middle, last, rfl, -, -, rfl⟩ := of_regroup? hrule
    exact ⟨_, rfl⟩
  | collapse hrule =>
    rcases of_collapse? hrule with ⟨-, hlift⟩ | ⟨tag, only, rfl, -, ⟨-, -, rfl⟩ | ⟨-, rfl⟩⟩
    · obtain ⟨tag, onlyTag, terms, rfl, -, -, rfl⟩ := of_lift? hlift
      exact ⟨_, rfl⟩
    · exact ⟨_, tag_ofContent _ _⟩
    · exact ⟨_, tag_ofContent _ _⟩
  | prune hrule => exact ⟨_, tag_of_prune (Or.inl hrule)⟩
  | emptyRoot hrule => exact ⟨_, tag_of_prune (Or.inr hrule)⟩

/-! ### The rules -/

section Rules

variable (htest : IsLasting test)

include htest

/-- Turning a sign keeps what lasts. -/
theorem IsLasting.flipSign (h : node.everyTag test = true) :
    node.flipSign.everyTag test = true :=
  everyTag_mapTag h (htest.sign _ _ (tag_of_everyTag h))

/-- An operand that is examined has its mark cleared, and one that is spliced in has its sign turned
at most. -/
theorem everyTag_settled {family : Option Family} (h : node.everyTag test = true) :
    ∀ left ∈ settled family node, left.everyTag test = true := by
  have hself : ∀ left ∈ [node], left.everyTag test = true := List.forall_mem_singleton.2 h
  unfold settled
  split
  · have hexamined : (node.withPending false).everyTag test = true :=
      everyTag_mapTag h (htest.examined _ (tag_of_everyTag h))
    generalize node.withPending false = node at hexamined
    have hchildren : ∀ child ∈ node.children, child.everyTag test = true := fun child hmem ↦
      everyTag_of_mem_children hexamined hmem
    dsimp only
    split
    · exact List.forall_mem_nil _
    · split
      · split
        · intro left hmem
          obtain ⟨child, hchild, rfl⟩ := List.mem_map.1 hmem
          exact IsLasting.flipSign htest (hchildren child hchild)
        · exact hchildren
      · split
        · exact hchildren
        · exact List.forall_mem_singleton.2 hexamined
  · exact hself

variable (h : node.EveryTagBelow test)

include h

/-- Examining operands brings up nodes from below, with their tags. -/
theorem everyTagBelow_settle? (hrule : node.settle? = some node') : node'.EveryTagBelow test := by
  obtain ⟨tag, operands, rfl, -, ⟨-, -, rfl⟩ | ⟨-, rfl⟩⟩ := of_settle? hrule
  · exact List.forall_mem_nil _
  · intro left hmem
    obtain ⟨child, hchild, hmem⟩ := List.mem_flatMap.1 hmem
    exact everyTag_settled htest (h child hchild) left hmem

omit h in
/-- What is read from an answer is new. -/
theorem everyTagBelow_canonicalNumber? (hrule : node.canonicalNumber? rationalize = some node') :
    node'.EveryTagBelow test := by
  obtain ⟨tag, text, rfl, ⟨-, -, rfl⟩ | ⟨-, -, content, hfraction, rfl⟩⟩ :=
    of_canonicalNumber? hrule
  · exact List.forall_mem_nil _
  · obtain ⟨answer, hfresh, rfl⟩ := isFresh_of_fraction? hfraction
    have hnew : answer.everyTag test = true :=
      everyTag_mono (fun tag htag ↦ by rw [beq_iff_eq.1 htag]; exact htest.fresh _) hfresh
    exact (everyTag_iff.1 hnew).2.ofContent tag

/-- The dividend that is made is new, and its parts keep their tags. -/
theorem everyTagBelow_regroup? (hrule : node.regroup? = some node') : node'.EveryTagBelow test := by
  obtain ⟨tag, first, middle, last, rfl, -, -, rfl⟩ := of_regroup? hrule
  obtain ⟨hfirst, hlast⟩ :=
    List.forall_mem_append.1 (show ∀ child ∈ (first :: middle) ++ [last], _ from
    h)
  exact List.forall_mem_cons.2 ⟨everyTag_group_iff.2 ⟨htest.fresh _, hfirst⟩, hlast⟩

omit htest in
/-- A group that gives way to its operand takes over what is below the operand. -/
theorem everyTagBelow_collapse? (hrule : node.collapse? = some node') :
    node'.EveryTagBelow test := by
  rcases of_collapse? hrule with ⟨-, hlift⟩ | ⟨tag, only, rfl, -, hcases⟩
  · obtain ⟨tag, onlyTag, terms, rfl, -, -, rfl⟩ := of_lift? hlift
    exact (everyTag_iff.1 (h _ List.mem_cons_self)).2
  · have honly := (everyTag_iff.1 (h only List.mem_cons_self)).2
    rcases hcases with ⟨-, -, rfl⟩ | ⟨-, rfl⟩
    · exact honly.ofContent _
    · exact honly.ofContent _

/-- Dropping operands adds no tags, but for the term `0` of an empty root, which is new. -/
theorem everyTagBelow_prune
    (hrule : node.prune = .changed node' ∨ node.prune = .emptiedRoot node') :
    node'.EveryTagBelow test := by
  rcases hrule with hrule | hrule
  · obtain ⟨keep, identity, hby⟩ := exists_pruneBy hrule nofun
    rcases of_pruneBy_eq_changed hby with ⟨-, -, rfl⟩ | ⟨-, rfl⟩
    · exact List.forall_mem_nil _
    · exact fun child hmem ↦ h child (List.mem_of_mem_filter hmem)
  · obtain ⟨keep, identity, hby⟩ := exists_pruneBy hrule nofun
    obtain ⟨-, -, rfl⟩ := of_pruneBy_eq_emptiedRoot hby
    exact List.forall_mem_singleton.2 (htest.fresh _)

/-- **The rules keep a lasting property of all tags below** the node. -/
theorem Fires.everyTagBelow (hrule : Fires rationalize node node') : node'.EveryTagBelow test := by
  cases hrule with
  | fillRoot hrule =>
    obtain ⟨tag, rfl, -, rfl⟩ := of_fillRoot? hrule
    exact List.forall_mem_singleton.2 (htest.fresh _)
  | wrapRoot hrule =>
    obtain ⟨tag, text, rfl, -, rfl⟩ := of_wrapRoot? hrule
    exact List.forall_mem_singleton.2 (htest.fresh _)
  | settle hrule => exact everyTagBelow_settle? htest h hrule
  | canonicalNumber hrule => exact everyTagBelow_canonicalNumber? htest hrule
  | regroup hrule => exact everyTagBelow_regroup? htest h hrule
  | collapse hrule => exact everyTagBelow_collapse? h hrule
  | prune hrule => exact everyTagBelow_prune htest h (Or.inl hrule)
  | emptyRoot hrule => exact everyTagBelow_prune htest h (Or.inr hrule)

end Rules

/-! ### Trees

From one rule to one application of a rule somewhere in a tree, and from there to any number of
them. -/

/-- A rule keeps a lasting property of all tags. -/
theorem Fires.everyTag (htest : IsLasting test) (hrule : Fires rationalize node node')
    (h : node.everyTag test = true) : node'.everyTag test = true := by
  obtain ⟨htag, hbelow⟩ := everyTag_iff.1 h
  obtain ⟨sign, hsame⟩ := hrule.exists_sign
  rw [everyTag_iff, hsame]
  exact ⟨htest.sign _ _ htag, hrule.everyTagBelow htest hbelow⟩

/-- One application of a rule somewhere in a tree keeps what lasts and holds of all tags, and also
what holds of all tags but the topmost one. -/
theorem Rewrites.everyTag (htest : IsLasting test) (h : Rewrites rationalize node node') :
    (node.everyTag test = true → node'.everyTag test = true) ∧
      (node.EveryTagBelow test → node'.EveryTagBelow test) := by
  induction h with
  | here hrule => exact ⟨hrule.everyTag htest, hrule.everyTagBelow htest⟩
  | @operand child child' tag before after _ ih =>
    have hbelow (h : (group tag (before ++ child :: after)).EveryTagBelow test) :
        (group tag (before ++ child' :: after)).EveryTagBelow test :=
      forall_mem_exchange h (ih.1 (h child List.mem_append_cons_self))
    refine ⟨fun h ↦ ?_, hbelow⟩
    obtain ⟨htag, hchildren⟩ := everyTag_iff.1 h
    exact everyTag_iff.2 ⟨htag, hbelow hchildren⟩

/-- Below the topmost node the tag of that node is not touched at all. -/
theorem Rewrites.exists_sign (h : Rewrites rationalize node node') :
    ∃ sign, node'.tag = { node.tag with sign } := by
  cases h with
  | here hrule => exact hrule.exists_sign
  | operand => exact ⟨_, rfl⟩

/-- Many applications of rules keep it as well. -/
theorem everyTag_of_reflTransGen (htest : IsLasting test)
    (h : ReflTransGen (Rewrites rationalize) node node') :
    (node.everyTag test = true → node'.everyTag test = true) ∧
      (node.EveryTagBelow test → node'.EveryTagBelow test) := by
  induction h with
  | refl => exact ⟨id, id⟩
  | tail _ hstep ih =>
    obtain ⟨hall, hbelow⟩ := hstep.everyTag htest
    exact ⟨hall ∘ ih.1, hbelow ∘ ih.2⟩

/-- The topmost tag is kept up to its sign. -/
theorem exists_sign_of_reflTransGen (h : ReflTransGen (Rewrites rationalize) node node') :
    ∃ sign, node'.tag = { node.tag with sign } := by
  induction h with
  | refl => exact ⟨_, rfl⟩
  | tail _ hstep ih =>
    obtain ⟨sign, hsame⟩ := ih
    obtain ⟨sign', hsame'⟩ := hstep.exists_sign
    exact ⟨sign', by rw [hsame', hsame]⟩

/-- A root stays a root, and nothing else becomes one. -/
theorem isRoot_of_reflTransGen (h : ReflTransGen (Rewrites rationalize) node node') :
    node'.isRoot = node.isRoot := by
  obtain ⟨sign, hsame⟩ := exists_sign_of_reflTransGen h
  rw [isRoot, hsame]
  rfl

/-- And what is pending stays pending, while it is the topmost node. -/
theorem isPending_of_reflTransGen (h : ReflTransGen (Rewrites rationalize) node node') :
    node'.isPending = node.isPending := by
  obtain ⟨sign, hsame⟩ := exists_sign_of_reflTransGen h
  rw [isPending, hsame]
  rfl

/-- **What lasts and holds of all tags** of a tree holds of all tags once the tree is normalized. -/
theorem everyTag_normalize (htest : IsLasting test) {limits : Limits}
    (h : node.everyTag test = true) :
    (node.normalize rationalize limits).2.everyTag test = true :=
  (everyTag_of_reflTransGen htest (reflTransGen_normalize rationalize limits node)).1 h

end Node

end EquationSteps
