import EquationSteps.Proofs.Canonical.Rewriting
import EquationSteps.Proofs.Reading.Root
import EquationSteps.Proofs.Tree.Numbering

/-!
# Normalization and identities

A rule moves nodes, drops them and makes new ones, but no node that it leaves has an identity that
another node has, or that was not there before: the identities are those of the tree, in their
order, with some left out (`Node.Fires.issued_sublist`). So it is with normalization
(`Node.issued_normalize_sublist`), whatever the tree looks like and whatever an oracle answers for
its literals, since what is read from an answer is new (`Node.issued_eq_nil_of_read`).

**Sublists, not subsets.** The list of identities of a tree is read in the order of the nodes. No
rule puts operands in another order or copies one, so what is left is a sublist, and that is a
relation that composes along the levels of a tree by appending (`issued_group_sublist`). That no
identity comes twice if none did before follows at once, which a statement about sets would not
give.

**Contents carry the proof.** A rule replaces the content of a node and leaves its identity, so for
each rule it is enough to compare the identities of two contents (`issued_withContent_sublist`).
There are three ways in which a content can be made of one that was there: from the operands, with
some left out or taken out of their groups (`issued_withOperands_sublist`), from one operand alone
(`issued_withContent_of_mem`), or from nodes that are new. Each rule is one of these.
-/

namespace EquationSteps.Node

variable {rationalize : Text → Except ValueError Text} {node node' child : Node} {tag : Tag}
  {children children' : List Node}

/-! ### Contents

The identities of a node are its own, if it has one, and those of its content. A content by itself
is looked at as that of a new node, which adds nothing. -/

/-- Changing a tag changes no identity, if it is not the identity that changes. -/
theorem issued_mapTag {f : Tag → Tag} (hid : (f node.tag).id = node.tag.id) :
    (node.mapTag f).issued = node.issued := by
  cases node with
  | atom tag text =>
    have hid : (f tag).id = tag.id := hid
    rw [mapTag, issued_atom, issued_atom, hid]
  | group tag children =>
    have hid : (f tag).id = tag.id := hid
    rw [mapTag, issued_group, issued_group, hid]

/-- The identities of a node's operands are identities of the node. -/
theorem issued_children_sublist (node : Node) :
    (node.children.flatMap issued).Sublist node.issued := by
  cases node with
  | atom tag text => exact List.nil_sublist _
  | group tag children =>
    rw [issued_group]
    exact List.sublist_append_right _ _

/-- New nodes have no identities. -/
theorem issued_eq_nil_of_isNew (h : node.everyTag Tag.isNew = true) : node.issued = [] := by
  induction node using Node.induction with
  | atom tag text =>
    have hid : tag.id.isNone = true := (Bool.and_eq_true_iff.1 h).1
    rw [issued_atom, Option.isNone_iff_eq_none.1 hid]
    rfl
  | group tag children ih =>
    obtain ⟨htag, hchildren⟩ := everyTag_group_iff.1 h
    have hid : tag.id.isNone = true := (Bool.and_eq_true_iff.1 htag).1
    rw [issued_group, Option.isNone_iff_eq_none.1 hid,
      List.flatMap_eq_nil_iff.2 fun child hmem ↦ ih child hmem (hchildren child hmem)]
    rfl

/-- A group whose operands lose identities loses them. -/
theorem issued_group_sublist (h : (children'.flatMap issued).Sublist (children.flatMap issued)) :
    (group tag children').issued.Sublist (group tag children).issued := by
  rw [issued_group, issued_group]
  exact h.append_left _

/-- The sign of a new node does not matter for its identities. -/
theorem issued_fresh (sign : Sign) (node : Node) :
    (fresh sign node.content).issued = (fresh .plus node.content).issued :=
  issued_ofContent (.fresh sign) node

/-- The identities of a node are its own and those below it. -/
theorem issued_eq (node : Node) :
    node.issued = node.id?.toList ++ (fresh .plus node.content).issued := by
  have hnode := issued_ofContent node.tag node
  rwa [ofContent_tag_content] at hnode

/-- A node that gets a content keeps its own identity. -/
theorem issued_withContent (content : Content) (node : Node) :
    (node.withContent content).issued = node.id?.toList ++ (fresh .plus content).issued := by
  have hcontent := issued_eq (node.withContent content)
  rwa [content_withContent, id?, tag_withContent] at hcontent

/-- A new group has the identities of its operands. -/
theorem issued_fresh_group (children : List Node) :
    (fresh .plus (.group children)).issued = children.flatMap issued :=
  issued_group _ _

/-- A node's content has no identities but those of the node. -/
theorem issued_fresh_sublist (node : Node) :
    (fresh .plus node.content).issued.Sublist node.issued := by
  rw [issued_eq node]
  exact List.sublist_append_right _ _

/-- The operands of a node are part of its content. -/
theorem issued_children_sublist_fresh (node : Node) :
    (node.children.flatMap issued).Sublist (fresh .plus node.content).issued := by
  cases node with
  | atom tag text => exact List.nil_sublist _
  | group tag children =>
    rw [content, issued_fresh_group]
    exact List.Sublist.refl _

/-- A node may get a content of which all identities stood below it. -/
theorem issued_withContent_sublist {content : Content}
    (h : (fresh .plus content).issued.Sublist (fresh .plus node.content).issued) :
    (node.withContent content).issued.Sublist node.issued := by
  rw [issued_withContent, issued_eq node]
  exact h.append_left _

/-- Or new operands, if these have no identities but those of its operands before. -/
theorem issued_withOperands_sublist {children : List Node}
    (h : (children.flatMap issued).Sublist (node.children.flatMap issued)) :
    (node.withContent (.group children)).issued.Sublist node.issued := by
  refine issued_withContent_sublist ?_
  rw [issued_fresh_group]
  exact h.trans (issued_children_sublist_fresh node)

/-- Or the content of one of its operands. -/
theorem issued_withContent_of_mem (hmem : child ∈ node.children) :
    (node.withContent child.content).issued.Sublist node.issued := by
  have hchild := (List.singleton_sublist.2 hmem).flatMap issued
  rw [List.flatMap_singleton] at hchild
  exact issued_withContent_sublist
    ((issued_fresh_sublist child).trans (hchild.trans (issued_children_sublist_fresh node)))

/-- What is read is new, whatever the text. -/
theorem issued_eq_nil_of_read {limits : Limits} {text : Text} {root : Bool}
    (h : read limits text root = .ok node) : node.issued = [] := by
  obtain ⟨inner, rfl, hbuild⟩ := exists_of_read h
  rw [withRoot, issued_mapTag rfl]
  refine issued_eq_nil_of_isNew (isNew_of_isFresh ?_)
  cases root with
  | false => exact (Reads.of_build hbuild).isFresh
  | true => exact (ReadsRoot.of_build hbuild).isFresh

/-! ### The rules

By the cases of each rule, one after another. -/

/-- What a child leaves in a group has no identities but those of the child. -/
theorem issued_settled_sublist (family : Option Family) (child : Node) :
    ((settled family child).flatMap issued).Sublist child.issued := by
  have hself : ([child].flatMap issued).Sublist child.issued := by rw [List.flatMap_singleton]
  unfold settled
  split
  · have hissued : (child.withPending false).issued = child.issued := issued_mapTag rfl
    rw [← hissued] at hself ⊢
    generalize child.withPending false = examined
    have hchildren := issued_children_sublist examined
    have hflipped : (examined.children.map flipSign).flatMap issued =
        examined.children.flatMap issued := by
      rw [List.flatMap_map]
      exact List.flatMap_congr fun operand _ ↦ issued_mapTag rfl
    dsimp only
    split
    · exact List.nil_sublist _
    · split
      · split
        · exact hflipped ▸ hchildren
        · exact hchildren
      · split
        · exact hchildren
        · rw [List.flatMap_singleton]
  · exact hself

/-- What is read from an oracle's answer has no identities, whatever the answer is. -/
theorem issued_fraction?_eq_nil {literal : Text} {content : Content}
    (h : fraction? rationalize literal = some content) : (fresh .plus content).issued = [] := by
  unfold fraction? at h
  split at h
  · split at h
    · rename_i answer _ read hread
      cases h
      have hissued := issued_eq_nil_of_read hread
      rw [issued_eq, List.append_eq_nil_iff] at hissued
      exact hissued.2
    · cases h
  · cases h

theorem issued_fillRoot? (h : node.fillRoot? = some node') : node'.issued.Sublist node.issued := by
  obtain ⟨tag, rfl, -, rfl⟩ := of_fillRoot? h
  exact issued_group_sublist (List.Sublist.refl _)

theorem issued_wrapRoot? (h : node.wrapRoot? = some node') : node'.issued.Sublist node.issued := by
  obtain ⟨tag, text, rfl, -, rfl⟩ := of_wrapRoot? h
  rw [issued_group, issued_atom]
  exact (List.append_nil _ ▸ List.Sublist.refl _)

/-- Examining operands leaves out the zeros that are dropped and the groups that are spliced in. -/
theorem issued_settle? (h : node.settle? = some node') : node'.issued.Sublist node.issued := by
  obtain ⟨tag, operands, rfl, -, ⟨-, -, rfl⟩ | ⟨-, rfl⟩⟩ := of_settle? h
  · exact @issued_withContent_sublist (group tag operands) (.atom ['0']) (List.nil_sublist _)
  · refine issued_group_sublist ?_
    rw [List.flatMap_assoc]
    exact List.Sublist.flatMap_right _ fun child _ ↦ issued_settled_sublist _ child

theorem issued_canonicalNumber? (h : node.canonicalNumber? rationalize = some node') :
    node'.issued.Sublist node.issued := by
  obtain ⟨tag, text, rfl, ⟨-, -, rfl⟩ | ⟨-, -, content, hcontent, rfl⟩⟩ := of_canonicalNumber? h
  · exact List.Sublist.refl _
  · refine @issued_withContent_sublist (atom tag text) content ?_
    rw [issued_fraction?_eq_nil hcontent]
    exact List.nil_sublist _

/-- The new dividend has no identity, and the parts in it keep theirs. -/
theorem issued_regroup? (h : node.regroup? = some node') : node'.issued.Sublist node.issued := by
  obtain ⟨tag, first, middle, last, rfl, -, -, rfl⟩ := of_regroup? h
  have hbranch : (branch .divide (first :: middle)).issued = (first :: middle).flatMap issued :=
    issued_group _ _
  refine issued_group_sublist ?_
  rw [List.flatMap_cons, hbranch, ← List.flatMap_append]
  exact List.Sublist.refl _

theorem issued_lift? (h : node.lift? = some node') : node'.issued.Sublist node.issued := by
  obtain ⟨tag, onlyTag, terms, rfl, -, -, rfl⟩ := of_lift? h
  refine issued_group_sublist ?_
  rw [List.flatMap_singleton]
  exact issued_children_sublist (group onlyTag terms)

/-- A group that gives way to its operand keeps its own identity, and that of the operand is
gone. -/
theorem issued_collapse? (h : node.collapse? = some node') : node'.issued.Sublist node.issued := by
  rcases of_collapse? h with ⟨-, hlift⟩ | ⟨tag, only, rfl, -, ⟨-, -, rfl⟩ | ⟨-, rfl⟩⟩
  · exact issued_lift? hlift
  · have hflipped :=
      @issued_withContent_of_mem (group tag [only]).flipSign only (List.mem_singleton_self _)
    rwa [flipSign, withSign, issued_mapTag rfl] at hflipped
  · exact @issued_withContent_of_mem (group tag [only]) only (List.mem_singleton_self _)

/-- Dropping operands leaves their identities out. -/
theorem issued_pruneBy {keep : Node → Bool} {identity : Text}
    (h : node.pruneBy keep identity = .changed node' ∨
      node.pruneBy keep identity = .emptiedRoot node') :
    node'.issued.Sublist node.issued := by
  rcases h with h | h
  · rcases of_pruneBy_eq_changed h with ⟨-, -, rfl⟩ | ⟨-, rfl⟩
    · exact issued_withContent_sublist (List.nil_sublist _)
    · exact issued_withOperands_sublist (List.filter_sublist.flatMap _)
  · obtain ⟨-, -, rfl⟩ := of_pruneBy_eq_emptiedRoot h
    exact issued_withOperands_sublist (List.nil_sublist _)

theorem issued_prune (h : node.prune = .changed node' ∨ node.prune = .emptiedRoot node') :
    node'.issued.Sublist node.issued := by
  rcases h with h | h
  · obtain ⟨keep, identity, hby⟩ := exists_pruneBy h nofun
    exact issued_pruneBy (.inl hby)
  · obtain ⟨keep, identity, hby⟩ := exists_pruneBy h nofun
    exact issued_pruneBy (.inr hby)

/-- **No rule gives a node an identity** that was another one's, or that was not there before. -/
theorem Fires.issued_sublist (h : Fires rationalize node node') :
    node'.issued.Sublist node.issued := by
  cases h with
  | fillRoot h => exact issued_fillRoot? h
  | wrapRoot h => exact issued_wrapRoot? h
  | settle h => exact issued_settle? h
  | canonicalNumber h => exact issued_canonicalNumber? h
  | regroup h => exact issued_regroup? h
  | collapse h => exact issued_collapse? h
  | prune h => exact issued_prune (.inl h)
  | emptyRoot h => exact issued_prune (.inr h)

/-! ### Normalization

A run of normalization is a chain of rules that fire at places in the tree, so what holds of a rule
at its place holds of the run. -/

/-- The identities of a group are no others if those of an operand are no others. -/
theorem issued_operand_sublist (tag : Tag) (before after : List Node)
    (h : node'.issued.Sublist node.issued) :
    (group tag (before ++ node' :: after)).issued.Sublist
      (group tag (before ++ node :: after)).issued := by
  rw [issued_group, issued_group, List.flatMap_append, List.flatMap_append, List.flatMap_cons,
    List.flatMap_cons]
  exact ((h.append_right _).append_left _).append_left _

/-- **Normalization gives no node an identity** that was another one's, or that was not there
before. -/
theorem issued_normalize_sublist (rationalize : Text → Except ValueError Text) (limits : Limits)
    (node : Node) : (node.normalize rationalize limits).2.issued.Sublist node.issued :=
  normalize_induction (motive := fun node node' ↦ node'.issued.Sublist node.issued)
    (fun _ ↦ List.Sublist.refl _) (fun hab hbc ↦ hbc.trans hab) Fires.issued_sublist
    issued_operand_sublist limits node

end EquationSteps.Node
