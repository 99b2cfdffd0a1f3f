import EquationSteps.Tree.Basic

/-!
# The shape of trees

Trees as the algorithms expect them. `Node.isRegular` is the shape of a tree below the root: each
group has operands, which are all of one family, each leaf is an operand, and no node is marked as a
root. `Node.isWellFormed` adds the root to it, which is a group of terms or a leaf.

Marks of pending are kept apart from the shape. `Node.marksInSums` says that only terms are pending.
`Node.everyTag` says of all tags of a tree what its argument says of one tag; so the absence of
marks or of identities from a tree is one notion.

**Roots come in two shapes.** A well-formed root holds terms. While a side is normalized its root
may for some time hold factors, or nothing at all, and `Node.isShaped` allows for that. Below the
root there is no difference (`isShaped_iff_isRegular`), so lemmas on operands are lemmas on regular
trees.

**Compact trees** are a matter of printing. A group of one operand without a minus is printed as
that operand, so it cannot be read back, and a tree without such groups is compact. What is read
back of a compact tree is the tree as it would be newly made, `Node.remade`.

**Shapes are computed.** All of these are functions to `Bool`, by recursion on the tree and on lists
of operands, so that a tree at hand can be tested. For proofs there is a lemma for each that unfolds
it at a group and turns the list into a quantifier (`isRegular_group_iff` and the like). No later
proof has to go through the lists again.
-/

/-- Whether a tag is like the one of a new node, the mark of a root apart: it has no identity and is
not pending. -/
def EquationSteps.Tag.isNew (tag : EquationSteps.Tag) : Bool :=
  tag.id.isNone && !tag.pending

namespace EquationSteps.Node

/-- Whether nodes can be the operands of one group: there are some, and all are of one family. -/
def isChain : List Node → Bool
  | [] => false
  | first :: rest => rest.all fun node ↦ Family.ofSign node.sign == Family.ofSign first.sign

mutual

/-- Whether a tree has the shape that trees have below a root. -/
def isRegular : Node → Bool
  | .atom tag text => !tag.root && isOperandText text
  | .group tag children => !tag.root && isChain children && areRegular children

/-- `isRegular` on a list of nodes. -/
def areRegular : List Node → Bool
  | [] => true
  | node :: nodes => isRegular node && areRegular nodes

end

/-- Whether a tree is well-formed: its groups have operands of one family each, its leaves are
operands, and only the topmost node may be a root. A root is a leaf with an additive sign, or a
group of terms that has the sign plus. -/
def isWellFormed : Node → Bool
  | .atom tag text => isOperandText text && (!tag.root || tag.sign.isAdditive)
  | .group tag children =>
    isChain children && areRegular children &&
      (!tag.root || (tag.sign == .plus && children.all fun child ↦ child.sign.isAdditive))

/-- Whether a tree has the shape that trees have while they are normalized. In contrast to a
well-formed tree, a root may hold operands of any family, or none. -/
def isShaped : Node → Bool
  | .atom tag text => isOperandText text && (!tag.root || tag.sign.isAdditive)
  | .group tag children =>
    (isChain children || tag.root && children.isEmpty) && areRegular children &&
      (!tag.root || tag.sign == .plus)

mutual

/-- Whether only children of sums are pending in a tree. -/
def marksInSums : Node → Bool
  | .atom _ _ => true
  | .group tag children =>
    ((group tag children).family? == some .sum || children.all fun child ↦ !child.isPending) &&
      haveMarksInSums children

/-- `marksInSums` on a list of nodes. -/
def haveMarksInSums : List Node → Bool
  | [] => true
  | node :: nodes => marksInSums node && haveMarksInSums nodes

end

mutual

/-- Whether all tags of a tree pass a test. -/
def everyTag (test : Tag → Bool) : Node → Bool
  | .atom tag _ => test tag
  | .group tag children => test tag && everyTags test children

/-- `everyTag` on a list of nodes. -/
def everyTags (test : Tag → Bool) : List Node → Bool
  | [] => true
  | node :: nodes => everyTag test node && everyTags test nodes

end

mutual

/-- Whether each group of a tree has several operands, or a single one with a minus. -/
def isCompact : Node → Bool
  | .atom _ _ => true
  | .group _ children =>
    (decide (1 < children.length) || children.all fun child ↦ child.sign == .minus) &&
      areCompact children

/-- `isCompact` on a list of nodes. -/
def areCompact : List Node → Bool
  | [] => true
  | node :: nodes => isCompact node && areCompact nodes

end

mutual

/-- The tree as it would be newly made, without identities and marks. -/
def remade : Node → Node
  | .atom tag text => leaf tag.sign text
  | .group tag children => branch tag.sign (remadeAll children)

/-- `remade` on a list of nodes. -/
def remadeAll : List Node → List Node
  | [] => []
  | node :: nodes => remade node :: remadeAll nodes

end

/-! ### Lists of nodes

The functions on lists say of all nodes of a list what the functions on nodes say of one, and at a
group they are about its operands. -/

/-- The compact lists. -/
theorem areCompact_iff {nodes : List Node} :
    areCompact nodes = true ↔ ∀ node ∈ nodes, node.isCompact = true := by
  induction nodes with
  | nil => simp [areCompact]
  | cons node nodes ih => simp [areCompact, ih]

/-- Remaking a list is remaking its nodes. -/
theorem remadeAll_eq_map (nodes : List Node) : remadeAll nodes = nodes.map remade := by
  induction nodes with
  | nil => rfl
  | cons node nodes ih => rw [remadeAll, ih, List.map_cons]

/-- The regular lists. -/
theorem areRegular_iff {nodes : List Node} :
    areRegular nodes = true ↔ ∀ node ∈ nodes, node.isRegular = true := by
  induction nodes with
  | nil => simp [areRegular]
  | cons node nodes ih => simp [areRegular, ih]

/-- The lists in which only terms are pending. -/
theorem haveMarksInSums_iff {nodes : List Node} :
    haveMarksInSums nodes = true ↔ ∀ node ∈ nodes, node.marksInSums = true := by
  induction nodes with
  | nil => simp [haveMarksInSums]
  | cons node nodes ih => simp [haveMarksInSums, ih]

/-- The lists of which all tags pass a test. -/
theorem everyTags_iff {test : Tag → Bool} {nodes : List Node} :
    everyTags test nodes = true ↔ ∀ node ∈ nodes, node.everyTag test = true := by
  induction nodes with
  | nil => simp [everyTags]
  | cons node nodes ih => simp [everyTags, ih]

/-- A leaf is regular if it is an operand and not marked as a root. -/
theorem isRegular_atom_iff {tag : Tag} {text : Text} :
    isRegular (.atom tag text) = true ↔ tag.root = false ∧ isOperandText text = true := by
  simp [isRegular]

/-- A group is regular if its operands are, belong to one family, and it is not marked as a root. -/
theorem isRegular_group_iff {tag : Tag} {children : List Node} :
    isRegular (.group tag children) = true ↔
      tag.root = false ∧ isChain children = true ∧ ∀ child ∈ children, child.isRegular = true := by
  simp [isRegular, areRegular_iff, and_assoc]

/-- In a group of factors or parts no operand is pending. -/
theorem marksInSums_group_iff {tag : Tag} {children : List Node} :
    marksInSums (.group tag children) = true ↔
      ((group tag children).family? = some .sum ∨ ∀ child ∈ children, child.isPending = false) ∧
        ∀ child ∈ children, child.marksInSums = true := by
  simp [marksInSums, haveMarksInSums_iff]

/-- The tags of a group are its own and those of its operands. -/
theorem everyTag_group_iff {test : Tag → Bool} {tag : Tag} {children : List Node} :
    everyTag test (.group tag children) = true ↔
      test tag = true ∧ ∀ child ∈ children, child.everyTag test = true := by
  simp [everyTag, everyTags_iff]

/-- A group is compact if its operands are, and if there are several of them or a minus shows. -/
theorem isCompact_group_iff {tag : Tag} {children : List Node} :
    isCompact (.group tag children) = true ↔
      (1 < children.length ∨ ∀ child ∈ children, child.sign = .minus) ∧
        ∀ child ∈ children, child.isCompact = true := by
  simp [isCompact, areCompact_iff]

/-- Remaking a group is remaking its operands. -/
@[simp] theorem remade_group (tag : Tag) (children : List Node) :
    remade (.group tag children) = branch tag.sign (children.map remade) := by
  rw [remade, remadeAll_eq_map]

/-- The sign stays when a node is remade. -/
@[simp] theorem sign_remade (node : Node) : node.remade.sign = node.sign := by
  cases node <;> rfl

/-- A remade node has its sign already. -/
theorem withSign_remade (node : Node) : node.remade.withSign node.sign = node.remade := by
  cases node <;> rfl

/-- A regular tree of new nodes is as it would be newly made. -/
theorem remade_eq_self {node : Node} (hregular : node.isRegular = true)
    (hnew : node.everyTag Tag.isNew = true) : node.remade = node := by
  have htag : ∀ tag : Tag, tag.root = false → tag.isNew = true → .fresh tag.sign = tag := by
    rintro ⟨id, sign, root, pending⟩ hroot hnew
    cases id <;> cases pending <;> simp_all [Tag.isNew, Tag.fresh]
  induction node using Node.induction with
  | atom tag text => rw [remade, leaf, htag tag (isRegular_atom_iff.1 hregular).1 hnew]
  | group tag children ih =>
    obtain ⟨hroot, -, hchildren⟩ := isRegular_group_iff.1 hregular
    obtain ⟨hnewTag, hnewAll⟩ := everyTag_group_iff.1 hnew
    have hsame : children.map remade = children :=
      (List.map_congr_left fun child hmem ↦
        ih child hmem (hchildren child hmem) (hnewAll child hmem)).trans (List.map_id _)
    rw [remade_group, hsame, branch, htag tag hroot hnewTag]

/-- The tag of a tree passes the test that all of its tags pass. -/
theorem tag_of_everyTag {test : Tag → Bool} {node : Node} (h : node.everyTag test = true) :
    test node.tag = true := by
  cases node with
  | atom tag text => exact h
  | group tag children => exact (everyTag_group_iff.1 h).1

/-- A weaker test is passed as well. -/
theorem everyTag_mono {test test' : Tag → Bool} (h : ∀ tag, test tag = true → test' tag = true)
    {node : Node} (hnode : node.everyTag test = true) : node.everyTag test' = true := by
  induction node using Node.induction with
  | atom tag text => exact h tag hnode
  | group tag children ih =>
    obtain ⟨htag, hchildren⟩ := everyTag_group_iff.1 hnode
    exact everyTag_group_iff.2 ⟨h tag htag, fun child hmem ↦ ih child hmem (hchildren child hmem)⟩

/-- Freshly made nodes are new. -/
theorem isNew_of_isFresh {node : Node}
    (h : node.everyTag (fun tag ↦ tag == .fresh tag.sign) = true) :
    node.everyTag Tag.isNew = true :=
  everyTag_mono (fun tag htag ↦ by rw [beq_iff_eq.1 htag]; rfl) h

/-- A new tree has no marks. -/
theorem isPending_of_isNew {node : Node} (h : node.everyTag Tag.isNew = true) :
    node.isPending = false := by
  obtain ⟨-, hpending⟩ := Bool.and_eq_true_iff.1 (tag_of_everyTag h)
  simpa [isPending] using hpending

/-- In a new tree nothing is pending, in sums or elsewhere. -/
theorem marksInSums_of_isNew {node : Node} (h : node.everyTag Tag.isNew = true) :
    node.marksInSums = true := by
  induction node using Node.induction with
  | atom tag text => rfl
  | group tag children ih =>
    have hchildren := (everyTag_group_iff.1 h).2
    exact marksInSums_group_iff.2
      ⟨Or.inr fun child hmem ↦ isPending_of_isNew (hchildren child hmem),
        fun child hmem ↦ ih child hmem (hchildren child hmem)⟩

/-- A regular tree is not marked as a root. -/
theorem isRoot_of_isRegular {node : Node} (h : node.isRegular = true) : node.isRoot = false := by
  cases node with
  | atom tag text => exact (isRegular_atom_iff.1 h).1
  | group tag children => exact (isRegular_group_iff.1 h).1

/-- The leaves of a regular tree are operands. -/
theorem isValid_of_isRegular {node : Node} (h : node.isRegular = true) : node.isValid = true := by
  induction node using Node.induction with
  | atom tag text => exact (isRegular_atom_iff.1 h).2
  | group tag children ih =>
    rw [isValid, areValid_eq_all, List.all_eq_true]
    exact fun child hmem ↦ ih child hmem ((isRegular_group_iff.1 h).2.2 child hmem)

/-- So are those of a well-formed one. -/
theorem isValid_of_isWellFormed {node : Node} (h : node.isWellFormed = true) :
    node.isValid = true := by
  cases node with
  | atom tag text => exact (Bool.and_eq_true_iff.1 h).1
  | group tag children =>
    obtain ⟨⟨-, hregular⟩, -⟩ := by simpa only [isWellFormed, Bool.and_eq_true] using h
    rw [isValid, areValid_eq_all, List.all_eq_true]
    exact fun child hmem ↦ isValid_of_isRegular (areRegular_iff.1 hregular child hmem)

/-! ### Shaped trees

The shape of a side while it is normalized, which the passes keep. -/

/-- A group is shaped if its operands are regular and of one family, or if it is an empty root; and
the sign of a root is plus. -/
theorem isShaped_group_iff {tag : Tag} {children : List Node} :
    isShaped (.group tag children) = true ↔
      (isChain children = true ∨ tag.root = true ∧ children = []) ∧
        (∀ child ∈ children, child.isRegular = true) ∧ (tag.root = true → tag.sign = .plus) := by
  cases hroot : tag.root <;> simp [isShaped, areRegular_iff, and_assoc, hroot]

/-- Below a root the shape is that of regular trees. -/
theorem isShaped_iff_isRegular {node : Node} (hroot : node.isRoot = false) :
    node.isShaped = true ↔ node.isRegular = true := by
  cases node with
  | atom tag text =>
    have htag : tag.root = false := hroot
    simp [isShaped, isRegular, htag]
  | group tag children =>
    have htag : tag.root = false := hroot
    simp [isShaped, isRegular, htag]

/-- The operands of a shaped group are regular. -/
theorem isRegular_of_isShaped_group {tag : Tag} {children : List Node}
    (h : isShaped (.group tag children) = true) : ∀ child ∈ children, child.isRegular = true :=
  (isShaped_group_iff.1 h).2.1

/-- A well-formed tree is shaped. -/
theorem isShaped_of_isWellFormed {node : Node} (h : node.isWellFormed = true) :
    node.isShaped = true := by
  cases node with
  | atom tag text => exact h
  | group tag children =>
    obtain ⟨⟨hchain, hregular⟩, hroot⟩ := by simpa only [isWellFormed, Bool.and_eq_true] using h
    refine isShaped_group_iff.2 ⟨Or.inl hchain, areRegular_iff.1 hregular, fun hmark ↦ ?_⟩
    rw [hmark] at hroot
    exact beq_iff_eq.1 (Bool.and_eq_true_iff.1 hroot).1

/-! ### Contents

Nodes whose content is taken over under another tag, as happens when parentheses are dropped or a
sign is moved. -/

/-- Changing the tag of a node changes nothing below it. -/
theorem marksInSums_mapTag (f : Tag → Tag) (node : Node) :
    (node.mapTag f).marksInSums = node.marksInSums := by
  cases node <;> rfl

/-- Changing the tag keeps the shape, if the mark of a root is kept. -/
theorem isRegular_mapTag {f : Tag → Tag} {node : Node}
    (hroot : (f node.tag).root = node.tag.root) :
    (node.mapTag f).isRegular = node.isRegular := by
  cases node with
  | atom tag text =>
    have htag : (f tag).root = tag.root := hroot
    rw [mapTag, isRegular, isRegular, htag]
  | group tag children =>
    have htag : (f tag).root = tag.root := hroot
    rw [mapTag, isRegular, isRegular, htag]

/-- The marks below a node are those of its content. -/
theorem marksInSums_ofContent (tag : Tag) (node : Node) :
    (ofContent tag node.content).marksInSums = node.marksInSums := by
  cases node <;> rfl

/-- A node with another tag is as valid as it was. -/
theorem isValid_ofContent (tag : Tag) (node : Node) :
    (ofContent tag node.content).isValid = node.isValid := by
  cases node <;> rfl

/-- The content of a regular node is regular under any tag that is not the one of a root. -/
theorem isRegular_ofContent {tag : Tag} {node : Node} (hroot : tag.root = false)
    (h : node.isRegular = true) : (ofContent tag node.content).isRegular = true := by
  cases node with
  | atom _ text => exact isRegular_atom_iff.2 ⟨hroot, (isRegular_atom_iff.1 h).2⟩
  | group _ children => exact isRegular_group_iff.2 ⟨hroot, (isRegular_group_iff.1 h).2⟩

/-- If the new tag passes a test, then all tags still do. -/
theorem everyTag_ofContent {test : Tag → Bool} {tag : Tag} {node : Node} (htag : test tag = true)
    (h : node.everyTag test = true) : (ofContent tag node.content).everyTag test = true := by
  cases node with
  | atom _ text => exact htag
  | group _ children => exact everyTag_group_iff.2 ⟨htag, (everyTag_group_iff.1 h).2⟩

/-! ### Groups by family

The operands of a chain are of one family, which the group takes from its first operand. -/

/-- What the operands of a group have in common is the family of each of them. -/
theorem isChain_iff {nodes : List Node} :
    isChain nodes = true ↔
      nodes ≠ [] ∧ ∃ family, ∀ node ∈ nodes, Family.ofSign node.sign = family := by
  cases nodes with
  | nil => simp [isChain]
  | cons first rest =>
    simp only [isChain, List.all_eq_true, beq_iff_eq, ne_eq, reduceCtorEq, not_false_eq_true,
      true_and, List.forall_mem_cons]
    constructor
    · exact fun h ↦ ⟨_, rfl, h⟩
    · rintro ⟨family, hfirst, hrest⟩ node hmem
      rw [hrest node hmem, hfirst]

/-- Nodes of one family can be operands of one group. -/
theorem isChain_of_family {nodes : List Node} {family : Family} (hne : nodes ≠ [])
    (h : ∀ node ∈ nodes, Family.ofSign node.sign = family) : isChain nodes = true :=
  isChain_iff.2 ⟨hne, family, h⟩

/-- The operands of a group are of the group's family. -/
theorem ofSign_of_isChain {tag : Tag} {children : List Node} {family : Family}
    (hchain : isChain children = true) (hfamily : (group tag children).family? = some family) :
    ∀ child ∈ children, Family.ofSign child.sign = family := by
  obtain ⟨-, family', h⟩ := isChain_iff.1 hchain
  cases children with
  | nil => cases hchain
  | cons first rest =>
    have hfirst : Family.ofSign first.sign = family := Option.some.inj hfamily
    rw [← hfirst, h first List.mem_cons_self]
    exact h

/-- The family of a group is the one that its operands have in common. -/
theorem family?_of_forall {tag : Tag} {children : List Node} {family : Family}
    (hne : children ≠ []) (h : ∀ child ∈ children, Family.ofSign child.sign = family) :
    (group tag children).family? = some family := by
  cases children with
  | nil => exact absurd rfl hne
  | cons first rest => exact congrArg some (h first List.mem_cons_self)

/-- A shaped group is a chain unless it is empty. -/
theorem isChain_of_isShaped {tag : Tag} {children : List Node}
    (hshaped : (group tag children).isShaped = true) (hne : children ≠ []) :
    isChain children = true :=
  (isShaped_group_iff.1 hshaped).1.resolve_right fun hempty ↦ hne hempty.2

/-- The operands of a shaped group are of its family. -/
theorem ofSign_of_isShaped {tag : Tag} {children : List Node} {family : Family}
    (hshaped : (group tag children).isShaped = true)
    (hfamily : (group tag children).family? = some family) :
    ∀ child ∈ children, Family.ofSign child.sign = family := by
  intro child hmem
  exact ofSign_of_isChain (isChain_of_isShaped hshaped (List.ne_nil_of_mem hmem)) hfamily child hmem

/-- What holds of all operands holds of them with one exchanged, if it holds of the new one. -/
theorem forall_mem_exchange {property : Node → Prop} {before after : List Node} {node node' : Node}
    (h : ∀ child ∈ before ++ node :: after, property child) (hnode : property node') :
    ∀ child ∈ before ++ node' :: after, property child := by
  obtain ⟨hbefore, hrest⟩ := List.forall_mem_append.1 h
  exact List.forall_mem_append.2
    ⟨hbefore, List.forall_mem_cons.2 ⟨hnode, (List.forall_mem_cons.1 hrest).2⟩⟩

/-- A chain has a family. -/
theorem exists_family?_of_isChain {tag : Tag} {children : List Node}
    (h : isChain children = true) : ∃ family, (group tag children).family? = some family := by
  cases children with
  | nil => cases h
  | cons first rest => exact ⟨_, rfl⟩

end EquationSteps.Node

namespace EquationSteps.Family

/-- Only a factor belongs to a product, -/
theorem ofSign_eq_product_iff {sign : Sign} : ofSign sign = product ↔ sign = .times := by
  cases sign <;> simp [ofSign]

/-- and only a part to a quotient. -/
theorem ofSign_eq_quotient_iff {sign : Sign} : ofSign sign = quotient ↔ sign = .divide := by
  cases sign <;> simp [ofSign]

end EquationSteps.Family
