import EquationSteps.Proofs.Reading.Depth
import EquationSteps.Proofs.Reading.Root

/-!
# How deeply printed trees nest

The text of a regular and compact tree takes exactly as many levels of nesting as the tree has
(`Node.exists_build_contentText_iff`): a leaf takes one, a group one more than the deepest of its
operands, and the parentheses that are printed around a group take none.

**Why no more than that.** The reader takes off one pair of parentheses at the level of what stands
in it, and the printer puts one pair around a group where it needs any. A group of a single operand
is printed as that operand, unless there is a minus, and its text would take fewer levels than the
group has; so the tree has to be compact. And only the text of a regular tree is cut into the texts
of its operands.

A text that is read as a root shows its operands outside of all parentheses, up to one pair around
the text (`Shows`). Read as a root it becomes these terms, or one term that is the product or the
quotient of these operands (`Shows.eq_root`). A product takes one level more than the others, as the
reader goes one level down to read it (`Shows.exists_build_iff`).

**What this is for.** Whether the text of a side is accepted again is a question about the number of
levels, and with these results it is answered by the depth of the side and by which operands it
holds. That a side of an equation is a settled tree is not used here.
-/

namespace EquationSteps

namespace Node

variable {limit levels : Nat} {sign? : Option Sign} {text : Text} {root : Bool}

/-! ### Failure

There is one way in which reading fails, so whether a text is read is all there is to know about a
failure. -/

/-- The reader fails only where a text nests beyond the limit. -/
theorem build_eq_error {cause : TreeError}
    (h : build limit levels sign? text root = .error cause) : cause = .nestingTooDeep limit := by
  induction levels generalizing sign? text root with
  | zero =>
    cases h
    rfl
  | succ levels ih =>
    rw [build_succ_eq] at h
    rcases Except.error_of_bind_eq_error h with h | ⟨read, h⟩
    · obtain ⟨part, -, hpart⟩ := exists_of_mapM'_eq_error h
      exact ih hpart
    · cases h

/-- A text that cannot be read nests too deeply. -/
theorem read_eq_error {limits : Limits} {text : Text} {root : Bool} {cause : TreeError}
    (h : read limits text root = .error cause) : cause = .nestingTooDeep limits.depth := by
  rcases Except.error_of_bind_eq_error h with h | ⟨node, h⟩
  · exact build_eq_error h
  · cases h

/-- The largest depth of some nodes is a bound on all of them, and the least one. -/
theorem maxDepth_le_iff {nodes : List Node} {n : Nat} :
    maxDepth nodes ≤ n ↔ ∀ node ∈ nodes, node.depth ≤ n := by
  induction nodes with
  | nil => simp [maxDepth]
  | cons node nodes ih => rw [maxDepth, Nat.max_le, ih, List.forall_mem_cons]

/-- Factors, and the parts of a quotient, are printed as one term without parentheses. -/
theorem contentText_branch {nodes : List Node} {family : Family}
    (hfamily : (branch .plus nodes).family? = some family) (hsum : family ≠ .sum) :
    (branch .plus nodes).contentText = linksText true nodes := by
  have hfamily : (group (.fresh .plus) nodes).family? = some family := hfamily
  have hparenthesized : isParenthesized (.fresh .plus) nodes = false := by
    rw [isParenthesized, hfamily]
    cases family with
    | sum => exact absurd rfl hsum
    | product => rfl
    | quotient => rfl
  rw [branch, contentText, hparenthesized]
  rfl

/-! ### Levels of printed trees

What the reader goes on with in the text of a group is the texts of its operands, each one level
down. So the levels of a text and the depth of its tree satisfy the same recursion. -/

/-- What the reader goes on with in a chain is the operands, each behind its sign. -/
theorem partsBelow_linksText {family : Family} {nodes : List Node}
    (hsigns : ∀ node ∈ nodes, Family.ofSign node.sign = family)
    (hregular : ∀ node ∈ nodes, node.isRegular = true) (hne : nodes ≠ [])
    (hentered : root = true ∨ text.any isStructural = true) (hnegated : negated? text = none)
    (hstrip : stripParentheses text = linksText true nodes)
    (hfamily : classify (linksText true nodes) = some family)
    (hproduct : ¬(family = .product ∧ root = true)) :
    partsBelow text root = nodes.map fun node ↦ (some node.sign, node.contentText) := by
  rw [← hstrip] at hfamily
  rw [partsBelow_of_classify hentered hnegated hfamily hproduct, hstrip,
    signedOperand_segments_linksText hsigns hregular hne, List.map_map]
  rfl

/-- An operand takes one level. -/
theorem exists_build_operand_iff (htext : isOperandText text = true) :
    (∃ read, build limit levels sign? text false = .ok read) ↔ 1 ≤ levels := by
  cases levels with
  | zero => exact iff_of_false (by rintro ⟨_, h⟩; cases h) (by simp)
  | succ levels =>
    rw [exists_build_succ_iff, partsBelow, if_pos ⟨rfl, any_isStructural_of_operand htext⟩]
    exact iff_of_true (List.forall_mem_nil _) (Nat.le_add_left _ _)

/-- **A printed tree takes as many levels as it has.** -/
theorem exists_build_contentText_iff {node : Node} (hregular : node.isRegular = true)
    (hcompact : node.isCompact = true) :
    (∃ read, build limit levels sign? node.contentText false = .ok read) ↔ node.depth ≤ levels := by
  induction node using Node.induction generalizing levels sign? with
  | atom tag text => exact exists_build_operand_iff (isRegular_atom_iff.1 hregular).2
  | group tag children ih =>
    obtain ⟨-, hchain, hchildren⟩ := isRegular_group_iff.1 hregular
    have hcompactAll := (isCompact_group_iff.1 hcompact).2
    obtain ⟨hne, family, hsigns⟩ := isChain_iff.1 hchain
    obtain ⟨hclassify, hstrip⟩ := classify_contentText hregular hcompact
      (family?_of_forall hne hsigns)
    obtain ⟨c, hmem, hc⟩ := exists_isOperator hregular hcompact
    have hstructural : (group tag children).contentText.any isStructural = true :=
      List.any_eq_true.2 ⟨c, hmem, by rw [isStructural, hc]; rfl⟩
    cases levels with
    | zero => exact iff_of_false (by rintro ⟨_, h⟩; cases h) (by simp [depth])
    | succ levels =>
      rw [exists_build_succ_iff, partsBelow_linksText hsigns hchildren hne (Or.inr hstructural)
        (negated?_contentText hregular) hstrip hclassify (fun h ↦ by cases h.2),
        List.forall_mem_map, depth, Nat.add_comm 1, Nat.add_le_add_iff_right, maxDepth_le_iff]
      exact forall₂_congr fun child hmem ↦
        ih child hmem (hchildren child hmem) (hcompactAll child hmem)

/-- A single operand takes one level as a root. -/
theorem exists_build_operand (htext : isOperandText text = true) :
    ∃ read, build limit (levels + 1) none text true = .ok read := by
  obtain ⟨hnegated, hstrip, hfamily⟩ := of_not_isStructural (any_isStructural_of_operand htext)
  rw [exists_build_succ_iff, partsBelow, if_neg (fun h ↦ by cases h.1), hnegated]
  dsimp only
  rw [hstrip, hfamily]
  dsimp only
  rw [if_neg (not_not_intro hstrip)]
  exact List.forall_mem_nil _

/-- Behind a minus it takes one more. -/
theorem exists_build_minus_iff (htext : isOperandText text = true) :
    (∃ read, build limit (levels + 1) none ('-' :: text) true = .ok read) ↔ 2 ≤ levels + 1 := by
  rw [exists_build_succ_iff, partsBelow, if_neg (fun h ↦ by cases h.1),
    negated?_of_isOperandText htext]
  dsimp only
  rw [List.forall_mem_singleton, exists_build_operand_iff htext]
  exact Nat.succ_le_succ_iff.symm

end Node

/-! ### Texts that show their operands

What the text of a side looks like to the reader. The operands may be the terms of the side, or the
factors or parts of its only term, which is printed without parentheses. -/

/-- A text is a chain of operands, with one pair of parentheses around it at most. -/
structure Shows (text : Text) (nodes : List Node) : Prop where
  /-- No minus is taken off in front. -/
  negated : negated? text = none
  /-- Below its parentheses the text is a printed chain. -/
  strip : stripParentheses text = Node.linksText true nodes
  /-- The operands are regular and of one family. -/
  regular : (Node.branch .plus nodes).isRegular = true
  /-- No group in it would be printed as its only operand. -/
  compact : (Node.branch .plus nodes).isCompact = true

namespace Shows

variable {text : Text} {nodes : List Node} {family : Family} {read : Node}

/-- Each of the operands is regular and compact. -/
theorem child (h : Shows text nodes) :
    ∀ node ∈ nodes, node.isRegular = true ∧ node.isCompact = true := fun node hmem ↦
  ⟨(Node.isRegular_group_iff.1 h.regular).2.2 node hmem,
    (Node.isCompact_group_iff.1 h.compact).2 node hmem⟩

/-- There is an operand. -/
theorem ne_nil (h : Shows text nodes) : nodes ≠ [] :=
  (Node.isChain_iff.1 (Node.isRegular_group_iff.1 h.regular).2.1).1

/-- The reader finds the family of the operands. -/
theorem classify_eq (h : Shows text nodes)
    (hfamily : (Node.branch .plus nodes).family? = some family) :
    classify (stripParentheses text) = some family := by
  rw [h.strip]
  exact (Node.classify_contentText h.regular h.compact hfamily).1

/-- The root that is read from a text, as the chain that the text shows says. -/
def root (family : Family) (nodes : List Node) : Node :=
  if family = .sum then .branch .plus (nodes.map Node.remade)
  else .branch .plus [.branch .plus (nodes.map Node.remade)]

/-- The segments of a text are read as the operands that it shows. -/
theorem parts_eq_remade (h : Shows text nodes) {parts : List (Text × Node)}
    (hsigns : ∀ node ∈ nodes, Family.ofSign node.sign = family)
    (hsegments : segments family (stripParentheses text) = parts.map Prod.fst)
    (hparts : ∀ part ∈ parts, Reads (some (family.signedOperand part.1).1)
      (family.signedOperand part.1).2 part.2) : parts.map Prod.snd = nodes.map Node.remade := by
  have hlinks := Node.signedOperand_segments_linksText hsigns
    (fun node hmem ↦ (h.child node hmem).1) h.ne_nil
  rw [← h.strip, hsegments] at hlinks
  refine Reads.parts_eq_remade hlinks hparts fun node hmem read hread ↦ ?_
  rw [hread.eq_remade (h.child node hmem).1 (h.child node hmem).2]
  exact Node.withSign_remade node

/-- **A text is read as the root that it shows.** -/
theorem eq_root (h : Shows text nodes) (hfamily : (Node.branch .plus nodes).family? = some family)
    (hread : ReadsRoot text read) : read = root family nodes := by
  have hsigns := Node.ofSign_of_isChain (Node.isRegular_group_iff.1 h.regular).2.1 hfamily
  have hclassify := h.classify_eq hfamily
  cases hread with
  | negated hnegated => cases h.negated.symm.trans hnegated
  | product _ hproduct hinner =>
    cases hclassify.symm.trans hproduct
    have hremade : (Node.branch .plus nodes).remade = .branch .plus (nodes.map Node.remade) :=
      Node.remade_group _ _
    rw [h.strip, ← Node.contentText_branch hfamily (by decide)] at hinner
    rw [hinner.eq_remade h.regular h.compact, hremade]
    rfl
  | quotient _ hquotient hsegments hparts =>
    cases hclassify.symm.trans hquotient
    rw [h.parts_eq_remade hsigns hsegments hparts]
    rfl
  | sum _ hsum hsegments hparts =>
    cases hclassify.symm.trans hsum
    rw [h.parts_eq_remade hsigns hsegments hparts]
    rfl
  | nested _ hnone => cases hclassify.symm.trans hnone
  | empty _ hempty =>
    rw [hempty] at hclassify
    cases hclassify
  | operand _ hleaf => cases hclassify.symm.trans (of_not_isStructural hleaf).2.2
  | leftover _ hnone => cases hclassify.symm.trans hnone

/-- **The levels that a root takes** are one more than its operands have, and two more if they are
factors. -/
theorem exists_build_iff {limit levels : Nat} (h : Shows text nodes)
    (hfamily : (Node.branch .plus nodes).family? = some family) :
    (∃ read, Node.build limit levels none text true = .ok read) ↔
      (if family = .product then 2 else 1) + Node.maxDepth nodes ≤ levels := by
  have hsigns := Node.ofSign_of_isChain (Node.isRegular_group_iff.1 h.regular).2.1 hfamily
  have hclassify := h.classify_eq hfamily
  cases levels with
  | zero => exact iff_of_false (by rintro ⟨_, h⟩; cases h) (by split <;> omega)
  | succ levels =>
    rw [Node.exists_build_succ_iff]
    by_cases hproduct : family = .product
    · subst hproduct
      have htext : stripParentheses text = (Node.branch .plus nodes).contentText :=
        h.strip.trans (Node.contentText_branch hfamily (by decide)).symm
      rw [Node.partsBelow_of_product h.negated hclassify, List.forall_mem_singleton, htext,
        Node.exists_build_contentText_iff h.regular h.compact, Node.branch, Node.depth, if_pos rfl]
      omega
    · rw [Node.partsBelow_linksText hsigns (fun node hmem ↦ (h.child node hmem).1)
        h.ne_nil (Or.inl rfl)
        h.negated h.strip (h.strip ▸ hclassify) (fun h ↦ hproduct h.1), List.forall_mem_map,
        if_neg hproduct, Nat.add_comm 1, Nat.add_le_add_iff_right, Node.maxDepth_le_iff]
      exact forall₂_congr fun node hmem ↦
        Node.exists_build_contentText_iff (h.child node hmem).1 (h.child node hmem).2

end Shows

end EquationSteps
