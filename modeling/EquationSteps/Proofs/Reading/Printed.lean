import EquationSteps.Proofs.Reading.Acceptance
import EquationSteps.Tree.Printer

/-!
# Reading printed trees

The text of a regular tree is an expression: what is printed behind a sign is an operand of the
sign's family (`Node.generates_contentText`), and the text of a chain of operands is of the category
of their family (`Node.generates_linksText`). No parentheses are missing, so a tree that is compact
as well is read back as it was, identities and marks apart (`Reads.eq_remade`). Groups of one
operand are not, since nothing of them is printed; only a single operand with a minus leaves its
sign behind.

**What has to fit together.** The printer decides about three things: which signs are written out,
where parentheses are put, and in which order. For each of them the reader has to come to the same
conclusion from the text alone.

* The first sign of a chain is printed only if it is a minus. Without it the reader assumes the
  default sign of the family, so the first operand of a regular chain has the one or the other
  (`Node.signedOperand_link`).
* The operators of a chain are found outside of all parentheses, so they have to tell the family
  (`Node.classify_linksText`). A group within a chain has parentheses around it if its own operators
  would mislead the reader.
* A minus in front of a text is taken off only if there is no operator behind it. The text of a
  group has one (`Node.exists_isOperator`), so this happens to nothing but a leaf.

**A newly made tree.** What is read back has no identities and no marks and is otherwise the tree
that was printed. `Node.remade` is this tree. As the sign of a node is no part of its text, what is
read has the sign that stood in front of the text instead.
-/

namespace EquationSteps

namespace Generates

variable {lenient : Bool} {text : Text}

/-! ### Operands -/

/-- A factor is an operand of every family. -/
theorem operand_of_factor (h : Generates lenient .factor text) (family : Family) :
    Generates lenient family.operandCategory text := by
  cases family with
  | sum => exact product_of_quotient (quotient_of_factor h)
  | product => exact quotient_of_factor h
  | quotient => exact h

/-- A chain of any family is a sum. -/
theorem sum_of_category {family : Family} (h : Generates lenient family.category text) :
    Generates lenient .sum text := by
  cases family with
  | sum => exact h
  | product => exact sum_of_term (.unsigned h)
  | quotient => exact sum_of_term (.unsigned (product_of_quotient h))

/-- In the grammar proper each operand starts with something other than an operator: signs in front
of an operand are not part of it. -/
theorem exists_cons_of_operand {family : Family} (h : Generates false family.operandCategory text) :
    ∃ c rest, text = c :: rest ∧ isOperator c = false := by
  cases family with
  | sum =>
    cases h with
    | product hfirst _ _ =>
      obtain ⟨c, rest, rfl, hc⟩ := hfirst.exists_cons_of_quotient
      exact ⟨c, _, rfl, hc⟩
    | strayProduct hlenient => cases hlenient
  | product => exact exists_cons_of_quotient h
  | quotient => exact exists_cons_of_quotient (quotient_of_factor h)

end Generates

namespace Node

/-! ### Chains of links

The printed text of operands is a chain in the sense of the grammar, whose first operand has its
sign in front if that sign is a minus. -/

/-- The links of a chain behind its first one all show their signs, so they are links in the sense
of the grammar. -/
theorem linksText_false (nodes : List Node) : linksText false nodes =
    (nodes.map fun node ↦ (node.sign, node.contentText)).flatMap
      fun link ↦ link.1.symbol :: link.2 := by
  induction nodes with
  | nil => rfl
  | cons node nodes ih => rw [linksText, ih]; rfl

/-- A printed chain is the text of its first operand and the links behind it. -/
theorem linksText_cons (first : Node) (rest : List Node) : linksText true (first :: rest) =
    chainText (linkSign true first.sign ++ first.contentText)
      (rest.map fun node ↦ (node.sign, node.contentText)) := by
  rw [linksText, linksText_false, chainText]

/-- In front of a chain no other sign than a minus is printed. -/
theorem linkSign_of_ne_minus {sign : Sign} (h : sign ≠ .minus) : linkSign true sign = [] := by
  simp [linkSign, h]

/-- The text of operands of one family is of the category of the family. A minus in front of the
first one is a sign in front of the first term. -/
theorem generates_linksText {nodes : List Node} {family : Family} (hne : nodes ≠ [])
    (hfamily : ∀ node ∈ nodes, Family.ofSign node.sign = family)
    (h : ∀ node ∈ nodes, Generates false family.operandCategory node.contentText) :
    Generates false family.category (linksText true nodes) := by
  cases nodes with
  | nil => exact absurd rfl hne
  | cons first rest =>
    obtain ⟨hfirstFamily, hrestFamily⟩ := List.forall_mem_cons.1 hfamily
    obtain ⟨hfirst, hrest⟩ := List.forall_mem_cons.1 h
    have hsigns : ∀ link ∈ rest.map (fun node ↦ (node.sign, node.contentText)),
        Family.ofSign link.1 = family := by
      intro link hmem
      obtain ⟨node, hnode, rfl⟩ := List.mem_map.1 hmem
      exact hrestFamily node hnode
    have hlinks : ∀ link ∈ rest.map (fun node ↦ (node.sign, node.contentText)),
        Generates false (.signed family.operandCategory) link.2 := by
      intro link hmem
      obtain ⟨node, hnode, rfl⟩ := List.mem_map.1 hmem
      exact .unsigned (hrest node hnode)
    rw [linksText_cons]
    cases family with
    | sum =>
      have hterm : Generates false (.signed .product)
          (linkSign true first.sign ++ first.contentText) := by
        by_cases hminus : first.sign = .minus
        · rw [hminus]
          show Generates false (.signed .product) (Sign.minus.symbol :: first.contentText)
          exact .sign rfl (.unsigned hfirst)
        · rw [linkSign_of_ne_minus hminus]
          exact .unsigned hfirst
      exact .sum hterm (fun link hmem ↦ Family.ofSign_eq_sum_iff.1 (hsigns link hmem)) hlinks
    | product =>
      rw [linkSign_of_ne_minus (by rw [Family.ofSign_eq_product_iff.1 hfirstFamily]; decide)]
      exact .product hfirst
        (fun link hmem ↦ Family.ofSign_eq_product_iff.1 (hsigns link hmem)) hlinks
    | quotient =>
      rw [linkSign_of_ne_minus (by rw [Family.ofSign_eq_quotient_iff.1 hfirstFamily]; decide)]
      exact .quotient hfirst (fun link hmem ↦ Family.ofSign_eq_quotient_iff.1 (hsigns link hmem))
        hlinks

/-! ### Printed trees are expressions

By induction over the tree. A group within a chain is printed in parentheses unless its category is
small enough to stand there without them. -/

/-- What is printed behind a sign is an operand of the sign's family. A group is printed in
parentheses, and then it is a factor, or without them if its operators bind more tightly than the
sign. -/
theorem generates_contentText {node : Node} (h : node.isRegular = true) :
    Generates false (Family.ofSign node.sign).operandCategory node.contentText := by
  induction node using Node.induction with
  | atom tag text => exact (Generates.operand (isRegular_atom_iff.1 h).2).operand_of_factor _
  | group tag children ih =>
    obtain ⟨hroot, hchain, hchildren⟩ := isRegular_group_iff.1 h
    obtain ⟨hne, family, hfamily⟩ := isChain_iff.1 hchain
    have hlinks := generates_linksText hne hfamily fun child hmem ↦ by
      rw [← hfamily child hmem]
      exact ih child hmem (hchildren child hmem)
    have hfactor : Generates false .factor ('(' :: (linksText true children ++ [')'])) :=
      .parenthesized hlinks.sum_of_category
    rw [contentText]
    split
    · exact hfactor.operand_of_factor _
    · rename_i hparenthesized
      rw [isParenthesized, hroot, family?_of_forall hne hfamily] at hparenthesized
      change Generates false (Family.ofSign tag.sign).operandCategory _
      cases family with
      | sum => exact absurd rfl hparenthesized
      | product =>
        have hsum : Family.ofSign tag.sign = .sum := by
          rw [Family.ofSign_eq_sum_iff]
          simpa using hparenthesized
        rw [hsum]
        exact hlinks
      | quotient =>
        cases hsign : tag.sign with
        | plus => exact hlinks.product_of_quotient
        | minus => exact hlinks.product_of_quotient
        | times => exact hlinks
        | divide => simp [hsign] at hparenthesized

/-- The text of a content starts with something other than an operator. -/
theorem exists_cons_of_contentText {node : Node} (h : node.isRegular = true) :
    ∃ c rest, node.contentText = c :: rest ∧ isOperator c = false :=
  (generates_contentText h).exists_cons_of_operand

/-- So no minus is taken off in front of it. -/
theorem negated?_contentText {node : Node} (h : node.isRegular = true) :
    negated? node.contentText = none := by
  obtain ⟨c, rest, htext, hc⟩ := exists_cons_of_contentText h
  cases hnegated : negated? node.contentText with
  | none => rfl
  | some operand =>
    obtain ⟨hminus, -⟩ := negated?_eq_some_iff.1 hnegated
    rw [htext] at hminus
    obtain ⟨rfl, -⟩ := List.cons.inj hminus
    cases hc

/-! ### Finding the links again

The reader's way through the text of a group: it takes off the parentheses if there are any, finds
the family, and cuts the text into the links of the chain. -/

section Links

variable {nodes : List Node} {family : Family}

/-- The family of a chain is found in its text, unless it is a single operand without a minus. That
one shows no sign of the family at all. -/
theorem classify_linksText (hfamily : ∀ node ∈ nodes, Family.ofSign node.sign = family)
    (hregular : ∀ node ∈ nodes, node.isRegular = true) (hne : nodes ≠ [])
    (hseveral : 1 < nodes.length ∨ ∀ node ∈ nodes, node.sign = .minus) :
    classify (linksText true nodes) = some family := by
  have hoperands : ∀ node ∈ nodes, Generates false family.operandCategory node.contentText :=
    fun node hmem ↦ hfamily node hmem ▸ generates_contentText (hregular node hmem)
  have htext := generates_linksText hne hfamily hoperands
  cases nodes with
  | nil => exact absurd rfl hne
  | cons first rest =>
    rcases hseveral with hseveral | hminus
    · -- the sign of the second operand is a mark of the family
      have hrest : rest.map (fun node ↦ (node.sign, node.contentText)) ≠ [] := by
        intro hnil
        rw [List.map_eq_nil_iff.1 hnil, List.length_singleton] at hseveral
        omega
      have hfirst := hoperands first List.mem_cons_self
      have hbalanced : IsBalanced (linkSign true first.sign ++ first.contentText) := by
        by_cases hsign : first.sign = .minus
        · rw [hsign]
          exact hfirst.isBalanced.symbol .minus
        · rw [linkSign_of_ne_minus hsign]
          exact hfirst.isBalanced
      obtain ⟨c, hc, link, hlink, hmem⟩ := exists_mem_outside_chainText hrest hbalanced
        (hfirst.endsInOperand.append _) none
      obtain ⟨node, hnode, rfl⟩ := List.mem_map.1 hlink
      have hsign := hfamily node (List.mem_cons_of_mem _ hnode)
      rw [← linksText_cons] at hmem
      dsimp only at hmem
      cases family with
      | sum =>
        refine classify_eq_sum_iff.2 ⟨_, hmem, ?_⟩
        have hadditive := symbol_isAdditive_iff.1 (Family.ofSign_eq_sum_iff.1 hsign)
        simpa [isBinarySign, follows, hc] using hadditive
      | product =>
        rw [Family.ofSign_eq_product_iff.1 hsign] at hmem
        exact classify_eq_product_iff.2 ⟨htext.isBinarySign_eq_false rfl rfl, _, hmem, rfl⟩
      | quotient =>
        rw [Family.ofSign_eq_quotient_iff.1 hsign] at hmem
        refine classify_eq_quotient_iff.2
          ⟨htext.isBinarySign_eq_false rfl rfl, fun mark hmark ↦ ?_, _, hmem, rfl⟩
        have hexcludes : (mark.2 == '*') = false := (htext.admits none mark hmark).excludes
        exact beq_eq_false_iff_ne.1 hexcludes
    -- a minus in front of all is a mark that only sums have
    · have hsign := hminus first List.mem_cons_self
      have hsum := hfamily first List.mem_cons_self
      rw [hsign] at hsum
      subst hsum
      refine classify_eq_sum_iff.2 ⟨(none, '-'), ?_, rfl⟩
      rw [linksText, hsign]
      exact List.mem_cons_self

end Links

/-- The text of a group is the one of its operands, with at most one pair of parentheses, and shows
the family of the group. -/
theorem classify_contentText {tag : Tag} {children : List Node} {family : Family}
    (hregular : (group tag children).isRegular = true)
    (hcompact : (group tag children).isCompact = true)
    (hfamily : (group tag children).family? = some family) :
    classify (linksText true children) = some family ∧
      stripParentheses (group tag children).contentText = linksText true children := by
  obtain ⟨-, hchain, hchildren⟩ := isRegular_group_iff.1 hregular
  have hsigns := ofSign_of_isChain hchain hfamily
  have hne := (isChain_iff.1 hchain).1
  have hclassify := classify_linksText hsigns hchildren hne (isCompact_group_iff.1 hcompact).1
  have hlinks := generates_linksText hne hsigns fun child hmem ↦
    hsigns child hmem ▸ generates_contentText (hchildren child hmem)
  refine ⟨hclassify, ?_⟩
  rw [contentText]
  split
  · exact stripParentheses_parenthesized hlinks.isBalanced
  · exact stripParentheses_of_classify hclassify

/-- A group has an operator in its text: the sign of its second operand, or a minus in front of the
only one. -/
theorem exists_isOperator {tag : Tag} {children : List Node}
    (hregular : (group tag children).isRegular = true)
    (hcompact : (group tag children).isCompact = true) :
    ∃ c ∈ (group tag children).contentText, isOperator c = true := by
  obtain ⟨family, hfamily⟩ : ∃ family, (group tag children).family? = some family :=
    exists_family?_of_isChain (isRegular_group_iff.1 hregular).2.1
  obtain ⟨hclassify, -⟩ := classify_contentText hregular hcompact hfamily
  have hlinks : ∃ c ∈ linksText true children, isOperator c = true := by
    refine Decidable.byContradiction fun hnone ↦ ?_
    have hoperator : ∀ c ∈ linksText true children, isOperator c = false := fun c hmem ↦
      Bool.eq_false_iff.2 fun hc ↦ hnone ⟨c, hmem, hc⟩
    cases (classify_of_not_isOperator hoperator).symm.trans hclassify
  obtain ⟨c, hmem, hc⟩ := hlinks
  refine ⟨c, ?_, hc⟩
  rw [contentText]
  split
  · exact List.mem_cons_of_mem _ (List.mem_append_left _ hmem)
  · exact hmem

/-- A text with a minus in front of an operand is read as the operand negated. -/
theorem negated?_of_isOperandText {text : Text} (h : isOperandText text = true) :
    negated? ('-' :: text) = some text := by
  have hoperator : ∀ c ∈ text, isOperator c = false := fun c hmem ↦
    (isOperator_of_isStructural (isStructural_of_mem_operand h hmem)).1
  exact negated?_eq_some_iff.2 ⟨rfl, hoperator⟩

/-- A text with an operator behind its first character is not read as a negated leaf. -/
theorem negated?_of_isOperator {text : Text} {c : Char} (hmem : c ∈ text.tail)
    (hc : isOperator c = true) : negated? text = none := by
  cases hnegated : negated? text with
  | none => rfl
  | some operand =>
    obtain ⟨rfl, hoperand⟩ := negated?_eq_some_iff.1 hnegated
    cases hc.symm.trans (hoperand c hmem)

/-- Nor is a minus taken off in front of a chain of several operands, even if one is there. -/
theorem negated?_linksText {first second : Node} {rest : List Node} (h : first.isRegular = true) :
    negated? (linksText true (first :: second :: rest)) = none := by
  obtain ⟨c, tail, htext, -⟩ := exists_cons_of_contentText h
  have hoperator : isOperator second.sign.symbol = true := by cases second.sign <;> rfl
  refine negated?_of_isOperator ?_ hoperator
  rw [linksText, linksText, htext]
  cases linkSign true first.sign <;> simp [linkSign]

section Links

variable {nodes : List Node} {family : Family}

/-- A link that shows its sign or has the default one is read as its sign and its content. The
content does not start with an operator, so no part of it is taken for a sign. -/
theorem signedOperand_link {node : Node} (hregular : node.isRegular = true)
    (hfamily : Family.ofSign node.sign = family) :
    family.signedOperand (linkSign true node.sign ++ node.contentText) =
      (node.sign, node.contentText) := by
  by_cases hminus : node.sign = .minus
  · rw [hminus]
    exact Family.signedOperand_symbol _ .minus _
  · obtain ⟨c, rest, htext, hc⟩ := exists_cons_of_contentText hregular
    rw [linkSign_of_ne_minus hminus, List.nil_append, htext,
      Family.signedOperand_of_not_isOperator hc, ← hfamily]
    cases hsign : node.sign with
    | minus => exact absurd hsign hminus
    | _ => rfl

/-- The segments of the text of a chain are its links. The contents are operands of the family,
which it does not cut, and end in something that a sign can follow. -/
theorem signedOperand_segments_linksText
    (hfamily : ∀ node ∈ nodes, Family.ofSign node.sign = family)
    (hregular : ∀ node ∈ nodes, node.isRegular = true) (hne : nodes ≠ []) :
    (segments family (linksText true nodes)).map family.signedOperand =
      nodes.map fun node ↦ (node.sign, node.contentText) := by
  have hoperands : ∀ node ∈ nodes, Generates false family.operandCategory node.contentText :=
    fun node hmem ↦ hfamily node hmem ▸ generates_contentText (hregular node hmem)
  cases nodes with
  | nil => exact absurd rfl hne
  | cons first rest =>
    obtain ⟨hfirstFamily, hrestFamily⟩ := List.forall_mem_cons.1 hfamily
    obtain ⟨hfirst, hrest⟩ := List.forall_mem_cons.1 hoperands
    have hlinks : ∀ link ∈ rest.map (fun node ↦ (node.sign, node.contentText)),
        Family.ofSign link.1 = family ∧
          Generates false (.signed family.operandCategory) link.2 := by
      intro link hmem
      obtain ⟨node, hnode, rfl⟩ := List.mem_map.1 hmem
      exact ⟨hrestFamily node hnode, .unsigned (hrest node hnode)⟩
    have hterm : Generates false (.signed family.operandCategory)
        (linkSign true first.sign ++ first.contentText) := by
      by_cases hminus : first.sign = .minus
      · rw [hminus]
        show Generates false (.signed _) (Sign.minus.symbol :: first.contentText)
        exact .sign rfl (.unsigned hfirst)
      · rw [linkSign_of_ne_minus hminus]
        exact .unsigned hfirst
    rw [linksText_cons, segments_chainText hterm.isBalanced hterm.endsInOperand
      (hterm.isUncut (Or.inl rfl)) (fun link hmem ↦ (hlinks link hmem).1)
      (fun link hmem ↦ (hlinks link hmem).2.isBalanced)
      (fun link hmem ↦ (hlinks link hmem).2.isUncut (Or.inr ⟨_, rfl⟩))
      (fun link hmem ↦ (hlinks link hmem).2.endsInOperand), List.map_cons,
      signedOperand_link (hregular first List.mem_cons_self) hfirstFamily, List.map_map,
      List.map_map, List.map_cons]
    congr 1
    exact List.map_congr_left fun node _ ↦ Family.signedOperand_symbol _ _ _

end Links

end Node

/-! ### Reading the links

What is known about cutting a printed chain, put together with what is known about reading its
operands. -/

/-- Segments that are read as the links of a chain are read as the operands of the chain. -/
theorem Reads.parts_eq_remade {family : Family} {parts : List (Text × Node)} {nodes : List Node}
    (hlinks : (parts.map Prod.fst).map family.signedOperand =
      nodes.map fun node ↦ (node.sign, node.contentText))
    (hparts : ∀ part ∈ parts, Reads (some (family.signedOperand part.1).1)
      (family.signedOperand part.1).2 part.2)
    (hnodes : ∀ node ∈ nodes, ∀ {read : Node}, Reads (some node.sign) node.contentText read →
      read = node.remade) : parts.map Prod.snd = nodes.map Node.remade := by
  induction nodes generalizing parts with
  | nil =>
    rw [List.map_nil, List.map_eq_nil_iff, List.map_eq_nil_iff] at hlinks
    rw [hlinks]
    rfl
  | cons node nodes ih =>
    cases parts with
    | nil => cases hlinks
    | cons part parts =>
      rw [List.map_cons, List.map_cons, List.map_cons, List.cons.injEq] at hlinks
      obtain ⟨hlink, hlinks⟩ := hlinks
      obtain ⟨hpart, hparts⟩ := List.forall_mem_cons.1 hparts
      obtain ⟨hnode, hnodes⟩ := List.forall_mem_cons.1 hnodes
      rw [hlink] at hpart
      rw [List.map_cons, List.map_cons, hnode hpart, ih hlinks hparts hnodes]

/-- A text without operators and parentheses has no structure to find. -/
theorem of_not_isStructural {text : Text} (h : text.any isStructural = false) :
    negated? text = none ∧ stripParentheses text = text ∧ classify text = none := by
  have hstructural : ∀ c ∈ text, isStructural c = false := fun c hmem ↦ by
    simpa using List.any_eq_false.1 h c hmem
  have hoperator : ∀ c ∈ text, isOperator c = false := fun c hmem ↦
    (isOperator_of_isStructural (hstructural c hmem)).1
  refine ⟨?_, ?_, classify_of_not_isOperator hoperator⟩
  · cases hnegated : negated? text with
    | none => rfl
    | some operand =>
      obtain ⟨rfl, -⟩ := negated?_eq_some_iff.1 hnegated
      cases hstructural '-' List.mem_cons_self
  · refine Decidable.byContradiction fun hne ↦ ?_
    have hopen : '(' ∈ text := by
      rw [(of_stripParentheses_ne hne).1]
      exact List.mem_cons_self
    cases hstructural '(' hopen

/-- Such a text is read as a leaf. -/
theorem Reads.eq_leaf {sign? : Option Sign} {text : Text} {read : Node}
    (h : Reads sign? text read) (hleaf : text.any isStructural = false) :
    read = .leaf (sign?.getD .plus) text := by
  obtain ⟨hnegated, hstrip, hfamily⟩ := of_not_isStructural hleaf
  cases h with
  | leaf => rfl
  | negated h => cases hnegated.symm.trans h
  | negatedBehind h => cases hnegated.symm.trans h
  | group _ h =>
    rw [hstrip, hfamily] at h
    cases h
  | nested _ _ h =>
    rw [hstrip] at h
    exact absurd hstrip h
  | operand h => cases hleaf.symm.trans h

/-- A text that has a family within its parentheses is read as the group of its segments. The other
ways of reading a text ask for it to have no family. -/
theorem Reads.eq_branch {sign? : Option Sign} {text : Text} {read : Node} {family : Family}
    {nodes : List Node} (h : Reads sign? text read) (hnegated : negated? text = none)
    (hstrip : stripParentheses text = Node.linksText true nodes)
    (hclassify : classify (Node.linksText true nodes) = some family)
    (hfamily : ∀ node ∈ nodes, Family.ofSign node.sign = family)
    (hregular : ∀ node ∈ nodes, node.isRegular = true) (hne : nodes ≠ [])
    (hnodes : ∀ node ∈ nodes, ∀ {read : Node}, Reads (some node.sign) node.contentText read →
      read = node.remade) : read = .branch (sign?.getD .plus) (nodes.map Node.remade) := by
  rw [← hstrip] at hclassify
  cases h with
  | leaf hleaf =>
    obtain ⟨-, hself, hnone⟩ := of_not_isStructural hleaf
    rw [hself, hnone] at hclassify
    cases hclassify
  | negated h => cases hnegated.symm.trans h
  | negatedBehind h => cases hnegated.symm.trans h
  | group _ hfamily' hsegments hparts =>
    cases hclassify.symm.trans hfamily'
    have hlinks := Node.signedOperand_segments_linksText hfamily hregular hne
    rw [← hstrip, hsegments] at hlinks
    rw [Reads.parts_eq_remade hlinks hparts hnodes]
  | nested _ h => cases hclassify.symm.trans h
  | operand _ _ h => cases hclassify.symm.trans h

/-- **A printed tree is read back.** What the reader makes of the text of a regular and compact tree
is that tree, newly made and with the sign that was read in front of it. The induction is on the
tree, and the reading is taken apart at each of its groups. -/
theorem Reads.eq_remade {sign? : Option Sign} {node read : Node}
    (h : Reads sign? node.contentText read) (hregular : node.isRegular = true)
    (hcompact : node.isCompact = true) : read = node.remade.withSign (sign?.getD .plus) := by
  induction node using Node.induction generalizing sign? read with
  | atom tag text =>
    exact h.eq_leaf (any_isStructural_of_operand (Node.isRegular_atom_iff.1 hregular).2)
  | group tag children ih =>
    obtain ⟨hroot, hchain, hchildren⟩ := Node.isRegular_group_iff.1 hregular
    have hcompactAll := (Node.isCompact_group_iff.1 hcompact).2
    obtain ⟨hne, family, hfamily⟩ := Node.isChain_iff.1 hchain
    obtain ⟨hclassify, hstrip⟩ := Node.classify_contentText hregular hcompact
      (Node.family?_of_forall hne hfamily)
    rw [Node.remade_group]
    refine h.eq_branch (Node.negated?_contentText hregular) hstrip hclassify hfamily hchildren hne
      fun child hmem read hread ↦ ?_
    rw [ih child hmem hread (hchildren child hmem) (hcompactAll child hmem)]
    exact Node.withSign_remade child

end EquationSteps
