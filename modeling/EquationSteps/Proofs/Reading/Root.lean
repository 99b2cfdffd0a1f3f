import EquationSteps.Proofs.Reading.Printed

/-!
# Reading a root

The tree of an expression that is read as a root has the shape of the trees that are normalized, and
all of its nodes are new (`Node.of_read_root`). Its operands are terms, unless the text is a product
or a quotient in more than one pair of parentheses.

The text of a chain of terms is read as the root with these terms (`ReadsRoot.eq_of_sum`,
`ReadsRoot.eq_of_operand`, `ReadsRoot.eq_of_factors`). Only a single leaf with a minus is read as a
leaf (`ReadsRoot.eq_of_minus`).

**The two exceptions** are worth knowing, because a side of an equation is meant to be a group of
terms, and what is said about sides elsewhere has them as a condition.

* A second pair of parentheses around a text is read one level down and not as a root, and the
  content of what is found there becomes the content of the root. So the root of `((2*x))` holds the
  factors `2` and `x` (`ReadsRoot.exists_enclosed`).
* A minus in front of an operand is taken off before anything else, and the root of `-x` is a leaf
  with a minus. Normalizing makes a group of it again.

**Reading back.** A side is printed as the chain of its terms. If there are several of them, or if
the only one is a group with a minus, then the text shows that it is a sum. The text of a single
operand shows nothing and is put into a group by the reader. And the text of a single group of
factors is that of the factors alone, which the reader puts one level down, so that the group is
found again.
-/

namespace EquationSteps

/-! ### What is read as a root -/

/-- What is read from a text without operators is a leaf. -/
theorem Reads.exists_leaf {sign? : Option Sign} {text : Text} {node : Node}
    (h : Reads sign? text node) (hoperator : ∀ c ∈ text, isOperator c = false) :
    ∃ sign leafText, node = .leaf sign leafText := by
  have hstrip : ∀ {text : Text}, (∀ c ∈ text, isOperator c = false) →
      ∀ c ∈ stripParentheses text, isOperator c = false := by
    intro text hoperator c hmem
    by_cases hne : stripParentheses text = text
    · exact hoperator c (hne ▸ hmem)
    · refine hoperator c ?_
      rw [(of_stripParentheses_ne hne).1]
      exact List.mem_cons_of_mem _ (List.mem_append_left _ hmem)
  have hminus : ∀ {text operand : Text}, (∀ c ∈ text, isOperator c = false) →
      negated? text ≠ some operand := by
    intro text operand hoperator hnegated
    obtain ⟨rfl, -⟩ := negated?_eq_some_iff.1 hnegated
    cases hoperator '-' List.mem_cons_self
  induction h with
  | leaf => exact ⟨_, _, rfl⟩
  | negated hnegated => exact absurd hnegated (hminus hoperator)
  | negatedBehind hnegated => exact absurd hnegated (hminus hoperator)
  | group _ hfamily =>
    cases (classify_of_not_isOperator (hstrip hoperator)).symm.trans hfamily
  | nested _ _ _ _ ih =>
    obtain ⟨sign, leafText, rfl⟩ := ih (hstrip hoperator)
    exact ⟨_, leafText, rfl⟩
  | operand => exact ⟨_, _, rfl⟩

namespace ReadsRoot

variable {text : Text} {read : Node}

/-- A root of an expression, its mark apart: a regular tree, of which the sign is additive and, in a
group, plus. The one root that is no group is the leaf that is read from an operand behind a
minus. -/
theorem isRegular (h : ReadsRoot text read) (htext : Generates false .sum text) :
    read.isRegular = true ∧ (read.sign = .plus ∨ ∃ leafText, read = .leaf .minus leafText) := by
  have hstripped := htext.stripParentheses
  cases h with
  | negated hnegated hinner =>
    obtain ⟨-, hoperator⟩ := negated?_eq_some_iff.1 hnegated
    obtain ⟨sign, leafText, rfl⟩ := hinner.exists_leaf hoperator
    exact ⟨Node.isRegular_ofContent rfl (hinner.isRegular (htext.of_negated? hnegated)),
      Or.inr ⟨leafText, rfl⟩⟩
  | product hnegated hfamily hinner =>
    have hregular := hinner.isRegular hstripped
    refine ⟨Node.isRegular_group_iff.2 ⟨rfl, rfl, ?_⟩, Or.inl rfl⟩
    exact List.forall_mem_singleton.2 hregular
  | quotient hnegated hfamily hsegments hparts =>
    have hregular := (isRegular_of_parts (hstripped.of_classify hfamily) hsegments hparts
      (fun part hmem ↦ (hparts part hmem).isRegular) .plus).1
    refine ⟨Node.isRegular_group_iff.2 ⟨rfl, rfl, ?_⟩, Or.inl rfl⟩
    exact List.forall_mem_singleton.2 hregular
  | sum hnegated hfamily hsegments hparts =>
    exact ⟨(isRegular_of_parts (hstripped.of_classify hfamily) hsegments hparts
      (fun part hmem ↦ (hparts part hmem).isRegular) .plus).1, Or.inl rfl⟩
  | nested hnegated hfamily hnested hinner =>
    exact ⟨Node.isRegular_ofContent rfl (hinner.isRegular hstripped),
      Or.inl (congrArg Tag.sign (Node.tag_ofContent _ _))⟩
  | empty hnegated hempty =>
    have hoperand : Node.isOperandText (stripParentheses text) = true :=
      hstripped.isOperandText (by rw [hempty]; rfl)
    rw [hempty] at hoperand
    cases hoperand
  | operand hnegated hleaf =>
    refine ⟨Node.isRegular_group_iff.2 ⟨rfl, rfl, ?_⟩, Or.inl rfl⟩
    exact List.forall_mem_singleton.2 (Node.isRegular_atom_iff.2 ⟨rfl,
      hstripped.isOperandText hleaf⟩)
  | leftover hnegated hfamily hnested hstructural =>
    exact ⟨Node.isRegular_atom_iff.2 ⟨rfl, hstripped.isOperandText_of_classify hfamily hnested⟩,
      Or.inl rfl⟩

/-- What is read as a root is new: each node is as it was made by the reader, without an identity
and not pending. -/
theorem isFresh (h : ReadsRoot text read) :
    read.everyTag (fun tag ↦ tag == .fresh tag.sign) = true := by
  have hbranch : ∀ {sign : Sign} {children : List Node},
      (∀ child ∈ children, child.everyTag (fun tag ↦ tag == .fresh tag.sign) = true) →
        (Node.branch sign children).everyTag (fun tag ↦ tag == .fresh tag.sign) = true :=
    fun hchildren ↦ Node.everyTag_group_iff.2 ⟨beq_self_eq_true _, hchildren⟩
  have hparts : ∀ {family : Family} {parts : List (Text × Node)},
      (∀ part ∈ parts, Reads (some (family.signedOperand part.1).1)
        (family.signedOperand part.1).2 part.2) → ∀ child ∈ parts.map Prod.snd,
          child.everyTag (fun tag ↦ tag == .fresh tag.sign) = true := by
    intro family parts hparts child hmem
    obtain ⟨part, hpart, rfl⟩ := List.mem_map.1 hmem
    exact (hparts part hpart).isFresh
  cases h with
  | negated _ hinner => exact Node.everyTag_ofContent (beq_self_eq_true _) hinner.isFresh
  | product _ _ hinner => exact hbranch (List.forall_mem_singleton.2 hinner.isFresh)
  | quotient _ _ _ hall => exact hbranch (List.forall_mem_singleton.2 (hbranch (hparts hall)))
  | sum _ _ _ hall => exact hbranch (hparts hall)
  | nested _ _ _ hinner => exact Node.everyTag_ofContent (beq_self_eq_true _) hinner.isFresh
  | empty => exact hbranch (List.forall_mem_nil _)
  | operand => exact hbranch (List.forall_mem_singleton.2 (beq_self_eq_true _))
  | leftover => exact beq_self_eq_true _

/-- The operands of a root are terms if the family of the text shows within one pair of parentheses,
or if there is no structure in it. What shows as a product or a quotient is put into a group of its
own below the root. -/
theorem family?_eq_sum (h : ReadsRoot text read) (htext : Generates false .sum text)
    (hshows : (∃ family, classify (stripParentheses text) = some family) ∨
      (stripParentheses text).any isStructural = false) {family : Family}
    (hfamily : read.family? = some family) : family = .sum := by
  have hstripped := htext.stripParentheses
  cases h with
  | negated hnegated hinner =>
    obtain ⟨-, hoperator⟩ := negated?_eq_some_iff.1 hnegated
    obtain ⟨sign, leafText, rfl⟩ := hinner.exists_leaf hoperator
    cases hfamily
  | product hnegated hproduct hinner =>
    exact (Option.some.inj hfamily).symm.trans (congrArg Family.ofSign hinner.sign)
  | quotient => exact (Option.some.inj hfamily).symm
  | sum hnegated hsum hsegments hparts =>
    have hregular := isRegular_of_parts (hstripped.of_classify hsum) hsegments hparts
      (fun part hmem ↦ (hparts part hmem).isRegular) .plus
    exact Option.some.inj (hfamily.symm.trans hregular.2)
  | nested hnegated hnone hnested hinner =>
    rcases hshows with ⟨shown, hshown⟩ | hleaf
    · cases hnone.symm.trans hshown
    · exact absurd (of_not_isStructural hleaf).2.1 hnested
  | empty => cases hfamily
  | operand => exact (Option.some.inj hfamily).symm
  | leftover => cases hfamily

/-- A root holds factors or the parts of a quotient only if the text has two pairs of parentheses
around it. These are pairs of parentheses around all of the text, and not two parentheses that
happen to stand side by side at either end. -/
theorem exists_enclosed (h : ReadsRoot text read) (htext : Generates false .sum text)
    {family : Family} (hfamily : read.family? = some family) (hne : family ≠ .sum) :
    ∃ inside, text = '(' :: '(' :: (inside ++ [')', ')']) := by
  have hstripped := htext.stripParentheses
  have hnone : classify (stripParentheses text) = none := by
    cases hshown : classify (stripParentheses text) with
    | none => rfl
    | some shown => exact absurd (h.family?_eq_sum htext (Or.inl ⟨shown, hshown⟩) hfamily) hne
  have hstructural : (stripParentheses text).any isStructural ≠ false := fun hleaf ↦
    hne (h.family?_eq_sum htext (Or.inr hleaf) hfamily)
  have hfactor := hstripped.factor_of_classify hnone
  by_cases hself : stripParentheses text = text
  · -- a text without outer parentheses and without a family is an operand
    have hoperand := hstripped.isOperandText_of_classify hnone (by rw [hself, hself])
    exact absurd (any_isStructural_of_operand hoperand) hstructural
  · obtain ⟨hparentheses, -⟩ := of_stripParentheses_ne hself
    generalize stripParentheses text = body at hfactor hstructural hparentheses
    cases hfactor with
    | operand hoperand =>
      exact absurd (any_isStructural_of_operand hoperand) hstructural
    | @parenthesized inside hinside =>
      refine ⟨inside, ?_⟩
      rw [hparentheses]
      simp

/-! ### Reading printed roots

One lemma for each form that the text of a chain of terms can have. -/

/-- The text of several terms, or of a single one that is a group with a minus, is read as the root
with these terms. -/
theorem eq_of_sum {nodes : List Node} (h : ReadsRoot (Node.linksText true nodes) read)
    (hnegated : negated? (Node.linksText true nodes) = none)
    (hclassify : classify (Node.linksText true nodes) = some .sum) (hne : nodes ≠ [])
    (hsigns : ∀ node ∈ nodes, Family.ofSign node.sign = .sum)
    (hregular : ∀ node ∈ nodes, node.isRegular = true)
    (hcompact : ∀ node ∈ nodes, node.isCompact = true) :
    read = .branch .plus (nodes.map Node.remade) := by
  have hstrip := stripParentheses_of_classify hclassify
  cases h with
  | negated h => cases hnegated.symm.trans h
  | product _ h => cases (hstrip ▸ h).symm.trans hclassify
  | quotient _ h => cases (hstrip ▸ h).symm.trans hclassify
  | sum _ _ hsegments hparts =>
    have hlinks := Node.signedOperand_segments_linksText hsigns hregular hne
    rw [hstrip] at hsegments
    rw [hsegments] at hlinks
    rw [Reads.parts_eq_remade hlinks hparts fun node hmem read hread ↦ ?_]
    rw [hread.eq_remade (hregular node hmem) (hcompact node hmem)]
    exact Node.withSign_remade node
  | nested _ h => cases (hstrip ▸ h).symm.trans hclassify
  | empty _ h =>
    rw [hstrip] at h
    rw [h] at hclassify
    cases hclassify
  | operand _ h =>
    rw [hstrip] at h
    cases (of_not_isStructural h).2.2.symm.trans hclassify
  | leftover _ h => cases (hstrip ▸ h).symm.trans hclassify

/-- The text of an operand is read as the root with this leaf, as the reader puts a root around an
operand that shows no structure. -/
theorem eq_of_operand (h : ReadsRoot text read) (htext : Node.isOperandText text = true) :
    read = .branch .plus [.leaf .plus text] := by
  have hleaf := any_isStructural_of_operand htext
  obtain ⟨hnegated, hstrip, hnone⟩ := of_not_isStructural hleaf
  cases h with
  | negated h => cases hnegated.symm.trans h
  | product _ h => cases (hstrip ▸ h).symm.trans hnone
  | quotient _ h => cases (hstrip ▸ h).symm.trans hnone
  | sum _ h => cases (hstrip ▸ h).symm.trans hnone
  | nested _ _ h =>
    rw [hstrip] at h
    exact absurd hstrip h
  | empty _ h =>
    rw [hstrip] at h
    rw [h] at htext
    cases htext
  | operand => rw [hstrip]
  | leftover _ _ _ h =>
    rw [hstrip] at h
    cases hleaf.symm.trans h

/-- The text of an operand behind a minus is read as a leaf with a minus. The reader takes the minus
off first, and there is no group for the root any more. -/
theorem eq_of_minus (h : ReadsRoot ('-' :: text) read) (htext : Node.isOperandText text = true) :
    read = .leaf .minus text := by
  have hleaf := any_isStructural_of_operand htext
  have hnegated := Node.negated?_of_isOperandText htext
  cases h with
  | negated h hinner =>
    cases hnegated.symm.trans h
    rw [hinner.eq_leaf hleaf]
    rfl
  | product h => cases hnegated.symm.trans h
  | quotient h => cases hnegated.symm.trans h
  | sum h => cases hnegated.symm.trans h
  | nested h => cases hnegated.symm.trans h
  | empty h => cases hnegated.symm.trans h
  | operand h => cases hnegated.symm.trans h
  | leftover h => cases hnegated.symm.trans h

/-- The text of a product or a quotient is read as the root of which it is the only term. It is
printed without parentheses, or with the one pair that the reader takes off first. -/
theorem eq_of_factors {tag : Tag} {children : List Node} {family : Family}
    (h : ReadsRoot (Node.group tag children).contentText read) (hsign : tag.sign = .plus)
    (hregular : (Node.group tag children).isRegular = true)
    (hcompact : (Node.group tag children).isCompact = true)
    (hfamily : (Node.group tag children).family? = some family) (hne : family ≠ .sum) :
    read = .branch .plus [(Node.group tag children).remade] := by
  have hnegated := Node.negated?_contentText hregular
  obtain ⟨hclassify, hstrip⟩ := Node.classify_contentText hregular hcompact hfamily
  rw [← hstrip] at hclassify
  obtain ⟨-, hchain, hchildren⟩ := Node.isRegular_group_iff.1 hregular
  obtain ⟨-, hcompactAll⟩ := Node.isCompact_group_iff.1 hcompact
  -- behind a plus the group is printed without parentheses
  have hcontent : (Node.group tag children).contentText = Node.linksText true children := by
    have hparenthesized : Node.isParenthesized tag children = false := by
      rw [Node.isParenthesized, hfamily, hsign]
      cases family with
      | sum => exact absurd rfl hne
      | product => exact Bool.and_false _
      | quotient => exact Bool.and_false _
    rw [Node.contentText, hparenthesized]
    rfl
  cases h with
  -- only the ways for products and quotients agree with what the text shows
  | negated h => cases hnegated.symm.trans h
  | product _ h hinner =>
    rw [hstrip, ← hcontent] at hinner
    rw [hinner.eq_remade hregular hcompact, Node.remade_group, hsign]
    rfl
  | quotient _ h hsegments hparts =>
    cases hclassify.symm.trans h
    have hlinks := Node.signedOperand_segments_linksText (Node.ofSign_of_isChain hchain hfamily)
      hchildren (Node.isChain_iff.1 hchain).1
    rw [hstrip] at hsegments
    rw [hsegments] at hlinks
    rw [Reads.parts_eq_remade hlinks hparts fun node hmem read hread ↦ ?_, Node.remade_group, hsign]
    rw [hread.eq_remade (hchildren node hmem) (hcompactAll node hmem)]
    exact Node.withSign_remade node
  | sum _ h =>
    cases hclassify.symm.trans h
    exact absurd rfl hne
  | nested _ h => cases hclassify.symm.trans h
  | empty _ h =>
    rw [h] at hclassify
    cases hclassify
  | operand _ h =>
    cases (of_not_isStructural h).2.2.symm.trans hclassify
  | leftover _ h => cases hclassify.symm.trans h

end ReadsRoot

/-! ### Sides

The same for what is read under limits, with the mark of a root put on. -/

/-- What is read as one side of an equation from an expression: a shaped root of which all nodes are
new. -/
theorem Node.of_read_root {limits : Limits} {text : Text} {node : Node} (htext : IsExpression text)
    (h : Node.read limits text true = .ok node) :
    node.isShaped = true ∧ node.isRoot = true ∧ node.everyTag Tag.isNew = true := by
  obtain ⟨inner, rfl, hbuild⟩ := exists_of_read h
  have hreads := ReadsRoot.of_build hbuild
  obtain ⟨hregular, hsign⟩ := hreads.isRegular htext
  have hnew := Node.isNew_of_isFresh hreads.isFresh
  cases inner with
  | atom tag leafText =>
    refine ⟨?_, rfl, hnew⟩
    have hadditive : tag.sign.isAdditive = true := by
      rcases hsign with hsign | ⟨other, hother⟩
      · have hsign : tag.sign = .plus := hsign
        rw [hsign]
        rfl
      · cases hother
        rfl
    have hoperand := (Node.isRegular_atom_iff.1 hregular).2
    simp [Node.withRoot, Node.mapTag, Node.isShaped, hadditive, hoperand]
  | group tag children =>
    obtain ⟨-, hchain, hchildren⟩ := Node.isRegular_group_iff.1 hregular
    refine ⟨Node.isShaped_group_iff.2 ⟨Or.inl hchain, hchildren, fun _ ↦ ?_⟩, rfl, ?_⟩
    · rcases hsign with hsign | ⟨other, hother⟩
      · exact hsign
      · cases hother
    · exact Node.everyTag_group_iff.2 (Node.everyTag_group_iff.1 hnew)

end EquationSteps
