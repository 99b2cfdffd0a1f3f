import EquationSteps.Proofs.Reading.Relation
import EquationSteps.Proofs.Reading.Structure
import EquationSteps.Proofs.Tree.Shape

/-!
# What the reader accepts

Reading never rejects a text, it leaves a leaf behind that is no operand. So whether a text was
accepted is a question about the leaves of its tree, and this file answers it by a grammar. A tree
is valid exactly if its text is generated by the lenient grammar (`Reads.isValid` in one direction,
`Reads.generates` in the other), and a text of the grammar proper has a regular tree
(`Reads.isRegular`).

**The two directions take different routes.** From a generated text to a valid tree, the induction
is on how the text is read, and each step needs that what the reader goes on with is generated
again: below parentheses, behind a minus, and for the segments that the text is cut into. From a
valid tree to a generated text, the segments are generated by the induction hypothesis, and what has
to be shown is that a chain of them belongs to the family that the reader has found. The operands of
a chain may be whole sums by then, so it takes `classify` and the places where the text is not cut
to see that they are operands of the right category (`generates_of_segments`).

**Why the grammar is lenient.** A `*` in front of a sum of several terms counts to the first segment
of the sum, and the reader takes it for the sign of that segment without asking whether the sign
belongs there. So `*x+1` is read as the group of `*x` and `+1`, all of whose leaves are operands.
The same happens to a `/` in front of a sum or a product. Nothing else is let through: the two
grammars differ only in stray operators, and a text of the lenient grammar is one of the grammar
proper exactly if there is an operand in front of each `*` and `/` (`generates_strict_iff`). That is
a condition on neighbouring characters (`hasNoStray`), so whether a text is an expression can be
computed (`isExpression_of_eq`).

**The main result** is `isValid_of_read_iff`, for every text that is read within the limits at hand.
That the tree of an expression is regular is not part of it; `Proofs.Reading.Root` takes it from
here, where the shape of a whole side is derived.
-/

namespace EquationSteps

/-! ### Generated texts have valid trees

What is generated stays generated on the way down. The first lemmas say so for each thing that the
reader takes off a text, and the induction over `Reads` puts them together. The lemmas are stated
for both grammars, as validity needs the lenient one and regularity the grammar proper. -/

namespace Generates

variable {lenient : Bool} {text : Text}

/-- A text without operators and parentheses is an operand. -/
theorem isOperandText (h : Generates lenient .sum text) (hleaf : text.any isStructural = false) :
    Node.isOperandText text = true := by
  have hstructural : ∀ c ∈ text, isStructural c = false := fun c hmem ↦ by
    simpa using List.any_eq_false.1 hleaf c hmem
  have hfamily : classify text = none :=
    classify_of_not_isOperator fun c hmem ↦ (isOperator_of_isStructural (hstructural c hmem)).1
  cases h.factor_of_classify hfamily with
  | operand htext => exact htext
  | parenthesized htext => cases hstructural '(' List.mem_cons_self

/-- Below its parentheses a text is generated too. -/
theorem stripParentheses (h : Generates lenient .sum text) :
    Generates lenient .sum (stripParentheses text) := by
  by_cases hne : EquationSteps.stripParentheses text = text
  · rw [hne]
    exact h
  · obtain ⟨-, hmarks⟩ := of_stripParentheses_ne hne
    have hfamily : classify text = none := by
      rw [classify_eq, hmarks]
      rfl
    cases h.factor_of_classify hfamily with
    | operand htext =>
      obtain ⟨htext', -⟩ := of_stripParentheses_ne hne
      have hmem : '(' ∈ text := by
        rw [htext']
        exact List.mem_cons_self
      cases isStructural_of_mem_operand htext hmem
    | parenthesized htext =>
      rw [stripParentheses_parenthesized htext.isBalanced]
      exact htext

/-- What is left of a text that has no family and no parentheses around it is an operand. -/
theorem isOperandText_of_classify (h : Generates lenient .sum text) (hfamily : classify text = none)
    (hnested : EquationSteps.stripParentheses text = text) : Node.isOperandText text = true := by
  cases h.factor_of_classify hfamily with
  | operand htext => exact htext
  | parenthesized htext =>
    rw [stripParentheses_parenthesized htext.isBalanced] at hnested
    have hlength := congrArg List.length hnested
    simp at hlength
    omega

/-- What follows a minus that is negated is generated. -/
theorem of_negated? {operand : Text} (h : Generates lenient .sum text)
    (hnegated : negated? text = some operand) : Generates lenient .sum operand := by
  obtain ⟨rfl, hoperand⟩ := negated?_eq_some_iff.1 hnegated
  have huncut : IsUncut .sum 0 none ('-' :: operand) :=
    isUncut_cons_iff.2 ⟨rfl, isUncut_of_not_isOperator hoperand⟩
  have hsegments : ∀ segment ∈ segments .sum ('-' :: operand), IsSegment lenient .sum segment :=
    forall_mem_segments h
  rw [segments_of_isUncut huncut] at hsegments
  exact sum_of_term (hsegments _ (List.mem_singleton_self _)).1

end Generates

/-- A node behind a sign has that sign. -/
theorem Reads.sign {sign : Sign} {text : Text} {node : Node} (h : Reads (some sign) text node) :
    node.sign = sign := by
  cases h <;> first | rfl | exact congrArg Tag.sign (Node.tag_ofContent _ _)

/-- What is read is new: no node has an identity, is a root or is pending. -/
theorem Reads.isFresh {sign? : Option Sign} {text : Text} {node : Node}
    (h : Reads sign? text node) :
    node.everyTag (fun tag ↦ tag == .fresh tag.sign) = true := by
  induction h with
  | leaf => exact beq_self_eq_true _
  | negated _ _ ih => exact Node.everyTag_ofContent (beq_self_eq_true _) ih
  | negatedBehind _ _ ih =>
    refine Node.everyTag_group_iff.2 ⟨beq_self_eq_true _, fun child hmem ↦ ?_⟩
    rw [List.mem_singleton.1 hmem]
    exact Node.everyTag_ofContent (beq_self_eq_true _) ih
  | group _ _ _ _ ih =>
    refine Node.everyTag_group_iff.2 ⟨beq_self_eq_true _, fun child hmem ↦ ?_⟩
    obtain ⟨part, hpart, rfl⟩ := List.mem_map.1 hmem
    exact ih part hpart
  | nested _ _ _ _ ih => exact Node.everyTag_ofContent (beq_self_eq_true _) ih
  | operand => exact beq_self_eq_true _

/-- The tree of a text of the lenient grammar is valid. -/
theorem Reads.isValid {lenient : Bool} {sign? : Option Sign} {text : Text} {node : Node}
    (h : Reads sign? text node) (htext : Generates lenient .sum text) : node.isValid = true := by
  induction h with
  | leaf hleaf => exact htext.isOperandText hleaf
  | negated hnegated _ ih =>
    rw [Node.fresh, Node.isValid_ofContent]
    exact ih (htext.of_negated? hnegated)
  | negatedBehind hnegated _ ih =>
    rw [Node.branch, Node.isValid, Node.areValid, Node.areValid, Bool.and_true, Node.fresh,
      Node.isValid_ofContent]
    exact ih (htext.of_negated? hnegated)
  | @group sign? text family parts hnegated hfamily hsegments _ ih =>
    rw [Node.branch, Node.isValid, Node.areValid_eq_all, List.all_eq_true]
    intro child hmem
    obtain ⟨part, hpart, rfl⟩ := List.mem_map.1 hmem
    have hsegment := (htext.stripParentheses.of_classify hfamily).forall_mem_segments part.1
      (by rw [hsegments]; exact List.mem_map_of_mem hpart)
    exact ih part hpart (Generates.sum_of_operand hsegment.1)
  | nested _ _ _ _ ih =>
    rw [Node.fresh, Node.isValid_ofContent]
    exact ih htext.stripParentheses
  | operand _ _ hfamily hnested =>
    exact htext.stripParentheses.isOperandText_of_classify hfamily hnested

/-- The segments of an expression are read as a chain of its family. -/
theorem isRegular_of_parts {family : Family} {text : Text} {parts : List (Text × Node)}
    (htext : Generates false family.category text)
    (hsegments : segments family text = parts.map Prod.fst)
    (hparts : ∀ part ∈ parts, Reads (some (family.signedOperand part.1).1)
      (family.signedOperand part.1).2 part.2)
    (hregular : ∀ part ∈ parts, Generates false .sum (family.signedOperand part.1).2 →
      part.2.isRegular = true) (sign : Sign) :
    (Node.branch sign (parts.map Prod.snd)).isRegular = true ∧
      (Node.branch sign (parts.map Prod.snd)).family? = some family := by
  have hall : ∀ part ∈ parts, Generates.IsSegment false family part.1 := fun part hpart ↦
    htext.forall_mem_segments part.1 (by rw [hsegments]; exact List.mem_map_of_mem hpart)
  have hne : parts.map Prod.snd ≠ [] := by
    have hlength := congrArg List.length hsegments
    rw [segments, List.length_cons, List.length_map] at hlength
    exact List.ne_nil_of_length_pos (by rw [List.length_map]; omega)
  have hsigns : ∀ child ∈ parts.map Prod.snd, Family.ofSign child.sign = family := by
    intro child hmem
    obtain ⟨part, hpart, rfl⟩ := List.mem_map.1 hmem
    rw [(hparts part hpart).sign]
    exact (hall part hpart).2 rfl
  have hchildren : ∀ child ∈ parts.map Prod.snd, child.isRegular = true := by
    intro child hmem
    obtain ⟨part, hpart, rfl⟩ := List.mem_map.1 hmem
    exact hregular part hpart (Generates.sum_of_operand (hall part hpart).1)
  exact ⟨Node.isRegular_group_iff.2 ⟨rfl, Node.isChain_of_family hne hsigns, hchildren⟩,
    Node.family?_of_forall hne hsigns⟩

/-- The tree of a text of the grammar proper is regular. -/
theorem Reads.isRegular {sign? : Option Sign} {text : Text} {node : Node}
    (h : Reads sign? text node) (htext : Generates false .sum text) : node.isRegular = true := by
  induction h with
  | leaf hleaf => exact Node.isRegular_atom_iff.2 ⟨rfl, htext.isOperandText hleaf⟩
  | negated hnegated _ ih => exact Node.isRegular_ofContent rfl (ih (htext.of_negated? hnegated))
  | negatedBehind hnegated _ ih =>
    refine Node.isRegular_group_iff.2 ⟨rfl, rfl, fun child hmem ↦ ?_⟩
    rw [List.mem_singleton.1 hmem]
    exact Node.isRegular_ofContent rfl (ih (htext.of_negated? hnegated))
  | @group sign? text family parts hnegated hfamily hsegments hparts ih =>
    exact (isRegular_of_parts (htext.stripParentheses.of_classify hfamily) hsegments hparts ih _).1
  | nested _ _ _ _ ih => exact Node.isRegular_ofContent rfl (ih htext.stripParentheses)
  | operand _ _ hfamily hnested =>
    exact Node.isRegular_atom_iff.2
      ⟨rfl, htext.stripParentheses.isOperandText_of_classify hfamily hnested⟩

/-! ### Valid trees have generated texts

The way back. A text is cut into segments that are generated as sums; that they are operands of the
family, and so that the whole is a chain of the family, is read off the marks of the text. -/

/-- A mark of an operand in a chain is a mark of the chain. -/
theorem mem_outside_chainText {first : Text} {links : List (Sign × Text)} (previous : Option Char)
    (hfirst : IsBalanced first) (hlinks : ∀ link ∈ links, IsBalanced link.2) :
    (∀ mark ∈ outside 0 previous first, mark ∈ outside 0 previous (chainText first links)) ∧
      ∀ link ∈ links, ∀ mark ∈ outside 0 (some link.1.symbol) link.2,
        mark ∈ outside 0 previous (chainText first links) := by
  induction links generalizing first with
  | nil =>
    rw [chainText_nil]
    exact ⟨fun _ h ↦ h, fun _ h ↦ absurd h List.not_mem_nil⟩
  | cons link links ih =>
    obtain ⟨hlink, hlinks⟩ := List.forall_mem_cons.1 hlinks
    have hlonger : IsBalanced (first ++ link.1.symbol :: link.2) :=
      hfirst.append (hlink.cons (symbol_ne_parenthesis _).1 (symbol_ne_parenthesis _).2)
    obtain ⟨hlonger, hothers⟩ := ih hlonger hlinks
    rw [outside_append_of_isBalanced hfirst,
      outside_cons (symbol_ne_parenthesis _).1 (symbol_ne_parenthesis _).2] at hlonger
    rw [chainText_link]
    refine ⟨fun mark hmem ↦ hlonger mark (List.mem_append_left _ hmem), ?_⟩
    refine List.forall_mem_cons.2 ⟨fun mark hmem ↦ ?_, hothers⟩
    exact hlonger mark (List.mem_append_right _ (List.mem_cons_of_mem _ hmem))

/-- The first segment has an operand behind a sign, or it has no sign. -/
theorem signedOperand_cases (family : Family) (segment : Text) :
    (family.signedOperand segment).2 = segment ∧ (∀ sign : Sign, segment.head? ≠ some sign.symbol) ∨
      ∃ sign : Sign, segment = sign.symbol :: (family.signedOperand segment).2 := by
  cases segment with
  | nil => exact Or.inl ⟨rfl, fun _ h ↦ by cases h⟩
  | cons c rest =>
    cases hc : Sign.ofChar? c with
    | none =>
      refine Or.inl ⟨by simp [Family.signedOperand, hc], fun sign hsign ↦ ?_⟩
      rw [Option.some.inj hsign, Sign.ofChar?_symbol] at hc
      cases hc
    | some sign =>
      obtain rfl := Sign.ofChar?_eq_some_iff.1 hc
      exact Or.inr ⟨sign, by rw [Family.signedOperand_symbol]⟩

section Segments

variable {first : Text} {links : List (Sign × Text)}

/-- A text of the family of sums whose operands are generated is a sum. It is uncut operands that
are terms, and if the first segment shows a `*` or `/` in front, then the text is a stray sum. -/
theorem generates_of_sum_links (hclassify : classify (chainText first links) = some .sum)
    (hfirst : Generates true .sum (Family.sum.signedOperand first).2)
    (hlinks : ∀ link ∈ links, Generates true .sum link.2)
    (huncut : IsUncut .sum 0 none first)
    (hothers : ∀ link ∈ links, Family.ofSign link.1 = .sum ∧
      IsUncut .sum 0 (some link.1.symbol) link.2) :
    Generates true .sum (chainText first links) := by
  have hsigns : ∀ link ∈ links, link.1.isAdditive = true := fun link hmem ↦
    Family.ofSign_eq_sum_iff.1 (hothers link hmem).1
  have hterms : ∀ link ∈ links, Generates true (.signed .product) link.2 := fun link hmem ↦
    (hlinks link hmem).term_of_isUncut (hothers link hmem).2
  rcases signedOperand_cases .sum first with ⟨hfull, -⟩ | ⟨sign, hsign⟩
  · rw [hfull] at hfirst
    exact .sum (hfirst.term_of_isUncut huncut) hsigns hterms
  · generalize (Family.sum.signedOperand first).2 = operand at hfirst hsign
    subst hsign
    have hoperand := hfirst.term_of_isUncut huncut.of_symbol
    cases hadditive : sign.isAdditive with
    | true => exact .sum (.sign hadditive hoperand) hsigns hterms
    | false =>
      have hne : links ≠ [] := by
        -- a text that has no sign but the stray one is not of the family of sums
        rintro rfl
        rw [chainText_nil] at hclassify
        obtain ⟨mark, hmem, hbinary⟩ := classify_eq_sum_iff.1 hclassify
        have hcuts := huncut mark hmem
        simp only [isBinarySign, Bool.and_eq_true, Bool.or_eq_true, Bool.not_eq_true',
          beq_iff_eq] at hbinary
        rw [outside_cons (symbol_ne_parenthesis _).1 (symbol_ne_parenthesis _).2] at hmem
        rcases List.mem_cons.1 hmem with rfl | hmem
        · rw [symbol_isAdditive_iff.2 hbinary.1] at hadditive
          cases hadditive
        · have hsome := isSome_of_mem_outside hmem
          have hcut : Family.sum.cutsBefore 0 mark.1 mark.2 = true := by
            simpa [Family.cutsBefore, Family.operatorMatches, hbinary.2, hsome] using hbinary.1
          rw [hcut] at hcuts
          cases hcuts
      exact .straySum rfl hadditive hoperand hne hsigns hterms

/-- The operand of a segment is balanced only if the segment is. -/
theorem isBalanced_of_signedOperand {family : Family}
    (h : IsBalanced (family.signedOperand first).2) : IsBalanced first := by
  rcases signedOperand_cases family first with ⟨hfull, -⟩ | ⟨sign, hsign⟩
  · rw [← hfull]
    exact h
  · rw [hsign]
    exact h.cons (symbol_ne_parenthesis _).1 (symbol_ne_parenthesis _).2

/-- A text without binary signs has none within its operands. -/
theorem term_of_links {family : Family}
    (hbinary : ∀ mark ∈ outside 0 none (chainText first links), isBinarySign mark = false)
    (hfirst : Generates true .sum (family.signedOperand first).2)
    (hlinks : ∀ link ∈ links, Generates true .sum link.2) :
    (∀ mark ∈ outside 0 none first, isBinarySign mark = false) ∧
      ∀ link ∈ links, Generates true (.signed .product) link.2 := by
  obtain ⟨hmarks, hothers⟩ := mem_outside_chainText none
    (isBalanced_of_signedOperand hfirst.isBalanced) fun link hmem ↦ (hlinks link hmem).isBalanced
  refine ⟨fun mark hmem ↦ hbinary mark (hmarks mark hmem), fun link hmem ↦ ?_⟩
  exact (hlinks link hmem).term_of_isUncut (isUncut_sum fun mark hmark ↦
    hbinary mark (hothers link hmem mark hmark))

/-- A text of the family of products whose operands are generated is a product. There is no binary
sign in it, so none in its operands, and an operand that is not cut at any `*` is a quotient. -/
theorem generates_of_product_links (hclassify : classify (chainText first links) = some .product)
    (hfirst : Generates true .sum (Family.product.signedOperand first).2)
    (hlinks : ∀ link ∈ links, Generates true .sum link.2)
    (huncut : IsUncut .product 0 none first)
    (hothers : ∀ link ∈ links, Family.ofSign link.1 = .product ∧
      IsUncut .product 0 (some link.1.symbol) link.2) :
    Generates true .product (chainText first links) := by
  obtain ⟨hbinary, htimes⟩ := classify_eq_product_iff.1 hclassify
  obtain ⟨hmarks, hterms⟩ := term_of_links hbinary hfirst hlinks
  have hsigns : ∀ link ∈ links, link.1 = .times := fun link hmem ↦
    Family.ofSign_eq_product_iff.1 (hothers link hmem).1
  have hquotients : ∀ link ∈ links, Generates true (.signed .quotient) link.2 := fun link hmem ↦
    (hterms link hmem).signedQuotient_of_isUncut (hothers link hmem).2
  rcases signedOperand_cases .product first with ⟨hfull, -⟩ | ⟨sign, hsign⟩
  · rw [hfull] at hfirst
    have hterm := Generates.unsigned (hfirst.product_of_classify hmarks)
    exact .product ((hterm.signedQuotient_of_isUncut huncut).of_signed hmarks) hsigns hquotients
  · generalize (Family.product.signedOperand first).2 = operand at hfirst hsign
    subst hsign
    rw [outside_cons (symbol_ne_parenthesis _).1 (symbol_ne_parenthesis _).2] at hmarks
    obtain ⟨hmark, hmarks⟩ := List.forall_mem_cons.1 hmarks
    cases sign with
    | plus => cases hmark
    | minus => cases hmark
    | times => cases (isUncut_cons_iff.1 huncut).1
    | divide =>
      have hterm := hfirst.term_of_isUncut (isUncut_sum hmarks)
      have hne : links ≠ [] := by
        -- the stray `/` is no `*`, so there is a second factor
        rintro rfl
        rw [chainText_nil] at htimes
        obtain ⟨mark, hmem, hmark⟩ := htimes
        have hcuts := huncut mark hmem
        simp [Family.cutsBefore, Family.operatorMatches, hmark] at hcuts
      exact .strayProduct rfl (hterm.signedQuotient_of_isUncut huncut.of_symbol) hne
        hsigns hquotients

/-- A text of the family of quotients whose operands are generated is a quotient. There is neither a
binary sign nor a `*` in it, so its operands are factors. -/
theorem generates_of_quotient_links (hclassify : classify (chainText first links) = some .quotient)
    (hfirst : Generates true .sum (Family.quotient.signedOperand first).2)
    (hlinks : ∀ link ∈ links, Generates true .sum link.2)
    (huncut : IsUncut .quotient 0 none first)
    (hothers : ∀ link ∈ links, Family.ofSign link.1 = .quotient ∧
      IsUncut .quotient 0 (some link.1.symbol) link.2) :
    Generates true .quotient (chainText first links) := by
  obtain ⟨hbinary, htimes, -⟩ := classify_eq_quotient_iff.1 hclassify
  obtain ⟨hmarks, hterms⟩ := term_of_links hbinary hfirst hlinks
  obtain ⟨hfirstMarks, hlinkMarks⟩ := mem_outside_chainText none
    (isBalanced_of_signedOperand hfirst.isBalanced) fun link hmem ↦ (hlinks link hmem).isBalanced
  have huncutProduct : ∀ {previous : Option Char} {text : Text},
      (∀ mark ∈ outside 0 previous text, mark ∈ outside 0 none (chainText first links)) →
        IsUncut .product 0 previous text := fun hsubset mark hmem ↦ by
    simp [Family.cutsBefore, Family.operatorMatches, htimes mark (hsubset mark hmem)]
  have hsigns : ∀ link ∈ links, link.1 = .divide := fun link hmem ↦
    Family.ofSign_eq_quotient_iff.1 (hothers link hmem).1
  have hfactors : ∀ link ∈ links, Generates true (.signed .factor) link.2 := fun link hmem ↦
    ((hterms link hmem).signedQuotient_of_isUncut (huncutProduct (hlinkMarks link hmem)))
      |>.signedFactor_of_isUncut (hothers link hmem).2
  rcases signedOperand_cases .quotient first with ⟨hfull, -⟩ | ⟨sign, hsign⟩
  · rw [hfull] at hfirst
    have hquotient := (Generates.unsigned (hfirst.product_of_classify hmarks))
      |>.signedQuotient_of_isUncut (huncutProduct hfirstMarks)
    exact .quotient ((hquotient.signedFactor_of_isUncut huncut).of_signed hmarks) hsigns hfactors
  · generalize (Family.quotient.signedOperand first).2 = operand at hfirst hsign
    subst hsign
    rw [outside_cons (symbol_ne_parenthesis _).1 (symbol_ne_parenthesis _).2] at hmarks hfirstMarks
    have hmark := hmarks _ List.mem_cons_self
    cases sign with
    | plus => cases hmark
    | minus => cases hmark
    | times => exact absurd rfl (htimes _ (hfirstMarks _ List.mem_cons_self))
    | divide => cases (isUncut_cons_iff.1 huncut).1

end Segments

/-- A text with a family is generated if the operands of all its segments are. -/
theorem generates_of_segments {family : Family} {text : Text}
    (hclassify : classify text = some family)
    (h : ∀ segment ∈ segments family text, Generates true .sum (family.signedOperand segment).2) :
    Generates true .sum text := by
  obtain ⟨first, links, hsegments, rfl, huncut, hothers⟩ := exists_links family text
  rw [hsegments] at h
  obtain ⟨hfirst, h⟩ := List.forall_mem_cons.1 h
  have hlinks : ∀ link ∈ links, Generates true .sum link.2 := fun link hmem ↦ by
    have hlink := h _ (List.mem_map_of_mem hmem)
    rwa [Family.signedOperand_symbol] at hlink
  cases family with
  | sum => exact generates_of_sum_links hclassify hfirst hlinks huncut hothers
  | product =>
    exact Generates.sum_of_term (.unsigned
      (generates_of_product_links hclassify hfirst hlinks huncut hothers))
  | quotient =>
    exact Generates.sum_of_term (.unsigned (Generates.product_of_quotient
      (generates_of_quotient_links hclassify hfirst hlinks huncut hothers)))

/-- A minus in front of a text without operators makes a term. -/
theorem Generates.negation {lenient : Bool} {text operand : Text}
    (h : Generates lenient .sum operand) (hnegated : negated? text = some operand) :
    Generates lenient .sum text := by
  obtain ⟨rfl, hoperand⟩ := negated?_eq_some_iff.1 hnegated
  have huncut : IsUncut .sum 0 none operand := isUncut_of_not_isOperator hoperand
  have hnegation : Generates lenient (.signed .product) (Sign.minus.symbol :: operand) :=
    .sign rfl (h.term_of_isUncut huncut)
  exact Generates.sum_of_term hnegation

/-- A text is generated if what is within its parentheses is. -/
theorem generates_of_stripParentheses {lenient : Bool} {text : Text}
    (h : Generates lenient .sum (stripParentheses text)) : Generates lenient .sum text := by
  by_cases hne : stripParentheses text = text
  · rw [← hne]
    exact h
  · rw [(of_stripParentheses_ne hne).1]
    exact Generates.sum_of_factor (.parenthesized h)

/-- The text of a valid tree is one of the lenient grammar. -/
theorem Reads.generates {sign? : Option Sign} {text : Text} {node : Node}
    (h : Reads sign? text node) (hvalid : node.isValid = true) : Generates true .sum text := by
  induction h with
  | leaf => exact Generates.sum_of_factor (.operand hvalid)
  | negated hnegated _ ih =>
    rw [Node.fresh, Node.isValid_ofContent] at hvalid
    exact (ih hvalid).negation hnegated
  | negatedBehind hnegated _ ih =>
    rw [Node.branch, Node.isValid, Node.areValid, Node.areValid, Bool.and_true, Node.fresh,
      Node.isValid_ofContent] at hvalid
    exact (ih hvalid).negation hnegated
  | group hnegated hfamily hsegments _ ih =>
    refine generates_of_stripParentheses (generates_of_segments hfamily fun segment hmem ↦ ?_)
    rw [hsegments] at hmem
    obtain ⟨part, hpart, rfl⟩ := List.mem_map.1 hmem
    rw [Node.branch, Node.isValid, Node.areValid_eq_all, List.all_eq_true] at hvalid
    exact ih part hpart (hvalid part.2 (List.mem_map_of_mem hpart))
  | nested _ _ _ _ ih =>
    rw [Node.fresh, Node.isValid_ofContent] at hvalid
    exact generates_of_stripParentheses (ih hvalid)
  | operand => exact generates_of_stripParentheses (Generates.sum_of_factor (.operand hvalid))

/-! ### Stray operators

A `*` or `/` is stray if it has no operand in front of it: at the very front of a text, behind
another operator, or behind an opening parenthesis. Whether there is one can be seen from the text
alone, character by character. -/

/-- Whether a text that stands behind the given character has an operand in front of each `*` and
`/`. -/
def hasNoStray (previous : Option Char) : Text → Bool
  | [] => true
  | c :: rest =>
    (c != '*' && c != '/' || previous.any fun before ↦ !isOperator before && before != '(') &&
      hasNoStray (some c) rest

/-- Whether there is a stray operator in a text of two parts, of which the second stands behind the
last character of the first. -/
theorem hasNoStray_append (previous : Option Char) (a b : Text) :
    hasNoStray previous (a ++ b) =
      (hasNoStray previous a && hasNoStray (a.getLast?.or previous) b) := by
  induction a generalizing previous with
  | nil => rfl
  | cons c a ih =>
    rw [List.cons_append, hasNoStray, hasNoStray, ih, getLast?_cons_or, Bool.and_assoc]

/-- A character that is no `*` and no `/` may stand anywhere. -/
theorem hasNoStray_cons {c : Char} (htimes : c ≠ '*') (hdivide : c ≠ '/') (previous : Option Char)
    (rest : Text) : hasNoStray previous (c :: rest) = hasNoStray (some c) rest := by
  rw [hasNoStray, bne_iff_ne.2 htimes, bne_iff_ne.2 hdivide]
  rfl

/-- Without `*` and `/` there is nothing that could be stray. -/
theorem hasNoStray_of_forall {previous : Option Char} {text : Text}
    (h : ∀ c ∈ text, c ≠ '*' ∧ c ≠ '/') : hasNoStray previous text = true := by
  induction text generalizing previous with
  | nil => rfl
  | cons c text ih =>
    obtain ⟨hc, htext⟩ := List.forall_mem_cons.1 h
    rw [hasNoStray_cons hc.1 hc.2]
    exact ih htext

/-- The signs of a chain all stand behind operands. -/
theorem hasNoStray_chainText {first : Text} {links : List (Sign × Text)} {previous : Option Char}
    (hends : EndsInOperand first) (hendsAll : ∀ link ∈ links, EndsInOperand link.2) :
    hasNoStray previous (chainText first links) = true ↔ hasNoStray previous first = true ∧
      ∀ link ∈ links, hasNoStray (some link.1.symbol) link.2 = true := by
  induction links generalizing first with
  | nil => simp [chainText_nil]
  | cons link links ih =>
    obtain ⟨hlink, hlinks⟩ := List.forall_mem_cons.1 hendsAll
    obtain ⟨c, hlast, hc, hopen⟩ := hends
    have hsign : hasNoStray (some c) (link.1.symbol :: link.2) =
        hasNoStray (some link.1.symbol) link.2 := by
      simp [hasNoStray, hc, hopen]
    have hlonger : EndsInOperand (first ++ link.1.symbol :: link.2) :=
      (hlink.append [link.1.symbol]).append first
    rw [chainText_link, ih hlonger hlinks, hasNoStray_append, hlast, Bool.and_eq_true,
      List.forall_mem_cons, and_assoc]
    exact and_congr_right fun _ ↦ and_congr_left fun _ ↦ by rw [← hsign]; rfl

namespace Generates

/-- The grammar proper has no stray operators. -/
theorem hasNoStray_of_strict {category : Category} {text : Text} (h : Generates false category text)
    (previous : Option Char) : hasNoStray previous text = true := by
  induction h generalizing previous with
  | operand htext =>
    refine hasNoStray_of_forall fun c hmem ↦ ?_
    have hc := (isOperator_of_isStructural (isStructural_of_mem_operand htext hmem)).1
    constructor <;>
    · rintro rfl
      cases hc
  | parenthesized _ ih =>
    rw [hasNoStray_cons (by decide) (by decide), hasNoStray_append, ih]
    rfl
  | unsigned _ ih => exact ih previous
  | sign hsign _ ih =>
    rw [hasNoStray_cons (symbol_ne_of_isAdditive hsign).1 (symbol_ne_of_isAdditive hsign).2]
    exact ih _
  | quotient hfirst _ hlinks ih ihs =>
    exact (hasNoStray_chainText hfirst.endsInOperand fun link hmem ↦
      (hlinks link hmem).endsInOperand).2 ⟨ih _, fun link hmem ↦ ihs link hmem _⟩
  | product hfirst _ hlinks ih ihs =>
    exact (hasNoStray_chainText hfirst.endsInOperand fun link hmem ↦
      (hlinks link hmem).endsInOperand).2 ⟨ih _, fun link hmem ↦ ihs link hmem _⟩
  | sum hfirst _ hlinks ih ihs =>
    exact (hasNoStray_chainText hfirst.endsInOperand fun link hmem ↦
      (hlinks link hmem).endsInOperand).2 ⟨ih _, fun link hmem ↦ ihs link hmem _⟩
  | strayProduct h => cases h
  | straySum h => cases h

/-- Without stray operators the lenient grammar is the grammar proper. -/
theorem strict_of_hasNoStray {category : Category} {text : Text} (h : Generates true category text)
    {previous : Option Char}
    (hprevious : (previous.any fun before ↦ !isOperator before && before != '(') = false)
    (hstray : hasNoStray previous text = true) : Generates false category text := by
  -- behind a sign there is no operand either, so the induction may start again there
  have hsymbol : ∀ sign : Sign,
      ((some sign.symbol).any fun before ↦ !isOperator before && before != '(') = false := by
    intro sign
    cases sign <;> rfl
  induction h generalizing previous with
  | operand htext => exact .operand htext
  | parenthesized _ ih =>
    rw [hasNoStray_cons (by decide) (by decide), hasNoStray_append, Bool.and_eq_true] at hstray
    exact .parenthesized (ih rfl hstray.1)
  | unsigned _ ih => exact .unsigned (ih hprevious hstray)
  | sign hsign _ ih =>
    rw [hasNoStray_cons (symbol_ne_of_isAdditive hsign).1 (symbol_ne_of_isAdditive hsign).2]
      at hstray
    exact .sign hsign (ih (hsymbol _) hstray)
  | quotient hfirst hsigns hlinks ih ihs =>
    obtain ⟨hstray, hstrays⟩ := (hasNoStray_chainText hfirst.endsInOperand fun link hmem ↦
      (hlinks link hmem).endsInOperand).1 hstray
    exact .quotient (ih hprevious hstray) hsigns fun link hmem ↦
      ihs link hmem (hsymbol _) (hstrays link hmem)
  | product hfirst hsigns hlinks ih ihs =>
    obtain ⟨hstray, hstrays⟩ := (hasNoStray_chainText hfirst.endsInOperand fun link hmem ↦
      (hlinks link hmem).endsInOperand).1 hstray
    exact .product (ih hprevious hstray) hsigns fun link hmem ↦
      ihs link hmem (hsymbol _) (hstrays link hmem)
  | sum hfirst hsigns hlinks ih ihs =>
    obtain ⟨hstray, hstrays⟩ := (hasNoStray_chainText hfirst.endsInOperand fun link hmem ↦
      (hlinks link hmem).endsInOperand).1 hstray
    exact .sum (ih hprevious hstray) hsigns fun link hmem ↦
      ihs link hmem (hsymbol _) (hstrays link hmem)
  -- the first character is stray, as there is no operand in front of the text
  | strayProduct =>
    rw [hasNoStray, hprevious] at hstray
    cases hstray
  | @straySum sign _ _ _ hsign =>
    rw [hasNoStray, hprevious] at hstray
    cases sign with
    | plus => cases hsign
    | minus => cases hsign
    | times => simp [Sign.symbol] at hstray
    | divide => simp [Sign.symbol] at hstray

end Generates

/-- The texts of the grammar proper are those of the lenient one that have no stray operators. -/
theorem generates_strict_iff {category : Category} {text : Text} :
    Generates false category text ↔ Generates true category text ∧ hasNoStray none text = true :=
  ⟨fun h ↦ ⟨h.lenient_of_strict, h.hasNoStray_of_strict none⟩,
    fun h ↦ h.1.strict_of_hasNoStray rfl h.2⟩

/-! ### Acceptance

The results on `Reads` for what is read within some limits. -/

/-- The text of a valid tree is generated, and it is an expression if no operator in it is stray. -/
theorem generates_iff_of_read {limits : Limits} {text : Text} {node : Node}
    (h : Node.read limits text false = .ok node) :
    node.isValid = true ↔ Generates true .sum text.scanned := by
  obtain ⟨inner, rfl, hbuild⟩ := exists_of_read h
  have hreads := Reads.of_build hbuild
  have hvalid : (inner.withRoot false).isValid = inner.isValid := by
    cases inner <;> rfl
  rw [hvalid]
  exact ⟨hreads.generates, hreads.isValid⟩

/-- A valid tree of a text without stray operators has been read from an expression. -/
theorem isExpression_of_read {limits : Limits} {text : Text} {node : Node}
    (h : Node.read limits text false = .ok node) (hvalid : node.isValid = true)
    (hstray : hasNoStray none text.scanned = true) : IsExpression text :=
  generates_strict_iff.2 ⟨(generates_iff_of_read h).1 hvalid, hstray⟩

/-- Whether a text is an expression can be computed, if it nests no deeper than the standard limits
allow: by reading it and looking at the leaves, and by looking for stray operators. -/
theorem isExpression_of_eq {text : Text}
    (hvalid : (Node.read .standard text false).map Node.isValid = .ok true)
    (hstray : hasNoStray none text.scanned = true) : IsExpression text := by
  cases hread : Node.read .standard text false with
  | error cause =>
    rw [hread] at hvalid
    cases hvalid
  | ok node =>
    rw [hread] at hvalid
    exact isExpression_of_read hread (Except.ok.inj hvalid) hstray

/-- **What the reader accepts**, at any limits under which it can read the text. The tree is valid
exactly if the scanned text is generated by the lenient grammar, and the text is an expression
exactly if the tree is valid and an operand stands in front of each `*` and `/`. -/
theorem isValid_of_read_iff {limits : Limits} {text : Text} {node : Node}
    (h : Node.read limits text false = .ok node) :
    (node.isValid = true ↔ Generates true .sum text.scanned) ∧
      (IsExpression text ↔ node.isValid = true ∧ hasNoStray none text.scanned = true) := by
  have hvalid := generates_iff_of_read h
  refine ⟨hvalid, ?_⟩
  rw [hvalid]
  exact generates_strict_iff

/-- `2*x` is an expression, and read within the standard limits. -/
theorem isValid_of_read_iff_product : ∃ node,
    Node.read .standard "2*x".toList false = .ok node ∧
      (node.isValid = true ↔ Generates true .sum (Text.scanned "2*x".toList)) ∧
        (IsExpression "2*x".toList ↔
          node.isValid = true ∧ hasNoStray none (Text.scanned "2*x".toList) = true) := by
  have hread : ∃ node, Node.read .standard "2*x".toList false = .ok node := ⟨_, rfl⟩
  obtain ⟨node, h⟩ := hread
  exact ⟨node, h, isValid_of_read_iff h⟩

/-- The reader accepts `*x+1`, which is no expression. -/
theorem not_isExpression_stray :
    (Node.read .standard "*x+1".toList false).map Node.isValid = .ok true ∧
    ¬IsExpression "*x+1".toList := by
  refine ⟨rfl, fun h ↦ ?_⟩
  have hstray := h.hasNoStray_of_strict none
  revert hstray
  decide

end EquationSteps
