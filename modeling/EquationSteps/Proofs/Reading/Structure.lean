import EquationSteps.Proofs.Reading.Grammar

/-!
# Finding the structure of a text

What the reader finds out about a generated text in one step. The family that it assigns to the text
is the smallest category that the text is of (`Generates.product_of_classify` and the two after it),
and the segments into which it cuts the text are signed operands of that family
(`Generates.forall_mem_segments`). In the grammar proper the signs of the segments are the family's
own as well, the stray `*` and `/` of the lenient grammar being the one exception.

**From marks to categories.** The reader goes by the marks of a text, and the grammar by how the
text was put together. What connects them is that a text of a small category has none of the marks
of the larger ones (`Generates.admits`), while the rules for chains of a larger category put in such
a mark. So a text that was generated as a sum and has no binary sign must be a single term without a
sign in front, and that is a product.

**The first segment is different from the others.** Each other segment starts with a sign in front
of which the text was cut, and that sign is one of the family. The first one may start with a sign
as well, though the text is not cut there: in a sum it is a sign of the first term, and in the
lenient grammar it may be a stray operator. Else it has no sign and gets the default one.
`IsSegment` says what the reader makes of a segment in all these cases, and there is one lemma for
each.
-/

namespace EquationSteps

/-! ### Families and categories -/

/-- The category of the groups of a family. -/
def Family.category : Family → Category
  | .sum => .sum
  | .product => .product
  | .quotient => .quotient

/-- A segment that starts with a sign has that sign. -/
theorem Family.signedOperand_symbol (family : Family) (sign : Sign) (operand : Text) :
    family.signedOperand (sign.symbol :: operand) = (sign, operand) := by
  simp [signedOperand]

/-- A segment that starts with anything else has the default sign, and all of it is the operand. -/
theorem Family.signedOperand_of_not_isOperator {family : Family} {c : Char} {rest : Text}
    (h : isOperator c = false) :
    family.signedOperand (c :: rest) = (family.defaultSign, c :: rest) := by
  have hnone : Sign.ofChar? c = none := by
    rw [isOperator, Option.isSome_eq_false_iff, Option.isNone_iff_eq_none] at h
    exact h
  simp [signedOperand, hnone]

namespace Generates

variable {lenient : Bool} {text : Text}

/-! ### Smaller categories in larger ones

A text of a small category is of each larger one, as a chain with a single operand. -/

/-- A factor is a quotient. -/
theorem quotient_of_factor (h : Generates lenient .factor text) :
    Generates lenient .quotient text := by
  have hchain : Generates lenient .quotient (chainText text []) :=
    .quotient h (List.forall_mem_nil _) (List.forall_mem_nil _)
  rwa [chainText_nil] at hchain

/-- A quotient is a product. -/
theorem product_of_quotient (h : Generates lenient .quotient text) :
    Generates lenient .product text := by
  have hchain : Generates lenient .product (chainText text []) :=
    .product h (List.forall_mem_nil _) (List.forall_mem_nil _)
  rwa [chainText_nil] at hchain

/-- A term is a sum. -/
theorem sum_of_term (h : Generates lenient (.signed .product) text) :
    Generates lenient .sum text := by
  have hchain : Generates lenient .sum (chainText text []) :=
    .sum h (List.forall_mem_nil _) (List.forall_mem_nil _)
  rwa [chainText_nil] at hchain

/-- Signs stay in front when a category is taken for a larger one. -/
theorem signed_mono {category larger : Category}
    (h : ∀ text, Generates lenient category text → Generates lenient larger text)
    (htext : Generates lenient (.signed category) text) : Generates lenient (.signed larger) text :=
  signed_induction (fun text htext ↦ .unsigned (h text htext))
    (fun _ _ hsign _ ih ↦ .sign hsign ih) htext

/-- The operands of each family are sums. -/
theorem sum_of_operand {family : Family}
    (h : Generates lenient (.signed family.operandCategory) text) :
    Generates lenient .sum text := by
  cases family with
  | sum => exact sum_of_term h
  | product => exact sum_of_term (signed_mono (fun _ ↦ product_of_quotient) h)
  | quotient =>
    exact sum_of_term (signed_mono (fun _ h ↦ product_of_quotient (quotient_of_factor h)) h)

/-- A factor is a sum. -/
theorem sum_of_factor (h : Generates lenient .factor text) : Generates lenient .sum text :=
  sum_of_operand
    (Generates.unsigned h : Generates lenient (.signed Family.quotient.operandCategory) text)

/-- The grammar proper is part of the lenient one. -/
theorem lenient_of_strict {category : Category} (h : Generates false category text) :
    Generates true category text := by
  induction h with
  | operand htext => exact .operand htext
  | parenthesized _ ih => exact .parenthesized ih
  | unsigned _ ih => exact .unsigned ih
  | sign hsign _ ih => exact .sign hsign ih
  | quotient _ hsigns _ ih ihs => exact .quotient ih hsigns ihs
  | product _ hsigns _ ih ihs => exact .product ih hsigns ihs
  | sum _ hsigns _ ih ihs => exact .sum ih hsigns ihs
  | strayProduct h => cases h
  | straySum h => cases h

/-! ### The family of a text

How the family that the reader finds limits the rules by which the text was generated. -/

/-- A text without binary signs has no sign in front. -/
theorem of_signed {category : Category} (h : Generates lenient (.signed category) text)
    (hbinary : ∀ mark ∈ outside 0 none text, isBinarySign mark = false) :
    Generates lenient category text := by
  cases h with
  | unsigned htext => exact htext
  | @sign _ sign text hsign htext =>
    rw [outside_cons (symbol_ne_parenthesis _).1 (symbol_ne_parenthesis _).2] at hbinary
    have hmark := hbinary _ List.mem_cons_self
    cases sign with
    | plus => exact absurd hmark (by decide)
    | minus => exact absurd hmark (by decide)
    | times => cases hsign
    | divide => cases hsign

/-- Apart from sums, a text that has no sign in front has no binary sign. -/
theorem isBinarySign_eq_false {category : Category} (h : Generates lenient category text)
    (hterm : category.isTerm = true) (hsigned : category.isSigned = false) :
    ∀ mark ∈ outside 0 none text, isBinarySign mark = false := by
  intro mark hmem
  refine Bool.eq_false_iff.2 fun hbinary ↦ ?_
  simp only [isBinarySign, Bool.and_eq_true, Bool.or_eq_true, Bool.not_eq_true', beq_iff_eq]
    at hbinary
  rcases (h.admits none mark hmem).sign hterm hbinary.1 with hfollows | ⟨hsigned', -⟩
  · rw [hbinary.2] at hfollows
    cases hfollows
  · rw [hsigned] at hsigned'
    cases hsigned'

/-- A sum without binary signs is a product. -/
theorem product_of_classify (h : Generates lenient .sum text)
    (hbinary : ∀ mark ∈ outside 0 none text, isBinarySign mark = false) :
    Generates lenient .product text := by
  exact of_signed (h.term_of_isUncut (isUncut_sum hbinary)) hbinary

/-- If there is no `*` either, it is a quotient. -/
theorem quotient_of_classify (h : Generates lenient .sum text)
    (hbinary : ∀ mark ∈ outside 0 none text, isBinarySign mark = false)
    (htimes : ∀ mark ∈ outside 0 none text, mark.2 ≠ '*') :
    Generates lenient .quotient text := by
  have huncut : IsUncut .product 0 none text := fun mark hmem ↦ by
    simp [Family.cutsBefore, Family.operatorMatches, htimes mark hmem]
  exact of_signed ((Generates.unsigned (h.product_of_classify hbinary)).signedQuotient_of_isUncut
    huncut) hbinary

/-- A text without a family is a factor. -/
theorem factor_of_classify (h : Generates lenient .sum text) (hclassify : classify text = none) :
    Generates lenient .factor text := by
  obtain ⟨hbinary, htimes, hdivide⟩ := classify_eq_none_iff.1 hclassify
  have huncut : IsUncut .quotient 0 none text := fun mark hmem ↦ by
    simp [Family.cutsBefore, Family.operatorMatches, hdivide mark hmem]
  exact of_signed
    ((Generates.unsigned (h.quotient_of_classify hbinary htimes)).signedFactor_of_isUncut
    huncut) hbinary

/-- A text is of the category of its family. -/
theorem of_classify (h : Generates lenient .sum text) {family : Family}
    (hclassify : classify text = some family) : Generates lenient family.category text := by
  cases family with
  | sum => exact h
  | product => exact h.product_of_classify (classify_eq_product_iff.1 hclassify).1
  | quotient =>
    obtain ⟨hbinary, htimes, -⟩ := classify_eq_quotient_iff.1 hclassify
    exact h.quotient_of_classify hbinary htimes

/-! ### The segments of a text -/

/-- A quotient starts with an operand. -/
theorem exists_cons_of_quotient (h : Generates lenient .quotient text) :
    ∃ c rest, text = c :: rest ∧ isOperator c = false := by
  cases h with
  | @quotient first links hfirst hsigns hlinks =>
    cases hfirst with
    | operand htext =>
      cases first with
      | nil =>
        rw [isOperandText_nil] at htext
        cases htext
      | cons c rest =>
        have hc := isStructural_of_mem_operand htext List.mem_cons_self
        exact ⟨c, _, rfl, (isOperator_of_isStructural hc).1⟩
    | parenthesized htext => exact ⟨'(', _, rfl, rfl⟩

/-- Signs in front of the first operand of a product are signs in front of the product. -/
theorem product_of_signed {first : Text} {links : List (Sign × Text)}
    (hfirst : Generates lenient (.signed .quotient) first)
    (hsigns : ∀ link ∈ links, link.1 = .times)
    (hlinks : ∀ link ∈ links, Generates lenient (.signed .quotient) link.2) :
    Generates lenient (.signed .product) (chainText first links) :=
  signed_induction (motive := fun first ↦
    Generates lenient (.signed .product) (chainText first links))
    (fun _ hfirst ↦ .unsigned (.product hfirst hsigns hlinks))
    (fun _ _ hsign _ ih ↦ .sign hsign ih) hfirst

/-- What the reader makes of a segment in the chain of a family: it reads an operand of the family,
and in the grammar proper it finds a sign of the family. -/
def IsSegment (lenient : Bool) (family : Family) (segment : Text) : Prop :=
  Generates lenient (.signed family.operandCategory) (family.signedOperand segment).2 ∧
    (lenient = false → Family.ofSign (family.signedOperand segment).1 = family)

theorem isSegment_symbol {family : Family} {sign : Sign} {operand : Text}
    (h : Generates lenient (.signed family.operandCategory) operand)
    (hsign : lenient = false → Family.ofSign sign = family) :
    IsSegment lenient family (sign.symbol :: operand) := by
  rw [IsSegment, Family.signedOperand_symbol]
  exact ⟨h, hsign⟩

/-- A segment without a sign is read as an operand with the default one. -/
theorem isSegment_of_cons {family : Family} {c : Char} {rest : Text}
    (h : Generates lenient (.signed family.operandCategory) (c :: rest))
    (hc : isOperator c = false) : IsSegment lenient family (c :: rest) := by
  rw [IsSegment, Family.signedOperand_of_not_isOperator hc]
  exact ⟨h, fun _ ↦ Family.ofSign_defaultSign family⟩

/-- The first segment of a sum. -/
theorem isSegment_of_term (h : Generates lenient (.signed .product) text) :
    IsSegment lenient .sum text := by
  cases h with
  | @sign _ sign text hsign htext =>
    exact isSegment_symbol htext fun _ ↦ Family.ofSign_eq_sum_iff.2 hsign
  | unsigned htext =>
    cases htext with
    | @product first links hfirst hsigns hlinks =>
      obtain ⟨c, rest, rfl, hc⟩ := hfirst.exists_cons_of_quotient
      exact isSegment_of_cons (.unsigned (.product hfirst hsigns hlinks)) hc
    | strayProduct hlenient hfirst hne hsigns hlinks =>
      have hoperand := product_of_signed hfirst hsigns hlinks
      have hsegment : IsSegment lenient .sum (Sign.divide.symbol :: chainText _ _) :=
        isSegment_symbol hoperand fun hstrict ↦ by
          rw [hlenient] at hstrict
          cases hstrict
      exact hsegment

/-- The segments of a chain are its first part and its links, if the family does not cut the first
part. -/
theorem forall_mem_segments_of_first {family : Family} {first : Text} {links : List (Sign × Text)}
    (hbalanced : IsBalanced first) (hends : EndsInOperand first)
    (huncut : IsUncut family 0 none first) (hsegment : IsSegment lenient family first)
    (hsigns : ∀ link ∈ links, Family.ofSign link.1 = family)
    (hlinks : ∀ link ∈ links, Generates lenient (.signed family.operandCategory) link.2) :
    ∀ segment ∈ segments family (chainText first links), IsSegment lenient family segment := by
  rw [segments_chainText hbalanced hends huncut hsigns
    (fun link hmem ↦ (hlinks link hmem).isBalanced)
    (fun link hmem ↦ (hlinks link hmem).isUncut (Or.inr ⟨_, rfl⟩))
    (fun link hmem ↦ (hlinks link hmem).endsInOperand)]
  refine List.forall_mem_cons.2 ⟨hsegment, fun segment hmem ↦ ?_⟩
  obtain ⟨link, hlink, rfl⟩ := List.mem_map.1 hmem
  exact isSegment_symbol (hlinks link hlink) fun _ ↦ hsigns link hlink

/-- The segments of a chain of operands are those of its first operand and its links. -/
theorem forall_mem_segments_chainText {family : Family} {first : Text} {links : List (Sign × Text)}
    (hfirst : Generates lenient (.signed family.operandCategory) first)
    (hsegment : IsSegment lenient family first)
    (hsigns : ∀ link ∈ links, Family.ofSign link.1 = family)
    (hlinks : ∀ link ∈ links, Generates lenient (.signed family.operandCategory) link.2) :
    ∀ segment ∈ segments family (chainText first links), IsSegment lenient family segment :=
  forall_mem_segments_of_first hfirst.isBalanced hfirst.endsInOperand (hfirst.isUncut (Or.inl rfl))
    hsegment hsigns hlinks

/-- A chain of factors or parts starts with an operand without a sign. -/
theorem forall_mem_segments_factors {family : Family} {first : Text} {links : List (Sign × Text)}
    (hquotient : Generates lenient .quotient first)
    (hfirst : Generates lenient (.signed family.operandCategory) first)
    (hsigns : ∀ link ∈ links, Family.ofSign link.1 = family)
    (hlinks : ∀ link ∈ links, Generates lenient (.signed family.operandCategory) link.2) :
    ∀ segment ∈ segments family (chainText first links), IsSegment lenient family segment := by
  obtain ⟨c, rest, rfl, hc⟩ := hquotient.exists_cons_of_quotient
  exact forall_mem_segments_chainText hfirst (isSegment_of_cons hfirst hc) hsigns hlinks

/-- A character in front of a chain belongs to its first operand. -/
theorem chainText_cons (c : Char) (first : Text) (links : List (Sign × Text)) :
    chainText (c :: first) links = c :: chainText first links := rfl

/-- A stray sign in front of a chain is part of the first segment. -/
theorem forall_mem_segments_stray {family : Family} (sign : Sign) {first : Text}
    {links : List (Sign × Text)} (hlenient : lenient = true)
    (hfirst : Generates lenient (.signed family.operandCategory) first)
    (huncut : family.cutsBefore 0 none sign.symbol = false)
    (hsigns : ∀ link ∈ links, Family.ofSign link.1 = family)
    (hlinks : ∀ link ∈ links, Generates lenient (.signed family.operandCategory) link.2) :
    ∀ segment ∈ segments family (sign.symbol :: chainText first links),
      IsSegment lenient family segment := by
  have hsegment : IsSegment lenient family (sign.symbol :: first) :=
    isSegment_symbol hfirst fun hstrict ↦ by
      rw [hlenient] at hstrict
      cases hstrict
  have hbalanced : IsBalanced (sign.symbol :: first) :=
    hfirst.isBalanced.cons (symbol_ne_parenthesis _).1 (symbol_ne_parenthesis _).2
  have hmarks : IsUncut family 0 none (sign.symbol :: first) := by
    rw [isUncut_cons_iff, levelAfter_symbol]
    exact ⟨huncut, hfirst.isUncut (Or.inr ⟨sign, rfl⟩)⟩
  rw [← chainText_cons]
  exact forall_mem_segments_of_first hbalanced (hfirst.endsInOperand.append [sign.symbol]) hmarks
    hsegment hsigns hlinks

/-- Cutting a text of a family gives operands of the family. -/
theorem forall_mem_segments {family : Family} (h : Generates lenient family.category text) :
    ∀ segment ∈ segments family text, IsSegment lenient family segment := by
  cases family with
  | sum =>
    cases h with
    | sum hfirst hsigns hlinks =>
      exact forall_mem_segments_chainText hfirst (isSegment_of_term hfirst)
        (fun link hmem ↦ Family.ofSign_eq_sum_iff.2 (hsigns link hmem)) hlinks
    | @straySum sign _ _ hlenient hsign hfirst hne hsigns hlinks =>
      refine forall_mem_segments_stray sign hlenient hfirst ?_
        (fun link hmem ↦ Family.ofSign_eq_sum_iff.2 (hsigns link hmem)) hlinks
      cases sign <;> rfl
  | product =>
    cases h with
    | product hfirst hsigns hlinks =>
      exact forall_mem_segments_factors hfirst (.unsigned hfirst)
        (fun link hmem ↦ by rw [hsigns link hmem]; rfl) hlinks
    | strayProduct hlenient hfirst hne hsigns hlinks =>
      exact forall_mem_segments_stray .divide hlenient hfirst rfl
        (fun link hmem ↦ by rw [hsigns link hmem]; rfl) hlinks
  | quotient =>
    cases h with
    | quotient hfirst hsigns hlinks =>
      exact forall_mem_segments_factors (quotient_of_factor hfirst) (.unsigned hfirst)
        (fun link hmem ↦ by rw [hsigns link hmem]; rfl) hlinks

end Generates

end EquationSteps
