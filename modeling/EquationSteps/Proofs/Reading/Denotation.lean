import EquationSteps.Proofs.Meaning.Formula
import EquationSteps.Proofs.Meaning.Literal

/-!
# What expressions say

The grammar of expressions once more, now with the formula that each text says: chains are taken
from left to right, and a sign in front of an operand belongs to that operand. `Denotes` knows
nothing of the reader and its shortcuts, nor of trees. The expressions are the texts that say
something (`isExpression_iff_exists_denotes`).

**Why a relation of its own.** `Generates` takes a chain as a list of operands, as the reader does,
and leaves open in which order the operators are applied. `Denotes` builds a chain from the left,
one operand at a time, with a rule for each operator, so the formula of a chain shows the order.
That the two agree on which texts they allow is `Denotes.generates` and
`Denotes.exists_of_generates`.

**What the reader finds out about a text in one step it finds out about the formula as well.**

* A text of some family is a chain of that family (`Denotes.of_classify`).
* Parentheses around a text say nothing (`Denotes.stripParentheses`).
* A text in front of which a minus is taken off says the negation (`Denotes.of_negated?`).
* What has no structure left says an operand (`Denotes.ofValue_atomValue`).

These are the same facts that `Proofs.Reading.Structure` has for `Generates`, and where they are
about marks only, they are taken from there. They are what `Proofs.Meaning.LeftToRight` needs to
show that a tree means what its text says.

**Nothing is said about there being only one formula.** It would follow from the grammar being
unambiguous, and it is not needed: any formula that a text says has the meaning of the tree, so all
of them mean the same.
-/

namespace EquationSteps

/-- The formula that a text of a category says. A chain is built from the left, one operand at a
time, so that `1-2-3` says `(1-2)-3`. -/
inductive Denotes : Category → Text → Formula → Prop where
  /-- A decimal literal says its number, which is a fraction. -/
  | literal {text : Text} {q : ℚ} (hvalue : Numeral.decimalFraction? text = some q) :
    Denotes .factor text (.number q)
  /-- A letter says the variable of its name. -/
  | letter {c : Char} (hletter : c.isAlpha = true) : Denotes .factor [c] (.letter c)
  /-- Parentheses only group. -/
  | parenthesized {text : Text} {e : Formula} (htext : Denotes .sum text e) :
    Denotes .factor ('(' :: (text ++ [')'])) e
  /-- There may be no sign in front of an operand. -/
  | unsigned {category : Category} {text : Text} {e : Formula} (htext : Denotes category text e) :
    Denotes (.signed category) text e
  /-- A plus in front says nothing. -/
  | plus {category : Category} {text : Text} {e : Formula}
      (htext : Denotes (.signed category) text e) : Denotes (.signed category) ('+' :: text) e
  /-- A minus in front negates all that stands behind it. -/
  | minus {category : Category} {text : Text} {e : Formula}
      (htext : Denotes (.signed category) text e) :
    Denotes (.signed category) ('-' :: text) (.neg e)
  /-- A single factor is a quotient. -/
  | factor {text : Text} {e : Formula} (htext : Denotes .factor text e) : Denotes .quotient text e
  /-- What stands in front of a `/` is divided by the factor behind it. -/
  | divided {left right : Text} {e f : Formula} (hleft : Denotes .quotient left e)
      (hright : Denotes (.signed .factor) right f) :
    Denotes .quotient (left ++ '/' :: right) (.div e f)
  /-- A single quotient is a product. -/
  | quotient {text : Text} {e : Formula} (htext : Denotes .quotient text e) :
    Denotes .product text e
  /-- What stands in front of a `*` is multiplied by the quotient behind it. -/
  | multiplied {left right : Text} {e f : Formula} (hleft : Denotes .product left e)
      (hright : Denotes (.signed .quotient) right f) :
    Denotes .product (left ++ '*' :: right) (.mul e f)
  /-- A single term is a sum, and may have signs in front. -/
  | term {text : Text} {e : Formula} (htext : Denotes (.signed .product) text e) :
    Denotes .sum text e
  /-- The term behind a `+` is added to what stands in front. -/
  | added {left right : Text} {e f : Formula} (hleft : Denotes .sum left e)
      (hright : Denotes (.signed .product) right f) :
    Denotes .sum (left ++ '+' :: right) (.add e f)
  /-- The term behind a `-` is subtracted from what stands in front. -/
  | subtracted {left right : Text} {e f : Formula} (hleft : Denotes .sum left e)
      (hright : Denotes (.signed .product) right f) :
    Denotes .sum (left ++ '-' :: right) (.sub e f)

/-! ### Operands

The two kinds of operands, a literal and a letter, are told apart in the same way by the leaves of a
tree and by the formula, and they mean the same. -/

namespace Numeral

/-- What denotes a number is a decimal literal. -/
theorem isDecimal_of_decimalFraction? {text : Text} {q : ℚ} (h : decimalFraction? text = some q) :
    isDecimal text = true := by
  by_contra hdecimal
  rw [decimalFraction?, if_neg hdecimal] at h
  cases h

/-- An integer literal is the fraction with the denominator one. -/
theorem decimalFraction?_of_isInteger {text : Text} (h : isInteger text = true) :
    decimalFraction? text = some (value text) := by
  have hpoint : '.' ∉ text := fun hmem ↦ by cases (isInteger_iff.1 h).2 '.' hmem
  rw [decimalFraction?, if_pos (isDecimal_of_isInteger h), Text.cut?_eq_none_iff.2 hpoint,
    Option.getD_none]
  simp [Rat.mkRat_one]

end Numeral

namespace Node

/-- A literal is an operand. -/
theorem isOperandText_of_decimalFraction? {text : Text} {q : ℚ}
    (h : Numeral.decimalFraction? text = some q) : isOperandText text = true := by
  rw [isOperandText, Numeral.isDecimal_of_decimalFraction? h, Bool.true_or]

/-- A letter is an operand. -/
theorem isOperandText_of_isAlpha {c : Char} (h : c.isAlpha = true) :
    isOperandText [c] = true := by
  have hvariable : Text.isVariable [c] = true := h
  rw [isOperandText, hvariable, Bool.or_true]

/-- A literal means the number that it denotes. -/
theorem ofValue_atomValue_of_decimalFraction? {text : Text} {q : ℚ}
    (h : Numeral.decimalFraction? text = some q) :
    Meaning.ofValue (atomValue text) = (Formula.number q).meaning := by
  rw [Formula.meaning, ← RationalFunction.toField_constant]
  cases hinteger : Numeral.isInteger text with
  | true =>
    rw [Numeral.decimalFraction?_of_isInteger hinteger] at h
    rw [atomValue_of_isInteger hinteger, Meaning.ofValue_ok, Option.some.inj h]
  | false =>
    rw [atomValue_of_decimalFraction? hinteger (Numeral.isDecimal_of_decimalFraction? h) h,
      Meaning.ofValue_ok]

/-- A letter means the variable. -/
theorem ofValue_atomValue_of_isAlpha {c : Char} (h : c.isAlpha = true) :
    Meaning.ofValue (atomValue [c]) = (Formula.letter c).meaning := by
  rw [Formula.meaning, atomValue, if_pos h, Meaning.ofValue_ok, RationalFunction.ofVariable,
    RationalFunction.ofPolynomial, RationalFunction.toField, Polynomial.toField_one, div_one,
    Polynomial.toField, Polynomial.toRing_ofVariable]

end Node

/-! ### Chains

A chain that is continued by one more operand. The reader cuts it in front of the new sign and
leaves the segments before it as they were. -/

/-- An operand put behind a chain is its last link. -/
theorem chainText_append (first : Text) (links : List (Sign × Text)) (sign : Sign) (right : Text) :
    chainText first links ++ sign.symbol :: right = chainText first (links ++ [(sign, right)]) := by
  simp [chainText]

namespace Generates

variable {left right : Text} {family : Family} {sign : Sign}

/-- A text of a family is a chain of operands. -/
theorem exists_chain (h : Generates false family.category left) :
    ∃ first links, left = chainText first links ∧
      Generates false (.signed family.operandCategory) first ∧
        (∀ link ∈ links, Family.ofSign link.1 = family) ∧
          ∀ link ∈ links, Generates false (.signed family.operandCategory) link.2 := by
  cases family with
  | sum =>
    cases h with
    | sum hfirst hsigns hlinks =>
      exact ⟨_, _, rfl, hfirst, fun link hmem ↦ Family.ofSign_eq_sum_iff.2 (hsigns link hmem),
        hlinks⟩
    | straySum hlenient => cases hlenient
  | product =>
    cases h with
    | product hfirst hsigns hlinks =>
      exact ⟨_, _, rfl, .unsigned hfirst,
        fun link hmem ↦ Family.ofSign_eq_product_iff.2 (hsigns link hmem), hlinks⟩
    | strayProduct hlenient => cases hlenient
  | quotient =>
    cases h with
    | quotient hfirst hsigns hlinks =>
      exact ⟨_, _, rfl, .unsigned hfirst,
        fun link hmem ↦ Family.ofSign_eq_quotient_iff.2 (hsigns link hmem), hlinks⟩

/-- A chain may be continued. -/
theorem append (family : Family) (sign : Sign) (hleft : Generates false family.category left)
    (hsign : Family.ofSign sign = family)
    (hright : Generates false (.signed family.operandCategory) right) :
    Generates false family.category (left ++ sign.symbol :: right) := by
  have hmore : ∀ (property : Sign × Text → Prop) {links : List (Sign × Text)},
      (∀ link ∈ links, property link) → property (sign, right) →
        ∀ link ∈ links ++ [(sign, right)], property link := fun _ _ hlinks hlast ↦
    List.forall_mem_append.2 ⟨hlinks, List.forall_mem_singleton.2 hlast⟩
  cases family with
  | sum =>
    cases hleft with
    | sum hfirst hsigns hlinks =>
      rw [chainText_append]
      exact .sum hfirst (hmore (fun link ↦ link.1.isAdditive = true) hsigns
        (Family.ofSign_eq_sum_iff.1 hsign)) (hmore _ hlinks hright)
    | straySum hlenient => cases hlenient
  | product =>
    cases hleft with
    | product hfirst hsigns hlinks =>
      rw [chainText_append]
      exact .product hfirst (hmore (fun link ↦ link.1 = .times) hsigns
        (Family.ofSign_eq_product_iff.1 hsign)) (hmore _ hlinks hright)
    | strayProduct hlenient => cases hlenient
  | quotient =>
    cases hleft with
    | quotient hfirst hsigns hlinks =>
      rw [chainText_append]
      exact .quotient hfirst (hmore (fun link ↦ link.1 = .divide) hsigns
        (Family.ofSign_eq_quotient_iff.1 hsign)) (hmore _ hlinks hright)

/-- A chain that is continued gets one segment more. -/
theorem segments_append (hleft : Generates false family.category left)
    (hsign : Family.ofSign sign = family)
    (hright : Generates false (.signed family.operandCategory) right) :
    segments family (left ++ sign.symbol :: right) =
      segments family left ++ [sign.symbol :: right] := by
  obtain ⟨first, links, rfl, hfirst, hsigns, hlinks⟩ := hleft.exists_chain
  have hchain : ∀ links : List (Sign × Text), (∀ link ∈ links, Family.ofSign link.1 = family) →
      (∀ link ∈ links, Generates false (.signed family.operandCategory) link.2) →
        segments family (chainText first links) =
          first :: links.map fun link ↦ link.1.symbol :: link.2 := fun links hsigns hlinks ↦
    segments_chainText hfirst.isBalanced hfirst.endsInOperand (hfirst.isUncut (Or.inl rfl)) hsigns
      (fun link hmem ↦ (hlinks link hmem).isBalanced)
      (fun link hmem ↦ (hlinks link hmem).isUncut (Or.inr ⟨_, rfl⟩))
      (fun link hmem ↦ (hlinks link hmem).endsInOperand)
  rw [chainText_append, hchain links hsigns hlinks, hchain (links ++ [(sign, right)])
    (List.forall_mem_append.2 ⟨hsigns, List.forall_mem_singleton.2 hsign⟩)
    (List.forall_mem_append.2 ⟨hlinks, List.forall_mem_singleton.2 hright⟩)]
  simp

/-- A chain with a sign between operands is cut there. -/
theorem not_isUncut_append {category : Category} (hleft : Generates false category left)
    (hsign : Family.ofSign sign = family) (previous : Option Char) :
    ¬IsUncut family 0 previous (left ++ sign.symbol :: right) := by
  have hchain : ¬IsUncut family 0 previous (chainText left [(sign, right)]) :=
    not_isUncut_chainText (List.cons_ne_nil _ _) hleft.isBalanced hleft.endsInOperand
      (List.forall_mem_singleton.2 hsign) previous
  simpa [chainText] using hchain

end Generates

namespace Denotes

variable {text operand : Text} {e : Formula} {category : Category} {family : Family}

/-- What says something is generated by the grammar. -/
theorem generates (h : Denotes category text e) : Generates false category text := by
  induction h with
  | literal hvalue => exact .operand (Node.isOperandText_of_decimalFraction? hvalue)
  | letter hletter => exact .operand (Node.isOperandText_of_isAlpha hletter)
  | parenthesized _ ih => exact .parenthesized ih
  | unsigned _ ih => exact .unsigned ih
  | plus _ ih => exact .sign (show Sign.plus.isAdditive = true from rfl) ih
  | minus _ ih => exact .sign (show Sign.minus.isAdditive = true from rfl) ih
  | factor _ ih => exact ih.quotient_of_factor
  | divided _ _ ihleft ihright =>
    exact Generates.append .quotient .divide ihleft rfl ihright
  | quotient _ ih => exact ih.product_of_quotient
  | multiplied _ _ ihleft ihright =>
    exact Generates.append .product .times ihleft rfl ihright
  | term _ ih => exact ih.sum_of_term
  | added _ _ ihleft ihright =>
    exact Generates.append .sum .plus ihleft rfl ihright
  | subtracted _ _ ihleft ihright =>
    exact Generates.append .sum .minus ihleft rfl ihright

/-! ### Every expression says something

By induction on the links of a chain, each of which goes on with what the operands before it say. -/

/-- A chain that is continued by one operand adds the operand to what it says, or multiplies by
it. -/
theorem exists_append {left right : Text} {f : Formula} {sign : Sign}
    (hleft : Denotes family.category left e) (hsign : Family.ofSign sign = family)
    (hright : Denotes (.signed family.operandCategory) right f) :
    ∃ g, Denotes family.category (left ++ sign.symbol :: right) g ∧
      g.meaning = if family = .sum then e.meaning + .signed sign f.meaning
        else e.meaning * .asFactor sign f.meaning := by
  cases family with
  | sum =>
    cases sign with
    | plus => exact ⟨_, .added hleft hright, rfl⟩
    | minus => exact ⟨_, .subtracted hleft hright, rfl⟩
    | times => cases hsign
    | divide => cases hsign
  | product =>
    obtain rfl := Family.ofSign_eq_product_iff.1 hsign
    exact ⟨_, .multiplied hleft hright, rfl⟩
  | quotient =>
    obtain rfl := Family.ofSign_eq_quotient_iff.1 hsign
    exact ⟨_, .divided hleft hright, rfl⟩

/-- A chain says something if all of its operands do. -/
theorem exists_chainText (family : Family) {first : Text} {links : List (Sign × Text)}
    (hfirst : ∃ e, Denotes family.category first e)
    (hsigns : ∀ link ∈ links, Family.ofSign link.1 = family)
    (hlinks : ∀ link ∈ links, ∃ f, Denotes (.signed family.operandCategory) link.2 f) :
    ∃ e, Denotes family.category (chainText first links) e := by
  induction links generalizing first with
  | nil =>
    rw [chainText_nil]
    exact hfirst
  | cons link links ih =>
    obtain ⟨e, hfirst⟩ := hfirst
    obtain ⟨hsign, hsigns⟩ := List.forall_mem_cons.1 hsigns
    obtain ⟨⟨f, hlink⟩, hlinks⟩ := List.forall_mem_cons.1 hlinks
    obtain ⟨g, hg, -⟩ := exists_append hfirst hsign hlink
    have hstep := ih ⟨g, hg⟩ hsigns hlinks
    rw [chainText_link]
    exact hstep

/-- An operand says a number or a letter. -/
theorem exists_of_isOperandText (h : Node.isOperandText text = true) :
    ∃ e, Denotes .factor text e := by
  rcases Bool.or_eq_true_iff.1 h with hdecimal | hvariable
  · exact ⟨_, .literal (by rw [Numeral.decimalFraction?, if_pos hdecimal])⟩
  · unfold Text.isVariable at hvariable
    split at hvariable
    · exact ⟨_, .letter hvariable⟩
    · cases hvariable

/-- What is generated by the grammar says something. -/
theorem exists_of_generates (h : Generates false category text) : ∃ e, Denotes category text e := by
  induction h with
  | operand htext => exact exists_of_isOperandText htext
  | parenthesized _ ih =>
    obtain ⟨e, he⟩ := ih
    exact ⟨e, .parenthesized he⟩
  | unsigned _ ih =>
    obtain ⟨e, he⟩ := ih
    exact ⟨e, .unsigned he⟩
  | @sign _ sign _ hsign _ ih =>
    obtain ⟨e, he⟩ := ih
    cases sign with
    | plus => exact ⟨_, .plus he⟩
    | minus => exact ⟨_, .minus he⟩
    | times => cases hsign
    | divide => cases hsign
  | quotient _ hsigns _ ih ihs =>
    obtain ⟨e, he⟩ := ih
    exact exists_chainText .quotient ⟨e, .factor he⟩
      (fun link hmem ↦ Family.ofSign_eq_quotient_iff.2 (hsigns link hmem)) ihs
  | product _ hsigns _ ih ihs =>
    obtain ⟨e, he⟩ := ih
    exact exists_chainText .product ⟨e, .quotient he⟩
      (fun link hmem ↦ Family.ofSign_eq_product_iff.2 (hsigns link hmem)) ihs
  | sum _ hsigns _ ih ihs =>
    obtain ⟨e, he⟩ := ih
    exact exists_chainText .sum ⟨e, .term he⟩
      (fun link hmem ↦ Family.ofSign_eq_sum_iff.2 (hsigns link hmem)) ihs
  | strayProduct hlenient => cases hlenient
  | straySum hlenient => cases hlenient

/-! ### Smaller categories in larger ones -/

/-- A text with signs in front says what the text without them says, negated by each minus. -/
theorem signed_induction {motive : Text → Formula → Prop}
    (unsigned : ∀ text e, Denotes category text e → motive text e)
    (plus : ∀ text e, Denotes (.signed category) text e → motive text e → motive ('+' :: text) e)
    (minus : ∀ text e, Denotes (.signed category) text e → motive text e →
      motive ('-' :: text) (.neg e))
    (h : Denotes (.signed category) text e) : motive text e := by
  generalize hsigned : Category.signed category = signed at h
  induction h with
  | unsigned htext =>
    cases hsigned
    exact unsigned _ _ htext
  | plus htext ih =>
    cases hsigned
    exact plus _ _ htext (ih rfl)
  | minus htext ih =>
    cases hsigned
    exact minus _ _ htext (ih rfl)
  | _ => cases hsigned

/-- Signs stay in front when a category is taken for a larger one. -/
theorem signed_mono {larger : Category}
    (h : ∀ text e, Denotes category text e → Denotes larger text e)
    (htext : Denotes (.signed category) text e) : Denotes (.signed larger) text e :=
  signed_induction (fun text e htext ↦ .unsigned (h text e htext)) (fun _ _ _ ih ↦ .plus ih)
    (fun _ _ _ ih ↦ .minus ih) htext

/-- The operands of each family are sums. -/
theorem sum_of_operand (h : Denotes (.signed family.operandCategory) text e) :
    Denotes .sum text e := by
  cases family with
  | sum => exact .term h
  | product => exact .term (signed_mono (fun _ _ ↦ .quotient) h)
  | quotient => exact .term (signed_mono (fun _ _ h ↦ .quotient (.factor h)) h)

/-! ### The family of a text

A text that has no mark of a larger category is of the next smaller one, and says the same there.
The rules for chains are the ones that are excluded in this way, as each of them puts a mark into
the text. -/

/-- A sum that is not cut is a term. The two rules for sums of several terms do not apply, because
the sign between the last term and the others would be cut. -/
theorem term_of_isUncut {previous : Option Char} (h : Denotes .sum text e)
    (huncut : IsUncut .sum 0 previous text) : Denotes (.signed .product) text e := by
  cases h with
  | term htext => exact htext
  | added hleft _ =>
    exact absurd huncut (hleft.generates.not_isUncut_append
      (show Family.ofSign .plus = .sum from rfl) previous)
  | subtracted hleft _ =>
    exact absurd huncut (hleft.generates.not_isUncut_append
      (show Family.ofSign .minus = .sum from rfl) previous)

/-- A term that is not cut as a product is one quotient. -/
theorem signedQuotient_of_isUncut {previous : Option Char} (h : Denotes (.signed .product) text e)
    (huncut : IsUncut .product 0 previous text) : Denotes (.signed .quotient) text e := by
  refine signed_induction (motive := fun text e ↦ ∀ previous, IsUncut .product 0 previous text →
      Denotes (.signed .quotient) text e)
    (fun text e htext previous huncut ↦ ?_)
    (fun _ _ _ ih _ huncut ↦
      .plus (ih _ (show IsUncut .product 0 _ (Sign.plus.symbol :: _) from huncut).of_symbol))
    (fun _ _ _ ih _ huncut ↦
      .minus (ih _ (show IsUncut .product 0 _ (Sign.minus.symbol :: _) from huncut).of_symbol))
        h _ huncut
  cases htext with
  | quotient htext => exact .unsigned htext
  | multiplied hleft _ =>
    exact absurd huncut (hleft.generates.not_isUncut_append
      (show Family.ofSign .times = .product from rfl) previous)

/-- A quotient that is not cut is one factor. -/
theorem signedFactor_of_isUncut {previous : Option Char} (h : Denotes (.signed .quotient) text e)
    (huncut : IsUncut .quotient 0 previous text) : Denotes (.signed .factor) text e := by
  refine signed_induction (motive := fun text e ↦ ∀ previous, IsUncut .quotient 0 previous text →
      Denotes (.signed .factor) text e)
    (fun text e htext previous huncut ↦ ?_)
    (fun _ _ _ ih _ huncut ↦
      .plus (ih _ (show IsUncut .quotient 0 _ (Sign.plus.symbol :: _) from huncut).of_symbol))
    (fun _ _ _ ih _ huncut ↦
      .minus (ih _ (show IsUncut .quotient 0 _ (Sign.minus.symbol :: _) from huncut).of_symbol))
        h _ huncut
  cases htext with
  | factor htext => exact .unsigned htext
  | divided hleft _ =>
    exact absurd huncut (hleft.generates.not_isUncut_append
      (show Family.ofSign .divide = .quotient from rfl) previous)

/-- A text without binary signs has no sign in front. -/
theorem of_signed (h : Denotes (.signed category) text e)
    (hbinary : ∀ mark ∈ outside 0 none text, isBinarySign mark = false) :
    Denotes category text e := by
  cases h with
  | unsigned htext => exact htext
  | plus htext =>
    rw [outside_cons (by decide) (by decide)] at hbinary
    exact absurd (hbinary _ List.mem_cons_self) (by decide)
  | minus htext =>
    rw [outside_cons (by decide) (by decide)] at hbinary
    exact absurd (hbinary _ List.mem_cons_self) (by decide)

/-- A sum without binary signs says a product. -/
theorem product_of_classify (h : Denotes .sum text e)
    (hbinary : ∀ mark ∈ outside 0 none text, isBinarySign mark = false) :
    Denotes .product text e :=
  (h.term_of_isUncut (isUncut_sum hbinary)).of_signed hbinary

/-- If there is no `*` either, it says a quotient. -/
theorem quotient_of_classify (h : Denotes .sum text e)
    (hbinary : ∀ mark ∈ outside 0 none text, isBinarySign mark = false)
    (htimes : ∀ mark ∈ outside 0 none text, mark.2 ≠ '*') : Denotes .quotient text e := by
  have huncut : IsUncut .product 0 none text := fun mark hmem ↦ by
    simp [Family.cutsBefore, Family.operatorMatches, htimes mark hmem]
  exact ((Denotes.unsigned (h.product_of_classify hbinary)).signedQuotient_of_isUncut
    huncut).of_signed hbinary

/-- A text without a family says a factor. -/
theorem factor_of_classify (h : Denotes .sum text e) (hclassify : classify text = none) :
    Denotes .factor text e := by
  obtain ⟨hbinary, htimes, hdivide⟩ := classify_eq_none_iff.1 hclassify
  have huncut : IsUncut .quotient 0 none text := fun mark hmem ↦ by
    simp [Family.cutsBefore, Family.operatorMatches, hdivide mark hmem]
  exact ((Denotes.unsigned (h.quotient_of_classify hbinary htimes)).signedFactor_of_isUncut
    huncut).of_signed hbinary

/-- A text of a family says a chain of that family. -/
theorem of_classify (h : Denotes .sum text e) (hclassify : classify text = some family) :
    Denotes family.category text e := by
  cases family with
  | sum => exact h
  | product => exact h.product_of_classify (classify_eq_product_iff.1 hclassify).1
  | quotient =>
    obtain ⟨hbinary, htimes, -⟩ := classify_eq_quotient_iff.1 hclassify
    exact h.quotient_of_classify hbinary htimes

/-! ### What the reader takes off a text

Parentheses, a minus, and in the end the text of an operand. -/

/-- A factor is an operand or an expression in parentheses. -/
theorem of_factor (h : Denotes .factor text e) :
    (Node.isOperandText text = true ∧ Meaning.ofValue (Node.atomValue text) = e.meaning) ∨
      ∃ inside, text = '(' :: (inside ++ [')']) ∧ Denotes .sum inside e := by
  cases h with
  | literal hvalue =>
    exact Or.inl ⟨Node.isOperandText_of_decimalFraction? hvalue,
      Node.ofValue_atomValue_of_decimalFraction? hvalue⟩
  | letter hletter =>
    exact Or.inl ⟨Node.isOperandText_of_isAlpha hletter, Node.ofValue_atomValue_of_isAlpha hletter⟩
  | parenthesized hinside => exact Or.inr ⟨_, rfl, hinside⟩

/-- Parentheses around a text say nothing. -/
theorem stripParentheses (h : Denotes .sum text e) :
    Denotes .sum (EquationSteps.stripParentheses text) e := by
  by_cases hne : EquationSteps.stripParentheses text = text
  · rw [hne]
    exact h
  obtain ⟨htext, hmarks⟩ := of_stripParentheses_ne hne
  have hfamily : classify text = none := by
    rw [classify_eq, hmarks]
    rfl
  have hopen : '(' ∈ text := by
    rw [htext]
    exact List.mem_cons_self
  rcases (h.factor_of_classify hfamily).of_factor with ⟨hoperand, -⟩ | ⟨inside, rfl, hinside⟩
  · cases isStructural_of_mem_operand hoperand hopen
  · rw [stripParentheses_parenthesized hinside.generates.isBalanced]
    exact hinside

/-- What is left of a text that has no family and no parentheses around it says an operand. -/
theorem ofValue_atomValue (h : Denotes .sum text e) (hfamily : classify text = none)
    (hnested : EquationSteps.stripParentheses text = text) :
    Meaning.ofValue (Node.atomValue text) = e.meaning := by
  rcases (h.factor_of_classify hfamily).of_factor with ⟨-, hvalue⟩ | ⟨inside, rfl, hinside⟩
  · exact hvalue
  · -- parentheses around the whole text would have been stripped
    rw [stripParentheses_parenthesized hinside.generates.isBalanced] at hnested
    have hlength := congrArg List.length hnested
    simp at hlength
    omega

/-- A minus in front of a text without operators says the negation. -/
theorem of_negated? (h : Denotes .sum text e) (hnegated : negated? text = some operand) :
    ∃ f, e = .neg f ∧ Denotes .sum operand f := by
  obtain ⟨rfl, hoperand⟩ := negated?_eq_some_iff.1 hnegated
  have huncut : IsUncut .sum 0 none ('-' :: operand) :=
    isUncut_cons_iff.2 ⟨rfl, isUncut_of_not_isOperator hoperand⟩
  generalize htext : '-' :: operand = text at h huncut
  cases h.term_of_isUncut huncut with
  | unsigned hproduct =>
    -- an operand without signs cannot begin with the minus
    have hgenerates : Generates false Family.sum.operandCategory _ := hproduct.generates
    obtain ⟨c, rest, hcons, hc⟩ := hgenerates.exists_cons_of_operand
    rw [← htext] at hcons
    injection hcons with hminus
    rw [← hminus] at hc
    cases hc
  | plus => cases htext
  | minus hterm =>
    cases htext
    exact ⟨_, rfl, .term hterm⟩

/-- An operand without an operator in front has the default sign of its family. -/
theorem signedOperand_of_operand (h : Denotes family.operandCategory text e) :
    family.signedOperand text = (family.defaultSign, text) := by
  obtain ⟨c, rest, rfl, hc⟩ := Generates.exists_cons_of_operand h.generates
  exact Family.signedOperand_of_not_isOperator hc

end Denotes

/-- The expressions are the texts that say something. -/
theorem isExpression_iff_exists_denotes {text : Text} :
    IsExpression text ↔ ∃ e, Denotes .sum text.scanned e :=
  ⟨Denotes.exists_of_generates, fun ⟨_, h⟩ ↦ h.generates⟩

end EquationSteps
