import EquationSteps.Proofs.Reading.Scan
import Mathlib.Data.List.Chain

/-!
# The grammar of expressions

```
sum      = term ((+|-) term)*             term   = (+|-)* product
product  = quotient (* (+|-)* quotient)*
quotient = factor (/ (+|-)* factor)*      factor = decimal | letter | ( sum )
```

`Generates false` is this grammar. The reader is more lenient than it: it also takes a `*` or `/` in
front of a sum of several terms, and a `/` in front of a product of several factors.
`Generates true` is the grammar with these two rules added, which is what the reader reads
(`Proofs.Reading.Acceptance`). Most of what follows holds of both and is proved once, with the
choice as a parameter.

**The operators bind in three steps**, and a quotient binds more tightly than a product. So `x/y*z`
is a product of two operands, of which the first is a quotient, and `x*y/z` is one as well, of which
the second is. This is the order in which the reader looks for operators: it cuts at every `+` and
`-` if there is one that is not unary, else at every `*`, else at every `/`.

**Signs in front.** Any number of plus and minus signs may stand in front of an operand, also behind
another operator, as in `2*-3`. Such a sign belongs to the operand and cuts nothing; the category
`signed` is the only place where the grammar has them.

**A chain is a list of operands**, with a sign in front of each but the first. So there is one rule
for each kind of chain, and a single operand is the chain without links. This is the shape in which
the reader finds a text, as cutting gives a list of segments.

The facts here are the ones by which the reader finds the structure of a generated text again. Such
a text is balanced, it ends in an operand, and its marks tell the categories apart
(`Generates.admits`): a product has no binary signs outside of parentheses, a quotient has no `*`,
and a factor has no `/` either. Conversely a text that is not cut is of the next smaller category
(`Generates.term_of_isUncut` and the two after it).
-/

namespace EquationSteps

/-- The categories of the grammar. -/
inductive Category where
  /-- Terms joined by `+` and `-`. -/
  | sum
  /-- Quotients joined by `*`. -/
  | product
  /-- Factors joined by `/`, which binds closer than `*`. -/
  | quotient
  /-- An operand, or a sum in parentheses. -/
  | factor
  /-- A text of the category, behind any number of unary signs. -/
  | signed (category : Category)

/-- The texts of a category, by the grammar proper or by the lenient one. -/
inductive Generates (lenient : Bool) : Category → Text → Prop where
  /-- A decimal literal or a letter. -/
  | operand {text : Text} (htext : Node.isOperandText text = true) :
    Generates lenient .factor text
  /-- A sum in parentheses. -/
  | parenthesized {text : Text} (htext : Generates lenient .sum text) :
    Generates lenient .factor ('(' :: (text ++ [')']))
  /-- There may be no sign in front. -/
  | unsigned {category : Category} {text : Text} (htext : Generates lenient category text) :
    Generates lenient (.signed category) text
  /-- There may be one more sign in front, a `+` or a `-`. -/
  | sign {category : Category} {sign : Sign} {text : Text} (hsign : sign.isAdditive = true)
      (htext : Generates lenient (.signed category) text) :
    Generates lenient (.signed category) (sign.symbol :: text)
  /-- Factors with a `/` between them. There may be signs in front of each but the first. -/
  | quotient {first : Text} {links : List (Sign × Text)} (hfirst : Generates lenient .factor first)
      (hsigns : ∀ link ∈ links, link.1 = .divide)
      (hlinks : ∀ link ∈ links, Generates lenient (.signed .factor) link.2) :
    Generates lenient .quotient (chainText first links)
  /-- Quotients with a `*` between them. There may be signs in front of each but the first. -/
  | product {first : Text} {links : List (Sign × Text)} (hfirst : Generates lenient .quotient first)
      (hsigns : ∀ link ∈ links, link.1 = .times)
      (hlinks : ∀ link ∈ links, Generates lenient (.signed .quotient) link.2) :
    Generates lenient .product (chainText first links)
  /-- Terms with a `+` or `-` between them. -/
  | sum {first : Text} {links : List (Sign × Text)}
      (hfirst : Generates lenient (.signed .product) first)
      (hsigns : ∀ link ∈ links, link.1.isAdditive = true)
      (hlinks : ∀ link ∈ links, Generates lenient (.signed .product) link.2) :
    Generates lenient .sum (chainText first links)
  /-- A `/` in front of several factors. The reader cuts the text at each `*`, and the `/`
  becomes the sign of the first factor. -/
  | strayProduct {first : Text} {links : List (Sign × Text)} (hlenient : lenient = true)
      (hfirst : Generates lenient (.signed .quotient) first) (hne : links ≠ [])
      (hsigns : ∀ link ∈ links, link.1 = .times)
      (hlinks : ∀ link ∈ links, Generates lenient (.signed .quotient) link.2) :
    Generates lenient .product ('/' :: chainText first links)
  /-- A `*` or `/` in front of several terms. The reader cuts the text at each sign between two
  terms, and the `*` or `/` becomes the sign of the first term. -/
  | straySum {sign : Sign} {first : Text} {links : List (Sign × Text)} (hlenient : lenient = true)
      (hsign : sign.isAdditive = false) (hfirst : Generates lenient (.signed .product) first)
      (hne : links ≠ []) (hsigns : ∀ link ∈ links, link.1.isAdditive = true)
      (hlinks : ∀ link ∈ links, Generates lenient (.signed .product) link.2) :
    Generates lenient .sum (sign.symbol :: chainText first links)

/-- Whether a text is an expression, once its blanks are dropped and its products are written
out. -/
def IsExpression (text : Text) : Prop :=
  Generates false .sum text.scanned

/-! ### Characters

What the characters of a text are to the scan: operators and parentheses have a meaning for it, and
no character of an operand is one of them. Nor are they blanks, and no two neighbours within an
operand are factors side by side. So scanning leaves operands as they are. -/

/-- Neither of two characters that stand side by side without multiplying is dropped or added to. -/
theorem explicitProducts_of_isChain {text : Text}
    (h : text.IsChain fun c d ↦ multiplies c d = false) : explicitProducts text = text := by
  induction text with
  | nil => rfl
  | cons c text ih =>
    cases text with
    | nil => rfl
    | cons d text =>
      obtain ⟨hmultiplies, htext⟩ := List.isChain_cons_cons.1 h
      rw [explicitProducts, if_neg (Bool.eq_false_iff.1 hmultiplies), ih htext]

/-- An operator multiplies with nothing. -/
theorem multiplies_symbol (sign : Sign) (c : Char) :
    multiplies c sign.symbol = false ∧ multiplies sign.symbol c = false := by
  have hsymbol : sign.symbol.isAlphanum = false ∧ sign.symbol.isAlpha = false ∧
      sign.symbol ≠ '(' ∧ sign.symbol ≠ ')' := by
    cases sign <;> decide
  simp [multiplies, hsymbol]

/-- The characters that have a meaning for the scan are the four operators and the two
parentheses. -/
theorem isStructural_iff {c : Char} : isStructural c = true ↔
    (∃ sign : Sign, c = sign.symbol) ∨ c = '(' ∨ c = ')' := by
  unfold isStructural isOperator
  rw [Bool.or_eq_true, Bool.or_eq_true, beq_iff_eq, beq_iff_eq, or_assoc]
  refine or_congr_left ?_
  rw [Option.isSome_iff_exists]
  exact exists_congr fun sign ↦ Sign.ofChar?_eq_some_iff

/-- An operator is no letter, no digit and no point. -/
theorem isOperand_of_isStructural {c : Char} (h : isStructural c = true) :
    c.isAlphanum = false ∧ c ≠ '.' := by
  rcases isStructural_iff.1 h with ⟨sign, rfl⟩ | rfl | rfl
  · cases sign <;> decide
  · decide
  · decide

/-- An operand is made of letters, digits and points. -/
theorem isAlphanum_of_mem_operand {text : Text} (h : Node.isOperandText text = true) {c : Char}
    (hmem : c ∈ text) : c.isAlphanum = true ∨ c = '.' := by
  rcases Bool.or_eq_true_iff.1 h with h | h
  · unfold Numeral.isDecimal at h
    obtain ⟨⟨hall, -⟩, -⟩ := by simpa only [Bool.and_eq_true] using h
    rcases Bool.or_eq_true_iff.1 (List.all_eq_true.1 hall c hmem) with hdigit | hpoint
    · exact Or.inl (by rw [Char.isAlphanum, hdigit, Bool.or_true])
    · exact Or.inr (beq_iff_eq.1 hpoint)
  · unfold Text.isVariable at h
    split at h
    · rw [List.mem_singleton.1 hmem]
      exact Or.inl (by rw [Char.isAlphanum, h, Bool.true_or])
    · cases h

/-- An operand has no operators and no parentheses. -/
theorem isStructural_of_mem_operand {text : Text} (h : Node.isOperandText text = true) {c : Char}
    (hmem : c ∈ text) : isStructural c = false := by
  refine Bool.eq_false_iff.2 fun hstructural ↦ ?_
  obtain ⟨halphanum, hpoint⟩ := isOperand_of_isStructural hstructural
  rcases isAlphanum_of_mem_operand h hmem with h | h
  · rw [halphanum] at h
    cases h
  · exact hpoint h

/-- So nothing in an operand has a meaning for the scan. -/
theorem any_isStructural_of_operand {text : Text} (h : Node.isOperandText text = true) :
    text.any isStructural = false :=
  List.any_eq_false.2 fun c hmem ↦ by
    rw [isStructural_of_mem_operand h hmem]
    exact Bool.false_ne_true

/-- An empty text is no operand. -/
theorem isOperandText_nil : Node.isOperandText [] = false := rfl

/-- A character without a meaning for the scan is no operator and no parenthesis. -/
theorem isOperator_of_isStructural {c : Char} (h : isStructural c = false) :
    isOperator c = false ∧ c ≠ '(' ∧ c ≠ ')' := by
  unfold isStructural at h
  simpa only [Bool.or_eq_false_iff, beq_eq_false_iff_ne, and_assoc] using h

/-- The character of a sign is an operator. -/
theorem isOperator_symbol (sign : Sign) : isOperator sign.symbol = true := by
  cases sign <;> rfl

/-- The character of a sign is no parenthesis. -/
theorem symbol_ne_parenthesis (sign : Sign) : sign.symbol ≠ '(' ∧ sign.symbol ≠ ')' := by
  cases sign <;> decide

/-- Nor is it a blank. -/
theorem isBlank_symbol (sign : Sign) : isBlank sign.symbol = false := by
  cases sign <;> rfl

/-- The letters by their codes. -/
theorem isAlpha_iff_toNat {c : Char} : c.isAlpha = true ↔
    (65 ≤ c.toNat ∧ c.toNat ≤ 90) ∨ (97 ≤ c.toNat ∧ c.toNat ≤ 122) := by
  have hranges : c.isAlpha =
      (decide (65 ≤ c.val ∧ c.val ≤ 90) || (decide (97 ≤ c.val) && decide (c.val ≤ 122))) := rfl
  rw [hranges, Bool.or_eq_true, Bool.and_eq_true, decide_eq_true_iff, decide_eq_true_iff,
    decide_eq_true_iff, UInt32.le_iff_toNat_le, UInt32.le_iff_toNat_le, UInt32.le_iff_toNat_le,
    UInt32.le_iff_toNat_le]
  rfl

/-- Letters and digits are no blanks. -/
theorem isBlank_of_isAlphanum {c : Char} (h : c.isAlphanum = true) : isBlank c = false := by
  rw [Char.isAlphanum, Bool.or_eq_true, isAlpha_iff_toNat, Char.isDigit_iff_toNat] at h
  have hrange : 48 ≤ c.toNat ∧ c.toNat ≤ 122 := by
    change ((65 ≤ c.toNat ∧ c.toNat ≤ 90) ∨ (97 ≤ c.toNat ∧ c.toNat ≤ 122)) ∨
      (48 ≤ c.toNat ∧ c.toNat ≤ 57) at h
    omega
  simp [isBlank, blankRanges]
  omega

/-- An operand has no blanks. -/
theorem isBlank_of_mem_operand {text : Text} (h : Node.isOperandText text = true) {c : Char}
    (hmem : c ∈ text) : isBlank c = false := by
  rcases isAlphanum_of_mem_operand h hmem with h | rfl
  · exact isBlank_of_isAlphanum h
  · rfl

/-- A digit is no letter. -/
theorem isAlpha_of_isDigit {c : Char} (h : c.isDigit = true) : c.isAlpha = false := by
  rw [Char.isDigit_iff_toNat] at h
  refine Bool.eq_false_iff.2 fun halpha ↦ ?_
  rw [isAlpha_iff_toNat] at halpha
  change 48 ≤ c.toNat ∧ c.toNat ≤ 57 at h
  omega

/-- The digits of a literal multiply neither with each other nor with its point. -/
theorem multiplies_of_mem_operand {text : Text} (h : Node.isOperandText text = true) :
    text.IsChain fun c d ↦ multiplies c d = false := by
  rcases Bool.or_eq_true_iff.1 h with h | h
  · unfold Numeral.isDecimal at h
    obtain ⟨⟨hall, -⟩, -⟩ := by simpa only [Bool.and_eq_true] using h
    have hother : ∀ c ∈ text, c.isAlpha = false ∧ c ≠ '(' ∧ c ≠ ')' := fun c hmem ↦ by
      rcases Bool.or_eq_true_iff.1 (List.all_eq_true.1 hall c hmem) with hdigit | hpoint
      · refine ⟨isAlpha_of_isDigit hdigit, ?_, ?_⟩ <;>
        · rintro rfl
          cases hdigit
      · rw [beq_iff_eq.1 hpoint]
        decide
    refine (List.pairwise_of_forall_mem_list fun c hc d hd ↦ ?_).isChain
    simp [multiplies, hother c hc, hother d hd]
  · unfold Text.isVariable at h
    split at h
    · exact List.isChain_singleton _
    · cases h

/-! ### Chains of texts

What is kept by putting a sign between two texts is kept by chains. The marks of a chain are those
of its operands and the signs between them, if the operands are balanced and end in something that a
sign can follow. -/

/-- A property of texts that is kept by putting a sign between two of them holds of a chain if it
holds of its operands. -/
theorem chainText_induction {property : Text → Prop}
    (append : ∀ a (sign : Sign) b, property a → property b → property (a ++ sign.symbol :: b))
    {first : Text} {links : List (Sign × Text)} (hfirst : property first)
    (hlinks : ∀ link ∈ links, property link.2) : property (chainText first links) := by
  induction links generalizing first with
  | nil =>
    rw [chainText, List.flatMap_nil, List.append_nil]
    exact hfirst
  | cons link links ih =>
    obtain ⟨hlink, hlinks⟩ := List.forall_mem_cons.1 hlinks
    rw [chainText_link]
    exact ih (append first link.1 link.2 hfirst hlink) hlinks

/-- A sign in front of a balanced text. -/
theorem IsBalanced.symbol {text : Text} (h : IsBalanced text) (sign : Sign) :
    IsBalanced (sign.symbol :: text) :=
  h.cons (symbol_ne_parenthesis sign).1 (symbol_ne_parenthesis sign).2

/-- A chain of balanced operands is balanced. -/
theorem isBalanced_chainText {first : Text} {links : List (Sign × Text)}
    (hfirst : IsBalanced first) (hlinks : ∀ link ∈ links, IsBalanced link.2) :
    IsBalanced (chainText first links) :=
  chainText_induction (fun _ sign _ ha hb ↦ ha.append (hb.symbol sign)) hfirst hlinks

/-- A chain ends in an operand if its operands do. -/
theorem endsInOperand_chainText {first : Text} {links : List (Sign × Text)}
    (hfirst : EndsInOperand first) (hlinks : ∀ link ∈ links, EndsInOperand link.2) :
    EndsInOperand (chainText first links) :=
  chainText_induction (fun a sign _ _ hb ↦ (hb.append [sign.symbol]).append a) hfirst hlinks

/-- The marks of a chain are those of its parts and the signs between them, in front of each of
which an operand ends. -/
theorem forall_mem_outside_chainText {property : Option Char × Char → Prop} {first : Text}
    {links : List (Sign × Text)} {previous : Option Char} (hbalanced : IsBalanced first)
    (hends : EndsInOperand first) (hbalancedAll : ∀ link ∈ links, IsBalanced link.2)
    (hendsAll : ∀ link ∈ links, EndsInOperand link.2)
    (hfirst : ∀ mark ∈ outside 0 previous first, property mark)
    (hsigns : ∀ link ∈ links, ∀ c, isOperator c = false → property (some c, link.1.symbol))
    (hlinks : ∀ link ∈ links, ∀ mark ∈ outside 0 (some link.1.symbol) link.2, property mark) :
    ∀ mark ∈ outside 0 previous (chainText first links), property mark := by
  induction links generalizing first with
  | nil =>
    rw [chainText, List.flatMap_nil, List.append_nil]
    exact hfirst
  | cons link links ih =>
    obtain ⟨hbalanced', hbalancedAll⟩ := List.forall_mem_cons.1 hbalancedAll
    obtain ⟨hends', hendsAll⟩ := List.forall_mem_cons.1 hendsAll
    obtain ⟨hsign, hsigns⟩ := List.forall_mem_cons.1 hsigns
    obtain ⟨hlink, hlinks⟩ := List.forall_mem_cons.1 hlinks
    have hlonger : ∀ mark ∈ outside 0 previous (first ++ link.1.symbol :: link.2),
        property mark := by
      obtain ⟨c, hlast, hc, -⟩ := hends
      rw [outside_append_of_isBalanced hbalanced, hlast,
        outside_cons (symbol_ne_parenthesis _).1 (symbol_ne_parenthesis _).2]
      exact List.forall_mem_append.2 ⟨hfirst, List.forall_mem_cons.2 ⟨hsign c hc, hlink⟩⟩
    have hstep :=
      ih (hbalanced.append (hbalanced'.symbol link.1))
        (hends'.append [link.1.symbol] |>.append first)
      hbalancedAll hendsAll hlonger hsigns hlinks
    rw [chainText_link]
    exact hstep

/-- A chain of several operands has a sign behind its first one. -/
theorem exists_mem_outside_chainText {first : Text} {links : List (Sign × Text)}
    (hne : links ≠ []) (hbalanced : IsBalanced first) (hends : EndsInOperand first)
    (previous : Option Char) : ∃ c, isOperator c = false ∧ ∃ link ∈ links,
      (some c, link.1.symbol) ∈ outside 0 previous (chainText first links) := by
  obtain ⟨c, hlast, hc, -⟩ := hends
  cases links with
  | nil => exact absurd rfl hne
  | cons link links =>
    refine ⟨c, hc, link, List.mem_cons_self, ?_⟩
    rw [chainText, outside_append_of_isBalanced hbalanced, hlast, List.flatMap_cons,
      List.cons_append, outside_cons (symbol_ne_parenthesis _).1 (symbol_ne_parenthesis _).2]
    exact List.mem_append_right _ List.mem_cons_self

/-! ### The marks of the categories

A category is known by the marks that its texts do not have. Two kinds of marks matter: signs that
are not unary, which only a sum has, the front of a text that may be signed apart, and the
characters `*` and `/`. -/

/-- Whether a category is one of texts without binary signs outside of parentheses. -/
def Category.isTerm : Category → Bool
  | .sum => false
  | .product | .quotient | .factor => true
  | .signed category => category.isTerm

/-- Whether signs may stand in front of a text of the category. -/
def Category.isSigned : Category → Bool
  | .signed _ => true
  | _ => false

/-- Whether a character does not occur outside of parentheses in a text of the category. -/
def Category.excludes : Category → Char → Bool
  | .sum, _ | .product, _ => false
  | .quotient, c => c == '*'
  | .factor, c => c == '*' || c == '/'
  | .signed category, c => category.excludes c

/-- Every category has texts with any other character than `*` and `/`. -/
theorem Category.excludes_eq_false {category : Category} {c : Char} (htimes : c ≠ '*')
    (hdivide : c ≠ '/') : category.excludes c = false := by
  induction category with
  | sum => rfl
  | product => rfl
  | quotient => exact beq_false_of_ne htimes
  | factor => rw [excludes, beq_false_of_ne htimes, beq_false_of_ne hdivide, Bool.or_false]
  | signed category ih => exact ih

/-- The characters of additive signs. -/
theorem symbol_isAdditive_iff {sign : Sign} :
    sign.isAdditive = true ↔ sign.symbol = '+' ∨ sign.symbol = '-' := by
  cases sign <;> decide

/-- The characters of the other signs. -/
theorem symbol_ne_of_isAdditive {sign : Sign} (h : sign.isAdditive = true) :
    sign.symbol ≠ '*' ∧ sign.symbol ≠ '/' := by
  cases sign <;> first | decide | cases h

/-- What a mark tells about a text of the category that stands behind the given character: the
category does without the characters that it excludes, and outside of sums a sign is unary or stands
at the front of a text that may be signed. -/
structure Category.Admits (category : Category) (previous : Option Char)
    (mark : Option Char × Char) : Prop where
  /-- The character may occur outside of parentheses. -/
  excludes : category.excludes mark.2 = false
  /-- Except in a sum, a `+` or `-` is unary or stands at the front. -/
  sign : category.isTerm = true → mark.2 = '+' ∨ mark.2 = '-' →
    follows mark.1 = true ∨ category.isSigned = true ∧ mark.1 = previous

namespace Generates

variable {lenient : Bool} {category : Category} {text : Text}

/-! ### The shape of generated texts

The inductions over the grammar. All of them have a case for a chain, in which the operands are
known to be balanced and to end in operands, so that the marks of the chain can be listed. -/

/-- The parentheses of a generated text match. -/
theorem isBalanced (h : Generates lenient category text) : IsBalanced text := by
  induction h with
  | operand htext =>
    exact isBalanced_of_forall fun c hmem ↦
      (isOperator_of_isStructural (isStructural_of_mem_operand htext hmem)).2
  | parenthesized _ ih => exact ih.parenthesized
  | unsigned _ ih => exact ih
  | sign _ _ ih => exact ih.symbol _
  | quotient _ _ _ ih ihs => exact isBalanced_chainText ih ihs
  | product _ _ _ ih ihs => exact isBalanced_chainText ih ihs
  | sum _ _ _ ih ihs => exact isBalanced_chainText ih ihs
  | strayProduct _ _ _ _ _ ih ihs => exact (isBalanced_chainText ih ihs).symbol .divide
  | straySum _ _ _ _ _ _ ih ihs => exact (isBalanced_chainText ih ihs).symbol _

/-- A generated text ends in an operand. -/
theorem endsInOperand (h : Generates lenient category text) : EndsInOperand text := by
  induction h with
  | @operand text htext =>
    cases hlast : text.getLast? with
    | none =>
      rw [List.getLast?_eq_none_iff.1 hlast, isOperandText_nil] at htext
      cases htext
    | some c =>
      have hc := isOperator_of_isStructural
        (isStructural_of_mem_operand htext (List.mem_of_getLast? hlast))
      exact ⟨c, hlast, hc.1, hc.2.1⟩
  | @parenthesized text _ _ =>
    exact EndsInOperand.append ('(' :: text) ⟨')', rfl, rfl, by decide⟩
  | unsigned _ ih => exact ih
  | @sign _ sign _ _ _ ih => exact ih.append [sign.symbol]
  | quotient _ _ _ ih ihs => exact endsInOperand_chainText ih ihs
  | product _ _ _ ih ihs => exact endsInOperand_chainText ih ihs
  | sum _ _ _ ih ihs => exact endsInOperand_chainText ih ihs
  | strayProduct _ _ _ _ _ ih ihs => exact (endsInOperand_chainText ih ihs).append ['/']
  | @straySum sign _ _ _ _ _ _ _ _ ih ihs =>
    exact (endsInOperand_chainText ih ihs).append [sign.symbol]

/-- The marks of a generated chain, for which the conditions on its operands are met. -/
theorem forall_mem_outside_chainText {first operand : Category}
    {firstText : Text} {links : List (Sign × Text)} {property : Option Char × Char → Prop}
    {previous : Option Char} (hfirst : Generates lenient first firstText)
    (hlinks : ∀ link ∈ links, Generates lenient operand link.2)
    (hmarks : ∀ mark ∈ outside 0 previous firstText, property mark)
    (hsigns : ∀ link ∈ links, ∀ c, isOperator c = false → property (some c, link.1.symbol))
    (hothers : ∀ link ∈ links, ∀ mark ∈ outside 0 (some link.1.symbol) link.2, property mark) :
    ∀ mark ∈ outside 0 previous (chainText firstText links), property mark :=
  EquationSteps.forall_mem_outside_chainText hfirst.isBalanced hfirst.endsInOperand
    (fun link hmem ↦ (hlinks link hmem).isBalanced)
    (fun link hmem ↦ (hlinks link hmem).endsInOperand) hmarks hsigns hothers

/-- A mark of an operand is a mark of the group that the operand stands in. -/
theorem admits_of_operand {operand group : Category} {sign : Sign} {mark : Option Char × Char}
    {previous : Option Char} (h : (Category.signed operand).Admits (some sign.symbol) mark)
    (hterm : group.isTerm = true → operand.isTerm = true)
    (hexcludes : operand.excludes mark.2 = false → group.excludes mark.2 = false) :
    group.Admits previous mark := by
  refine ⟨hexcludes h.excludes, fun hgroup hsign ↦ Or.inl ?_⟩
  rcases h.sign (hterm hgroup) hsign with hfollows | ⟨-, hmark⟩
  · exact hfollows
  · rw [hmark]
    exact isOperator_symbol sign

/-- The marks of a generated text. -/
theorem admits (h : Generates lenient category text) (previous : Option Char) :
    ∀ mark ∈ outside 0 previous text, category.Admits previous mark := by
  induction h generalizing previous with
  | operand htext =>
    intro mark hmem
    have hoperator := (isOperator_of_isStructural
      (isStructural_of_mem_operand htext (mem_of_mem_outside hmem))).1
    have hne : ∀ sign : Sign, mark.2 ≠ sign.symbol := fun sign hsign ↦ by
      rw [hsign, isOperator_symbol] at hoperator
      cases hoperator
    exact ⟨Category.excludes_eq_false (hne .times) (hne .divide),
      fun _ hsign ↦ absurd hsign (not_or.2 ⟨hne .plus, hne .minus⟩)⟩
  | parenthesized htext ih =>
    rw [outside_parenthesized htext.isBalanced]
    intro mark hmem
    obtain rfl := List.mem_singleton.1 hmem
    exact ⟨rfl, fun _ hsign ↦ by simp at hsign⟩
  | unsigned _ ih =>
    intro mark hmem
    obtain ⟨hexcludes, hsign⟩ := ih previous mark hmem
    exact ⟨hexcludes, fun hterm hmark ↦ (hsign hterm hmark).imp_right fun h ↦ ⟨rfl, h.2⟩⟩
  -- the sign at the front is the one that the category allows, and makes the next one unary
  | @sign category sign _ hsign _ ih =>
    rw [outside_cons (symbol_ne_parenthesis _).1 (symbol_ne_parenthesis _).2]
    refine List.forall_mem_cons.2 ⟨⟨?_, fun _ _ ↦ Or.inr ⟨rfl, rfl⟩⟩, fun mark hmem ↦ ?_⟩
    · exact Category.excludes_eq_false (symbol_ne_of_isAdditive hsign).1
        (symbol_ne_of_isAdditive hsign).2
    · exact admits_of_operand (ih _ mark hmem) id id
  -- the marks of a chain: those of its first part, the signs, and those of the operands
  | quotient hfirst hsigns hlinks ih ihs =>
    refine hfirst.forall_mem_outside_chainText hlinks (fun mark hmem ↦ ?_)
      (fun link hmem c _ ↦ ?_) fun link hmem mark hmark ↦ ?_
    · obtain ⟨hexcludes, hsign⟩ := ih previous mark hmem
      exact ⟨(Bool.or_eq_false_iff.1 hexcludes).1, hsign⟩
    · rw [hsigns link hmem]
      exact ⟨rfl, fun _ hsign ↦ by simp [Sign.symbol] at hsign⟩
    · exact admits_of_operand (ihs link hmem _ mark hmark) id
        fun h ↦ (Bool.or_eq_false_iff.1 h).1
  | product hfirst hsigns hlinks ih ihs =>
    refine hfirst.forall_mem_outside_chainText hlinks (fun mark hmem ↦ ?_)
      (fun link hmem c _ ↦ ?_) fun link hmem mark hmark ↦ ?_
    · exact ⟨rfl, (ih previous mark hmem).sign⟩
    · rw [hsigns link hmem]
      exact ⟨rfl, fun _ hsign ↦ by simp [Sign.symbol] at hsign⟩
    · exact admits_of_operand (ihs link hmem _ mark hmark) id fun _ ↦ rfl
  | sum => exact fun _ _ ↦ ⟨rfl, fun h ↦ by cases h⟩
  | strayProduct _ hfirst _ hsigns hlinks ih ihs =>
    rw [outside_cons (by decide) (by decide)]
    refine List.forall_mem_cons.2 ⟨⟨rfl, fun _ hsign ↦ by simp at hsign⟩, ?_⟩
    refine hfirst.forall_mem_outside_chainText hlinks (fun mark hmem ↦ ?_)
      (fun link hmem c _ ↦ ?_) fun link hmem mark hmark ↦ ?_
    · have hmark : (Category.signed .quotient).Admits (some Sign.divide.symbol) mark :=
        ih _ mark hmem
      exact admits_of_operand hmark id fun _ ↦ rfl
    · rw [hsigns link hmem]
      exact ⟨rfl, fun _ hsign ↦ by simp [Sign.symbol] at hsign⟩
    · exact admits_of_operand (ihs link hmem _ mark hmark) id fun _ ↦ rfl
  | straySum => exact fun _ _ ↦ ⟨rfl, fun h ↦ by cases h⟩

/-- A property of texts that operands have, and that is kept by parentheses and by putting a sign
between two texts, holds of a generated text. -/
theorem text_induction (property : Text → Prop) (nil : property [])
    (operand : ∀ text, Node.isOperandText text = true → property text)
    (parenthesized : ∀ text, property text → property ('(' :: (text ++ [')'])))
    (append : ∀ a (sign : Sign) b, property a → property b → property (a ++ sign.symbol :: b))
    (h : Generates lenient category text) : property text := by
  induction h with
  | operand htext => exact operand _ htext
  | parenthesized _ ih => exact parenthesized _ ih
  | unsigned _ ih => exact ih
  | @sign _ sign _ _ _ ih => exact append [] sign _ nil ih
  | quotient _ _ _ ih ihs => exact chainText_induction append ih ihs
  | product _ _ _ ih ihs => exact chainText_induction append ih ihs
  | sum _ _ _ ih ihs => exact chainText_induction append ih ihs
  | strayProduct _ _ _ _ _ ih ihs =>
    exact append [] .divide _ nil (chainText_induction append ih ihs)
  | @straySum sign _ _ _ _ _ _ _ _ ih ihs =>
    exact append [] sign _ nil (chainText_induction append ih ihs)

/-- Scanning changes nothing of a generated text: it has no blanks, and its products are written
out. -/
theorem scanned_eq (h : Generates lenient category text) : text.scanned = text := by
  have hscanned : (∀ c ∈ text, isBlank c = false) ∧
      text.IsChain fun c d ↦ multiplies c d = false := by
    refine h.text_induction
      (fun text ↦ (∀ c ∈ text, isBlank c = false) ∧ text.IsChain fun c d ↦ multiplies c d = false)
      ⟨List.forall_mem_nil _, List.isChain_nil⟩
      (fun text htext ↦ ⟨fun c hmem ↦ isBlank_of_mem_operand htext hmem,
        multiplies_of_mem_operand htext⟩)
      ?_ ?_
    · intro text ⟨hblank, hchain⟩
      refine ⟨?_, List.isChain_cons.2 ⟨fun d _ ↦ rfl, List.isChain_append.2 ⟨hchain, ?_, ?_⟩⟩⟩
      · exact List.forall_mem_cons.2 ⟨rfl, List.forall_mem_append.2 ⟨hblank, by simp; rfl⟩⟩
      · exact List.isChain_singleton _
      · intro c _ d hd
        cases hd
        simp [multiplies]
    · intro a sign b ⟨ha, ha'⟩ ⟨hb, hb'⟩
      refine ⟨List.forall_mem_append.2 ⟨ha, List.forall_mem_cons.2 ⟨isBlank_symbol sign, hb⟩⟩, ?_⟩
      refine List.isChain_append.2 ⟨ha', List.isChain_cons.2 ⟨?_, hb'⟩, ?_⟩
      · exact fun d _ ↦ (multiplies_symbol sign d).2
      · intro c _ d hd
        cases hd
        exact (multiplies_symbol sign c).1
  have hblanks : Text.withoutBlanks text = text :=
    List.filter_eq_self.2 fun c hmem ↦ by rw [hscanned.1 c hmem]; rfl
  rw [Text.scanned, hblanks, explicitProducts_of_isChain hscanned.2]

/-- A generated text is made of letters, digits, points, operators and parentheses. -/
theorem isStructural_or_of_mem (h : Generates lenient category text) :
    ∀ c ∈ text, isStructural c = true ∨ c.isAlphanum = true ∨ c = '.' := by
  refine h.text_induction
    (fun text ↦ ∀ c ∈ text, isStructural c = true ∨ c.isAlphanum = true ∨ c = '.')
    (List.forall_mem_nil _)
    (fun text htext c hmem ↦ Or.inr (isAlphanum_of_mem_operand htext hmem)) ?_ ?_
  · intro text htext
    exact List.forall_mem_cons.2 ⟨Or.inl rfl,
      List.forall_mem_append.2 ⟨htext, List.forall_mem_singleton.2 (Or.inl rfl)⟩⟩
  · intro a sign b ha hb
    exact List.forall_mem_append.2 ⟨ha, List.forall_mem_cons.2
      ⟨Or.inl (isStructural_iff.2 (Or.inl ⟨sign, rfl⟩)), hb⟩⟩

/-! ### Cutting generated texts

Operands are not cut by the family that they are operands of, and a chain of several operands is cut
by its own. So a text that is not cut is a single operand, and of the next smaller category. -/

/-- A text with any number of signs in front is one without, with signs put in front one by one. -/
theorem signed_induction {motive : Text → Prop}
    (unsigned : ∀ text, Generates lenient category text → motive text)
    (sign : ∀ (sign : Sign) text, sign.isAdditive = true →
      Generates lenient (.signed category) text → motive text → motive (sign.symbol :: text))
    (h : Generates lenient (.signed category) text) : motive text := by
  generalize hsigned : Category.signed category = signed at h
  induction h with
  | unsigned htext =>
    cases hsigned
    exact unsigned _ htext
  | sign hadditive htext ih =>
    cases hsigned
    exact sign _ _ hadditive htext (ih rfl)
  | _ => cases hsigned

end Generates

/-- The category of the operands of a family, their signs apart. -/
def Family.operandCategory : Family → Category
  | .sum => .product
  | .product => .quotient
  | .quotient => .factor

/-- An operand is not cut by the family that it is an operand of. -/
theorem Generates.isUncut {lenient : Bool} {family : Family} {text : Text}
    (h : Generates lenient (.signed family.operandCategory) text) {previous : Option Char}
    (hprevious : previous = none ∨ ∃ sign : Sign, previous = some sign.symbol) :
    IsUncut family 0 previous text := by
  intro mark hmem
  have hmark := h.admits previous mark hmem
  cases family with
  | sum =>
    refine Bool.eq_false_iff.2 fun hcuts ↦ ?_
    simp only [Family.cutsBefore, Family.operatorMatches, beq_self_eq_true, Bool.true_and,
      Bool.and_eq_true, Bool.or_eq_true, beq_iff_eq, Bool.not_eq_true'] at hcuts
    obtain ⟨hsign, hsome, hfollows⟩ := hcuts
    rcases hmark.sign rfl hsign with h | ⟨-, h⟩
    · rw [hfollows] at h
      cases h
    · rcases hprevious with rfl | ⟨sign, rfl⟩
      · rw [h] at hsome
        cases hsome
      · rw [h] at hfollows
        exact absurd (isOperator_symbol sign) (Bool.eq_false_iff.1 hfollows)
  | product =>
    have hne : (mark.2 == '*') = false := hmark.excludes
    simp [Family.cutsBefore, Family.operatorMatches, hne]
  | quotient =>
    have hne : (mark.2 == '/') = false := (Bool.or_eq_false_iff.1 hmark.excludes).2
    simp [Family.cutsBefore, Family.operatorMatches, hne]

/-- A chain of several operands is cut. -/
theorem not_isUncut_chainText {family : Family} {first : Text} {links : List (Sign × Text)}
    (hne : links ≠ []) (hbalanced : IsBalanced first) (hends : EndsInOperand first)
    (hsigns : ∀ link ∈ links, Family.ofSign link.1 = family) (previous : Option Char) :
    ¬IsUncut family 0 previous (chainText first links) := by
  obtain ⟨c, hc, link, hlink, hmem⟩ := exists_mem_outside_chainText hne hbalanced hends previous
  intro huncut
  have hcuts := Family.cutsBefore_symbol rfl hc (hsigns link hlink)
  rw [huncut _ hmem] at hcuts
  cases hcuts

/-- A chain without links is its first operand. -/
theorem chainText_nil (first : Text) : chainText first [] = first := by
  rw [chainText, List.flatMap_nil, List.append_nil]

/-- A text behind a sign, as to where it is cut. -/
theorem IsUncut.of_symbol {family : Family} {previous : Option Char} {sign : Sign} {text : Text}
    (h : IsUncut family 0 previous (sign.symbol :: text)) :
    IsUncut family 0 (some sign.symbol) text := by
  have htext := (isUncut_cons_iff.1 h).2
  rw [levelAfter_symbol] at htext
  exact htext

namespace Generates

variable {lenient : Bool} {text : Text} {previous : Option Char}

/-- A sum that is not cut is a term. -/
theorem term_of_isUncut (h : Generates lenient .sum text)
    (huncut : IsUncut .sum 0 previous text) : Generates lenient (.signed .product) text := by
  cases h with
  | @sum first links hfirst hsigns hlinks =>
    by_cases hne : links = []
    · rw [hne, chainText_nil]
      exact hfirst
    · exact absurd huncut (not_isUncut_chainText hne hfirst.isBalanced hfirst.endsInOperand
        (fun link hmem ↦ Family.ofSign_eq_sum_iff.2 (hsigns link hmem)) _)
  | straySum _ _ hfirst hne hsigns hlinks =>
    exact absurd huncut.of_symbol (not_isUncut_chainText hne hfirst.isBalanced hfirst.endsInOperand
      (fun link hmem ↦ Family.ofSign_eq_sum_iff.2 (hsigns link hmem)) _)

/-- A term that is not cut as a product is one quotient. -/
theorem signedQuotient_of_isUncut (h : Generates lenient (.signed .product) text)
    (huncut : IsUncut .product 0 previous text) : Generates lenient (.signed .quotient) text := by
  refine signed_induction
    (motive := fun text ↦ ∀ previous, IsUncut .product 0 previous text →
      Generates lenient (.signed .quotient) text)
    (fun text htext previous huncut ↦ ?_)
    (fun sign text hsign _ ih previous huncut ↦ .sign hsign (ih _ huncut.of_symbol)) h _ huncut
  cases htext with
  | @product first links hfirst hsigns hlinks =>
    by_cases hne : links = []
    · rw [hne, chainText_nil]
      exact .unsigned hfirst
    · exact absurd huncut (not_isUncut_chainText hne hfirst.isBalanced hfirst.endsInOperand
        (fun link hmem ↦ by rw [hsigns link hmem]; rfl) _)
  | strayProduct _ hfirst hne hsigns hlinks =>
    have huncut' : IsUncut .product 0 previous (Sign.divide.symbol :: _) := huncut
    exact absurd huncut'.of_symbol (not_isUncut_chainText hne hfirst.isBalanced
      hfirst.endsInOperand (fun link hmem ↦ by rw [hsigns link hmem]; rfl) _)

/-- A quotient that is not cut is one factor. -/
theorem signedFactor_of_isUncut (h : Generates lenient (.signed .quotient) text)
    (huncut : IsUncut .quotient 0 previous text) : Generates lenient (.signed .factor) text := by
  refine signed_induction
    (motive := fun text ↦ ∀ previous, IsUncut .quotient 0 previous text →
      Generates lenient (.signed .factor) text)
    (fun text htext previous huncut ↦ ?_)
    (fun sign text hsign _ ih previous huncut ↦ .sign hsign (ih _ huncut.of_symbol)) h _ huncut
  cases htext with
  | @quotient first links hfirst hsigns hlinks =>
    by_cases hne : links = []
    · rw [hne, chainText_nil]
      exact .unsigned hfirst
    · exact absurd huncut (not_isUncut_chainText hne hfirst.isBalanced hfirst.endsInOperand
        (fun link hmem ↦ by rw [hsigns link hmem]; rfl) _)

end Generates

end EquationSteps