import EquationSteps.Proofs.Equality.Exact
import EquationSteps.Proofs.Reading.Root

/-!
# Reading from left to right

The grammar, and with it the reader, takes a product for a chain of quotients, so `a*b/c` is `a`
times `b/c`. Usually such a text is read from left to right, with `*` and `/` of one rank: `a*b/c`
is `a*b` over `c`. `LeftToRight` is that reading, with the formula that a text says by it. A text
has a formula in both readings or in neither, and the two formulas mean the same, as a divisor
behind several factors divides the last factor as well as their product
(`LeftToRight.exists_denotes`, `LeftToRight.exists_of_isExpression`).

So evaluating a text gives the function of its formula from left to right, and it fails exactly if a
divisor in that formula is the zero function. What is read as a root has the same value
(`evaluate_leftToRight`).

**An independent account.** The relation is written down from how such texts are commonly read, with
ranks in place of the categories of the grammar, and it does not mention scanning, cutting or trees.
Text and formula are built up together, so a text is read by giving a derivation, and no function
has to be trusted.

**The two directions.** From a derivation to the grammar, one rule at a time, the only one that does
not fit is a divisor behind a product: the grammar wants it inside the last factor
(`exists_product_divided`), and there the meaning has to be moved. From the grammar to a derivation
the parts of a product have to be taken apart, since a quotient in it is no run of its own; its
first operand continues the run in front of it, and its divisors come after (`IsDivided`,
`isReadable_run_divided`).

**Roots** are read with parentheses stripped and products as terms, and still mean what the text
says (`ReadsRoot.meaning_eq`).
-/

namespace EquationSteps

/-- What a text is when it is read from left to right. -/
inductive Rank where
  /-- Terms, joined by binary signs. -/
  | expression
  /-- A run behind unary signs. -/
  | term
  /-- Operands, joined by `*` and `/` alike. -/
  | run
  /-- A factor behind unary signs. -/
  | operand
  /-- A literal, a letter, or an expression in parentheses. -/
  | factor

/-- The formula that a text of a rank says when it is read from left to right. -/
inductive LeftToRight : Rank → Text → Formula → Prop where
  /-- A decimal literal says its number. -/
  | literal {text : Text} {q : ℚ} (hvalue : Numeral.decimalFraction? text = some q) :
    LeftToRight .factor text (.number q)
  /-- A letter says the variable of its name. -/
  | letter {c : Char} (hletter : c.isAlpha = true) : LeftToRight .factor [c] (.letter c)
  /-- Parentheses only group. -/
  | parenthesized {text : Text} {e : Formula} (htext : LeftToRight .expression text e) :
    LeftToRight .factor ('(' :: (text ++ [')'])) e
  /-- There may be no sign in front of an operand. -/
  | factor {text : Text} {e : Formula} (htext : LeftToRight .factor text e) :
    LeftToRight .operand text e
  /-- A plus in front of an operand says nothing. -/
  | positive {text : Text} {e : Formula} (htext : LeftToRight .operand text e) :
    LeftToRight .operand ('+' :: text) e
  /-- A minus in front of an operand negates it. -/
  | negative {text : Text} {e : Formula} (htext : LeftToRight .operand text e) :
    LeftToRight .operand ('-' :: text) (.neg e)
  /-- A run starts with a factor. -/
  | first {text : Text} {e : Formula} (htext : LeftToRight .factor text e) :
    LeftToRight .run text e
  /-- All that stands in front of a `*` is multiplied by the operand behind it. -/
  | multiplied {left right : Text} {e f : Formula} (hleft : LeftToRight .run left e)
      (hright : LeftToRight .operand right f) :
    LeftToRight .run (left ++ '*' :: right) (.mul e f)
  /-- All that stands in front of a `/`, back to the start of the run, is divided by the operand
  behind it. -/
  | divided {left right : Text} {e f : Formula} (hleft : LeftToRight .run left e)
      (hright : LeftToRight .operand right f) :
    LeftToRight .run (left ++ '/' :: right) (.div e f)
  /-- There may be no sign in front of a run. -/
  | run {text : Text} {e : Formula} (htext : LeftToRight .run text e) : LeftToRight .term text e
  /-- A plus in front of a run says nothing. -/
  | plus {text : Text} {e : Formula} (htext : LeftToRight .term text e) :
    LeftToRight .term ('+' :: text) e
  /-- A minus in front of a run negates all of it. -/
  | minus {text : Text} {e : Formula} (htext : LeftToRight .term text e) :
    LeftToRight .term ('-' :: text) (.neg e)
  /-- A single term is an expression. -/
  | term {text : Text} {e : Formula} (htext : LeftToRight .term text e) :
    LeftToRight .expression text e
  /-- The term behind a `+` is added. -/
  | added {left right : Text} {e f : Formula} (hleft : LeftToRight .expression left e)
      (hright : LeftToRight .term right f) :
    LeftToRight .expression (left ++ '+' :: right) (.add e f)
  /-- The term behind a `-` is subtracted. -/
  | subtracted {left right : Text} {e f : Formula} (hleft : LeftToRight .expression left e)
      (hright : LeftToRight .term right f) :
    LeftToRight .expression (left ++ '-' :: right) (.sub e f)

/-- The category of the grammar in which the texts of a rank are found. -/
def Rank.category : Rank → Category
  | .expression => .sum
  | .term => .signed .product
  | .run => .product
  | .operand => .signed .factor
  | .factor => .factor

namespace Denotes

variable {left right text : Text} {e f g : Formula}

/-! ### One more divisor

How the grammar reads a text with one more divisor at its end, and that this divides what was
there. -/

/-- A divisor behind a signed quotient divides it. -/
theorem exists_signed_divided (hleft : Denotes (.signed .quotient) left e)
    (hright : Denotes (.signed .factor) right f) : ∃ g,
      Denotes (.signed .quotient) (left ++ '/' :: right) g ∧
        g.meaning = e.meaning * f.meaning⁻¹ := by
  refine signed_induction (motive := fun left e ↦ ∃ g,
    Denotes (.signed .quotient) (left ++ '/' :: right) g ∧ g.meaning = e.meaning * f.meaning⁻¹)
    (fun left e hleft ↦ ⟨_, .unsigned (.divided hleft hright), rfl⟩) ?_ ?_ hleft
  · rintro left e - ⟨g, hg, hmeaning⟩
    exact ⟨g, .plus hg, hmeaning⟩
  · rintro left e - ⟨g, hg, hmeaning⟩
    refine ⟨_, .minus hg, ?_⟩
    rw [Formula.meaning, hmeaning, Formula.meaning, neg_mul]

/-- A divisor behind a product divides its last factor, which comes to dividing the product. -/
theorem exists_product_divided (hleft : Denotes .product left e)
    (hright : Denotes (.signed .factor) right f) : ∃ g,
      Denotes .product (left ++ '/' :: right) g ∧ g.meaning = e.meaning * f.meaning⁻¹ := by
  cases hleft with
  | quotient hquotient => exact ⟨_, .quotient (.divided hquotient hright), rfl⟩
  | multiplied hfront hlast =>
    obtain ⟨g, hg, hmeaning⟩ := hlast.exists_signed_divided hright
    have hlonger := Denotes.multiplied hfront hg
    rw [← List.cons_append, ← List.append_assoc] at hlonger
    refine ⟨_, hlonger, ?_⟩
    rw [Formula.meaning, hmeaning, Formula.meaning, mul_assoc]

end Denotes

namespace LeftToRight

variable {rank : Rank} {text : Text} {e : Formula}

/-- **What a text says from left to right it says by the grammar.** -/
theorem exists_denotes (h : LeftToRight rank text e) :
    ∃ f, Denotes rank.category text f ∧ f.meaning = e.meaning := by
  induction h with
  | literal hvalue => exact ⟨_, .literal hvalue, rfl⟩
  | letter hletter => exact ⟨_, .letter hletter, rfl⟩
  | parenthesized _ ih =>
    obtain ⟨f, hf, hmeaning⟩ := ih
    exact ⟨f, .parenthesized hf, hmeaning⟩
  | factor _ ih =>
    obtain ⟨f, hf, hmeaning⟩ := ih
    exact ⟨f, .unsigned hf, hmeaning⟩
  | positive _ ih | plus _ ih =>
    obtain ⟨f, hf, hmeaning⟩ := ih
    exact ⟨f, .plus hf, hmeaning⟩
  | negative _ ih | minus _ ih =>
    obtain ⟨f, hf, hmeaning⟩ := ih
    exact ⟨_, .minus hf, congrArg (- ·) hmeaning⟩
  | first _ ih =>
    obtain ⟨f, hf, hmeaning⟩ := ih
    exact ⟨f, .quotient (.factor hf), hmeaning⟩
  | multiplied _ _ ihleft ihright =>
    obtain ⟨f, hf, hleft⟩ := ihleft
    obtain ⟨g, hg, hright⟩ := ihright
    refine ⟨_, .multiplied hf (Denotes.signed_mono (fun _ _ ↦ .factor) hg), ?_⟩
    rw [Formula.meaning, hleft, hright, Formula.meaning]
  -- the one rule without a counterpart: the grammar wants the divisor inside the last factor
  | divided _ _ ihleft ihright =>
    obtain ⟨f, hf, hleft⟩ := ihleft
    obtain ⟨g, hg, hright⟩ := ihright
    obtain ⟨d, hd, hmeaning⟩ := hf.exists_product_divided hg
    refine ⟨d, hd, ?_⟩
    rw [hmeaning, hleft, hright, Formula.meaning]
  | run _ ih =>
    obtain ⟨f, hf, hmeaning⟩ := ih
    exact ⟨f, .unsigned hf, hmeaning⟩
  | term _ ih =>
    obtain ⟨f, hf, hmeaning⟩ := ih
    exact ⟨f, .term hf, hmeaning⟩
  | added _ _ ihleft ihright =>
    obtain ⟨f, hf, hleft⟩ := ihleft
    obtain ⟨g, hg, hright⟩ := ihright
    refine ⟨_, .added hf hg, ?_⟩
    rw [Formula.meaning, hleft, hright, Formula.meaning]
  | subtracted _ _ ihleft ihright =>
    obtain ⟨f, hf, hleft⟩ := ihleft
    obtain ⟨g, hg, hright⟩ := ihright
    refine ⟨_, .subtracted hf hg, ?_⟩
    rw [Formula.meaning, hleft, hright, Formula.meaning]

/-! ### Every expression can be read from left to right

By induction on the grammar, with a notion of being readable for each of its categories. -/

/-- Whether a text says something at a rank. -/
def IsReadable (rank : Rank) (text : Text) : Prop :=
  ∃ e, LeftToRight rank text e

/-- Whether a text is an operand of the given rank with divisors behind it, as each part of a
product is. -/
def IsDivided (rank : Rank) (text : Text) : Prop :=
  ∃ first links, text = chainText first links ∧ IsReadable rank first ∧
    ∀ link ∈ links, link.1 = .divide ∧ IsReadable .operand link.2

/-- What the texts of a category are from left to right. A part of a product is no run of its own:
the run in front of the part is continued by the operand and by each divisor behind it. -/
def IsReadableAs : Category → Text → Prop
  | .sum, text => IsReadable .expression text
  | .product, text => IsReadable .run text
  | .quotient, text => IsDivided .factor text
  | .factor, text => IsReadable .factor text
  | .signed .product, text => IsReadable .term text
  | .signed .quotient, text => IsDivided .operand text
  | .signed .factor, text => IsReadable .operand text
  | .signed _, _ => True

/-- A run with divisors behind it is a run. -/
theorem isReadable_run_divided {first : Text} {links : List (Sign × Text)}
    (hfirst : IsReadable .run first)
    (hlinks : ∀ link ∈ links, link.1 = .divide ∧ IsReadable .operand link.2) :
    IsReadable .run (chainText first links) := by
  induction links generalizing first with
  | nil =>
    rw [chainText_nil]
    exact hfirst
  | cons link links ih =>
    obtain ⟨e, hfirst⟩ := hfirst
    obtain ⟨⟨hsign, f, hoperand⟩, hrest⟩ := List.forall_mem_cons.1 hlinks
    rw [chainText_link, hsign]
    exact ih ⟨_, .divided hfirst hoperand⟩ hrest

/-- Signs in front of a part of a product are signs in front of its first operand. -/
theorem IsDivided.signed {rank : Rank} {c : Char}
    (h : IsDivided rank text)
    (hsign : ∀ {first}, IsReadable rank first → IsReadable .operand (c :: first)) :
    IsDivided .operand (c :: text) := by
  obtain ⟨first, links, rfl, hfirst, hlinks⟩ := h
  exact ⟨c :: first, links, rfl, hsign hfirst, hlinks⟩

/-- What the grammar generates can be read from left to right. -/
theorem isReadableAs {category : Category} (h : Denotes category text e) :
    IsReadableAs category text := by
  induction h with
  | literal hvalue => exact ⟨_, .literal hvalue⟩
  | letter hletter => exact ⟨_, .letter hletter⟩
  | parenthesized _ ih =>
    obtain ⟨e, he⟩ := ih
    exact ⟨e, .parenthesized he⟩
  | @unsigned category _ _ _ ih =>
    cases category with
    | sum | signed => trivial
    | product =>
      obtain ⟨e, he⟩ := ih
      exact ⟨e, .run he⟩
    | quotient =>
      obtain ⟨first, links, rfl, ⟨e, he⟩, hlinks⟩ := ih
      exact ⟨first, links, rfl, ⟨e, .factor he⟩, hlinks⟩
    | factor =>
      obtain ⟨e, he⟩ := ih
      exact ⟨e, .factor he⟩
  | @plus category _ _ _ ih =>
    cases category with
    | sum | signed => trivial
    | product =>
      obtain ⟨e, he⟩ := ih
      exact ⟨e, .plus he⟩
    | quotient => exact ih.signed fun ⟨e, he⟩ ↦ ⟨e, .positive he⟩
    | factor =>
      obtain ⟨e, he⟩ := ih
      exact ⟨e, .positive he⟩
  | @minus category _ _ _ ih =>
    cases category with
    | sum | signed => trivial
    | product =>
      obtain ⟨e, he⟩ := ih
      exact ⟨_, .minus he⟩
    | quotient => exact ih.signed fun ⟨e, he⟩ ↦ ⟨_, .negative he⟩
    | factor =>
      obtain ⟨e, he⟩ := ih
      exact ⟨_, .negative he⟩
  | @factor text _ _ ih => exact ⟨text, [], (chainText_nil text).symm, ih, List.forall_mem_nil _⟩
  | @divided _ right _ _ _ _ ihleft ihright =>
    obtain ⟨first, links, rfl, hfirst, hlinks⟩ := ihleft
    exact ⟨first, links ++ [(Sign.divide, right)],
      chainText_append first links .divide right, hfirst,
      List.forall_mem_append.2 ⟨hlinks, List.forall_mem_singleton.2 ⟨rfl, ihright⟩⟩⟩
  -- a quotient by itself: its first factor starts a run, and its divisors continue it
  | quotient _ ih =>
    obtain ⟨first, links, rfl, ⟨e, he⟩, hlinks⟩ := ih
    exact isReadable_run_divided ⟨e, .first he⟩ hlinks
  -- the run in front goes on with the operand of the part, and then with its divisors
  | multiplied _ _ ihleft ihright =>
    obtain ⟨e, hleft⟩ := ihleft
    obtain ⟨first, links, rfl, ⟨f, hfirst⟩, hlinks⟩ := ihright
    have hrun := isReadable_run_divided ⟨_, hleft.multiplied hfirst⟩ hlinks
    rw [chainText, List.append_assoc] at hrun
    exact hrun
  | term _ ih =>
    obtain ⟨e, he⟩ := ih
    exact ⟨e, .term he⟩
  | added _ _ ihleft ihright =>
    obtain ⟨e, hleft⟩ := ihleft
    obtain ⟨f, hright⟩ := ihright
    exact ⟨_, .added hleft hright⟩
  | subtracted _ _ ihleft ihright =>
    obtain ⟨e, hleft⟩ := ihleft
    obtain ⟨f, hright⟩ := ihright
    exact ⟨_, .subtracted hleft hright⟩

/-- **Every expression says something from left to right.** -/
theorem exists_of_isExpression (h : IsExpression text) :
    ∃ e, LeftToRight .expression text.scanned e := by
  obtain ⟨e, he⟩ := isExpression_iff_exists_denotes.1 h
  exact isReadableAs he

end LeftToRight

/-! ### Roots

The same for the sides of an equation, which are read as roots. -/

namespace ReadsRoot

variable {text : Text} {node inner : Node} {e : Formula}

/-- A root around one term means what the term means. -/
theorem meaning_branch_singleton (inner : Node) :
    (Node.branch .plus [inner]).meaning = inner.meaning := by
  rw [Node.branch, Node.meaning, Node.contentMeaning_group, Node.groupMeaning_singleton]
  exact Meaning.signed_plus _

/-- **What is read as a root means what its text says.** -/
theorem meaning_eq (h : ReadsRoot text node) (htext : Denotes .sum text e) :
    node.meaning = e.meaning := by
  cases h with
  | negated hnegated hinner => exact (Reads.negated hnegated hinner).isMeant htext
  | product hnegated hfamily hinner =>
    rw [meaning_branch_singleton, Node.meaning, hinner.sign]
    exact hinner.isMeant htext.stripParentheses
  | quotient hnegated hfamily hsegments hparts =>
    have hinner : Reads (some .plus) text _ := .group hnegated hfamily hsegments hparts
    rw [meaning_branch_singleton]
    exact hinner.isMeant htext
  | sum hnegated hfamily hsegments hparts =>
    have hreads : Reads none text _ := .group hnegated hfamily hsegments hparts
    exact hreads.isMeant htext
  | nested hnegated hfamily hnested hinner =>
    have hreads : Reads none text _ := .nested hnegated hfamily hnested hinner
    exact hreads.isMeant htext
  | empty hnegated hempty =>
    have hoperand : Node.isOperandText (stripParentheses text) = true :=
      htext.stripParentheses.generates.isOperandText (by rw [hempty]; rfl)
    rw [hempty] at hoperand
    cases hoperand
  | operand hnegated hleaf =>
    have hinner : Reads none (stripParentheses text) _ := .leaf hleaf
    rw [meaning_branch_singleton]
    exact hinner.isMeant htext.stripParentheses
  | leftover hnegated hfamily hnested hstructural =>
    have hmeaning := htext.stripParentheses.ofValue_atomValue hfamily hnested
    exact hmeaning

end ReadsRoot

/-- The value of a root is that of the formula, or a division by zero where it has none. -/
theorem Node.value_of_read_root {limits : Limits} {text : Text} {root : Node} {e : Formula}
    (htext : Denotes .sum text.scanned e) (h : Node.read limits text true = .ok root) :
    (∀ k, e.meaning = .of k → ∃ g, root.value = .ok g ∧ g.IsProper ∧ g.toField = k) ∧
      (e.meaning = .undefined → root.value = .error .divisionByZero) := by
  obtain ⟨inner, rfl, hbuild⟩ := exists_of_read h
  have hreads := ReadsRoot.of_build hbuild
  have hmeaning : (inner.withRoot true).meaning = e.meaning := by
    rw [← hreads.meaning_eq htext, Node.meaning, Node.withRoot,
      Node.contentMeaning_mapTag, Node.sign, Node.tag_mapTag]
    rfl
  have hvalid : (inner.withRoot true).isValid = true := by
    have hinner := Node.isValid_of_isRegular (hreads.isRegular htext.generates).1
    cases inner <;> exact hinner
  rw [← hmeaning]
  exact ⟨fun k ↦ Node.exists_value_of_meaning, (Node.meaning_eq_undefined_iff hvalid).1⟩

/-- **Expressions have their usual value.** A text of the grammar that can be read has a formula
from left to right. If no divisor in it is the zero function, evaluating the text gives the function
of the formula, and otherwise it fails with a division by zero. What is read as a root has the same
value, or fails alike. -/
theorem evaluate_leftToRight {limits : Limits} {text : Text} {node : Node}
    (hexpression : IsExpression text) (hread : Node.read limits text false = .ok node) :
    (∃ e, LeftToRight .expression text.scanned e) ∧
      ∀ e, LeftToRight .expression text.scanned e →
        ((∀ d ∈ e.divisors, d.toField ≠ 0) →
          ∃ f, evaluate limits text = .ok f ∧ f.IsProper ∧ f.toField = e.toField) ∧
        (evaluate limits text = .error .divisionByZero ↔ ∃ d ∈ e.divisors, d.toField = 0) ∧
        ∀ root, Node.read limits text true = .ok root →
          (∀ f, evaluate limits text = .ok f → ∃ g, root.value = .ok g ∧ f.equals g = true) ∧
          (evaluate limits text = .error .divisionByZero →
            root.value = .error .divisionByZero) := by
  refine ⟨LeftToRight.exists_of_isExpression hexpression, fun e he ↦ ?_⟩
  obtain ⟨e', htext, hmeaning⟩ := he.exists_denotes
  -- a formula is undefined exactly if one of its divisors is the zero function
  have hundefined : ¬e'.IsDefined ↔ ∃ d ∈ e.divisors, d.toField = 0 := by
    rw [← Formula.meaning_eq_undefined_iff, ← hmeaning, Formula.meaning_eq_undefined_iff,
      Formula.IsDefined]
    simp
  by_cases hdefined : e'.IsDefined
  · obtain ⟨f, hvalue, hproper, hfunction⟩ := evaluate_of_isDefined hread htext hdefined
    have hmeaning' := Formula.meaning_of_isDefined hdefined
    refine ⟨fun hdivisors ↦ ⟨f, hvalue, hproper, ?_⟩, ?_,
      fun root hroot ↦ ⟨fun f' hvalue' ↦ ?_, ?_⟩⟩
    · rw [hfunction]
      exact Meaning.of_injective (hmeaning'.symm.trans
        (hmeaning.trans (Formula.meaning_of_isDefined hdivisors)))
    · rw [hvalue, ← hundefined]
      exact iff_of_false (fun h ↦ by cases h) (not_not_intro hdefined)
    · obtain ⟨g, hg, hproper', hsame⟩ := (Node.value_of_read_root htext hroot).1 _ hmeaning'
      cases hvalue.symm.trans hvalue'
      exact ⟨g, hg, (RationalFunction.equals_iff hproper hproper').2 (hfunction.trans hsame.symm)⟩
    · rw [hvalue]
      exact fun h ↦ by cases h
  · have hvalue := evaluate_of_not_isDefined hread htext hdefined
    refine ⟨fun hdivisors ↦ ?_, iff_of_true hvalue (hundefined.1 hdefined), fun root hroot ↦
      ⟨fun f hf ↦ (by cases hvalue.symm.trans hf), fun _ ↦
        (Node.value_of_read_root htext hroot).2 (Formula.meaning_of_not_isDefined hdefined)⟩⟩
    obtain ⟨d, hd, hzero⟩ := hundefined.1 hdefined
    exact absurd hzero (hdivisors d hd)

/-- `8/2*x` is `8/2` times `x`. -/
theorem evaluate_leftToRight_runOfThree : ∃ f, evaluate .standard "8/2*x".toList = .ok f ∧
    f.toField = (Formula.mul (.div (.number 8) (.number 2)) (.letter 'x')).toField := by
  have height : LeftToRight .factor ['8'] (.number 8) := .literal (by decide)
  have hdivisor : LeftToRight .factor ['2'] (.number 2) := .literal (by decide)
  have hrun : LeftToRight .expression (Text.scanned "8/2*x".toList)
      (.mul (.div (.number 8) (.number 2)) (.letter 'x')) :=
    .term (.run (.multiplied (.divided (.first height) (.factor hdivisor)) (.factor (.letter rfl))))
  have htwo : (Formula.number 2).toField ≠ 0 := by
    have hvalue : HasValueAt (fun _ ↦ 0) (Formula.number 2).toField
        ((Formula.number 2).evalAt fun _ ↦ 0) := Formula.hasValueAt (List.forall_mem_nil _)
    exact hvalue.ne_zero two_ne_zero
  obtain ⟨node, hnode⟩ : ∃ node, Node.read .standard "8/2*x".toList false = .ok node := ⟨_, rfl⟩
  obtain ⟨f, hf, -, hfunction⟩ := ((evaluate_leftToRight
    (isExpression_of_eq (by decide +kernel) (by decide)) hnode).2 _ hrun).1
      (List.forall_mem_singleton.2 htwo)
  exact ⟨f, hf, hfunction⟩

end EquationSteps
