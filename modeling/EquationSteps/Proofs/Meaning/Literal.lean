import EquationSteps.Proofs.Meaning.Group
import EquationSteps.Proofs.Reading.Printed
import EquationSteps.Canonical.Rule

/-!
# The meaning of literals

An integer literal means its number, whatever zeros it starts with (`Node.atomValue_of_isInteger`,
`Numeral.value_canonicalInteger`). A decimal literal means a fraction, and normalization asks an
oracle which one. `Node.IsFaithful` is what it relies on: an answer that can be read stands for the
value of the literal. The exact oracle is faithful (`Node.isFaithful_exactFraction`).

**Two demands on an oracle.** For the value of a tree the answers have to be right. For its shape it
is enough that they are read as regular trees (`Node.AnswersRegular`), and statements about shapes
and identities ask for no more. An oracle without an answer satisfies both: the literal stays as it
is.

**How the exact oracle is seen to be faithful.** It writes the fraction in lowest terms as digits or
as a quotient of digits, and what is written is read back as a tree of that form (`ofFraction`,
`exists_ofFraction`). The tree means the fraction, and the fraction is the value by which the
literal itself is evaluated.

Integers are decimal literals too, but normalization treats them by themselves and asks no oracle,
so what is asked of one is about literals with a point.
-/

namespace EquationSteps

namespace Numeral

/-- An integer literal is a run of digits that is not empty. -/
theorem isInteger_iff {text : Text} :
    isInteger text = true ↔ text ≠ [] ∧ ∀ c ∈ text, c.isDigit = true := by
  cases text <;> simp [isInteger]

/-- Integer literals are decimal literals. -/
theorem isDecimal_of_isInteger {text : Text} (h : isInteger text = true) :
    isDecimal text = true := by
  obtain ⟨hne, hdigits⟩ := isInteger_iff.1 h
  have hpoint : '.' ∉ text := fun hmem ↦ by cases hdigits '.' hmem
  have hany : text.any Char.isDigit = true := by
    obtain ⟨c, hmem⟩ := List.exists_mem_of_ne_nil text hne
    exact List.any_eq_true.2 ⟨c, hmem, hdigits c hmem⟩
  rw [isDecimal, List.count_eq_zero_of_not_mem hpoint, hany]
  simp only [Nat.zero_le, decide_true, Bool.and_true, List.all_eq_true]
  exact fun c hmem ↦ by rw [hdigits c hmem, Bool.true_or]

/-- The digits of a number are an integer literal. -/
theorem isInteger_digits (n : Nat) : isInteger (digits n) = true :=
  isInteger_iff.2 ⟨Nat.toDigits_ne_nil, fun _ hmem ↦
    Nat.isDigit_of_mem_toDigits (by decide) (by decide) hmem⟩

/-- Leading zeros count for nothing. -/
theorem value_canonicalInteger (text : Text) : value (canonicalInteger text) = value text := by
  have hdrop : value (text.dropWhile (· == '0')) = value text := by
    induction text with
    | nil => rfl
    | cons c text ih =>
      rw [List.dropWhile_cons]
      split
      · rename_i hzero
        rw [ih, beq_iff_eq.1 hzero]
        show Nat.ofDigitChars 10 text 0 = Nat.ofDigitChars 10 ('0' :: text) 0
        rw [Nat.ofDigitChars_cons]
        rfl
      · rfl
  rw [← hdrop, canonicalInteger]
  split
  · rename_i hnil
    rw [hnil]
    rfl
  · rfl

/-- Without leading zeros an integer literal still is one: if it had only zeros, one of them
stays. -/
theorem isInteger_canonicalInteger {text : Text} (h : isInteger text = true) :
    isInteger (canonicalInteger text) = true := by
  unfold canonicalInteger
  split
  · rfl
  · rename_i hne
    refine isInteger_iff.2 ⟨hne, fun c hmem ↦ (isInteger_iff.1 h).2 c ?_⟩
    exact (List.dropWhile_sublist _).subset hmem

/-- A natural number is written as its digits. -/
theorem integerText_of_nonneg {n : Int} (h : 0 ≤ n) : integerText n = digits n.natAbs :=
  if_neg (Int.not_lt.2 h)

/-- A decimal literal denotes no negative number. -/
theorem decimalFraction?_nonneg {literal : Text} {q : Rat} (h : decimalFraction? literal = some q) :
    0 ≤ q := by
  unfold decimalFraction? at h
  split at h
  · obtain ⟨whole, places⟩ := (Text.cut? '.' literal).getD (literal, [])
    cases h
    exact Rat.mkRat_nonneg (Int.natCast_nonneg _) _
  · cases h

end Numeral

namespace Node

/-- An integer literal is an operand. -/
theorem isOperandText_of_isInteger {text : Text} (h : Numeral.isInteger text = true) :
    isOperandText text = true := by
  rw [isOperandText, Numeral.isDecimal_of_isInteger h, Bool.true_or]

/-- A literal is no letter. -/
theorem atomValue_of_isDecimal {text : Text} (h : Numeral.isDecimal text = true) :
    atomValue text = atomValue.numeralValue text := by
  unfold atomValue
  split
  · rename_i c
    split
    · rename_i halpha
      have hdigit : c.isDigit = true := by
        simpa [Numeral.isDecimal] using (Bool.and_eq_true_iff.1 h).2
      rw [isAlpha_of_isDigit hdigit] at halpha
      cases halpha
    · rfl
  · rfl

/-- An integer literal means its number. -/
theorem atomValue_of_isInteger {text : Text} (h : Numeral.isInteger text = true) :
    atomValue text = .ok (.constant (Numeral.value text)) := by
  rw [atomValue_of_isDecimal (Numeral.isDecimal_of_isInteger h), atomValue.numeralValue,
    Numeral.integer?, if_pos h]

/-- A literal with a point means its fraction. -/
theorem atomValue_of_decimalFraction? {text : Text} {q : Rat}
    (hinteger : Numeral.isInteger text = false) (hdecimal : Numeral.isDecimal text = true)
    (h : Numeral.decimalFraction? text = some q) : atomValue text = .ok (.constant q) := by
  have hnone : Numeral.integer? text = none := by simp [Numeral.integer?, hinteger]
  rw [atomValue_of_isDecimal hdecimal, atomValue.numeralValue, hnone, h]

/-- A leaf `0` means zero, whatever its tag. -/
theorem contentMeaning_of_isZeroAtom {node : Node} (h : node.isZeroAtom = true) :
    node.contentMeaning = 0 := by
  cases node with
  | group tag children => cases h
  | atom tag text =>
    obtain rfl : text = ['0'] := by simpa [isZeroAtom, atomText?] using h
    have hzero : ((Numeral.value ['0'] : Nat) : Rat) = 0 := Nat.cast_zero
    rw [contentMeaning_atom, atomValue_of_isInteger rfl, Meaning.ofValue_ok,
      RationalFunction.toField_constant, hzero, map_zero, map_zero, Meaning.of_zero]

/-- The leaf `1` means one. -/
theorem contentMeaning_one (tag : Tag) : contentMeaning (.atom tag ['1']) = 1 := by
  have hone : ((Numeral.value ['1'] : Nat) : Rat) = 1 := Nat.cast_one
  rw [contentMeaning_atom, atomValue_of_isInteger rfl, Meaning.ofValue_ok,
    RationalFunction.toField_constant, hone, map_one, map_one, Meaning.of_one]

/-! ### Fractions

The tree of a fraction, how it is printed and read, and what it means. -/

/-- What normalization relies on in the answers for decimal literals: an answer that can be read is
a regular tree without identities and marks, and has the value of the literal. -/
def IsFaithful (rationalize : Text → Except ValueError Text) : Prop :=
  ∀ literal content, Numeral.isDecimal literal = true → Numeral.isInteger literal = false →
    fraction? rationalize literal = some content →
      (fresh .plus content).isRegular = true ∧
        (fresh .plus content).everyTag (fun tag ↦ tag == .fresh tag.sign) = true ∧
          contentMeaning (fresh .plus content) = .ofValue (atomValue literal)

/-- What normalization relies on to keep the shape of a tree: an answer that can be read is a
regular tree. What it stands for does not matter. -/
def AnswersRegular (rationalize : Text → Except ValueError Text) : Prop :=
  ∀ literal content, Numeral.isDecimal literal = true → Numeral.isInteger literal = false →
    fraction? rationalize literal = some content → (fresh .plus content).isRegular = true

/-- What is asked for the shape is part of what is asked for the value. -/
theorem IsFaithful.answersRegular {rationalize : Text → Except ValueError Text}
    (h : IsFaithful rationalize) : AnswersRegular rationalize :=
  fun literal content hdecimal hinteger hcontent ↦ (h literal content hdecimal hinteger hcontent).1

/-- The tree of a fraction as it is written. -/
def ofFraction (q : Rat) : Node :=
  if q.den = 1 then leaf .plus (Numeral.digits q.num.natAbs)
  else branch .plus [leaf .divide (Numeral.digits q.num.natAbs),
    leaf .divide (Numeral.digits q.den)]

/-- The tree of a fraction is printed as the fraction is written. -/
theorem contentText_ofFraction {q : Rat} (h : 0 ≤ q) :
    (ofFraction q).contentText = Numeral.fractionText q := by
  have hnum := Numeral.integerText_of_nonneg (Rat.num_nonneg.2 h)
  unfold ofFraction Numeral.fractionText
  split
  · rw [hnum]
    rfl
  · simp [branch, leaf, contentText, isParenthesized, family?, Family.ofSign, linksText, linkSign,
      Tag.fresh, hnum, children, sign, Sign.symbol]

/-- It is a regular tree. -/
theorem isRegular_ofFraction (q : Rat) : (ofFraction q).isRegular = true := by
  have hdigits : ∀ n, isOperandText (Numeral.digits n) = true := fun n ↦
    isOperandText_of_isInteger (Numeral.isInteger_digits n)
  unfold ofFraction
  split
  · exact isRegular_atom_iff.2 ⟨rfl, hdigits _⟩
  · refine isRegular_group_iff.2 ⟨rfl, rfl, ?_⟩
    simp [leaf, isRegular, Tag.fresh, hdigits]

/-- And no group stands around a single operand in it. -/
theorem isCompact_ofFraction (q : Rat) : (ofFraction q).isCompact = true := by
  unfold ofFraction
  split <;> rfl

/-- Reading it back gives it again, up to the sign that a part of a quotient has. -/
theorem remade_ofFraction (q : Rat) : (ofFraction q).remade.withSign .plus = ofFraction q := by
  unfold ofFraction
  split <;> rfl

/-- Digits mean their number. -/
theorem contentMeaning_digits (sign : Sign) (n : Nat) :
    (leaf sign (Numeral.digits n)).contentMeaning =
      .of (RationalFunction.constant (n : Rat)).toField := by
  rw [leaf, contentMeaning_atom, atomValue_of_isInteger (Numeral.isInteger_digits n),
    Meaning.ofValue_ok, Numeral.value_digits]

/-- A fraction means itself. -/
theorem contentMeaning_ofFraction {q : Rat} (h : 0 ≤ q) :
    (ofFraction q).contentMeaning = .of (RationalFunction.constant q).toField := by
  have hnum : (q.num.natAbs : Rat) = q.num := by
    simpa only [Int.cast_natCast] using
      congrArg (fun z : Int ↦ (z : Rat)) (Int.natAbs_of_nonneg (Rat.num_nonneg.2 h))
  have hq : (q.num : Rat) / q.den = q := Rat.num_div_den q
  unfold ofFraction
  split
  · rename_i hden
    rw [hden, Nat.cast_one, div_one] at hq
    rw [contentMeaning_digits, hnum, hq]
  · -- constants make up a field within the function field
    let constants : Rat →+* FunctionField :=
      (algebraMap (MvPolynomial Char Rat) FunctionField).comp MvPolynomial.C
    have hconstant : ∀ c : Rat, (RationalFunction.constant c).toField = constants c :=
      RationalFunction.toField_constant
    have hden : constants (q.den : Rat) ≠ 0 :=
      (map_ne_zero constants).2 (Nat.cast_ne_zero.2 q.den_nz)
    rw [branch, contentMeaning_group, groupMeaning_of_parts (by simp [leaf, sign, Tag.fresh]),
      List.map_singleton, List.prod_singleton, contentMeaning_digits, contentMeaning_digits,
      hconstant, hconstant, hconstant, Meaning.inv_of hden, Meaning.of_mul, hnum, ← hq,
      map_div₀, hq, div_eq_mul_inv]

/-- What the exact oracle puts in the place of a decimal literal is the tree of a fraction. -/
theorem exists_ofFraction {literal : Text} {content : Content}
    (h : fraction? Oracle.exactFraction literal = some content) :
    ∃ q, Numeral.decimalFraction? literal = some q ∧ fresh .plus content = ofFraction q := by
  unfold fraction? Oracle.exactFraction at h
  cases hfraction : Numeral.decimalFraction? literal with
  | none =>
    rw [hfraction] at h
    cases h
  | some q =>
    have htext := contentText_ofFraction (Numeral.decimalFraction?_nonneg hfraction)
    rw [hfraction] at h
    dsimp only at h
    split at h
    · rename_i node hread
      cases h
      obtain ⟨inner, rfl, hbuild⟩ := exists_of_read hread
      rw [← htext, (generates_contentText (isRegular_ofFraction q)).scanned_eq] at hbuild
      have hinner :=
        (Reads.of_build hbuild).eq_remade (isRegular_ofFraction q) (isCompact_ofFraction q)
      rw [Option.getD_none, remade_ofFraction] at hinner
      refine ⟨q, rfl, ?_⟩
      rw [hinner]
      unfold ofFraction
      split <;> rfl
    · cases h

/-- The exact oracle answers with the fractions of literals. -/
theorem of_exactFraction {literal answer : Text} (h : Oracle.exactFraction literal = .ok answer) :
    ∃ q, Numeral.decimalFraction? literal = some q ∧ answer = Numeral.fractionText q := by
  unfold Oracle.exactFraction at h
  split at h
  · rename_i q hfraction
    cases h
    exact ⟨q, hfraction, rfl⟩
  · cases h

/-- The exact oracle writes its fractions as expressions. -/
theorem isExpression_of_exactFraction {literal answer : Text}
    (h : Oracle.exactFraction literal = .ok answer) : IsExpression answer := by
  obtain ⟨q, hfraction, rfl⟩ := of_exactFraction h
  have hgenerates := generates_contentText (isRegular_ofFraction q)
  rw [contentText_ofFraction (Numeral.decimalFraction?_nonneg hfraction)] at hgenerates
  rw [IsExpression, hgenerates.scanned_eq]
  exact .sum_of_operand (.unsigned hgenerates)

/-- The oracle that knows the fractions of decimal literals is faithful. -/
theorem isFaithful_exactFraction : IsFaithful Oracle.exactFraction := by
  intro literal content hdecimal hinteger h
  obtain ⟨q, hfraction, hfresh⟩ := exists_ofFraction h
  rw [hfresh]
  refine ⟨isRegular_ofFraction q, ?_, ?_⟩
  · unfold ofFraction
    split <;> rfl
  · rw [contentMeaning_ofFraction (Numeral.decimalFraction?_nonneg hfraction),
      atomValue_of_decimalFraction? hinteger hdecimal hfraction, Meaning.ofValue_ok]

end Node

end EquationSteps
