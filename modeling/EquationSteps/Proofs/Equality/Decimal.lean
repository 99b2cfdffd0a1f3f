import EquationSteps.Proofs.Equation.Input
import EquationSteps.Proofs.Side.Integer

/-!
# Decimal literals are exact fractions

A decimal literal is a run of digits, or two of them with a point in between of which one may be
empty. Its value is the number that all its digits write, over the power of ten with as many zeros
as there are digits behind the point (`Numeral.decimalFraction?_eq`). The exact oracle writes this
fraction in lowest terms, without leading zeros (`Numeral.writesFraction_fractionText`), and what it
writes is read as a tree of at most two levels (`Node.read_ofFraction`), however long the literal
is.

So wherever anything nested is read at all, the oracle finds the literal equal to its own answer,
and normalization puts the tree of the fraction in the place of the literal
(`Node.reshape_decimal`). Nothing is rounded, and nothing depends on the number of digits
(`Oracle.exactFraction_spec`).

**The value is described without fractions.** That an answer is right is said by an equation between
natural numbers: the numerator times the power of ten is the denominator times the number that the
digits write (`Numeral.num_mul_pow`). Together with the fraction being in lowest terms this
determines the answer.

**Why a limit of one level.** A quotient is read as a group of two leaves, so comparing a literal
with `29/4` needs one level of nesting. With a limit of none the oracle still answers, but its
answer cannot be read.
-/

namespace EquationSteps

namespace Numeral

variable {text : Text} {q : ℚ}

/-- The digits of a literal, without the point. -/
def digitsOf (text : Text) : Text :=
  text.filter Char.isDigit

/-- The number of digits that a literal has behind its point. -/
def places (text : Text) : ℕ :=
  (text.dropWhile (· != '.')).countP Char.isDigit

/-- The text writes a fraction in lowest terms: a number without leading zeros, or two of them
without a common factor, of which the second is greater than one. -/
inductive WritesFraction : Text → ℕ → ℕ → Prop where
  | whole {numerator : Text} (hnumerator : isCanonical numerator = true) :
    WritesFraction numerator (value numerator) 1
  | parts {numerator denominator : Text} (hnumerator : isCanonical numerator = true)
      (hdenominator : isCanonical denominator = true) (hgreater : 1 < value denominator)
      (hcoprime : (value numerator).Coprime (value denominator)) :
    WritesFraction (numerator ++ '/' :: denominator) (value numerator) (value denominator)

/-- A decimal literal has digits and points only, at most one point, and at least one digit. -/
theorem isDecimal_iff : isDecimal text = true ↔
    (∀ c ∈ text, c.isDigit = true ∨ c = '.') ∧ text.count '.' ≤ 1 ∧
      ∃ c ∈ text, c.isDigit = true := by
  simp [isDecimal, and_assoc]

/-- A decimal literal is a run of digits, or two of them around a point. -/
theorem isDecimal_cases (h : isDecimal text = true) : isInteger text = true ∨
    ∃ whole decimals, text = whole ++ '.' :: decimals ∧
      ∀ c ∈ whole ++ decimals, c.isDigit = true := by
  obtain ⟨hall, hcount, c, hmem, hdigit⟩ := isDecimal_iff.1 h
  by_cases hpoint : '.' ∈ text
  · right
    obtain ⟨whole, decimals, rfl⟩ := List.append_of_mem hpoint
    refine ⟨whole, decimals, rfl, fun c hmem ↦ ?_⟩
    have hnone : '.' ∉ whole ++ decimals := by
      rw [List.perm_middle.count_eq, List.count_cons_self] at hcount
      exact List.count_eq_zero.1 (Nat.le_zero.1 (Nat.le_of_succ_le_succ hcount))
    refine (hall c (List.perm_middle.mem_iff.2 (List.mem_cons_of_mem _ hmem))).resolve_right ?_
    rintro rfl
    exact hnone hmem
  · exact Or.inl (isInteger_iff.2 ⟨List.ne_nil_of_mem hmem, fun c hmem ↦
      (hall c hmem).resolve_right fun hc ↦ hpoint (hc ▸ hmem)⟩)

/-- All characters of an integer literal are digits. -/
theorem digitsOf_eq_self (h : ∀ c ∈ text, c.isDigit = true) : digitsOf text = text :=
  List.filter_eq_self.2 h

/-- A digit is not the point. -/
theorem ne_point_of_isDigit {c : Char} (h : c.isDigit = true) : (c != '.') = true := by
  refine bne_iff_ne.2 fun hpoint ↦ ?_
  rw [hpoint] at h
  cases h

/-- **The value of a decimal literal** is its digits over a power of ten. -/
theorem decimalFraction?_eq (h : isDecimal text = true) :
    decimalFraction? text = some (mkRat (value (digitsOf text)) (10 ^ places text)) := by
  rw [decimalFraction?, if_pos h]
  rcases isDecimal_cases h with hinteger | ⟨whole, decimals, rfl, hdigits⟩
  · obtain ⟨-, hdigits⟩ := isInteger_iff.1 hinteger
    have hpoint : '.' ∉ text := fun hmem ↦ by cases hdigits '.' hmem
    have hplaces : places text = 0 := by
      rw [places, List.dropWhile_eq_nil_iff.2 fun c hmem ↦ ne_point_of_isDigit (hdigits c hmem)]
      rfl
    rw [Text.cut?_eq_none_iff.2 hpoint, digitsOf_eq_self hdigits, hplaces]
    dsimp only [Option.getD_none]
    rw [List.append_nil]
    rfl
  · obtain ⟨hwhole, hdecimals⟩ := List.forall_mem_append.1 hdigits
    have hpoint : '.' ∉ whole := fun hmem ↦ by cases hwhole '.' hmem
    have hfilter : digitsOf (whole ++ '.' :: decimals) = whole ++ decimals := by
      rw [digitsOf, List.filter_append, List.filter_cons_of_neg (by decide), ← List.filter_append]
      exact digitsOf_eq_self hdigits
    have hplaces : places (whole ++ '.' :: decimals) = decimals.length := by
      rw [places, List.dropWhile_append_of_pos fun c hmem ↦ ne_point_of_isDigit (hwhole c hmem),
        List.dropWhile_cons_of_neg (by decide), List.countP_cons_of_neg (by decide)]
      exact List.countP_eq_length.2 hdecimals
    rw [Text.cut?_append hpoint, hfilter, hplaces]
    rfl

/-- The parts of the fraction of a literal are in the proportion of its digits to the power of
ten. -/
theorem num_mul_pow (h : decimalFraction? text = some q) :
    q.num.natAbs * 10 ^ places text = q.den * value (digitsOf text) := by
  have hq := decimalFraction?_eq (isDecimal_of_decimalFraction? h)
  obtain rfl := Option.some.inj (h.symm.trans hq)
  have hnonneg := Rat.num_nonneg.2 (decimalFraction?_nonneg h)
  have hpow : 10 ^ places text ≠ 0 := by positivity
  have hsame := (Rat.mkRat_eq_iff (Rat.den_nz _) hpow).1
    (Rat.mkRat_self (mkRat (value (digitsOf text)) (10 ^ places text)))
  rw [← Int.natAbs_of_nonneg hnonneg, mul_comm (value (digitsOf text) : ℤ)] at hsame
  exact_mod_cast hsame

/-- A fraction is written in lowest terms. -/
theorem writesFraction_fractionText (h : 0 ≤ q) :
    WritesFraction (fractionText q) q.num.natAbs q.den := by
  have hnum := isCanonical_digits q.num.natAbs
  have hden := isCanonical_digits q.den
  rw [fractionText, integerText_of_nonneg (Rat.num_nonneg.2 h)]
  split
  · next hone =>
    have hwhole := WritesFraction.whole hnum
    rwa [value_digits, ← hone] at hwhole
  · next hone =>
    have hgreater : 1 < q.den := Nat.lt_of_le_of_ne q.den_pos (Ne.symm hone)
    have hparts := WritesFraction.parts hnum hden (by rwa [value_digits])
      (by rw [value_digits, value_digits]; exact q.reduced)
    rwa [value_digits, value_digits] at hparts

end Numeral

namespace Node

variable {literal : Text} {q : ℚ} {limits : Limits} {tag : Tag}

/-- The value of a decimal literal is its fraction. -/
theorem contentMeaning_decimal (h : Numeral.decimalFraction? literal = some q) :
    (atom tag literal).contentMeaning = .of (RationalFunction.constant q).toField := by
  rw [contentMeaning_atom, ofValue_atomValue_of_decimalFraction? h, Formula.meaning,
    ← RationalFunction.toField_constant]

/-- The tree of a fraction is new. -/
theorem fresh_content_ofFraction (q : ℚ) : fresh .plus (ofFraction q).content = ofFraction q := by
  unfold ofFraction
  split <;> rfl

/-- It means the fraction, for a number that is not negative. -/
theorem meaning_ofFraction (h : 0 ≤ q) :
    (ofFraction q).meaning = .of (RationalFunction.constant q).toField := by
  rw [← fresh_content_ofFraction, meaning, sign, fresh, tag_ofContent, contentMeaning_ofContent,
    contentMeaning_ofFraction h]
  rfl

/-- No rule applies to a fraction: its digits are canonical, and it is in lowest terms, so that no
part of a quotient could be dropped. -/
theorem isCanonical_ofFraction (q : ℚ) (hroot : tag.root = false) :
    (ofContent tag (ofFraction q).content).IsCanonical Oracle.exactFraction := by
  unfold ofFraction
  split
  · exact isCanonical_digits _ hroot
  · exact isCanonical_pair hroot rfl ⟨rfl, rfl⟩ (fun h ↦ by cases h) (isCanonical_digits _ rfl)
      (isCanonical_digits _ rfl)

/-- **The rules put the fraction in the place of a literal**, of any length and with any tag below a
root. -/
theorem reshape_decimal (h : Numeral.decimalFraction? literal = some q) (hroot : tag.root = false) :
    ∃ changed, (atom tag literal).reshape Oracle.exactFraction =
      .opened changed (ofContent tag (ofFraction q).content) := by
  cases hinteger : Numeral.isInteger literal with
  | true =>
    obtain rfl := Option.some.inj (h.symm.trans (Numeral.decimalFraction?_of_isInteger hinteger))
    exact reshape_literal (Numeral.integer?_eq_some_iff.2 ⟨hinteger, rfl⟩) hroot
  | false =>
    have hnumber : (atom tag literal).canonicalNumber? Oracle.exactFraction =
        some (ofContent tag (ofFraction q).content) := by
      rw [canonicalNumber?, content]
      dsimp only
      rw [hinteger, if_neg Bool.false_ne_true, if_pos (Numeral.isDecimal_of_decimalFraction? h),
        fraction?_exactFraction h]
      rfl
    exact ⟨true, reshape_of_canonicalNumber? hroot hnumber (isCanonical_ofFraction q hroot)⟩

end Node

namespace Oracle

open Node

/-- A literal is equal to its fraction, if quotients can be read. -/
theorem exactlyEqual_fractionText {literal : Text} {q : ℚ} {limits : Limits}
    (h : Numeral.decimalFraction? literal = some q) (hdepth : 1 ≤ limits.depth) :
    (exact limits).exactlyEqual literal (Numeral.fractionText q) = .ok true := by
  have hnonneg := Numeral.decimalFraction?_nonneg h
  have hread : Node.read limits literal false = .ok (leaf .plus literal) :=
    read_operand (isOperandText_of_decimalFraction? h)
  have hliteral : (leaf .plus literal).meaning = .of (RationalFunction.constant q).toField :=
    (Meaning.signed_plus _).trans (contentMeaning_decimal h)
  exact (exactlyEqual_eq_ok_iff hread (read_ofFraction hnonneg hdepth)).2
    ⟨_, _, hliteral, meaning_ofFraction hnonneg, iff_of_true rfl rfl⟩

/-- The answer for a literal is its exact value. -/
structure ConvertsExactly (literal answer : Text) : Prop where
  /-- The answer is a fraction in lowest terms, which is that of the digits and the power of ten. -/
  fraction : ∃ n d, Numeral.WritesFraction answer n d ∧
    n * 10 ^ Numeral.places literal = d * Numeral.value (Numeral.digitsOf literal)
  /-- The literal is found to be equal to the answer, if anything nested can be read. -/
  equal : ∀ limits : Limits, 1 ≤ limits.depth →
    (exact limits).exactlyEqual literal answer = .ok true
  /-- A leaf with the literal, below a root, becomes what the answer is read as, and keeps its
  value. This is what a pass leaves in its place, in whatever tree, and it is what the leaf is
  normalized to. -/
  normalized : ∀ tag : Tag, tag.root = false → ∃ content k,
    (∀ limits : Limits, 1 ≤ limits.depth →
      Node.read limits answer false = .ok (fresh .plus content)) ∧
      (∀ reach, (passWithin exactFraction (reach + 1) (atom tag literal)).2 =
        ofContent tag content) ∧
        (∀ limits : Limits, 2 ≤ limits.passes → ∃ passes,
          (atom tag literal).normalize exactFraction limits = (.ok passes, ofContent tag content)) ∧
          (atom tag literal).contentMeaning = .of k ∧ (ofContent tag content).contentMeaning = .of k

/-- **Decimals convert exactly.** The exact oracle has an answer for the texts that have only digits
and at most one point, and at least one digit, and for no others. The answer is the value of the
literal, written as a fraction in lowest terms. -/
theorem exactFraction_spec (literal : Text) :
    ((∃ answer, exactFraction literal = .ok answer) ↔
      (∀ c ∈ literal, c.isDigit = true ∨ c = '.') ∧ literal.count '.' ≤ 1 ∧
        ∃ c ∈ literal, c.isDigit = true) ∧
    ∀ answer, exactFraction literal = .ok answer → ConvertsExactly literal answer := by
  rw [← Numeral.isDecimal_iff]
  constructor
  · constructor
    · rintro ⟨answer, h⟩
      obtain ⟨q, hq, -⟩ := of_exactFraction h
      exact Numeral.isDecimal_of_decimalFraction? hq
    · intro h
      exact ⟨_, by rw [exactFraction, Numeral.decimalFraction?_eq h]⟩
  · intro answer h
    obtain ⟨q, hq, rfl⟩ := of_exactFraction h
    have hnonneg := Numeral.decimalFraction?_nonneg hq
    constructor
    · exact ⟨_, _, Numeral.writesFraction_fractionText hnonneg, Numeral.num_mul_pow hq⟩
    · exact fun limits hdepth ↦ exactlyEqual_fractionText hq hdepth
    · intro tag hroot
      obtain ⟨changed, hreshape⟩ := reshape_decimal hq hroot
      have hcanonical := isCanonical_ofFraction q hroot
      refine ⟨_, _, fun limits hdepth ↦ ?_, fun reach ↦ ?_,
        fun limits hpasses ↦ exists_normalize_of_reshape hreshape hcanonical hpasses,
        contentMeaning_decimal hq,
        (contentMeaning_ofContent tag _).trans (contentMeaning_ofFraction hnonneg)⟩
      · rw [fresh_content_ofFraction]
        exact read_ofFraction hnonneg hdepth
      · rw [passWithin_of_reshape hreshape hcanonical]

/-- The literal `007.250` is `29/4`, and there is no answer for a point alone. -/
theorem exactFraction_spec_zeros : exactFraction "007.250".toList = .ok "29/4".toList ∧
    ConvertsExactly "007.250".toList "29/4".toList ∧
      ∀ answer, exactFraction ['.'] ≠ .ok answer := by
  have hanswer : exactFraction "007.250".toList = .ok "29/4".toList := by decide +kernel
  refine ⟨hanswer, (exactFraction_spec _).2 _ hanswer, fun answer h ↦ ?_⟩
  obtain ⟨-, -, c, hmem, hdigit⟩ := (exactFraction_spec ['.']).1.1 ⟨answer, h⟩
  rw [List.mem_singleton.1 hmem] at hdigit
  cases hdigit

end Oracle

end EquationSteps
