import EquationSteps.Proofs.Meaning.LeftToRight
import EquationSteps.Proofs.Reading.Letters

/-!
# Formulas without letters

The value of a formula depends on the values of its letters only (`Formula.evalAt_congr`), and so
does whether the formula is defined. Without letters there is nothing to depend on: the formula
denotes one number, wherever it is evaluated, or it is undefined everywhere
(`Formula.exists_number`). The letters of the formula that a text says are those of the text
(`LeftToRight.letters`), so which texts are numbers is seen from their letters and their divisors.

This is what makes a number out of an operand that was typed. Its text is checked for letters and
compared with zero by an oracle, and no step of that yields a number. That there is one, the same
for all values of the letters, is what `exists_number` adds, and that it is not zero exactly if the
function is not zero is `toField_eq_zero_iff`.

A formula without letters may still be undefined, as `1/(2-2)` is. So it has to be defined
somewhere, and then it is so everywhere.
-/

namespace EquationSteps

namespace Formula

variable {e d : Formula} {point point' : Char → ℚ} {q : ℚ}

/-- The letters of a formula, in order and with repetitions. -/
def letters : Formula → Text
  | number _ => []
  | letter c => [c]
  | neg e => e.letters
  | add e f | sub e f | mul e f | div e f => e.letters ++ f.letters

/-- A divisor of a formula has no letters but those of the formula. So if the formula has none, the
divisors are constants as well. -/
theorem letters_subset_of_mem_divisors (h : d ∈ e.divisors) : d.letters ⊆ e.letters := by
  have hpair : ∀ {e f : Formula}, (d ∈ e.divisors → d.letters ⊆ e.letters) →
      (d ∈ f.divisors → d.letters ⊆ f.letters) → d ∈ e.divisors ++ f.divisors →
        d.letters ⊆ e.letters ++ f.letters := by
    intro e f ihe ihf h
    rcases List.mem_append.1 h with he | hf
    · exact List.subset_append_of_subset_left _ (ihe he)
    · exact List.subset_append_of_subset_right _ (ihf hf)
  induction e with
  | number q => cases h
  | letter c => cases h
  | neg e ih => exact ih h
  | add e f ihe ihf | sub e f ihe ihf | mul e f ihe ihf => exact hpair ihe ihf h
  | div e f ihe ihf =>
    rcases List.mem_cons.1 h with rfl | h
    · exact List.subset_append_right _ _
    · exact hpair ihe ihf h

/-- A formula has the same value wherever its letters have the same values. -/
theorem evalAt_congr (h : ∀ c ∈ e.letters, point c = point' c) :
    e.evalAt point = e.evalAt point' := by
  induction e with
  | number q => rfl
  | letter c => exact h c List.mem_cons_self
  | neg e ih => rw [evalAt, evalAt, ih h]
  | add e f ihe ihf | sub e f ihe ihf | mul e f ihe ihf | div e f ihe ihf =>
    obtain ⟨he, hf⟩ := List.forall_mem_append.1 h
    rw [evalAt, evalAt, ihe he, ihf hf]

/-- So it is with being defined. -/
theorem isDefinedAt_congr (h : ∀ c ∈ e.letters, point c = point' c)
    (hdefined : e.IsDefinedAt point) :
    e.IsDefinedAt point' := by
  intro d hd
  rw [← evalAt_congr fun c hc ↦ h c (letters_subset_of_mem_divisors hd hc)]
  exact hdefined d hd

/-- A formula that is defined somewhere has no divisor that is the zero function, as such a divisor
would be zero there, too. -/
theorem isDefined_of_isDefinedAt (h : e.IsDefinedAt point) : e.IsDefined := by
  have hpair : ∀ {e f : Formula}, (e.IsDefinedAt point → e.IsDefined) →
      (f.IsDefinedAt point → f.IsDefined) → (∀ d ∈ e.divisors ++ f.divisors, d.evalAt point ≠ 0) →
        ∀ d ∈ e.divisors ++ f.divisors, d.toField ≠ 0 := by
    intro e f ihe ihf h
    obtain ⟨he, hf⟩ := List.forall_mem_append.1 h
    exact List.forall_mem_append.2 ⟨ihe he, ihf hf⟩
  induction e with
  | number q => exact List.forall_mem_nil _
  | letter c => exact List.forall_mem_nil _
  | neg e ih => exact ih h
  | add e f ihe ihf | sub e f ihe ihf | mul e f ihe ihf => exact hpair ihe ihf h
  | div e f ihe ihf =>
    obtain ⟨hdivisor, he, hf⟩ := isDefinedAt_div_iff.1 h
    exact isDefined_div_iff.2 ⟨(hasValueAt hf).ne_zero hdivisor, ihe he, ihf hf⟩

/-- A number has no divisors, so it is defined everywhere. -/
theorem isDefinedAt_number (q : ℚ) (point : Char → ℚ) : (number q).IsDefinedAt point :=
  List.forall_mem_nil _

/-- The function of a formula that has the same value everywhere is zero exactly if the value is, as
the functions of formulas are told apart by their values. -/
theorem toField_eq_zero_iff (h : ∀ point, e.IsDefinedAt point ∧ e.evalAt point = q) :
    e.toField = 0 ↔ q = 0 := by
  have hzero : (number 0).toField = 0 := by
    rw [toField, MvPolynomial.C_0, map_zero]
  rw [← hzero, toField_eq_iff (isDefined_of_isDefinedAt (h 0).1)
    (isDefined_of_isDefinedAt (isDefinedAt_number 0 0))]
  constructor
  · intro hsame
    exact (h 0).2.symm.trans (hsame 0 (h 0).1 (isDefinedAt_number 0 0))
  · rintro rfl
    exact fun point _ _ ↦ (h point).2

/-- **A formula without letters denotes one number**, if no divisor in it is the zero function. -/
theorem exists_number (hletters : e.letters = []) (hdefined : e.IsDefined) :
    ∃ q, ∀ point, e.IsDefinedAt point ∧ e.evalAt point = q := by
  -- the formula is defined at some point, and without letters no point differs from it
  obtain ⟨somewhere, hsomewhere⟩ := (generically_isDefinedAt hdefined).exists_point
  have hagree : ∀ point : Char → ℚ, ∀ c ∈ e.letters, somewhere c = point c := fun point c hc ↦ by
    rw [hletters] at hc
    cases hc
  exact ⟨e.evalAt somewhere, fun point ↦
    ⟨isDefinedAt_congr (hagree point) hsomewhere, (evalAt_congr (hagree point)).symm⟩⟩

end Formula

/-- The formula that a text says has the letters of the text. -/
theorem LeftToRight.letters {rank : Rank} {text : Text} {e : Formula}
    (h : LeftToRight rank text e) :
    e.letters = Text.letters text := by
  have hbetween : ∀ {c : Char} (left right : Text), c.isAlpha = false →
      Text.letters (left ++ c :: right) = Text.letters left ++ Text.letters right := by
    intro c left right hc
    rw [Text.letters_append, Text.letters_cons_of_not_isAlpha hc]
  induction h with
  | literal hvalue =>
    exact (Text.letters_of_isDecimal (Numeral.isDecimal_of_decimalFraction? hvalue)).symm
  | letter hletter => rw [Formula.letters, Text.letters, List.filter_singleton, hletter, cond_true]
  | parenthesized _ ih =>
    rw [ih, Text.letters_cons_of_not_isAlpha (by decide), Text.letters_append,
      Text.letters_cons_of_not_isAlpha (by decide)]
    exact (List.append_nil _).symm
  | factor _ ih | first _ ih | run _ ih | term _ ih => exact ih
  | positive _ ih | plus _ ih => rw [ih, Text.letters_cons_of_not_isAlpha (by decide)]
  | negative _ ih | minus _ ih =>
    rw [Formula.letters, ih, Text.letters_cons_of_not_isAlpha (by decide)]
  | multiplied _ _ ihleft ihright | divided _ _ ihleft ihright | added _ _ ihleft ihright
  | subtracted _ _ ihleft ihright =>
    rw [Formula.letters, ihleft, ihright, hbetween _ _ (by decide)]

end EquationSteps
