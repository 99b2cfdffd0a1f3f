import EquationSteps.Equality.Oracle
import EquationSteps.Proofs.Algebra.Arithmetic
import EquationSteps.Proofs.Fallible
import EquationSteps.Proofs.Meaning.Tree

/-!
# The field of quotients

A rational function has many quotients that represent it, and `equals` says which of them represent
the same one. On proper quotients (`RationalFunction.IsProper`), which are those that evaluation and
arithmetic give, it is an equivalence that all operations respect (`RespectsEquality`), and up to it
they are the operations of a field (`ObeysFieldLaws`).

Transitivity is what is not plain here: from `a/b = c/d` and `c/d = e/f`, crosswise multiplication
gives `(a*f - e*b) * d = 0`, and that a product of polynomials other than zero is not zero is a fact
about the polynomial ring. All of it is used through `equals_iff`, by which `equals` is equality in
the function field.

So every law below is proved in the same way. The operations keep quotients proper (`IsProper.add`
and the like), `toField` turns them into those of the function field, and there the law is one of
the library.

**Why proper quotients.** A pair with the denominator zero would be equal to everything by crosswise
multiplication, and transitivity would fail at once. No such pair arises: what evaluation returns is
proper (`isProper_of_evaluate`), and so is what the operations make of it. Division is the one
operation that may fail, and it fails exactly if the numerator of the divisor is zero.

Nothing here is up to a common factor. Two quotients of the same function need not have the same
numerator, and `f ≠ g` is no contradiction to `f.equals g`.
-/

namespace EquationSteps

namespace RationalFunction

variable {f f' g g' h q : RationalFunction}

/-! ### Division

Division is partial, and whether it succeeds can be read off the divisor's numerator. -/

/-- A quotient that exists is proper, and it is the one of the field. -/
theorem IsProper.div? (hf : f.IsProper) (hg : g.IsProper) (h : f.div? g = .ok q) :
    q.IsProper ∧ g.toField ≠ 0 ∧ q.toField = f.toField / g.toField := by
  have hne : g.toField ≠ 0 := fun hzero ↦ by
    rw [div?_eq_error hg hzero] at h
    cases h
  obtain ⟨q', hq', hproper, hfield⟩ := div?_eq_ok hf hg hne
  obtain rfl : q = q' := Except.ok.inj (h.symm.trans hq')
  exact ⟨hproper, hne, hfield.trans (div_eq_mul_inv _ _).symm⟩

/-- A function that does not test as zero is not zero in the field. -/
theorem toField_ne_zero (hg : g.IsProper) (h : g.isZero = false) : g.toField ≠ 0 := fun hzero ↦ by
  cases h.symm.trans ((isZero_iff hg).2 hzero)

/-- A quotient by a function other than zero exists. -/
theorem exists_div? (hf : f.IsProper) (hg : g.IsProper) (h : g.isZero = false) :
    ∃ q, f.div? g = .ok q ∧ q.IsProper ∧ q.toField = f.toField / g.toField := by
  obtain ⟨q, hq, hproper, hfield⟩ := div?_eq_ok hf hg (toField_ne_zero hg h)
  exact ⟨q, hq, hproper, hfield.trans (div_eq_mul_inv _ _).symm⟩

/-- A quotient exists unless the numerator of the divisor is zero. -/
theorem exists_div?_iff (hf : f.IsProper) (hg : g.IsProper) :
    (∃ q, f.div? g = .ok q) ↔ g.numerator ≠ 0 := by
  constructor
  · rintro ⟨q, hq⟩ hzero
    cases hq.symm.trans (div?_eq_error_iff.2 ⟨Polynomial.isZero_iff.2 hzero, rfl⟩)
  · intro hne
    obtain ⟨q, hq, -⟩ := exists_div? hf hg (Bool.eq_false_iff.2 fun hzero ↦
      hne (Polynomial.isZero_iff.1 hzero))
    exact ⟨q, hq⟩

@[simp] theorem toField_zero : (constant 0).toField = 0 := by
  rw [toField_constant, map_zero, map_zero]

@[simp] theorem toField_one : (constant 1).toField = 1 := by
  rw [toField_constant, map_one, map_one]

/-! ### Equality of functions

Crosswise multiplication as a relation on proper quotients, and the operations on its classes. -/

/-- **Crosswise multiplication is an equivalence** on proper quotients, since it is equality in the
function field. -/
theorem equals_equivalence :
    Equivalence fun f g : { f : RationalFunction // f.IsProper } ↦ f.1.equals g.1 = true where
  refl f := (equals_iff f.2 f.2).2 rfl
  symm {f g} h := (equals_iff g.2 f.2).2 ((equals_iff f.2 g.2).1 h).symm
  trans {f g h} hfg hgh :=
    (equals_iff f.2 h.2).2 (((equals_iff f.2 g.2).1 hfg).trans ((equals_iff g.2 h.2).1 hgh))

/-- What is computed from `f` and `g` is equal to what is computed from `f'` and `g'`. -/
structure RespectsEquality (f f' g g' : RationalFunction) : Prop where
  neg : f.neg.equals f'.neg = true
  add : (f.add g).equals (f'.add g') = true
  sub : (f.sub g).equals (f'.sub g') = true
  mul : (f.mul g).equals (f'.mul g') = true
  isZero : f.isZero = f'.isZero
  /-- Both divisions fail, or both succeed. -/
  div? : (f.div? g = .error .divisionByZero ∧ f'.div? g' = .error .divisionByZero) ∨
    ∃ q q', f.div? g = .ok q ∧ f'.div? g' = .ok q' ∧ q.equals q' = true

/-- **All operations respect equality of functions**, division in that both of two equal divisions
fail or both succeed with equal quotients. -/
theorem respectsEquality (hf : f.IsProper) (hf' : f'.IsProper) (hg : g.IsProper) (hg' : g'.IsProper)
    (hff' : f.equals f' = true) (hgg' : g.equals g' = true) : RespectsEquality f f' g g' := by
  rw [equals_iff hf hf'] at hff'
  rw [equals_iff hg hg'] at hgg'
  refine ⟨(equals_iff hf.neg hf'.neg).2 ?_, (equals_iff (hf.add hg) (hf'.add hg')).2 ?_,
    (equals_iff (hf.sub hg) (hf'.sub hg')).2 ?_,
    (equals_iff (hf.mul hg) (hf'.mul hg')).2 ?_, ?_, ?_⟩
  · rw [toField_neg, toField_neg, hff']
  · rw [toField_add hf hg, toField_add hf' hg', hff', hgg']
  · rw [toField_sub hf hg, toField_sub hf' hg', hff', hgg']
  · rw [toField_mul, toField_mul, hff', hgg']
  · rw [Bool.eq_iff_iff, isZero_iff hf, isZero_iff hf', hff']
  · by_cases hzero : g.toField = 0
    · exact .inl ⟨div?_eq_error hg hzero, div?_eq_error hg' (hgg' ▸ hzero)⟩
    · obtain ⟨q, hq, hproper, hfield⟩ := div?_eq_ok hf hg hzero
      obtain ⟨q', hq', hproper', hfield'⟩ := div?_eq_ok hf' hg' (hgg' ▸ hzero)
      refine .inr ⟨q, q', hq, hq', (equals_iff hproper hproper').2 ?_⟩
      rw [hfield, hfield', hff', hgg']

/-! ### The laws of a field

The laws as equations between what is computed, up to equality of functions. Those about division
say first that there is a quotient, and then which. -/

/-- The laws of a field, for three quotients and up to equality of functions. -/
structure ObeysFieldLaws (f g h : RationalFunction) : Prop where
  add_comm : (f.add g).equals (g.add f) = true
  add_assoc : ((f.add g).add h).equals (f.add (g.add h)) = true
  zero_add : ((constant 0).add f).equals f = true
  add_neg : (f.add f.neg).equals (constant 0) = true
  sub_eq : (f.sub g).equals (f.add g.neg) = true
  mul_comm : (f.mul g).equals (g.mul f) = true
  mul_assoc : ((f.mul g).mul h).equals (f.mul (g.mul h)) = true
  one_mul : ((constant 1).mul f).equals f = true
  mul_add : (f.mul (g.add h)).equals ((f.mul g).add (f.mul h)) = true
  zero_ne_one : (constant 0).equals (constant 1) = false
  isZero_eq : f.isZero = f.equals (constant 0)
  /-- Every function other than zero has an inverse, and dividing is multiplying by it. -/
  div_eq : g.isZero = false → ∃ inverse q, (constant 1).div? g = .ok inverse ∧ f.div? g = .ok q ∧
    (g.mul inverse).equals (constant 1) = true ∧ q.equals (f.mul inverse) = true
  /-- Multiplying undoes dividing. -/
  div_mul_cancel : g.isZero = false → ∃ q, f.div? g = .ok q ∧ (q.mul g).equals f = true

/-- Each law is that of the function field, for three proper quotients. -/
theorem obeysFieldLaws (hf : f.IsProper) (hg : g.IsProper) (hh : h.IsProper) :
    ObeysFieldLaws f g h where
  add_comm := (equals_iff (hf.add hg) (hg.add hf)).2 <| by
    rw [toField_add hf hg, toField_add hg hf, add_comm]
  add_assoc := (equals_iff ((hf.add hg).add hh) (hf.add (hg.add hh))).2 <| by
    rw [toField_add (hf.add hg) hh, toField_add hf hg, toField_add hf (hg.add hh),
      toField_add hg hh, add_assoc]
  zero_add := (equals_iff ((IsProper.constant 0).add hf) hf).2 <| by
    rw [toField_add (.constant 0) hf, toField_zero, zero_add]
  add_neg := (equals_iff (hf.add hf.neg) (.constant 0)).2 <| by
    rw [toField_add hf hf.neg, toField_neg, add_neg_cancel, toField_zero]
  sub_eq := (equals_iff (hf.sub hg) (hf.add hg.neg)).2 rfl
  mul_comm := (equals_iff (hf.mul hg) (hg.mul hf)).2 <| by
    rw [toField_mul, toField_mul, mul_comm]
  mul_assoc := (equals_iff ((hf.mul hg).mul hh) (hf.mul (hg.mul hh))).2 <| by
    simp only [toField_mul, mul_assoc]
  one_mul := (equals_iff ((IsProper.constant 1).mul hf) hf).2 <| by
    rw [toField_mul, toField_one, one_mul]
  mul_add := (equals_iff (hf.mul (hg.add hh)) ((hf.mul hg).add (hf.mul hh))).2 <| by
    rw [toField_mul, toField_add hg hh, toField_add (hf.mul hg) (hf.mul hh),
      toField_mul, toField_mul, mul_add]
  zero_ne_one := by
    rw [Bool.eq_false_iff, ne_eq, equals_iff (.constant 0) (.constant 1), toField_zero, toField_one]
    exact zero_ne_one
  isZero_eq := by
    rw [Bool.eq_iff_iff, isZero_iff hf, equals_iff hf (.constant 0), toField_zero]
  div_eq hne := by
    obtain ⟨inverse, hinverse, hproper, hfield⟩ := exists_div? (.constant 1) hg hne
    obtain ⟨q, hq, hproper', hfield'⟩ := exists_div? hf hg hne
    refine ⟨inverse, q, hinverse, hq, (equals_iff (hg.mul hproper) (.constant 1)).2 ?_,
      (equals_iff hproper' (hf.mul hproper)).2 ?_⟩
    · rw [toField_mul, hfield, toField_one, mul_one_div_cancel (toField_ne_zero hg hne)]
    · rw [toField_mul, hfield, hfield', toField_one, mul_one_div]
  div_mul_cancel hne := by
    obtain ⟨q, hq, hproper, hfield⟩ := exists_div? hf hg hne
    refine ⟨q, hq, (equals_iff (hproper.mul hg) hf).2 ?_⟩
    rw [toField_mul, hfield, div_mul_cancel₀ _ (toField_ne_zero hg hne)]

/-! ### Where quotients come from

Evaluation starts from constants and letters and goes on by arithmetic, so it never leaves the
proper quotients. -/

/-- What a text is evaluated to is a proper quotient, whatever the text. -/
theorem isProper_of_evaluate {limits : Limits} {text : Text} (h : evaluate limits text = .ok f) :
    f.IsProper := by
  unfold evaluate at h
  split at h
  · exact Node.isProper_of_value h
  · cases h

/-- A quotient of polynomials that arise by arithmetic is proper unless its denominator is zero. -/
theorem IsProper.of_isBuilt {p q : Polynomial} (hp : p.IsBuilt) (hq : q.IsBuilt) (h : q ≠ 0) :
    IsProper ⟨p, q⟩ :=
  ⟨hp.isCanonical, hq.isCanonical, h⟩

/-- **Rational functions are a field up to `equals`.** Proper quotients are what any text is
evaluated to and all quotients of polynomials that arise by arithmetic, but those by zero. The
operations keep them proper, and division fails exactly if the numerator of the divisor is zero. On
them `equals` is an equivalence that all operations respect, and up to it the laws of a field
hold. -/
theorem field_up_to_equals :
    (∀ limits text f, evaluate limits text = .ok f → f.denominator ≠ 0 ∧ f.IsProper) ∧
    (∀ p q : Polynomial, p.IsBuilt → q.IsBuilt → q ≠ 0 → IsProper ⟨p, q⟩) ∧
    (∀ f g : RationalFunction, f.IsProper → g.IsProper →
      f.neg.IsProper ∧ (f.add g).IsProper ∧ (f.sub g).IsProper ∧ (f.mul g).IsProper ∧
      (∀ q, f.div? g = .ok q → q.IsProper) ∧
      ((∃ q, f.div? g = .ok q) ↔ g.numerator ≠ 0) ∧
      (f.div? g = .error .divisionByZero ↔ g.numerator = 0)) ∧
    (Equivalence fun f g : { f : RationalFunction // f.IsProper } ↦ f.1.equals g.1 = true) ∧
    (∀ f f' g g' : RationalFunction, f.IsProper → f'.IsProper → g.IsProper → g'.IsProper →
      f.equals f' = true → g.equals g' = true → RespectsEquality f f' g g') ∧
    ∀ f g h : RationalFunction, f.IsProper → g.IsProper → h.IsProper → ObeysFieldLaws f g h := by
  refine ⟨fun limits text f h ↦ ?_, fun p q ↦ IsProper.of_isBuilt, fun f g hf hg ↦ ?_,
    equals_equivalence, fun f f' g g' ↦ respectsEquality, fun f g h ↦ obeysFieldLaws⟩
  · have hproper := isProper_of_evaluate h
    exact ⟨hproper.denominator_ne_zero, hproper⟩
  · refine ⟨hf.neg, hf.add hg, hf.sub hg, hf.mul hg, fun q hq ↦ (IsProper.div? hf hg hq).1,
      exists_div?_iff hf hg, ?_⟩
    rw [div?_eq_error_iff, isZero, Polynomial.isZero_iff, and_iff_left rfl]

/-- `2*x/4` and `x/2` are two quotients of the same function, and the first is restored when it is
divided by the second and the result is multiplied by it. -/
theorem field_up_to_equals_halves : ∃ f g q, evaluate .standard "2*x/4".toList = .ok f ∧
    evaluate .standard "x/2".toList = .ok g ∧ f ≠ g ∧ f.equals g = true ∧
      f.div? g = .ok q ∧ (q.mul g).equals f = true := by
  have hfacts : ((evaluate .standard "2*x/4".toList).toOption.map fun f ↦ decide
      (((evaluate .standard "x/2".toList).toOption.map fun g ↦ decide
        (f ≠ g ∧ f.equals g = true ∧ g.isZero = false)) = some true)) = some true := by
    decide +kernel
  obtain ⟨f, hf, hfacts⟩ := Except.exists_ok_of_toOption hfacts
  obtain ⟨g, hg, hne, hequal, hzero⟩ := Except.exists_ok_of_toOption hfacts
  obtain ⟨hevaluate, -, -, -, -, hlaws⟩ := field_up_to_equals
  have hfproper := (hevaluate _ _ f hf).2
  have hgproper := (hevaluate _ _ g hg).2
  obtain ⟨q, hq, hrestored⟩ := (hlaws f g g hfproper hgproper hgproper).div_mul_cancel hzero
  exact ⟨f, g, q, hf, hg, hne, hequal, hq, hrestored⟩

end RationalFunction

end EquationSteps
