import EquationSteps.Proofs.Side.Terms

/-!
# Dividing a side

Dividing a term by an operand that is not zero multiplies its meaning by the inverse of the
operand's (`multipliesTerms_divideTerm`), whichever of the ways is taken: the divisor cancels
against the term, a factor of it, its numerator or a factor of the numerator, it is reduced with an
integer there, or it becomes a denominator or a factor of one.

So a side of terms is divided by the operand's value, and a side of factors is not: every one of its
factors is divided (`dividesValue_iff`).

**Where the divisor must not be zero.** A divisor that cancels is taken out of the term together
with its inverse, and the two make one only if the inverse is defined
(`Cancellation.apply_mul_apply_inv`). The term `0` stays as it is, and zero over the divisor is zero
only under the same condition. A divisor that does neither goes to a denominator, and there nothing
has to be assumed: if it was zero, both the result and the quotient would be undefined.

**How the proof is built.** There is a lemma for each way, from the inside to the outside: a
denominator that grows or is reduced, a fraction, a product, a term. Each one says that the result
is a multiple of the term, and the next one uses that and does not look into the operation again.
Which of the ways is taken is decided by the answers of the oracle; all that is used of them is what
`Proofs.Side.Cancellation` says.
-/

namespace EquationSteps

open Node

variable {oracle : Oracle} {node term numerator denominator result : Node} {divisor : Operand}
  {k : FunctionField} {cancellation : Cancellation} {place : Nat}

/-! ### What cancels -/

/-- What cancels is divided by itself. -/
theorem Cancellation.apply_mul_apply_inv (cancellation : Cancellation)
    (hdefined : (Meaning.of k)⁻¹ ≠ .undefined) :
    cancellation.apply (.of k) * cancellation.apply (.of k)⁻¹ = 1 := by
  rw [apply_mul_apply, Meaning.mul_inv_of_ne_undefined hdefined]

namespace Node

/-! ### Terms that are no fractions -/

/-- A term over the divisor. Nothing has to be known of the divisor, as dividing by zero is
undefined on both sides. -/
theorem isMultiple_intoQuotient (hterm : term.IsTerm) (hmeans : divisor.Means k) :
    term.IsMultiple (term.intoQuotient (divisor.node .divide)) (.of k)⁻¹ := by
  obtain ⟨hdivisor, hvalue⟩ := hmeans.isLink .divide
  exact (becomes_intoQuotient hterm.isPart hdivisor).isMultiple hterm (by rw [hvalue])

/-- A divisor that does not cancel becomes the denominator, less what it shares with the term. What
is shared is a number and not zero, so it may be taken out of both. -/
theorem isMultiple_reduceOrDivide (hterm : term.IsTerm) (hmeans : divisor.Means k) :
    term.IsMultiple (term.reduceOrDivide divisor) (.of k)⁻¹ := by
  unfold reduceOrDivide
  split
  · rename_i reduced rest hreduce
    obtain ⟨g, m, hg, hk, hreduced, hshared⟩ := hmeans.of_reduce? hterm.isPart hreduce
    -- first by what the divisor and the term share, then by the rest
    have hterm' : term.IsMultiple reduced (Meaning.number g)⁻¹ := by
      refine hreduced.isMultiple hterm ?_
      rw [hshared, mul_assoc, Meaning.mul_inv_of_ne_undefined (Meaning.inv_number_ne_undefined hg),
        mul_one]
    split
    · rename_i hone
      rwa [hk, hone, Meaning.number_one, one_mul]
    · have hover := becomes_intoQuotient hterm'.isTerm.isPart (isLink_digits .divide rest)
      rw [contentMeaning_digits] at hover
      have hboth := hterm'.trans (hover.isMultiple hterm'.isTerm rfl)
      rwa [← Meaning.inv_product, mul_comm, ← Meaning.number, ← hk] at hboth
  · exact isMultiple_intoQuotient hterm hmeans

/-- **A product** is divided, whatever cancels. If a factor is found, it means the divisor up to a
sign, and what is left of the product is the quotient, with that sign. -/
theorem isMultiple_divideProduct (hsound : oracle.IsSound) (hterm : term.IsTerm)
    (haskable : term.IsAskable) (hmeans : divisor.Means k)
    (hdefined : (Meaning.of k)⁻¹ ≠ .undefined) (hproduct : term.family? = some .product) :
    term.IsMultiple ((term.divideProduct divisor).answeredBy oracle) (.of k)⁻¹ := by
  rw [divideProduct, Inquiry.answeredBy_bind]
  split
  · rename_i place cancellation hfound
    refine ((becomes_withoutFactor place hterm.isPart hproduct).isMultiple hterm ?_).applySign
    rw [haskable.of_find? hsound hmeans hproduct hfound, mul_right_comm,
      cancellation.apply_mul_apply_inv hdefined, one_mul]
  · exact isMultiple_reduceOrDivide hterm hmeans

/-! ### Fractions

A fraction is divided by dividing its numerator, or by multiplying its denominator. -/

section Fraction

variable (hterm : term.IsTerm) (hmeans : divisor.Means k)
  (hnumerator : numerator.IsLink .divide) (hdenominator : denominator.IsLink .divide)
  (hmeaning : term.contentMeaning = numerator.contentMeaning * denominator.contentMeaning⁻¹)

include hterm hnumerator hdenominator hmeaning

/-- A numerator that is divided divides the fraction. -/
theorem isMultiple_fraction {numerator' : Node} {m n : Meaning}
    (hbecomes : numerator.Becomes numerator' n) (hn : n = numerator.contentMeaning * m) :
    term.IsMultiple (term.withContent (.group [numerator', denominator])) m := by
  refine (becomes_fraction hterm.isPart (hbecomes.isLink hnumerator) hdenominator).isMultiple
    hterm ?_
  rw [hbecomes.meaning_eq, hn, hmeaning, mul_right_comm]

include hmeans

/-- A divisor that does not cancel goes to the denominator, less what it shares with the
numerator. -/
theorem isMultiple_divideDenominator :
    term.IsMultiple (term.divideDenominator divisor numerator denominator) (.of k)⁻¹ := by
  unfold divideDenominator
  split
  · rename_i reduced rest hreduce
    obtain ⟨g, m, hg, hk, hreduced, hshared⟩ := hmeans.of_reduce? hnumerator.toIsPart hreduce
    have happended := becomes_appendNumber hdenominator.toIsPart rest
    refine (becomes_fraction hterm.isPart (hreduced.isLink hnumerator)
      (happended.isLink hdenominator)).isMultiple hterm ?_
    have hcancel : Meaning.number g * (Meaning.number g)⁻¹ = 1 :=
      Meaning.mul_inv_of_ne_undefined (Meaning.inv_number_ne_undefined hg)
    rw [hreduced.meaning_eq, happended.meaning_eq, hmeaning, hshared, hk]
    simp only [Meaning.inv_product]
    calc m * (denominator.contentMeaning⁻¹ * (Meaning.number rest)⁻¹)
        = m * (denominator.contentMeaning⁻¹ * (Meaning.number rest)⁻¹) *
            (Meaning.number g * (Meaning.number g)⁻¹) := by rw [hcancel, mul_one]
      _ = m * Meaning.number g * denominator.contentMeaning⁻¹ *
            ((Meaning.number rest)⁻¹ * (Meaning.number g)⁻¹) := by ac_rfl
  · obtain ⟨hfactor, hvalue⟩ := hmeans.isLink .times
    have happended := becomes_appendFactor hdenominator.toIsPart hfactor
    refine (becomes_fraction hterm.isPart hnumerator (happended.isLink hdenominator)).isMultiple
      hterm ?_
    rw [happended.meaning_eq, hvalue, hmeaning, Meaning.inv_product, mul_assoc]

end Fraction

/-- **A fraction** is divided, whatever cancels. The numerator as a whole is preferred to a factor
of it, and if neither cancels, the denominator grows. In each case one part of the fraction changes,
and the lemma on that change is used. -/
theorem isMultiple_divideFraction (hsound : oracle.IsSound) (hterm : term.IsTerm)
    (haskable : term.IsAskable) (hmeans : divisor.Means k)
    (hdefined : (Meaning.of k)⁻¹ ≠ .undefined) (hquotient : term.family? = some .quotient)
    (hparts : term.parts? = some (numerator, denominator)) :
    term.IsMultiple ((term.divideFraction divisor numerator denominator).answeredBy oracle)
      (.of k)⁻¹ := by
  obtain ⟨hnumerator, hdenominator, hmeaning⟩ := of_parts? hterm.isPart hquotient hparts
  obtain ⟨haskable', -, -⟩ := haskable.parts hquotient hparts
  have hcancelled : ∀ {cancellation : Cancellation},
      (Cancellation.compare numerator.contentText divisor.text).answeredBy oracle =
        some cancellation →
        term.IsMultiple (cancellation.applySign
          (term.withContent (.group [numerator.cancelled, denominator]))) (.of k)⁻¹ := by
    intro cancellation hcompare
    refine (isMultiple_fraction hterm hnumerator hdenominator hmeaning
      (becomes_cancelled hnumerator.toIsPart) ?_).applySign
    rw [haskable'.of_compare hsound hmeans hcompare, cancellation.apply_mul_apply_inv hdefined]
  have hkept := isMultiple_divideDenominator hterm hmeans hnumerator hdenominator hmeaning
  unfold divideFraction
  split
  · rename_i hproduct
    rw [Inquiry.answeredBy_bind, Inquiry.answeredBy_bind]
    -- The numerator as a whole is preferred to the factor of it that was found.
    split
    · exact hcancelled ‹_›
    · split
      · rename_i place cancellation hfound
        refine (isMultiple_fraction hterm hnumerator hdenominator hmeaning
          (becomes_withoutFactor place hnumerator.toIsPart hproduct) ?_).applySign
        rw [haskable'.of_find? hsound hmeans hproduct hfound, mul_right_comm,
          cancellation.apply_mul_apply_inv hdefined, one_mul]
      · exact hkept
  · rw [Inquiry.answeredBy_bind, Inquiry.answeredBy_pure, Inquiry.answeredBy_bind]
    split
    · exact hcancelled ‹_›
    · exact hkept

/-- **Each term is divided** by what the operand means, unless that is zero. The term `0` stays, one
that cancels becomes one with a sign, and the others are divided by what they are. -/
theorem multipliesTerms_divideTerm (hsound : oracle.IsSound) (hmeans : divisor.Means k)
    (hdefined : (Meaning.of k)⁻¹ ≠ .undefined) :
    MultipliesTerms oracle (divideTerm divisor) (.of k)⁻¹ := by
  intro term hterm haskable
  have hover := isMultiple_intoQuotient hterm hmeans
  have hreduced := isMultiple_reduceOrDivide hterm hmeans
  unfold divideTerm
  split
  · rename_i hzero
    refine hterm.isPart.becomes.isMultiple hterm ?_
    obtain ⟨l, hl⟩ := (Meaning.eq_undefined_or_of _).resolve_left hdefined
    rw [contentMeaning_of_isZeroAtom hzero, hl, ← Meaning.of_zero, Meaning.of_mul, zero_mul]
  rw [Inquiry.answeredBy_bind]
  split
  · rename_i cancellation hcompare
    refine ((becomes_cancelled hterm.isPart).isMultiple hterm ?_).applySign
    rw [haskable.of_compare hsound hmeans hcompare, cancellation.apply_mul_apply_inv hdefined]
  split
  · rename_i hproduct
    exact isMultiple_divideProduct hsound hterm haskable hmeans hdefined hproduct
  · rename_i hquotient
    split
    · rename_i numerator denominator hparts
      exact isMultiple_divideFraction hsound hterm haskable hmeans hdefined hquotient hparts
    · exact hover
  · exact hreduced
  · exact hreduced

end Node

/-! ### The side

The operation on terms is put into the frame that is shared with multiplying. In the other
direction, a side of factors is divided by `-1`, which leaves all of its factors alone. -/

/-- The side, of which the value is given, is divided by whatever operand it is divided by
successfully, unless that is zero: it has a value then, and times the operand that is the value
before. The oracle is any sound one, and the limits for settling and for evaluating may differ. -/
def DividesValue (side : Node) (v : RationalFunction) : Prop :=
  ∀ {oracle : Oracle} {limits valueLimits : Limits} {text : Text} {f : RationalFunction}
    {side' : Node}, oracle.IsSound → IsExpression text → evaluate valueLimits text = .ok f →
      f.isZero = false →
        (divideSide oracle.rationalize limits text side).answeredBy oracle = (.ok (), side') →
          ∃ w, side'.value = .ok w ∧ (w.mul f).equals v = true

namespace Node

variable {side : Node} {v : RationalFunction}

/-- **A side of terms is divided**, and a side of factors or parts is not, unless it is zero: the
operands of such a side are divided one by one. The side has to be settled, and it has to have a
value, since what is undefined cannot be divided. -/
theorem dividesValue_iff (hside : side.IsSettled Oracle.exactFraction)
    (hvalue : side.value = .ok v) :
    (side.family? = some .sum → DividesValue side v) ∧
      (DividesValue side v → side.family? = some .sum ∨ v.isZero = true) := by
  have hmeaning : side.meaning = .of v.toField := by
    rw [← ofValue_value, hvalue, Meaning.ofValue_ok]
  have hproper := isProper_of_value hvalue
  constructor
  · intro hfamily oracle limits valueLimits text f side' hsound htext hf hnonzero hresult
    obtain ⟨e, hsays⟩ := isExpression_iff_exists_denotes.1 htext
    have hproperf := (of_evaluate hsays hf).1
    have hne : f.toField ≠ 0 := fun hzero ↦ by
      rw [(RationalFunction.isZero_iff hproperf).2 hzero] at hnonzero
      cases hnonzero
    have hdivided :=
      meaning_of_transformSide (a := (·⁻¹)) Meaning.one_inv Meaning.inv_negation hsound
      hside hfamily (hmeaning ▸ Meaning.of_ne_undefined _) htext hf
      (fun operand k hmeans hk ↦ multipliesTerms_divideTerm hsound hmeans ?_) hresult
    · rw [hmeaning, Meaning.inv_of hne, Meaning.of_mul] at hdivided
      obtain ⟨w, hw, hproper', hquotient⟩ := exists_value_of_meaning hdivided
      refine ⟨w, hw, ?_⟩
      rw [RationalFunction.equals_iff (hproper'.mul hproperf) hproper,
        RationalFunction.toField_mul, hquotient, inv_mul_cancel_right₀ hne]
    · have hk : k ≠ 0 := by
        rintro rfl
        rcases hk with hk | hk
        · exact hne hk.symm
        · exact hne (hk.symm.trans neg_zero)
      rw [Meaning.inv_of hk]
      exact Meaning.of_ne_undefined _
  -- `-1` leaves a side of factors alone, so the value would be its own negation
  · intro hdivides
    by_contra hnot
    obtain ⟨hfamily, hzero⟩ := not_or.1 hnot
    obtain ⟨htext, f, hf, hproperf, hminus⟩ :=
      expresses_negativeOne.exists_evaluate .standard (by decide)
    have hnonzero : f.isZero = false := by
      rw [Bool.eq_false_iff, ne_eq, RationalFunction.isZero_iff hproperf, hminus]
      exact neg_ne_zero.2 one_ne_zero
    obtain ⟨w, hw, hequals⟩ := hdivides (Oracle.isSound_exact .standard) htext hf hnonzero
      (answeredBy_transformSide_negativeOne hside hfamily)
    obtain rfl : w = v := Except.ok.inj (hw.symm.trans hvalue)
    rw [RationalFunction.equals_iff (hproper.mul hproperf) hproper, RationalFunction.toField_mul,
      hminus, mul_neg_one, eq_comm, CharZero.eq_neg_self_iff] at hequals
    exact hzero ((RationalFunction.isZero_iff hproper).2 hequals)

/-- `6*x-8/y` divided by `-4` is `-(3*x)/2+2/y`. -/
theorem dividesValue_iff_difference : ∃ node side v f side' w,
    Node.read .standard "6*x-8/y".toList true = .ok node ∧
      node.normalize Oracle.exactFraction .standard = (.ok 0, side) ∧ side.value = .ok v ∧
        evaluate .standard "-4".toList = .ok f ∧
          (divideSide Oracle.exactFraction .standard "-4".toList side).answeredBy
            (Oracle.exact .standard) = (.ok (), side') ∧
              side'.toText = "-(3*x)/2+2/y".toList ∧ side'.value = .ok w ∧
                (w.mul f).equals v = true := by
  have hexpression : IsExpression "6*x-8/y".toList :=
    isExpression_of_eq (by decide +kernel) (by decide)
  have hoperand : IsExpression "-4".toList := isExpression_of_eq (by decide +kernel) (by decide)
  have hread : Node.read .standard "6*x-8/y".toList true = .ok ((branch .plus
      [branch .plus [leaf .times ['6'], leaf .times ['x']],
        branch .minus [leaf .divide ['8'], leaf .divide ['y']]]).withRoot true) := rfl
  generalize hnode : (branch .plus [branch .plus [leaf .times ['6'], leaf .times ['x']],
    branch .minus [leaf .divide ['8'], leaf .divide ['y']]]).withRoot true = node at hread
  have hfacts : (node.normalize Oracle.exactFraction .standard).1 = .ok 0 ∧
      (node.normalize Oracle.exactFraction .standard).2.family? = some .sum ∧
        ((node.normalize Oracle.exactFraction .standard).2.value >>= fun v ↦
          Except.ok v.isZero) = .ok false := by
    subst hnode
    decide +kernel
  have hdivided : let outcome := (divideSide Oracle.exactFraction .standard "-4".toList
      (node.normalize Oracle.exactFraction .standard).2).answeredBy (Oracle.exact .standard)
      outcome.1 = .ok () ∧ outcome.2.toText = "-(3*x)/2+2/y".toList := by
    subst hnode
    decide +kernel
  have hdivisor : (evaluate .standard "-4".toList >>= fun f ↦ Except.ok f.isZero) = .ok false := by
    decide +kernel
  obtain ⟨f, hf, hnonzero⟩ := Except.ok_of_bind_eq_ok hdivisor
  cases hnormalize : node.normalize Oracle.exactFraction .standard with
  | mk result side =>
    rw [hnormalize] at hfacts hdivided
    obtain ⟨rfl, hfamily, hvalue⟩ := hfacts
    obtain ⟨v, hv, -⟩ := Except.ok_of_bind_eq_ok hvalue
    cases hresult : (divideSide Oracle.exactFraction .standard "-4".toList side).answeredBy
      (Oracle.exact .standard) with
    | mk outcome side' =>
      rw [hresult] at hdivided
      obtain ⟨rfl, htext⟩ := hdivided
      have hsettled := IsSettled.of_read hexpression hread hnormalize
      obtain ⟨w, hw, hequals⟩ := (dividesValue_iff hsettled hv).1 hfamily
        (Oracle.isSound_exact .standard) hoperand hf (Except.ok.inj hnonzero) hresult
      exact ⟨node, side, v, f, side', w, hread, hnormalize, hv, hf, hresult, htext, hw, hequals⟩

/-- `((2*x))` is read as a side with two factors, and divided by `3` it becomes `2/3*x/3`. -/
theorem not_divided_enclosed : IsExpression "((2*x))".toList ∧ IsExpression ['3'] ∧
    ∃ node side v f side', Node.read .standard "((2*x))".toList true = .ok node ∧
      node.normalize Oracle.exactFraction .standard = (.ok 0, side) ∧
        side.IsSettled Oracle.exactFraction ∧ side.value = .ok v ∧
          evaluate .standard ['3'] = .ok f ∧ f.isZero = false ∧
          (divideSide Oracle.exactFraction .standard ['3'] side).answeredBy
            (Oracle.exact .standard) = (.ok (), side') ∧ side'.toText = "2/3*x/3".toList ∧
              ¬∃ w, side'.value = .ok w ∧ (w.mul f).equals v = true := by
  have hexpression : IsExpression "((2*x))".toList := isExpression_of_eq rfl (by decide)
  have hread : Node.read .standard "((2*x))".toList true =
      .ok ((branch .plus [leaf .times ['2'], leaf .times ['x']]).withRoot true) := rfl
  generalize hnode :
    (branch .plus [leaf .times ['2'], leaf .times ['x']]).withRoot true = node at hread
  have hsettled : (node.normalize Oracle.exactFraction .standard).1 = .ok 0 := by
    subst hnode
    decide +kernel
  have hdiffer : let side := (node.normalize Oracle.exactFraction .standard).2
      let outcome := (divideSide Oracle.exactFraction .standard ['3'] side).answeredBy
        (Oracle.exact .standard)
      outcome.1 = .ok () ∧ outcome.2.toText = "2/3*x/3".toList ∧ (do
        let v ← side.value
        let f ← evaluate .standard ['3']
        let w ← outcome.2.value
        return (f.isZero, (w.mul f).equals v)) = .ok (false, false) := by
    subst hnode
    decide +kernel
  cases hnormalize : node.normalize Oracle.exactFraction .standard with
  | mk result side =>
    rw [hnormalize] at hsettled hdiffer
    obtain rfl : result = .ok 0 := hsettled
    obtain ⟨houtcome, htext, hdiffer⟩ := hdiffer
    obtain ⟨v, hv, hdiffer⟩ := Except.ok_of_bind_eq_ok hdiffer
    obtain ⟨f, hf, hdiffer⟩ := Except.ok_of_bind_eq_ok hdiffer
    obtain ⟨w, hw, hdiffer⟩ := Except.ok_of_bind_eq_ok hdiffer
    obtain ⟨hnonzero, hdiffer⟩ := Prod.mk.inj (Except.ok.inj hdiffer)
    refine ⟨hexpression, isExpression_of_eq rfl (by decide), node, side, v, f, _, hread, hnormalize,
      IsSettled.of_read hexpression hread hnormalize, hv, hf, hnonzero,
      Prod.ext houtcome rfl, htext, ?_⟩
    rintro ⟨w', hw', hequals⟩
    obtain rfl : w = w' := Except.ok.inj (hw.symm.trans hw')
    cases hequals.symm.trans hdiffer

end Node

end EquationSteps
