import EquationSteps.Proofs.Side.Terms

/-!
# Multiplying a side

Multiplying a term by an operand multiplies its meaning by the operand's
(`multipliesTerms_multiplyTerm`), whichever of the ways is taken: the operand becomes a factor,
cancels against the denominator or a factor of it, or is reduced with an integer in the denominator.
That the denominator is not zero is what allows to cancel, and it is not zero because the term has a
value.

So a side of terms is multiplied by the operand's value, and a side of factors is not: every one of
its factors is multiplied (`multipliesValue_iff`).

**Zero is no exception.** The operand may be zero, in contrast to dividing. A sound oracle does not
confirm that it cancels against a denominator that is not zero, so it ends up as a factor, and the
side means zero.

**Where factors go wrong.** A side whose root holds factors is treated like any other, so each of
the factors is multiplied, and the value of the side is multiplied once for each of them. With the
operand `-1` not even that happens: factors have no sign that could turn, and the side stays as it
is (`answeredBy_transformSide_negativeOne`). That is what shows that such a side is not multiplied
in general, unless it is zero and there is nothing to see.
-/

namespace EquationSteps

open Node

variable {oracle : Oracle} {node term numerator denominator result : Node} {operand : Operand}
  {k : FunctionField} {m : Meaning}

namespace Node

/-! ### Terms -/

/-- A fraction that gives way to its numerator is multiplied by its denominator. It is marked as
pending by this, as its numerator may be a sum that joins the side. -/
theorem isMultiple_adoptNumerator (hterm : term.IsTerm) (hnumerator : numerator.IsPart)
    (hmeaning : term.contentMeaning = numerator.contentMeaning * denominator.contentMeaning⁻¹)
    (hdefined : denominator.contentMeaning⁻¹ ≠ .undefined) :
    term.IsMultiple (term.adoptNumerator numerator) denominator.contentMeaning := by
  refine ((becomes_adoptNumerator hterm.isPart hnumerator).isMultiple
    (hterm.withPending true) ?_).of_withPending
  rw [withPending, contentMeaning_mapTag, hmeaning, mul_assoc, mul_comm _⁻¹,
    Meaning.mul_inv_of_ne_undefined hdefined, mul_one]

/-- A leaf with the number one means one. -/
theorem contentMeaning_of_one (h : node.atomText? = some ['1']) : node.contentMeaning = 1 := by
  cases node with
  | atom tag text =>
    obtain rfl : text = ['1'] := Option.some.inj h
    exact contentMeaning_one tag
  | group tag children => cases h

/-- A factor that does not cancel goes to the numerator, less what it shares with the denominator.
If nothing but one is left of the denominator, the fraction gives way to its numerator. -/
theorem isMultiple_multiplyNumerator (hterm : term.IsTerm) (hmeans : operand.Means k)
    (hnumerator : numerator.IsLink .divide) (hdenominator : denominator.IsLink .divide)
    (hmeaning : term.contentMeaning = numerator.contentMeaning * denominator.contentMeaning⁻¹)
    (hdefined : denominator.contentMeaning⁻¹ ≠ .undefined) :
    term.IsMultiple (term.multiplyNumerator operand numerator denominator) (.of k) := by
  unfold multiplyNumerator
  split
  · rename_i reduced rest hreduce
    obtain ⟨g, m, -, hk, hreduced, hshared⟩ := hmeans.of_reduce? hdenominator.toIsPart hreduce
    split
    · rename_i hone
      -- the denominator is used up, so it was the common factor
      have hm : m = 1 := by rw [← hreduced.meaning_eq, contentMeaning_of_one hone]
      have hadopted := isMultiple_adoptNumerator hterm hnumerator.toIsPart hmeaning hdefined
      have happended := (becomes_appendNumber hadopted.isTerm.isPart rest).isMultiple
        hadopted.isTerm rfl
      have hboth := hadopted.trans happended
      rwa [hshared, hm, one_mul, mul_comm, ← hk] at hboth
    · -- the common factor of the operand and the denominator cancels
      have happended := becomes_appendNumber hnumerator.toIsPart rest
      have hcancel : denominator.contentMeaning⁻¹ * .number g = m⁻¹ := by
        rw [hshared, mul_comm m] at hdefined ⊢
        exact Meaning.inv_product_mul hdefined
      refine (becomes_fraction hterm.isPart (happended.isLink hnumerator)
        (hreduced.isLink hdenominator)).isMultiple hterm ?_
      rw [happended.meaning_eq, hreduced.meaning_eq, ← hcancel, hmeaning, hk]
      ac_rfl
  · obtain ⟨hfactor, hvalue⟩ := hmeans.isLink .times
    have happended := becomes_appendFactor hnumerator.toIsPart hfactor
    refine (becomes_fraction hterm.isPart (happended.isLink hnumerator) hdenominator).isMultiple
      hterm ?_
    rw [happended.meaning_eq, hvalue, hmeaning, mul_right_comm]

/-- A denominator loses the factor that cancels. The factor means the operand up to a sign, so the
fraction is multiplied by the operand, with the sign on the term. If it was the only factor, the
fraction gives way to its numerator. -/
theorem isMultiple_of_find? {place : Nat} {cancellation : Cancellation} (hsound : oracle.IsSound)
    (hterm : term.IsTerm) (hmeans : operand.Means k) (hnumerator : numerator.IsLink .divide)
    (hdenominator : denominator.IsLink .divide) (haskable : denominator.IsAskable)
    (hmeaning : term.contentMeaning = numerator.contentMeaning * denominator.contentMeaning⁻¹)
    (hdefined : denominator.contentMeaning⁻¹ ≠ .undefined)
    (hproduct : denominator.family? = some .product)
    (hfound : (Cancellation.find? denominator.children operand.text).answeredBy oracle =
      some (place, cancellation)) :
    term.IsMultiple
      (if (denominator.children.eraseIdx place).isEmpty then
        (cancellation.applySign term).adoptNumerator numerator
      else (cancellation.applySign term).withContent
        (.group [numerator, denominator.withChildren (denominator.children.eraseIdx place)]))
      (.of k) := by
  have hfactors := haskable.of_find? hsound hmeans hproduct hfound
  have hterm' := hterm.applySign cancellation
  rw [← contentMeaning_applySign cancellation] at hmeaning
  refine IsMultiple.of_applySign cancellation hterm ?_
  split
  · rename_i hempty
    have hadopted := isMultiple_adoptNumerator hterm' hnumerator.toIsPart hmeaning hdefined
    rwa [hfactors, List.isEmpty_iff.1 hempty, List.map_nil, List.prod_nil, mul_one] at hadopted
  · rename_i hnonempty
    have herased := becomes_eraseIdx place hdenominator.toIsPart hproduct fun hnil ↦
      hnonempty (List.isEmpty_iff.2 hnil)
    refine (becomes_fraction hterm'.isPart hnumerator (herased.isLink hdenominator)).isMultiple
      hterm' ?_
    rw [hfactors] at hdefined
    rw [herased.meaning_eq, hmeaning, hfactors, mul_assoc, Meaning.inv_product_mul hdefined]

/-- **A fraction** is multiplied, whatever cancels: a factor of the denominator, the denominator as
a whole, or the numbers in it. -/
theorem isMultiple_multiplyFraction (hsound : oracle.IsSound) (hterm : term.IsTerm)
    (haskable : term.IsAskable) (hmeans : operand.Means k)
    (hquotient : term.family? = some .quotient)
    (hparts : term.parts? = some (numerator, denominator)) :
    term.IsMultiple ((term.multiplyFraction operand numerator denominator).answeredBy oracle)
      (.of k) := by
  obtain ⟨hnumerator, hdenominator, hmeaning⟩ := of_parts? hterm.isPart hquotient hparts
  obtain ⟨-, haskable', hdefined⟩ := haskable.parts hquotient hparts
  have hcancelled : ∀ {cancellation : Cancellation},
      (Cancellation.compare denominator.contentText operand.text).answeredBy oracle =
        some cancellation →
        term.IsMultiple ((cancellation.applySign term).adoptNumerator numerator) (.of k) := by
    intro cancellation hcompare
    refine IsMultiple.of_applySign cancellation hterm ?_
    rw [← haskable'.of_compare hsound hmeans hcompare]
    refine isMultiple_adoptNumerator (hterm.applySign cancellation) hnumerator.toIsPart ?_ hdefined
    rw [contentMeaning_applySign, hmeaning]
  have hkept := isMultiple_multiplyNumerator hterm hmeans hnumerator hdenominator hmeaning hdefined
  unfold multiplyFraction
  split
  · rename_i hproduct
    rw [Inquiry.answeredBy_bind]
    dsimp only
    split
    · rename_i hfound
      rw [apply_ite (Inquiry.answeredBy oracle)]
      exact isMultiple_of_find? hsound hterm hmeans hnumerator hdenominator haskable' hmeaning
        hdefined hproduct hfound
    · -- Where no factor of the denominator cancels, the whole denominator may.
      rw [Inquiry.answeredBy_bind]
      split
      · exact hcancelled ‹_›
      · exact hkept
  · rw [Inquiry.answeredBy_bind, Inquiry.answeredBy_pure]
    dsimp only
    rw [Inquiry.answeredBy_bind]
    split
    · exact hcancelled ‹_›
    · exact hkept

/-- **Each term is multiplied** by what the operand means. The term `0` stays, and a term that is no
fraction gets one factor more. -/
theorem multipliesTerms_multiplyTerm (hsound : oracle.IsSound) (hmeans : operand.Means k) :
    MultipliesTerms oracle (multiplyTerm operand) (.of k) := by
  intro term hterm haskable
  have happended : term.IsMultiple (term.appendFactor (operand.node .times)) (.of k) := by
    obtain ⟨hfactor, hvalue⟩ := hmeans.isLink .times
    exact (becomes_appendFactor hterm.isPart hfactor).isMultiple hterm (by rw [hvalue])
  unfold multiplyTerm
  split
  · rename_i hzero
    refine hterm.isPart.becomes.isMultiple hterm ?_
    rw [contentMeaning_of_isZeroAtom hzero, ← Meaning.of_zero, Meaning.of_mul, zero_mul]
  split
  · rename_i hquotient
    split
    · rename_i numerator denominator hparts
      exact isMultiple_multiplyFraction hsound hterm haskable hmeans hquotient hparts
    · exact happended
  · exact happended

end Node

/-! ### The side

The operation on terms is put into the frame that is shared with dividing, and a side of factors is
refuted by `-1`. -/

/-- The side, of which the value is given, is multiplied by whatever operand it is multiplied by
successfully: it has a value then, and that is the product. The oracle is any sound one, and the
limits for settling and for evaluating may differ. -/
def MultipliesValue (side : Node) (v : RationalFunction) : Prop :=
  ∀ {oracle : Oracle} {limits valueLimits : Limits} {text : Text} {f : RationalFunction}
    {side' : Node}, oracle.IsSound → IsExpression text → evaluate valueLimits text = .ok f →
      (multiplySide oracle.rationalize limits text side).answeredBy oracle = (.ok (), side') →
        ∃ w, side'.value = .ok w ∧ w.equals (v.mul f) = true

namespace Node

variable {side : Node} {v : RationalFunction}

/-- **A side of terms is multiplied**, and a side of factors or parts is not, unless it is zero: the
operands of such a side are multiplied one by one. The side has to be settled and to have a
value. -/
theorem multipliesValue_iff (hside : side.IsSettled Oracle.exactFraction)
    (hvalue : side.value = .ok v) :
    (side.family? = some .sum → MultipliesValue side v) ∧
      (MultipliesValue side v → side.family? = some .sum ∨ v.isZero = true) := by
  have hmeaning : side.meaning = .of v.toField := by
    rw [← ofValue_value, hvalue, Meaning.ofValue_ok]
  have hproper := isProper_of_value hvalue
  constructor
  · intro hfamily oracle limits valueLimits text f side' hsound htext hf hresult
    have hmultiplied := meaning_of_transformSide (a := id) rfl (fun _ ↦ rfl) hsound hside hfamily
      (hmeaning ▸ Meaning.of_ne_undefined _) htext hf
      (fun operand k hmeans _ ↦ multipliesTerms_multiplyTerm hsound hmeans) hresult
    obtain ⟨e, hsays⟩ := isExpression_iff_exists_denotes.1 htext
    obtain ⟨w, hw, hproper', hproduct⟩ := exists_value_of_meaning
      (hmultiplied.trans (congrArg (· * _) hmeaning))
    refine ⟨w, hw, ?_⟩
    rw [RationalFunction.equals_iff hproper' (hproper.mul (of_evaluate hsays hf).1),
      RationalFunction.toField_mul, hproduct]
  -- `-1` leaves a side of factors alone, so the value would be its own negation
  · intro hmultiplies
    by_contra hnot
    obtain ⟨hfamily, hzero⟩ := not_or.1 hnot
    obtain ⟨htext, f, hf, hproperf, hminus⟩ :=
      expresses_negativeOne.exists_evaluate .standard (by decide)
    obtain ⟨w, hw, hequals⟩ := hmultiplies (Oracle.isSound_exact .standard) htext hf
      (answeredBy_transformSide_negativeOne hside hfamily)
    obtain rfl : w = v := Except.ok.inj (hw.symm.trans hvalue)
    rw [RationalFunction.equals_iff hproper (hproper.mul hproperf), RationalFunction.toField_mul,
      hminus, mul_neg_one, CharZero.eq_neg_self_iff] at hequals
    exact hzero ((RationalFunction.isZero_iff hproper).2 hequals)

/-- `1/(2*x)+3` multiplied by `-2*x` is `-1-3*(2*x)`. -/
theorem multipliesValue_iff_fraction : ∃ node side v f side' w,
    Node.read .standard "1/(2*x)+3".toList true = .ok node ∧
      node.normalize Oracle.exactFraction .standard = (.ok 0, side) ∧ side.value = .ok v ∧
        evaluate .standard "-2*x".toList = .ok f ∧
          (multiplySide Oracle.exactFraction .standard "-2*x".toList side).answeredBy
            (Oracle.exact .standard) = (.ok (), side') ∧
              side'.toText = "-1-3*(2*x)".toList ∧ side'.value = .ok w ∧
                w.equals (v.mul f) = true := by
  have hexpression : IsExpression "1/(2*x)+3".toList :=
    isExpression_of_eq (by decide +kernel) (by decide)
  have hoperand : IsExpression "-2*x".toList := isExpression_of_eq (by decide +kernel) (by decide)
  have hread : Node.read .standard "1/(2*x)+3".toList true = .ok ((branch .plus [branch .plus
      [leaf .divide ['1'], branch .divide [leaf .times ['2'], leaf .times ['x']]],
        leaf .plus ['3']]).withRoot true) := rfl
  generalize hnode : (branch .plus [branch .plus [leaf .divide ['1'],
    branch .divide [leaf .times ['2'], leaf .times ['x']]], leaf .plus ['3']]).withRoot
      true = node at hread
  have hfacts : (node.normalize Oracle.exactFraction .standard).1 = .ok 0 ∧
      (node.normalize Oracle.exactFraction .standard).2.family? = some .sum ∧
        ((node.normalize Oracle.exactFraction .standard).2.value >>= fun v ↦
          Except.ok v.isZero) = .ok false := by
    subst hnode
    decide +kernel
  have hmultiplied : let outcome := (multiplySide Oracle.exactFraction .standard "-2*x".toList
      (node.normalize Oracle.exactFraction .standard).2).answeredBy (Oracle.exact .standard)
      outcome.1 = .ok () ∧ outcome.2.toText = "-1-3*(2*x)".toList := by
    subst hnode
    decide +kernel
  obtain ⟨f, hf⟩ : ∃ f, evaluate .standard "-2*x".toList = .ok f := ⟨_, rfl⟩
  cases hnormalize : node.normalize Oracle.exactFraction .standard with
  | mk result side =>
    rw [hnormalize] at hfacts hmultiplied
    obtain ⟨rfl, hfamily, hvalue⟩ := hfacts
    obtain ⟨v, hv, -⟩ := Except.ok_of_bind_eq_ok hvalue
    cases hresult : (multiplySide Oracle.exactFraction .standard "-2*x".toList side).answeredBy
      (Oracle.exact .standard) with
    | mk outcome side' =>
      rw [hresult] at hmultiplied
      obtain ⟨rfl, htext⟩ := hmultiplied
      have hsettled := IsSettled.of_read hexpression hread hnormalize
      obtain ⟨w, hw, hequals⟩ := (multipliesValue_iff hsettled hv).1 hfamily
        (Oracle.isSound_exact .standard) hoperand hf hresult
      exact ⟨node, side, v, f, side', w, hread, hnormalize, hv, hf, hresult, htext, hw, hequals⟩

/-- `((2*x))` is read as a side with two factors, and multiplied by `3` it becomes `(2*3)*(x*3)`. -/
theorem not_multiplied_enclosed : IsExpression "((2*x))".toList ∧ IsExpression ['3'] ∧
    ∃ node side v f side', Node.read .standard "((2*x))".toList true = .ok node ∧
      node.normalize Oracle.exactFraction .standard = (.ok 0, side) ∧
        side.IsSettled Oracle.exactFraction ∧ side.value = .ok v ∧
          evaluate .standard ['3'] = .ok f ∧
            (multiplySide Oracle.exactFraction .standard ['3'] side).answeredBy
            (Oracle.exact .standard) = (.ok (), side') ∧ side'.toText = "(2*3)*(x*3)".toList ∧
              ¬∃ w, side'.value = .ok w ∧ w.equals (v.mul f) = true := by
  have hexpression : IsExpression "((2*x))".toList := isExpression_of_eq rfl (by decide)
  have hread : Node.read .standard "((2*x))".toList true =
      .ok ((branch .plus [leaf .times ['2'], leaf .times ['x']]).withRoot true) := rfl
  generalize hnode :
    (branch .plus [leaf .times ['2'], leaf .times ['x']]).withRoot true = node at hread
  have hsettled : (node.normalize Oracle.exactFraction .standard).1 = .ok 0 := by
    subst hnode
    decide +kernel
  have hdiffer : let side := (node.normalize Oracle.exactFraction .standard).2
      let outcome := (multiplySide Oracle.exactFraction .standard ['3'] side).answeredBy
        (Oracle.exact .standard)
      outcome.1 = .ok () ∧ outcome.2.toText = "(2*3)*(x*3)".toList ∧ (do
        let v ← side.value
        let f ← evaluate .standard ['3']
        let w ← outcome.2.value
        return w.equals (v.mul f)) = .ok false := by
    subst hnode
    decide +kernel
  cases hnormalize : node.normalize Oracle.exactFraction .standard with
  | mk result side =>
    rw [hnormalize] at hsettled hdiffer
    obtain rfl : result = .ok 0 := hsettled
    obtain ⟨houtcome, htext, hdiffer⟩ := hdiffer
    obtain ⟨v, hv, hdiffer⟩ := Except.ok_of_bind_eq_ok hdiffer
    obtain ⟨f, hf, hdiffer⟩ := Except.ok_of_bind_eq_ok hdiffer
    obtain ⟨w, hw, hdiffer⟩ := Except.ok_of_bind_eq_ok hdiffer
    refine ⟨hexpression, isExpression_of_eq rfl (by decide), node, side, v, f, _, hread, hnormalize,
      IsSettled.of_read hexpression hread hnormalize, hv, hf, Prod.ext houtcome rfl, htext, ?_⟩
    rintro ⟨w', hw', hequals⟩
    obtain rfl : w = w' := Except.ok.inj (hw.symm.trans hw')
    cases hequals.symm.trans (Except.ok.inj hdiffer)

end Node

end EquationSteps
