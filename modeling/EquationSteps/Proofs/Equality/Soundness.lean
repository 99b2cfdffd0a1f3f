import EquationSteps.Proofs.Equality.Exact
import EquationSteps.Proofs.Equation.Admission
import EquationSteps.Proofs.Reading.Depth

/-!
# Sound oracles

An edit may ask other oracles than the exact one. What it relies on is little (`Oracle.IsSound`):
the fractions of decimal literals are exact, and the oracle calls two expressions equal only if they
have equal values. It may fail or say no as it likes. The exact oracle is sound
(`Oracle.isSound_exact`).

Which function a printed text expresses does not depend on a limit (`Expresses`): a tree's text
expresses the meaning of the tree (`Node.expresses_contentText`), and the text of the negation
expresses the negated function (`Expresses.negatedText`). So what a sound oracle confirms about
texts holds of what they express.

**Why limits are in the way.** Soundness speaks of texts that evaluate within some limit. A part of
a side is printed and handed to the oracle without a word on how deeply it nests, and it may well be
too deep for the limits of the equation. But the definition allows any limits, and within the length
of a text it is always read (`Expresses.exists_evaluate`), so a confirmed equality can be used
whatever the limits are.
-/

namespace EquationSteps

/-- An oracle that knows the fractions of decimal literals, and that confirms only the equality of
expressions whose values are equal. -/
structure Oracle.IsSound (oracle : Oracle) : Prop where
  rationalize : oracle.rationalize = Oracle.exactFraction
  equal : ∀ {a b : Text} {limits : Limits} {f g : RationalFunction}, IsExpression a →
    IsExpression b → oracle.exactlyEqual a b = .ok true → evaluate limits a = .ok f →
      evaluate limits b = .ok g → f.equals g = true

/-- The text says a formula that has the given function. No limit is involved, and no tree. -/
def Expresses (text : Text) (k : FunctionField) : Prop :=
  ∃ e, Denotes .sum text e ∧ e.meaning = .of k

namespace Expresses

variable {text other : Text} {k l : FunctionField}

/-- Within a large limit the text is read, and its value is what it expresses. -/
theorem exists_evaluate (h : Expresses text k) (limits : Limits)
    (hlimits : text.length ≤ limits.depth) :
    IsExpression text ∧ ∃ f, evaluate limits text = .ok f ∧ f.IsProper ∧ f.toField = k := by
  obtain ⟨e, htext, hmeaning⟩ := h
  have hscanned := htext.generates.scanned_eq
  have htext' : Denotes .sum text.scanned e := by rwa [hscanned]
  obtain ⟨node, hread⟩ := Node.exists_read limits text false (by rwa [hscanned])
  have hdefined : e.IsDefined := by
    by_contra hnot
    rw [Formula.meaning_of_not_isDefined hnot] at hmeaning
    exact Meaning.of_ne_undefined _ hmeaning.symm
  obtain ⟨f, hf, hproper, hvalue⟩ := evaluate_of_isDefined hread htext' hdefined
  refine ⟨htext'.generates, f, hf, hproper, ?_⟩
  rw [hvalue]
  exact Meaning.of_injective ((Formula.meaning_of_isDefined hdefined).symm.trans hmeaning)

/-- A text expresses one function. -/
theorem unique (h : Expresses text k) (h' : Expresses text l) : k = l := by
  obtain ⟨-, f, hf, -, rfl⟩ := h.exists_evaluate ⟨text.length, 0⟩ (Nat.le_refl _)
  obtain ⟨-, g, hg, -, rfl⟩ := h'.exists_evaluate ⟨text.length, 0⟩ (Nat.le_refl _)
  rw [hf] at hg
  rw [Except.ok.inj hg]

/-- What a sound oracle confirms to be equal is equal. -/
theorem eq_of_exactlyEqual {oracle : Oracle} (hsound : oracle.IsSound) (h : Expresses text k)
    (h' : Expresses other l) (hequal : oracle.exactlyEqual text other = .ok true) : k = l := by
  obtain ⟨htext, f, hf, hproper, rfl⟩ :=
    h.exists_evaluate ⟨max text.length other.length, 0⟩ (Nat.le_max_left _ _)
  obtain ⟨hother, g, hg, hproper', rfl⟩ :=
    h'.exists_evaluate ⟨max text.length other.length, 0⟩ (Nat.le_max_right _ _)
  exact (RationalFunction.equals_iff hproper hproper').1 (hsound.equal htext hother hequal hf hg)

/-- The text of the negation expresses the negated function. -/
theorem negatedText (h : Expresses text k) : Expresses (negatedText text) (-k) := by
  obtain ⟨e, htext, hmeaning⟩ := h
  refine ⟨.neg e, .term (.minus (.unsigned (.quotient (.factor (.parenthesized htext))))), ?_⟩
  rw [Formula.meaning, hmeaning, Meaning.neg_of]

end Expresses

/-- The text of a tree without superfluous groups expresses what the tree means, where that is
defined. -/
theorem Node.expresses_contentText {node : Node} {k : FunctionField}
    (hregular : node.isRegular = true) (hcompact : node.isCompact = true)
    (hmeaning : node.contentMeaning = .of k) : Expresses node.contentText k := by
  have htext : Generates false .sum node.contentText :=
    Generates.sum_of_operand (.unsigned (generates_contentText hregular))
  obtain ⟨e, hsays⟩ := Denotes.exists_of_generates htext
  refine ⟨e, hsays, ?_⟩
  rw [← htext.scanned_eq] at hsays
  obtain ⟨read, hread⟩ := exists_read ⟨node.contentText.scanned.length, 0⟩ node.contentText false
    (Nat.le_refl _)
  have hreads := exists_reads_of_read hread
  rw [htext.scanned_eq] at hreads
  rw [← hmeaning, ← meaning_of_read hread hsays, hreads.eq_remade hregular hcompact, meaning,
    withSign, contentMeaning_mapTag, contentMeaning_remade hregular, Node.sign, tag_mapTag]
  exact Meaning.signed_plus _

/-- **The exact oracle is sound**, at whichever limits it evaluates. -/
theorem Oracle.isSound_exact (limits : Limits) : (Oracle.exact limits).IsSound where
  rationalize := rfl
  equal := by
    intro a b limits' f g ha hb hequal hf hg
    obtain ⟨e, ha⟩ := isExpression_iff_exists_denotes.1 ha
    obtain ⟨e', hb⟩ := isExpression_iff_exists_denotes.1 hb
    rw [exactlyEqual_exact] at hequal
    obtain ⟨f', hf', hequal⟩ := Except.ok_of_bind_eq_ok hequal
    obtain ⟨g', hg', hequal⟩ := Except.ok_of_bind_eq_ok hequal
    obtain ⟨hproperf, hmeaningf⟩ := of_evaluate ha hf
    obtain ⟨hproperf', hmeaningf'⟩ := of_evaluate ha hf'
    obtain ⟨hproperg, hmeaningg⟩ := of_evaluate hb hg
    obtain ⟨hproperg', hmeaningg'⟩ := of_evaluate hb hg'
    rw [RationalFunction.equals_iff hproperf hproperg,
      Meaning.of_injective (hmeaningf.symm.trans hmeaningf'),
      Meaning.of_injective (hmeaningg.symm.trans hmeaningg')]
    exact (RationalFunction.equals_iff hproperf' hproperg').1 (Except.ok.inj hequal)

end EquationSteps
