import EquationSteps.Proofs.Equality.Soundness
import EquationSteps.Side.Cancellation

/-!
# What is confirmed cancels

A cancellation is found by asking whether texts are equal or opposite. With a sound oracle it says
what it claims to say: the text expresses the operand's function, or its negation
(`Cancellation.of_compare`, `Cancellation.of_find?`). Questions that fail and questions that are
denied say nothing, so no more is ever concluded from an answer than that.

**Only one direction.** What is not found may still cancel. A sound oracle may deny what is true,
and an answer that is no answer counts as a denial. The operations are right in either case, they
just grow the tree where they could have made it smaller. Where it matters that a cancellation *is*
found, as for integers, the question has to be shown to be answered, and that is done in
`Proofs.Side.Integer`.

**Cancelling up to a sign.** Both outcomes are treated alike. `Cancellation.apply` is the identity
or the negation, it is its own inverse, and it may be moved from one factor of a product to another
(`Cancellation.apply_mul`, `Cancellation.mul_apply`). So when something cancels, the term gets the
sign that the operand had too much, and the sign is on one side or on the other as it suits.
-/

namespace EquationSteps.Cancellation

variable {oracle : Oracle} {text operand : Text} {k l : FunctionField}
  {cancellation : Cancellation} {m n : Meaning}

/-! ### Meanings

The laws of the sign that is left over. -/

/-- The meaning itself, or its negation. -/
noncomputable def apply (cancellation : Cancellation) (m : Meaning) : Meaning :=
  match cancellation with
  | equal => m
  | opposite => -m

/-- Turning a sign twice changes nothing. -/
theorem apply_apply (cancellation : Cancellation) (m : Meaning) :
    cancellation.apply (cancellation.apply m) = m := by
  cases cancellation with
  | equal => rfl
  | opposite => exact neg_neg m

/-- The sign of a product may be on the first factor, -/
theorem apply_mul (cancellation : Cancellation) (m n : Meaning) :
    cancellation.apply m * n = cancellation.apply (m * n) := by
  cases cancellation with
  | equal => rfl
  | opposite => exact neg_mul m n

/-- or on the second. -/
theorem mul_apply (cancellation : Cancellation) (m n : Meaning) :
    m * cancellation.apply n = cancellation.apply (m * n) := by
  rw [mul_comm, apply_mul, mul_comm]

/-- Two signs cancel. -/
theorem apply_mul_apply (cancellation : Cancellation) (m n : Meaning) :
    cancellation.apply m * cancellation.apply n = m * n := by
  rw [apply_mul, mul_apply, apply_apply]

/-- A term whose sign turns with a cancellation. -/
theorem meaning_applySign {term : Node} (h : term.sign.isAdditive = true) :
    (cancellation.applySign term).meaning = cancellation.apply term.meaning := by
  cases cancellation with
  | equal => rfl
  | opposite => exact Node.meaning_flipSign h

/-! ### Questions

What may be concluded from an affirmative answer. The texts that are asked about have to express
something, since the oracle is sound about those only. -/

/-- Nothing but an affirmative answer confirms. -/
theorem confirmed_iff {answer : Except ValueError Bool} :
    confirmed answer = true ↔ answer = .ok true := by
  cases answer <;> simp [confirmed]

variable (hsound : oracle.IsSound) (hoperand : Expresses operand l)

include hsound hoperand

/-- A text that is confirmed to be equal expresses the same function. -/
theorem of_isEqual (htext : Expresses text k)
    (h : (isEqual text operand).answeredBy oracle = true) : k = l := by
  unfold isEqual at h
  split at h
  · rename_i hsame
    subst hsame
    exact htext.unique hoperand
  · simp only [Inquiry.answeredBy_bind, Inquiry.answeredBy_equal, Inquiry.answeredBy_pure,
      confirmed_iff] at h
    exact htext.eq_of_exactlyEqual hsound hoperand h

/-- A text that is confirmed to be opposite expresses the negation. -/
theorem of_isOpposite (htext : Expresses text k)
    (h : (isOpposite text operand).answeredBy oracle = true) : k = -l := by
  simp only [isOpposite, Inquiry.answeredBy_bind, Inquiry.answeredBy_opposite,
    Inquiry.answeredBy_pure, confirmed_iff] at h
  exact htext.eq_of_exactlyEqual hsound hoperand.negatedText h

/-- **A text that cancels** expresses the operand's function or its negation. It was asked about
equality first, but of the two answers only the affirmed one is used. -/
theorem of_compare (htext : Expresses text k)
    (h : (compare text operand).answeredBy oracle = some cancellation) :
    Meaning.of k = cancellation.apply (.of l) := by
  rw [compare, Inquiry.answeredBy_bind] at h
  split at h
  · rename_i hequal
    cases h
    exact congrArg Meaning.of (of_isEqual hsound hoperand htext hequal)
  · rw [Inquiry.answeredBy_bind] at h
    split at h
    · rename_i hopposite
      cases h
      exact congrArg Meaning.of (of_isOpposite hsound hoperand htext hopposite)
    · cases h

omit hsound hoperand in
/-- The place that is found is one whose text passes the test. -/
theorem of_position? {test : Text → Inquiry Bool} {texts : List Text} {place : Nat}
    (h : (position? test texts).answeredBy oracle = some place) :
    ∃ text, texts[place]? = some text ∧ (test text).answeredBy oracle = true := by
  induction texts generalizing place with
  | nil => cases h
  | cons text texts ih =>
    rw [position?, Inquiry.answeredBy_bind] at h
    split at h
    · rename_i hpasses
      cases h
      exact ⟨text, rfl, hpasses⟩
    · rw [Inquiry.answeredBy_bind, Inquiry.answeredBy_pure, Option.map_eq_some_iff] at h
      obtain ⟨place, hplace, rfl⟩ := h
      obtain ⟨text, htext, hpasses⟩ := ih hplace
      exact ⟨text, by rw [List.getElem?_cons_succ, htext], hpasses⟩

/-- **The node that is found cancels.** Of the nodes before it nothing is known, as a question about
one of them may have been denied or left without an answer. -/
theorem of_find? {candidates : List Node} {place : Nat}
    (h : (find? candidates operand).answeredBy oracle = some (place, cancellation)) :
    ∃ node, candidates[place]? = some node ∧
      ∀ k, Expresses node.contentText k → Meaning.of k = cancellation.apply (.of l) := by
  have hnode : ∀ {place text}, (candidates.map Node.contentText)[place]? = some text →
      ∃ node : Node, candidates[place]? = some node ∧ node.contentText = text := fun h ↦ by
    rw [List.getElem?_map] at h
    exact Option.map_eq_some_iff.1 h
  rw [find?, Inquiry.answeredBy_bind] at h
  split at h
  · rename_i found hfound
    cases h
    obtain ⟨text, htext, hequal⟩ := of_position? hfound
    obtain ⟨node, hplace, rfl⟩ := hnode htext
    exact ⟨node, hplace, fun k hk ↦ congrArg Meaning.of (of_isEqual hsound hoperand hk hequal)⟩
  · rw [Inquiry.answeredBy_bind, Inquiry.answeredBy_pure, Option.map_eq_some_iff] at h
    obtain ⟨found, hfound, hpair⟩ := h
    cases hpair
    obtain ⟨text, htext, hopposite⟩ := of_position? hfound
    obtain ⟨node, hplace, rfl⟩ := hnode htext
    exact ⟨node, hplace, fun k hk ↦
      congrArg Meaning.of (of_isOpposite hsound hoperand hk hopposite)⟩

end EquationSteps.Cancellation
