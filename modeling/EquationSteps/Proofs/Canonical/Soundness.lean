import EquationSteps.Proofs.Canonical.Rest

/-!
# Normalization is sound

**Soundness of normalization** (`Node.normalize_sound`): a well-formed tree in which only terms are
pending is still well-formed once it is normalized, has an equal rational function as its value, and
has none by a division by zero exactly if it had none before.

A well-formed root holds terms, so it is not the one that normalization may empty.

The theorem is assembled from three parts. That the tree keeps its meaning comes from the rules, one
by one, and the induction over passes (`Node.keeps_normalize`). That it is well-formed again comes
from where normalization comes to rest: no rule applies any more, so no group is left empty and no
root without terms (`Node.isWellFormed_of_isShaped`). And a meaning is the value as an element of
the function field, or says that there is none, so equal meanings are equal values and equal
failures.

The limit on passes appears in the hypothesis alone: the statement is about every normalization that
settles, after however many passes.
-/

namespace EquationSteps.Node

variable {rationalize : Text → Except ValueError Text} {node node' : Node}

/-- The operands of a well-formed root are terms. -/
theorem family?_of_isWellFormed (h : node.isWellFormed = true) (hroot : node.isRoot = true)
    {family : Family} (hfamily : node.family? = some family) : family = .sum := by
  cases node with
  | atom tag text => cases hfamily
  | group tag children =>
    have htag : tag.root = true := hroot
    have hadditive : ∀ child ∈ children, child.sign.isAdditive = true := by
      simp only [isWellFormed, htag, Bool.not_true, Bool.false_or, Bool.and_eq_true,
        List.all_eq_true] at h
      exact h.2.2
    exact family?_of_isAdditive hadditive hfamily

/-- A shaped tree is well-formed if no rule applies to it and a root holds nothing but terms. -/
theorem isWellFormed_of_isShaped (hshaped : node.isShaped = true)
    (hidle : node.IsIdle rationalize)
    (hfamily : node.isRoot = true → ∀ family, node.family? = some family → family = .sum) :
    node.isWellFormed = true := by
  cases node with
  | atom tag text => exact hshaped
  | group tag children =>
    obtain ⟨hchain, hregular, hsign⟩ := isShaped_group_iff.1 hshaped
    have hchain : isChain children = true := by
      rcases hchain with hchain | ⟨hroot, rfl⟩
      · exact hchain
      · have hfill : (group tag []).fillRoot? = some ((group tag []).withContent
            (.group [zeroTerm])) := by
          have htag : (group tag []).isRoot = true := hroot
          rw [fillRoot?, htag]
          rfl
        cases hfill.symm.trans hidle.fillRoot
    have hregular : areRegular children = true := areRegular_iff.2 hregular
    have hroot : (!tag.root || tag.sign == .plus && children.all fun child ↦
        child.sign.isAdditive) = true := by
      cases hmark : tag.root with
      | false => rfl
      | true =>
        obtain ⟨family, hsome⟩ : ∃ family, (group tag children).family? = some family :=
          exists_family?_of_isChain hchain
        obtain rfl := hfamily hmark family hsome
        have hadditive := isAdditive_of_isShaped hshaped hsome
        simpa [hsign hmark] using hadditive
    rw [isWellFormed, hchain, hregular, hroot]
    rfl

/-- **Soundness of normalization.** A well-formed tree in which only children of sums are pending is
normalized to a well-formed tree with an equal value, which divides by zero exactly if the tree did
before. -/
theorem normalize_sound {limits : Limits} {passes : Nat} (hnode : node.isWellFormed = true)
    (hmarks : node.marksInSums = true)
    (h : node.normalize Oracle.exactFraction limits = (.ok passes, node')) :
    node'.isWellFormed = true ∧
      (∀ f, node.value = .ok f → ∃ g, node'.value = .ok g ∧ g.equals f = true) ∧
        (node'.value = .error .divisionByZero ↔ node.value = .error .divisionByZero) := by
  have hshaped := isShaped_of_isWellFormed hnode
  have hkeeps : node.Keeps node' := by
    rcases keeps_normalize isFaithful_exactFraction hshaped hmarks h with hkeeps | hemptied
    · exact hkeeps
    · cases family?_of_isWellFormed hnode hemptied.root hemptied.family
  have hcanonical := isCanonical_of_settles (everyTagBelow_of_isShaped hshaped) h
  have hnode' : node'.isWellFormed = true := by
    refine isWellFormed_of_isShaped hkeeps.shaped (isCanonical_iff.1 hcanonical).1 ?_
    intro hroot family hfamily
    have hroot := hkeeps.root.symm.trans hroot
    refine Decidable.byContradiction fun hne ↦ hne ?_
    exact family?_of_isWellFormed hnode hroot (hkeeps.rootFamily hroot family hne hfamily)
  refine ⟨hnode', fun f hvalue ↦ (meaning_eq_iff hvalue).1 hkeeps.meaning, ?_⟩
  rw [← meaning_eq_undefined_iff (isValid_of_isWellFormed hnode'),
    ← meaning_eq_undefined_iff (isValid_of_isWellFormed hnode), hkeeps.meaning]

/-- The side `0-1*x`, of which the `0` is pending. -/
def pendingZero : Node :=
  .group ⟨none, .plus, true, false⟩ [.atom ⟨none, .plus, false, true⟩ ['0'],
    branch .minus [leaf .times ['1'], leaf .times ['x']]]

/-- The zero is dropped as a filler and the one as a factor, and the difference closes up to a
single term. -/
theorem normalize_sound_pendingZero :
    (pendingZero.normalize Oracle.exactFraction .standard).2.toText = ['-', 'x'] ∧
      (pendingZero.normalize Oracle.exactFraction .standard).2.isWellFormed = true ∧
        (∀ f, pendingZero.value = .ok f → ∃ g,
          (pendingZero.normalize Oracle.exactFraction .standard).2.value = .ok g ∧
            g.equals f = true) := by
  have hsettled : (pendingZero.normalize Oracle.exactFraction .standard).1 = .ok 2 := by
    decide +kernel
  have htext : (pendingZero.normalize Oracle.exactFraction .standard).2.toText = ['-', 'x'] := by
    decide +kernel
  cases hnormalize : pendingZero.normalize Oracle.exactFraction .standard with
  | mk result node =>
    rw [hnormalize] at hsettled htext
    obtain rfl : result = .ok 2 := hsettled
    obtain ⟨hwellFormed, hvalue, -⟩ := normalize_sound (by decide) (by decide) hnormalize
    exact ⟨htext, hwellFormed, hvalue⟩

end EquationSteps.Node
