import EquationSteps.Proofs.Equality.MayReturn
import EquationSteps.Side.Divide

/-!
# What the operations do

What a fraction, a term and a side may come to when they are multiplied or divided, whatever the
answers to the questions about them are. What the operations keep for all answers is proved by these
cases, and no operation is opened for it.

**Reading the cases.** Each lemma takes a possible result of an operation and says how it came
about. The cases are those in which the results are built in different ways, and not those in which
the questions are answered differently: if a factor is found, it does not matter for the shape of
the result which question it was that was affirmed, or how often was asked before. So there are
fewer cases than ways through the operation, and each of them names a term that is built from the
given ones.

**What is lost.** The cases do not say which answers lead to them. For statements about a sound
oracle the answers matter, and `Proofs.Side.Multiply` and `Proofs.Side.Divide` go through the
operations once more with the oracle given. The two kinds of statements do not depend on each other.
-/

namespace EquationSteps

variable {operand : Operand}

namespace Node

variable {term term' numerator denominator : Node}

/-! ### Fractions -/

/-- A node with two parts has these as its children. -/
theorem children_of_parts? (hparts : term.parts? = some (numerator, denominator)) :
    term.children = [numerator, denominator] := by
  unfold parts? at hparts
  split at hparts
  · rename_i heq
    cases hparts
    exact heq
  · cases hparts

/-- Turning the sign of a fraction leaves its parts. -/
theorem parts?_applySign (cancellation : Cancellation) :
    (cancellation.applySign term).parts? = term.parts? := by
  cases cancellation with
  | equal => rfl
  | opposite =>
    show (term.mapTag _).parts? = term.parts?
    rw [parts?, children_mapTag, parts?]

/-! ### Multiplying -/

/-- The numerator of a multiplied fraction stands alone, the denominator loses a factor, or nothing
cancels. In the second case other factors are left in the denominator. -/
theorem of_mayReturn_multiplyFraction
    (h : (term.multiplyFraction operand numerator denominator).MayReturn term') :
    (∃ cancellation : Cancellation, term' =
      (cancellation.applySign term).adoptNumerator numerator) ∨
      (denominator.family? = some .product ∧ ∃ (place : Nat) (cancellation : Cancellation),
        denominator.children.eraseIdx place ≠ [] ∧
          term' = (cancellation.applySign term).withContent
            (.group [numerator, denominator.withChildren (denominator.children.eraseIdx place)])) ∨
      term' = term.multiplyNumerator operand numerator denominator := by
  unfold multiplyFraction at h
  split at h
  · rename_i hproduct
    obtain ⟨found, -, h⟩ := Inquiry.mayReturn_bind_iff.1 h
    dsimp only at h
    split at h
    · rename_i place cancellation
      split at h
      · exact .inl ⟨cancellation, Inquiry.mayReturn_pure_iff.1 h⟩
      · rename_i hnonempty
        exact .inr (.inl ⟨hproduct, place, cancellation,
          fun hnil ↦ hnonempty (List.isEmpty_iff.2 hnil), Inquiry.mayReturn_pure_iff.1 h⟩)
    · obtain ⟨compared, -, h⟩ := Inquiry.mayReturn_bind_iff.1 h
      cases compared with
      | some cancellation => exact .inl ⟨cancellation, Inquiry.mayReturn_pure_iff.1 h⟩
      | none => exact .inr (.inr (Inquiry.mayReturn_pure_iff.1 h))
  · obtain ⟨found, hfound, h⟩ := Inquiry.mayReturn_bind_iff.1 h
    obtain rfl := Inquiry.mayReturn_pure_iff.1 hfound
    obtain ⟨compared, -, h⟩ := Inquiry.mayReturn_bind_iff.1 h
    cases compared with
    | some cancellation => exact .inl ⟨cancellation, Inquiry.mayReturn_pure_iff.1 h⟩
    | none => exact .inr (.inr (Inquiry.mayReturn_pure_iff.1 h))

/-- A multiplied term stays if it is zero, its fraction is multiplied, or the factor is appended. -/
theorem of_mayReturn_multiplyTerm (h : (term.multiplyTerm operand).MayReturn term') :
    (term.isZeroAtom = true ∧ term' = term) ∨
      (term.family? = some .quotient ∧ ∃ numerator denominator,
        term.parts? = some (numerator, denominator) ∧
          (term.multiplyFraction operand numerator denominator).MayReturn term') ∨
      term' = term.appendFactor (operand.node .times) := by
  unfold multiplyTerm at h
  split at h
  · rename_i hzero
    exact .inl ⟨hzero, Inquiry.mayReturn_pure_iff.1 h⟩
  · split at h
    · rename_i hquotient
      split at h
      · rename_i numerator denominator hparts
        exact .inr (.inl ⟨hquotient, numerator, denominator, hparts, h⟩)
      · exact .inr (.inr (Inquiry.mayReturn_pure_iff.1 h))
    · exact .inr (.inr (Inquiry.mayReturn_pure_iff.1 h))

/-! ### Dividing -/

/-- A divided product loses a factor, or nothing cancels. -/
theorem of_mayReturn_divideProduct (h : (term.divideProduct operand).MayReturn term') :
    (∃ (place : Nat) (cancellation : Cancellation),
      term' = cancellation.applySign (term.withoutFactor place)) ∨
      term' = term.reduceOrDivide operand := by
  obtain ⟨found, -, h⟩ := Inquiry.mayReturn_bind_iff.1 h
  split at h
  · rename_i place cancellation
    exact .inl ⟨place, cancellation, Inquiry.mayReturn_pure_iff.1 h⟩
  · exact .inr (Inquiry.mayReturn_pure_iff.1 h)

/-- The numerator of a divided fraction cancels, a factor of it does, or nothing does. -/
theorem of_mayReturn_divideFraction
    (h : (term.divideFraction operand numerator denominator).MayReturn term') :
    (∃ cancellation : Cancellation, term' = cancellation.applySign
        (term.withContent (.group [numerator.cancelled, denominator]))) ∨
      (numerator.family? = some .product ∧ ∃ (place : Nat) (cancellation : Cancellation),
        term' = cancellation.applySign
          (term.withContent (.group [numerator.withoutFactor place, denominator]))) ∨
      term' = term.divideDenominator operand numerator denominator := by
  unfold divideFraction at h
  split at h
  · rename_i hproduct
    obtain ⟨found, -, h⟩ := Inquiry.mayReturn_bind_iff.1 h
    obtain ⟨compared, -, h⟩ := Inquiry.mayReturn_bind_iff.1 h
    cases compared with
    | some cancellation => exact .inl ⟨cancellation, Inquiry.mayReturn_pure_iff.1 h⟩
    | none =>
      cases found with
      | some cancelled =>
        exact .inr (.inl ⟨hproduct, cancelled.1, cancelled.2, Inquiry.mayReturn_pure_iff.1 h⟩)
      | none => exact .inr (.inr (Inquiry.mayReturn_pure_iff.1 h))
  · obtain ⟨found, hfound, h⟩ := Inquiry.mayReturn_bind_iff.1 h
    obtain rfl := Inquiry.mayReturn_pure_iff.1 hfound
    obtain ⟨compared, -, h⟩ := Inquiry.mayReturn_bind_iff.1 h
    cases compared with
    | some cancellation => exact .inl ⟨cancellation, Inquiry.mayReturn_pure_iff.1 h⟩
    | none => exact .inr (.inr (Inquiry.mayReturn_pure_iff.1 h))

/-- A divided term stays if it is the leaf `0`, it cancels as a whole, it is divided as the product
or the fraction that it is, or it becomes a fraction. A sum or a leaf is put over the divisor, or
reduced with it. -/
theorem of_mayReturn_divideTerm (h : (term.divideTerm operand).MayReturn term') :
    (term.isZeroAtom = true ∧ term' = term) ∨
      (∃ cancellation : Cancellation, term' = cancellation.applySign term.cancelled) ∨
      (term.family? = some .product ∧ (term.divideProduct operand).MayReturn term') ∨
      (term.family? = some .quotient ∧ ∃ numerator denominator,
        term.parts? = some (numerator, denominator) ∧
          (term.divideFraction operand numerator denominator).MayReturn term') ∨
      term' = term.intoQuotient (operand.node .divide) ∨ term' = term.reduceOrDivide operand := by
  unfold divideTerm at h
  split at h
  · rename_i hzero
    exact .inl ⟨hzero, Inquiry.mayReturn_pure_iff.1 h⟩
  obtain ⟨compared, -, h⟩ := Inquiry.mayReturn_bind_iff.1 h
  split at h
  · rename_i cancellation
    exact .inr (.inl ⟨cancellation, Inquiry.mayReturn_pure_iff.1 h⟩)
  refine .inr (.inr ?_)
  split at h
  · rename_i hproduct
    exact .inl ⟨hproduct, h⟩
  · rename_i hquotient
    split at h
    · rename_i numerator denominator hparts
      exact .inr (.inl ⟨hquotient, numerator, denominator, hparts, h⟩)
    · exact .inr (.inr (.inl (Inquiry.mayReturn_pure_iff.1 h)))
  · exact .inr (.inr (.inr (Inquiry.mayReturn_pure_iff.1 h)))
  · exact .inr (.inr (.inr (Inquiry.mayReturn_pure_iff.1 h)))

end Node

/-! ### The side -/

variable {onTerm : Operand → Node → Inquiry Node} {rationalize : Text → Except ValueError Text}
  {limits : Limits} {text : Text} {side side' : Node}

/-- The sign of an operand acts on each child of a side, and then, if it is no unit, the operation
acts on each of them. The questions about one child do not depend on the answers about another. -/
theorem Operand.of_mayReturn_applyTo (h : (operand.applyTo onTerm side).MayReturn side') :
    side' = side.withChildren (side.children.map operand.applySign) ∨
      ∃ terms, side' = side.withChildren terms ∧
        List.Forall₂ (fun term term' ↦ (onTerm operand term).MayReturn term')
          (side.children.map operand.applySign) terms := by
  unfold applyTo at h
  dsimp only at h
  split at h
  · exact .inl (Inquiry.mayReturn_pure_iff.1 h)
  · obtain ⟨terms, hterms, h⟩ := Inquiry.mayReturn_bind_iff.1 h
    exact .inr ⟨terms, Inquiry.mayReturn_pure_iff.1 h, hterms.forall₂⟩

/-- An operation fails with the operand and leaves the side, or it applies the operand and
normalizes. Normalizing may fail in its turn, and then the side is left as far as it came. -/
theorem of_mayReturn_transformSide {result : Except TreeError Unit}
    (h : (transformSide onTerm rationalize limits text side).MayReturn (result, side')) :
    ((∃ cause, Operand.read rationalize limits text = .error cause ∧ result = .error cause) ∧
        side' = side) ∨
      ∃ operand applied, Operand.read rationalize limits text = .ok operand ∧
        (operand.applyTo onTerm side).MayReturn applied ∧
          result = (applied.normalize rationalize limits).1.map (fun _ ↦ ()) ∧
            side' = (applied.normalize rationalize limits).2 := by
  unfold transformSide at h
  split at h
  · rename_i cause hread
    cases Inquiry.mayReturn_pure_iff.1 h
    exact .inl ⟨⟨cause, hread, rfl⟩, rfl⟩
  · rename_i operand hread
    obtain ⟨applied, happlied, h⟩ := Inquiry.mayReturn_bind_iff.1 h
    obtain ⟨hresult, hside⟩ := Prod.mk.inj (Inquiry.mayReturn_pure_iff.1 h)
    exact .inr ⟨operand, applied, hread, happlied, hresult, hside⟩

end EquationSteps
