import EquationSteps.Proofs.Canonical.Symbols
import EquationSteps.Proofs.Equation.Soundness

/-!
# Typed equations

A typed equation is checked when both sides have been read as roots and normalized, so what is seen
of the text is what normalization leaves of it. Its letters are all there and nothing malformed is
repaired (`Node.letters_normalize`, `Node.isValid_normalize`), so an equation that is accepted has
exactly the letters of the text, and a side of it is generated by the grammar unless nothing was
read of it (`ReadsRoot.generates`).

A side of blanks alone is refused beforehand. What is left is the side `()`: the reader finds
nothing within the parentheses and makes an empty root of it, to which normalization adds the term
`0`. Read as an operand the same text is not valid. This is the only difference
(`Equation.of_ofTyped`).

**Reading as a root and as an operand** differ in what is stripped and in where products are put,
but not in which texts are generated. A side that is read as a root and valid is generated by the
grammar, or nothing was read of it; and a text that is generated is valid when read as an operand.
The limits of the two readings may differ: what is valid does not depend on them, only whether there
is a tree.

The exception is found among texts by going back through scanning. Nothing is read of a text if
stripping parentheses leaves nothing, and for a text that is not blank that means a pair of
parentheses with blanks inside or around (`stripParentheses_scanned_eq_nil_iff`).
-/

namespace EquationSteps

/-! ### Nothing to read

What the text must look like if nothing is left of it once it is scanned and stripped. -/

/-- Stripping leaves nothing of the empty text and of an empty pair of parentheses. -/
theorem stripParentheses_eq_nil_iff {text : Text} :
    stripParentheses text = [] ↔ text = [] ∨ text = ['(', ')'] := by
  constructor
  · intro h
    by_cases hne : stripParentheses text = text
    · exact Or.inl (hne.symm.trans h)
    · have hparentheses := (of_stripParentheses_ne hne).1
      rw [h] at hparentheses
      exact Or.inr hparentheses
  · rintro (rfl | rfl) <;> rfl

/-- Writing out products leaves something of every text that is not empty. -/
theorem explicitProducts_ne_nil {text : Text} (h : text ≠ []) : explicitProducts text ≠ [] := by
  cases text with
  | nil => exact absurd rfl h
  | cons c rest =>
    obtain ⟨tail, htail⟩ := explicitProducts_cons c rest
    rw [htail]
    exact List.cons_ne_nil _ _

/-- An empty pair of parentheses has no product to write out, so it was there before. -/
theorem eq_of_explicitProducts_eq {text : Text} (h : explicitProducts text = ['(', ')']) :
    text = ['(', ')'] := by
  match text with
  | [] => cases h
  | [c] => cases h
  | [c, d] =>
    rw [explicitProducts] at h
    split at h
    · cases h
    · exact h
  | c :: d :: e :: rest =>
    rw [explicitProducts] at h
    split at h
    · cases h
    · have htail := (List.cons.inj h).2
      rw [explicitProducts] at htail
      split at htail
      · cases htail
      · exact absurd (List.cons.inj htail).2 (explicitProducts_ne_nil (List.cons_ne_nil _ _))

/-- Nothing is read of a text that is not blank only if it is an empty pair of parentheses. -/
theorem stripParentheses_scanned_eq_nil_iff {text : Text} (hblank : text.isBlank = false) :
    stripParentheses text.scanned = [] ↔ text.withoutBlanks = ['(', ')'] := by
  have hne : text.withoutBlanks ≠ [] := by
    intro hnil
    rw [Text.withoutBlanks, List.filter_eq_nil_iff] at hnil
    rw [Text.isBlank, Bool.eq_false_iff, ne_eq, List.all_eq_true] at hblank
    exact hblank fun c hmem ↦ by simpa using hnil c hmem
  rw [stripParentheses_eq_nil_iff, Text.scanned]
  constructor
  · rintro (hnil | hparentheses)
    · exact absurd hnil (explicitProducts_ne_nil hne)
    · exact eq_of_explicitProducts_eq hparentheses
  · intro hparentheses
    rw [hparentheses]
    exact Or.inr rfl

/-- An empty pair of parentheses is not generated. -/
theorem stripParentheses_ne_nil {lenient : Bool} {text : Text} (h : Generates lenient .sum text) :
    stripParentheses text ≠ [] := by
  intro hnil
  have hempty := h.stripParentheses
  rw [hnil] at hempty
  cases hempty.isOperandText rfl

/-! ### Sides

A valid side, its text, and the same text as an operand. -/

namespace Node

variable {rationalize : Text → Except ValueError Text} {limits limits' : Limits} {text : Text}
  {root side node : Node} {passes : Nat}

/-- **A side that is valid once it is read and normalized** is a text that is valid by itself,
unless it is an empty pair of parentheses. -/
theorem isValid_of_side (hnumeric : IsNumeric rationalize) (hblank : text.isBlank = false)
    (hroot : read limits text true = .ok root)
    (hside : root.normalize rationalize limits = (.ok passes, side)) (hvalid : side.isValid = true)
    (hnode : read limits' text false = .ok node) :
    node.isValid = true ↔ text.withoutBlanks ≠ ['(', ')'] := by
  have hread : root.isValid = true := by
    have hsame := isValid_normalize hnumeric limits root
    rw [hside] at hsame
    exact hsame.symm.trans hvalid
  obtain ⟨inner, rfl, hbuild⟩ := exists_of_read hroot
  have hinner : inner.isValid = true := by
    cases inner <;> exact hread
  rw [generates_iff_of_read hnode, ne_eq, ← stripParentheses_scanned_eq_nil_iff hblank]
  exact ⟨stripParentheses_ne_nil, ((ReadsRoot.of_build hbuild).generates hinner).resolve_left⟩

end Node

/-! ### Equations

A typed text is cut at its only sign of equality, and each part is a side. -/

namespace Equation

variable {equation : Equation} {text left right : Text}

/-- The letters of an equation are those of the texts of its sides. Normalization drops no letter,
as the ones and zeros that it drops have none, and an answer for a literal has none either. -/
theorem letters_of_ofSides {limits : Limits} {oracle : Oracle}
    (hnumeric : Node.IsNumeric oracle.rationalize)
    (h : ofSides limits oracle left right = .ok equation) :
    equation.left.letters = Text.letters left ∧ equation.right.letters = Text.letters right := by
  have hside : ∀ {text : Text} {read side : Node} {passes : Nat},
      Node.read limits text true = .ok read →
        read.normalize oracle.rationalize limits = (.ok passes, side) →
          side.letters = Text.letters text := by
    intro text read side passes hread hnormalize
    have hsame := Node.letters_normalize hnumeric limits read
    rwa [hnormalize, Node.letters_of_read hread] at hsame
  obtain ⟨-, -, ⟨leftRead, leftPasses, hleftRead, hleft⟩,
    rightRead, rightPasses, hrightRead, hright⟩ := exists_of_ofSides h
  exact ⟨hside hleftRead hleft, hside hrightRead hright⟩

/-- What a typed text has to be for an equation to be built from it. These are the conditions that
are checked before and after the equation is built, one after the other. -/
theorem exists_of_ofTyped (h : ofTyped text = .ok equation) : ∃ left right,
    text = left ++ '=' :: right ∧ '=' ∉ left ∧ '=' ∉ right ∧
      Text.isBlank left = false ∧ Text.isBlank right = false ∧
        illegalCharacters text true = [] ∧ Equation.new left right = .ok equation ∧
          equation.typedErrors = [] := by
  unfold ofTyped at h
  split at h
  · cases h
  · split at h
    · cases h
    · rename_i hlegal
      split at h
      · cases h
      · rename_i left right hsides
        unfold typedSides? at hsides
        split at hsides
        · rename_i left' right' hcut
          split at hsides
          · cases hsides
          · rename_i hsound
            cases hsides
            obtain ⟨htext, hleft⟩ := Text.eq_of_cut?_eq_some hcut
            rw [Bool.or_eq_true, Bool.or_eq_true, not_or, not_or, Bool.not_eq_true,
              Bool.not_eq_true, List.contains_iff_mem] at hsound
            split at h
            · cases h
            · rename_i built hbuilt
              split at h
              · rename_i herrors
                cases h
                exact ⟨left, right, htext, hleft, hsound.2, hsound.1.1, hsound.1.2, hlegal, hbuilt,
                  herrors⟩
              · cases h
        · cases hsides

/-- **What is accepted as a typed equation**, for every text. There is one sign of equality in it,
and one letter, and nothing but legal characters; the equation is valid and has the letter as its
only variable. What stands on either side, read as an operand under any limits, is valid, unless it
is an empty pair of parentheses. -/
theorem of_ofTyped (h : ofTyped text = .ok equation) : ∃ left right letter,
    text = left ++ '=' :: right ∧ '=' ∉ left ∧ '=' ∉ right ∧
      (∀ c ∈ text, isLegal c = true ∨ c = '=') ∧
      (∀ c, c.isAlpha = true ∧ c ∈ text ↔ c = letter) ∧
      equation.isValid = true ∧ equation.variableNames = [letter] ∧
      ∀ side ∈ [left, right], ∀ limits node, Node.read limits side false = .ok node →
        (node.isValid = true ↔ side.withoutBlanks ≠ ['(', ')']) := by
  obtain ⟨left, right, rfl, hleft, hright, hleftBlank, hrightBlank, hlegal, hbuilt, herrors⟩ :=
    exists_of_ofTyped h
  obtain ⟨hletters, hvalid⟩ := List.append_eq_nil_iff.1 herrors
  have hcount : equation.variableNames.length = 1 := by
    by_contra hne
    rw [if_neg hne] at hletters
    cases hletters
  have hvalid : (equation.left.isValid && equation.right.isValid) = true := by
    by_contra hne
    rw [if_neg hne] at hvalid
    cases hvalid
  obtain ⟨hleftValid, hrightValid⟩ := Bool.and_eq_true_iff.1 hvalid
  obtain ⟨letter, hletter⟩ := List.length_eq_one_iff.1 hcount
  refine ⟨left, right, letter, rfl, hleft, hright, fun c hmem ↦ ?_, fun c ↦ ?_, ?_, hletter, ?_⟩
  · rw [illegalCharacters, List.eq_nil_iff_forall_not_mem] at hlegal
    by_contra hne
    refine hlegal c (List.mem_eraseDups.2 (List.mem_filter.2 ⟨hmem, ?_⟩))
    simpa [not_or] using hne
  -- the variables of the equation are the letters of the text
  · obtain ⟨hleftLetters, hrightLetters⟩ := letters_of_ofSides Node.isNumeric_exactFraction hbuilt
    have hletters : Text.letters (left ++ '=' :: right) = equation.left.letters ++
        equation.right.letters := by
      rw [hleftLetters, hrightLetters, Text.letters_append,
        Text.letters_cons_of_not_isAlpha (by decide)]
    have hmem : c ∈ equation.variableNames ↔ c ∈ Text.letters (left ++ '=' :: right) := by
      rw [hletters, variableNames, List.mem_eraseDups]
    rw [hletter, List.mem_singleton, Text.letters, List.mem_filter] at hmem
    rw [hmem, and_comm]
  · rw [isValid, hvalid, hcount]
    rfl
  · obtain ⟨-, -, ⟨leftRead, leftPasses, hleftRead, hleftSide⟩,
      rightRead, rightPasses, hrightRead, hrightSide⟩ := exists_of_ofSides hbuilt
    refine List.forall_mem_cons.2 ⟨fun limits node hnode ↦ ?_,
      List.forall_mem_singleton.2 fun limits node hnode ↦ ?_⟩
    · exact Node.isValid_of_side Node.isNumeric_exactFraction hleftBlank hleftRead hleftSide
        hleftValid hnode
    · exact Node.isValid_of_side Node.isNumeric_exactFraction hrightBlank hrightRead
        hrightSide hrightValid
        hnode

/-- `2x=1` is accepted, and both of its sides are valid by themselves. -/
theorem of_ofTyped_product : ∃ (equation : Equation) (left right : Text) (letter : Char),
    ofTyped "2x=1".toList = .ok equation ∧ "2x=1".toList = left ++ '=' :: right ∧
      equation.variableNames = [letter] ∧ (∀ c, c.isAlpha = true ∧ c ∈ "2x=1".toList ↔ c = letter) ∧
      ∀ side ∈ [left, right], ∀ limits node, Node.read limits side false = .ok node →
        (node.isValid = true ↔ side.withoutBlanks ≠ ['(', ')']) := by
  have hfacts : (ofTyped "2x=1".toList).toOption.map (fun _ ↦ decide True) = some true := by
    decide +kernel
  obtain ⟨equation, htyped, -⟩ := Except.exists_ok_of_toOption hfacts
  obtain ⟨left, right, letter, htext, -, -, -, hletter, -, hvariables, hsides⟩ := of_ofTyped htyped
  exact ⟨equation, left, right, letter, htyped, htext, hvariables, hletter, hsides⟩

/-- `x=()` is accepted, although `()` is not valid by itself. -/
theorem not_isValid_parentheses : ∃ equation node, ofTyped "x=()".toList = .ok equation ∧
    Node.read equation.limits "()".toList false = .ok node ∧ node.isValid = false := by
  have hfacts : (ofTyped "x=()".toList).toOption.map (fun equation ↦ decide
      ((Node.read equation.limits "()".toList false).toOption.map (fun node ↦ decide
        (node.isValid = false)) = some true)) = some true := by
    decide +kernel
  obtain ⟨equation, htyped, hfacts⟩ := Except.exists_ok_of_toOption hfacts
  obtain ⟨node, hread, hvalid⟩ := Except.exists_ok_of_toOption hfacts
  exact ⟨equation, node, htyped, hread, hvalid⟩

end Equation

end EquationSteps
