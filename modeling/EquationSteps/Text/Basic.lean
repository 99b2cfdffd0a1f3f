/-!
# Texts

Expressions, equations and decimal literals are handled as lists of characters, so that reading
and printing are recursions on the data. Besides the type this module has the two list operations
that several modules share: cutting a text in two at a character, and the character classes of
operands.
-/

namespace EquationSteps

/-- A text is the list of its characters. -/
abbrev Text := List Char

namespace Text

/-- The parts of a text before and after the first place where `mark` stands, if there is one. -/
def cut? (mark : Char) : Text → Option (Text × Text)
  | [] => none
  | c :: rest =>
    if c = mark then some ([], rest)
    else (cut? mark rest).map fun parts ↦ (c :: parts.1, parts.2)

/-- A text is a variable when it is one ASCII letter. -/
def isVariable : Text → Bool
  | [c] => c.isAlpha
  | _ => false

/-- Cutting loses nothing but the mark, and the first part is free of it. -/
theorem eq_of_cut?_eq_some {mark : Char} {text left right : Text}
    (h : cut? mark text = some (left, right)) : text = left ++ mark :: right ∧ mark ∉ left := by
  induction text generalizing left with
  | nil => simp [cut?] at h
  | cons c rest ih =>
    by_cases hc : c = mark
    · simp only [cut?, hc, if_true, Option.some.injEq, Prod.mk.injEq] at h
      obtain ⟨rfl, rfl⟩ := h
      simp [hc]
    · simp only [cut?, hc, if_false, Option.map_eq_some_iff] at h
      obtain ⟨⟨l, r⟩, hcut, hparts⟩ := h
      simp only [Prod.mk.injEq] at hparts
      obtain ⟨rfl, rfl⟩ := hparts
      obtain ⟨rfl, hl⟩ := ih hcut
      exact ⟨rfl, by simp [hl, Ne.symm hc]⟩

/-- A text is cut at a mark where nothing before it is the mark. -/
theorem cut?_append {mark : Char} {left : Text} (h : mark ∉ left) (right : Text) :
    cut? mark (left ++ mark :: right) = some (left, right) := by
  induction left with
  | nil => simp [cut?]
  | cons c left ih =>
    have hc : c ≠ mark := Ne.symm (List.ne_of_not_mem_cons h)
    rw [List.cons_append, cut?, if_neg hc, ih (List.not_mem_of_not_mem_cons h)]
    rfl

/-- A text without the mark cannot be cut at it. -/
theorem cut?_eq_none_iff {mark : Char} {text : Text} : cut? mark text = none ↔ mark ∉ text := by
  induction text with
  | nil => simp [cut?]
  | cons c rest ih =>
    by_cases hc : c = mark
    · simp [cut?, hc]
    · simp [cut?, hc, ih, Ne.symm hc]

end Text

end EquationSteps
