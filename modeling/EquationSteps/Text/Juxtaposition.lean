import EquationSteps.Text.Basic

/-!
# Juxtaposition

Two operands that stand side by side are multiplied: `2x(y)` reads as `2*x*(y)`. `explicitProducts`
writes these products out in one pass over the text. Two digits never multiply, as they belong to
one number, and neither does a point, so that `1.5x` is `1.5*x`.
-/

namespace EquationSteps

/-- Whether `left` and `right`, standing side by side, are two factors. -/
def multiplies (left right : Char) : Bool :=
  ((left.isAlphanum || left == ')') && (right.isAlpha || right == '(')) ||
    ((left.isAlpha || left == ')') && (right.isAlphanum || right == '('))

/-- A text with a `*` between any two neighbours that multiply. -/
def explicitProducts : Text → Text
  | [] => []
  | [c] => [c]
  | c :: d :: rest =>
    if multiplies c d then c :: '*' :: explicitProducts (d :: rest)
    else c :: explicitProducts (d :: rest)

/-- The first character of a text is kept. -/
theorem explicitProducts_cons (c : Char) (rest : Text) :
    ∃ tail, explicitProducts (c :: rest) = c :: tail := by
  cases rest with
  | nil => exact ⟨[], rfl⟩
  | cons d rest =>
    by_cases h : multiplies c d
    · exact ⟨'*' :: explicitProducts (d :: rest), by simp [explicitProducts, h]⟩
    · exact ⟨explicitProducts (d :: rest), by simp [explicitProducts, h]⟩

end EquationSteps
