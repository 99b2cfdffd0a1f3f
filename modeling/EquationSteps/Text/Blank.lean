import EquationSteps.Text.Basic

/-!
# Blank characters

White space in the sense of the Unicode property `White_Space`. Blank characters are dropped
before a text is read, and a text of blanks alone counts as empty input. The property is not
closed under looks: the zero width space and the byte order mark do not have it.
-/

namespace EquationSteps

/-- The code points with the property `White_Space`, as closed ranges. -/
def blankRanges : List (Nat × Nat) :=
  [(0x09, 0x0D), (0x20, 0x20), (0x85, 0x85), (0xA0, 0xA0), (0x1680, 0x1680), (0x2000, 0x200A),
    (0x2028, 0x2029), (0x202F, 0x202F), (0x205F, 0x205F), (0x3000, 0x3000)]

/-- Whether a character has the property `White_Space`. -/
def isBlank (c : Char) : Bool :=
  blankRanges.any fun range ↦ range.1 ≤ c.toNat && c.toNat ≤ range.2

/-- Whether nothing but blanks stands in a text. -/
def Text.isBlank (text : Text) : Bool :=
  text.all EquationSteps.isBlank

/-- A text without its blanks. -/
def Text.withoutBlanks (text : Text) : Text :=
  text.filter fun c ↦ !EquationSteps.isBlank c

/-- Dropping the blanks once is enough. -/
theorem Text.withoutBlanks_withoutBlanks (text : Text) :
    withoutBlanks (withoutBlanks text) = withoutBlanks text := by
  simp [withoutBlanks, List.filter_filter]

end EquationSteps
