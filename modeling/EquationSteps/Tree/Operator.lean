import EquationSteps.Text.Basic

/-!
# Operators

A `Sign` is the operator in front of an operand, and a `Family` is what the operands of one group
have in common: they are terms, factors, or the parts of a quotient. A group has no operator of
its own, its family is the one of its first operand's sign (`Family.ofSign`).
-/

namespace EquationSteps

/-- The operator in front of an operand. -/
inductive Sign where
  | plus
  | minus
  | times
  | divide
  deriving DecidableEq

namespace Sign

/-- The sign that a character writes. -/
def ofChar? (c : Char) : Option Sign :=
  if c = '+' then some plus
  else if c = '-' then some minus
  else if c = '*' then some times
  else if c = '/' then some divide
  else none

/-- The character that writes a sign. -/
def symbol : Sign → Char
  | plus => '+'
  | minus => '-'
  | times => '*'
  | divide => '/'

/-- Plus and minus join terms. -/
def isAdditive : Sign → Bool
  | plus | minus => true
  | times | divide => false

/-- Plus and minus are opposite to each other; a multiplicative sign has no opposite and stays. -/
def flipped : Sign → Sign
  | plus => minus
  | minus => plus
  | times => times
  | divide => divide

@[simp] theorem flipped_flipped (sign : Sign) : sign.flipped.flipped = sign := by
  cases sign <;> rfl

@[simp] theorem isAdditive_flipped (sign : Sign) : sign.flipped.isAdditive = sign.isAdditive := by
  cases sign <;> rfl

theorem eq_plus_of_ne_minus {sign : Sign} (h : sign.isAdditive = true) (hminus : sign ≠ minus) :
    sign = plus := by
  cases sign with
  | plus => rfl
  | minus => exact absurd rfl hminus
  | times => cases h
  | divide => cases h

@[simp] theorem ofChar?_symbol (sign : Sign) : ofChar? sign.symbol = some sign := by
  cases sign <;> rfl

theorem ofChar?_eq_some_iff {c : Char} {sign : Sign} : ofChar? c = some sign ↔ c = sign.symbol := by
  constructor
  · intro h
    unfold ofChar? at h
    split at h
    · cases h; assumption
    split at h
    · cases h; assumption
    split at h
    · cases h; assumption
    split at h
    · cases h; assumption
    · cases h
  · rintro rfl
    exact ofChar?_symbol sign

end Sign

/-- What the operands of one group have in common. -/
inductive Family where
  /-- Terms, joined by plus and minus. -/
  | sum
  /-- Factors, joined by times. -/
  | product
  /-- A numerator and its denominators, joined by divide. -/
  | quotient
  deriving DecidableEq

namespace Family

/-- The family of a group whose first operand has the given sign. -/
def ofSign : Sign → Family
  | .plus | .minus => sum
  | .times => product
  | .divide => quotient

/-- The sign of an operand for which none is written. -/
def defaultSign : Family → Sign
  | sum => .plus
  | product => .times
  | quotient => .divide

/-- Whether a text of this family may be cut in front of the character. -/
def operatorMatches : Family → Char → Bool
  | sum, c => c == '+' || c == '-'
  | product, c => c == '*'
  | quotient, c => c == '/'

@[simp] theorem ofSign_defaultSign (family : Family) : ofSign family.defaultSign = family := by
  cases family <;> rfl

theorem ofSign_eq_sum_iff {sign : Sign} : ofSign sign = sum ↔ sign.isAdditive = true := by
  cases sign <;> simp [ofSign, Sign.isAdditive]

end Family

/-- Whether a character writes a sign. -/
def isOperator (c : Char) : Bool :=
  (Sign.ofChar? c).isSome

/-- Whether a character is an operator or a parenthesis; a text without any is one leaf. -/
def isStructural (c : Char) : Bool :=
  isOperator c || c == '(' || c == ')'

end EquationSteps
