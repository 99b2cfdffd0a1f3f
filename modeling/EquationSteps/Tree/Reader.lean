import EquationSteps.Failure
import EquationSteps.Limits
import EquationSteps.Text.Blank
import EquationSteps.Text.Juxtaposition
import EquationSteps.Tree.Basic

/-!
# Reading trees

A text is read from the outside in. The operators outside all parentheses decide its family
(`classify`), the text is cut in front of them (`segments`), and each segment is read in turn. What
cannot be cut any further becomes a leaf, whatever it says: reading is lenient, and `Node.isValid`
is the judge of the leaves. A sign that follows another operator is unary, it belongs to the operand
after it and does not cut a sum.

The only failure is nesting beyond the limit. The number of levels still allowed is what the
recursion runs on, so the limit is at once the reason why reading ends.
-/

namespace EquationSteps

/-! ### Scanning a text -/

/-- The level of parentheses after a character. It goes below zero where parentheses close that were
never opened. -/
def levelAfter (level : Int) (c : Char) : Int :=
  if c = '(' then level + 1 else if c = ')' then level - 1 else level

/-- Whether the character before a sign makes the sign unary. -/
def follows (previous : Option Char) : Bool :=
  previous.any isOperator

/-- `classify` from within a text: `found` is the family that the text has so far. -/
def classifyFrom (found : Option Family) : Int → Option Char → Text → Option Family
  | _, _, [] => found
  | level, previous, c :: rest =>
    if level = 0 ∧ (c = '+' ∨ c = '-') ∧ follows previous = false then some .sum
    else
      classifyFrom
        (if level = 0 ∧ c = '*' then some .product
          else if level = 0 ∧ c = '/' then found.or (some .quotient)
          else found)
        (levelAfter level c) (some c) rest

/-- The family of a text by its operators outside all parentheses: a sum if there is a sign that is
not unary, else a product if there is a `*`, else a quotient if there is a `/`. -/
def classify (text : Text) : Option Family :=
  classifyFrom none 0 none text

/-- Whether a text of the family is cut in front of the character. In a sum, a sign at the very
front or behind another operator does not cut. -/
def Family.cutsBefore (family : Family) (level : Int) (previous : Option Char) (c : Char) : Bool :=
  level == 0 && family.operatorMatches c &&
    match family with
    | .sum => previous.isSome && !follows previous
    | .product | .quotient => true

/-- `segments` from within a text: what is left of the running segment, and the segments after. -/
def segmentsFrom (family : Family) : Int → Option Char → Text → Text × List Text
  | _, _, [] => ([], [])
  | level, previous, c :: rest =>
    let (running, others) := segmentsFrom family (levelAfter level c) (some c) rest
    if family.cutsBefore level previous c then ([], (c :: running) :: others)
    else (c :: running, others)

/-- A text cut in front of each operator of the family outside all parentheses. -/
def segments (family : Family) (text : Text) : List Text :=
  let (first, others) := segmentsFrom family 0 none text
  first :: others

/-- The sign and the operand of a segment; a segment without a sign gets the default one. -/
def Family.signedOperand (family : Family) (segment : Text) : Sign × Text :=
  match segment with
  | [] => (family.defaultSign, [])
  | c :: rest =>
    match Sign.ofChar? c with
    | some sign => (sign, rest)
    | none => (family.defaultSign, c :: rest)

/-- What stands before the parenthesis that closes a text with `opened + 1` parentheses open at its
start, if the text ends with that parenthesis. -/
def enclosed? : Nat → Text → Option Text
  | _, [] => none
  | opened, c :: rest =>
    if c = ')' then
      match opened with
      | 0 => if rest.isEmpty then some [] else none
      | opened + 1 => (enclosed? opened rest).map (c :: ·)
    else (enclosed? (if c = '(' then opened + 1 else opened) rest).map (c :: ·)

/-- A text without the pair of parentheses around it, if one pair is around all of it. -/
def stripParentheses (text : Text) : Text :=
  match text with
  | '(' :: rest => (enclosed? 0 rest).getD text
  | _ => text

/-- What follows a leading minus, provided that it has no operator in it. -/
def negated? (text : Text) : Option Text :=
  match text with
  | '-' :: rest => if rest.any isOperator then none else some rest
  | _ => none

/-- Segments lose nothing of the text. -/
theorem flatten_segments (family : Family) (text : Text) :
    (segments family text).flatten = text := by
  have key : ∀ level previous, (segmentsFrom family level previous text).1 ++
      (segmentsFrom family level previous text).2.flatten = text := by
    induction text with
    | nil => intro level previous; rfl
    | cons c rest ih =>
      intro level previous
      simp only [segmentsFrom]
      split <;> simp [ih]
  simpa [segments] using key 0 none

/-! ### Reading -/

namespace Node

/-- Reads a text at a level of nesting. `levels` is the number of levels that are still allowed,
`limit` the one they started from. The sign is the one already read in front of the text, if any.
The content of a root is always a group of terms, so that products and quotients stand one level
below it. -/
def build (limit : Nat) : Nat → Option Sign → Text → Bool → Except TreeError Node
  | 0, _, _, _ => .error (.nestingTooDeep limit)
  | levels + 1, sign?, text, root =>
    if root = false ∧ text.any isStructural = false then .ok (leaf (sign?.getD .plus) text)
    else
      match negated? text with
      | some operand => do
        let node ← build limit levels none operand false
        match sign? with
        | none => .ok (fresh .minus node.content)
        | some sign => .ok (branch sign [fresh .minus node.content])
      | none => do
        let body := stripParentheses text
        let sign := sign?.getD .plus
        match classify body with
        | some family =>
          if family = .product ∧ root = true then
            let node ← build limit levels (some .plus) body false
            .ok (branch sign [node])
          else
            let children ← (segments family body).mapM' fun segment ↦
              let (sign, operand) := family.signedOperand segment
              build limit levels (some sign) operand false
            if family = .quotient ∧ root = true then .ok (branch sign [branch .plus children])
            else .ok (branch sign children)
        | none =>
          if stripParentheses body ≠ body then do
            let node ← build limit levels none body false
            .ok (fresh sign node.content)
          else if root = true ∧ body.isEmpty = true then .ok (branch sign [])
          else if root = true ∧ body.any isStructural = false then
            .ok (branch sign [leaf .plus body])
          else .ok (leaf sign body)

/-- Reads a text, nested at most as deeply as the limit says. A root is the outermost node of one
side of an equation. -/
def read (limits : Limits) (text : Text) (root : Bool) : Except TreeError Node := do
  let node ← build limits.depth (limits.depth + 1) none
    (explicitProducts (Text.withoutBlanks text)) root
  .ok (node.withRoot root)

end Node

end EquationSteps
