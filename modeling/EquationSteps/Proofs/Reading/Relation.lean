import EquationSteps.Proofs.Fallible
import EquationSteps.Proofs.Reading.Scan

/-!
# Reading as a relation

What the reader can make of a text, the limit on nesting apart. `Reads sign? text node` has one rule
for each way in which `Node.build` comes to its result below the root, and `ReadsRoot text node` one
for each way at the root. A text that is read within the limit is related to its tree
(`Reads.of_build`, `ReadsRoot.of_build`, `exists_of_read`), so a statement about all trees that the
reader returns is proved by induction on `Reads`.

**Why a relation.** `Node.build` is a recursion on the levels that are left, it may fail, and it
goes over the segments of a text with `List.mapM'`. None of this matters for what a tree looks like.
In the relation the levels are gone, the operands come as a list of parts, each with the node it is
read as, and the induction hypothesis is about each part. A rule says in its hypotheses what the
reader has found out about the text before it takes that way, so nothing has to be looked up in the
definition again.

**Only one direction is shown**, that what the reader returns is related to the text. For statements
about all results this is what is needed. Where it has to be shown that the reader does return
something, `Proofs.Reading.Depth` and `Proofs.Reading.Levels` count levels instead.

**Roots have their own rules.** A root is read once, at the outermost level, and below it everything
is read by `Reads`. So `ReadsRoot` is no recursion, and a statement about roots is a case split.
-/

namespace EquationSteps

/-- The reader makes the node of the text, behind the sign already read in front of it. -/
inductive Reads : Option Sign → Text → Node → Prop where
  /-- A text without structure is a leaf as it stands. -/
  | leaf {sign? : Option Sign} {text : Text} (hleaf : text.any isStructural = false) :
    Reads sign? text (.leaf (sign?.getD .plus) text)
  /-- A minus is taken off a text that has no other operator, and becomes the sign. -/
  | negated {text operand : Text} {inner : Node} (hnegated : negated? text = some operand)
      (hinner : Reads none operand inner) : Reads none text (.fresh .minus inner.content)
  /-- Behind a sign the negated operand is put into a group, as a node has only one sign. -/
  | negatedBehind {sign : Sign} {text operand : Text} {inner : Node}
      (hnegated : negated? text = some operand) (hinner : Reads none operand inner) :
    Reads (some sign) text (.branch sign [.fresh .minus inner.content])
  /-- A text that has a family is cut into segments, and each is read behind its own sign. -/
  | group {sign? : Option Sign} {text : Text} {family : Family} {parts : List (Text × Node)}
      (hnegated : negated? text = none) (hfamily : classify (stripParentheses text) = some family)
      (hsegments : segments family (stripParentheses text) = parts.map Prod.fst)
      (hparts : ∀ part ∈ parts, Reads (some (family.signedOperand part.1).1)
        (family.signedOperand part.1).2 part.2) :
    Reads sign? text (.branch (sign?.getD .plus) (parts.map Prod.snd))
  /-- Parentheses around a text that is in parentheses again. -/
  | nested {sign? : Option Sign} {text : Text} {inner : Node} (hnegated : negated? text = none)
      (hfamily : classify (stripParentheses text) = none)
      (hnested : stripParentheses (stripParentheses text) ≠ stripParentheses text)
      (hinner : Reads none (stripParentheses text) inner) :
    Reads sign? text (.fresh (sign?.getD .plus) inner.content)
  /-- What is left is a leaf, whatever it says. -/
  | operand {sign? : Option Sign} {text : Text} (hstructural : text.any isStructural = true)
      (hnegated : negated? text = none) (hfamily : classify (stripParentheses text) = none)
      (hnested : stripParentheses (stripParentheses text) = stripParentheses text) :
    Reads sign? text (.leaf (sign?.getD .plus) (stripParentheses text))

/-- The reader makes the root of the text, its mark apart. -/
inductive ReadsRoot : Text → Node → Prop where
  /-- A minus is taken off as below the root. What is behind it has no operators, so it is a
  leaf, and the root has only its sign. -/
  | negated {text operand : Text} {inner : Node} (hnegated : negated? text = some operand)
      (hinner : Reads none operand inner) : ReadsRoot text (.fresh .minus inner.content)
  /-- A product is read as a whole, and is the only term of the root. -/
  | product {text : Text} {inner : Node} (hnegated : negated? text = none)
      (hfamily : classify (stripParentheses text) = some .product)
      (hinner : Reads (some .plus) (stripParentheses text) inner) :
    ReadsRoot text (.branch .plus [inner])
  /-- The parts of a quotient are read first and put into a group, which is the only term of the
  root. -/
  | quotient {text : Text} {parts : List (Text × Node)} (hnegated : negated? text = none)
      (hfamily : classify (stripParentheses text) = some .quotient)
      (hsegments : segments .quotient (stripParentheses text) = parts.map Prod.fst)
      (hparts : ∀ part ∈ parts, Reads (some (Family.quotient.signedOperand part.1).1)
        (Family.quotient.signedOperand part.1).2 part.2) :
    ReadsRoot text (.branch .plus [.branch .plus (parts.map Prod.snd)])
  /-- The terms of a sum are the terms of the root. -/
  | sum {text : Text} {parts : List (Text × Node)} (hnegated : negated? text = none)
      (hfamily : classify (stripParentheses text) = some .sum)
      (hsegments : segments .sum (stripParentheses text) = parts.map Prod.fst)
      (hparts : ∀ part ∈ parts, Reads (some (Family.sum.signedOperand part.1).1)
        (Family.sum.signedOperand part.1).2 part.2) :
    ReadsRoot text (.branch .plus (parts.map Prod.snd))
  /-- What stands in two pairs of parentheses is not read as a root, so it may be factors. -/
  | nested {text : Text} {inner : Node} (hnegated : negated? text = none)
      (hfamily : classify (stripParentheses text) = none)
      (hnested : stripParentheses (stripParentheses text) ≠ stripParentheses text)
      (hinner : Reads none (stripParentheses text) inner) :
    ReadsRoot text (.fresh .plus inner.content)
  /-- A text with nothing in it, possibly in parentheses, is the root without terms. -/
  | empty {text : Text} (hnegated : negated? text = none)
      (hempty : stripParentheses text = []) : ReadsRoot text (.branch .plus [])
  /-- A single operand is the only term of the root. -/
  | operand {text : Text} (hnegated : negated? text = none)
      (hleaf : (stripParentheses text).any isStructural = false) :
    ReadsRoot text (.branch .plus [.leaf .plus (stripParentheses text)])
  /-- What is left is a leaf, and no operand. -/
  | leftover {text : Text} (hnegated : negated? text = none)
      (hfamily : classify (stripParentheses text) = none)
      (hnested : stripParentheses (stripParentheses text) = stripParentheses text)
      (hstructural : (stripParentheses text).any isStructural = true) :
    ReadsRoot text (.leaf .plus (stripParentheses text))

/-! ### From the reader to the relation

By recursion on the levels that are left, with one case for each way out of the reader. The parts of
a chain come from what is known of `List.mapM'` when it succeeds. -/

/-- What is read below the root within a limit is read. -/
theorem Reads.of_build {limit levels : Nat} {sign? : Option Sign} {text : Text} {node : Node}
    (h : Node.build limit levels sign? text false = .ok node) : Reads sign? text node := by
  induction levels generalizing sign? text node with
  | zero => cases h
  | succ levels ih =>
    rw [Node.build] at h
    by_cases hleaf : text.any isStructural = false
    · rw [if_pos ⟨rfl, hleaf⟩] at h
      cases h
      exact .leaf hleaf
    rw [if_neg fun h ↦ hleaf h.2] at h
    split at h
    · rename_i operand hnegated
      obtain ⟨inner, hinner, h⟩ := Except.ok_of_bind_eq_ok h
      split at h <;> cases h
      · exact .negated hnegated (ih hinner)
      · exact .negatedBehind hnegated (ih hinner)
    rename_i hnegated
    dsimp only at h
    split at h
    · rename_i family hfamily
      rw [if_neg fun h ↦ by cases h.2] at h
      obtain ⟨children, hchildren, h⟩ := Except.ok_of_bind_eq_ok h
      rw [if_neg fun h ↦ by cases h.2] at h
      cases h
      obtain ⟨parts, hsegments, rfl, hparts⟩ := exists_parts_of_mapM' hchildren
      exact .group hnegated hfamily hsegments fun part hmem ↦ ih (hparts part hmem)
    · rename_i hfamily
      split at h
      · rename_i hnested
        obtain ⟨inner, hinner, h⟩ := Except.ok_of_bind_eq_ok h
        cases h
        exact .nested hnegated hfamily hnested (ih hinner)
      · rename_i hnested
        rw [if_neg (fun h ↦ by cases h.1), if_neg (fun h ↦ by cases h.1)] at h
        cases h
        exact .operand (by simpa using hleaf) hnegated hfamily (by simpa using hnested)

/-- What is read as a root within a limit is read. -/
theorem ReadsRoot.of_build {limit levels : Nat} {text : Text} {node : Node}
    (h : Node.build limit levels none text true = .ok node) : ReadsRoot text node := by
  cases levels with
  | zero => cases h
  | succ levels =>
    rw [Node.build, if_neg fun h ↦ by cases h.1] at h
    split at h
    · rename_i operand hnegated
      obtain ⟨inner, hinner, h⟩ := Except.ok_of_bind_eq_ok h
      cases h
      exact .negated hnegated (Reads.of_build hinner)
    rename_i hnegated
    dsimp only at h
    split at h
    · rename_i family hfamily
      cases family with
      | product =>
        rw [if_pos ⟨rfl, rfl⟩] at h
        obtain ⟨inner, hinner, h⟩ := Except.ok_of_bind_eq_ok h
        cases h
        exact .product hnegated hfamily (Reads.of_build hinner)
      | quotient =>
        rw [if_neg fun h ↦ by cases h.1] at h
        obtain ⟨children, hchildren, h⟩ := Except.ok_of_bind_eq_ok h
        rw [if_pos ⟨rfl, rfl⟩] at h
        cases h
        obtain ⟨parts, hsegments, rfl, hparts⟩ := exists_parts_of_mapM' hchildren
        exact .quotient hnegated hfamily hsegments fun part hmem ↦ Reads.of_build (hparts part hmem)
      | sum =>
        rw [if_neg fun h ↦ by cases h.1] at h
        obtain ⟨children, hchildren, h⟩ := Except.ok_of_bind_eq_ok h
        rw [if_neg fun h ↦ by cases h.1] at h
        cases h
        obtain ⟨parts, hsegments, rfl, hparts⟩ := exists_parts_of_mapM' hchildren
        exact .sum hnegated hfamily hsegments fun part hmem ↦ Reads.of_build (hparts part hmem)
    · rename_i hfamily
      split at h
      · rename_i hnested
        obtain ⟨inner, hinner, h⟩ := Except.ok_of_bind_eq_ok h
        cases h
        exact .nested hnegated hfamily hnested (Reads.of_build hinner)
      · rename_i hnested
        split at h
        · rename_i hempty
          cases h
          exact .empty hnegated (List.isEmpty_iff.1 hempty.2)
        · split at h
          · rename_i hoperand
            cases h
            exact .operand hnegated hoperand.2
          · rename_i hoperand
            cases h
            exact .leftover hnegated hfamily (by simpa using hnested) (by simpa using hoperand)

/-- What is read is read from the scanned text, and carries the mark that was asked for. -/
theorem exists_of_read {limits : Limits} {text : Text} {root : Bool} {node : Node}
    (h : Node.read limits text root = .ok node) :
    ∃ inner, node = inner.withRoot root ∧
      Node.build limits.depth (limits.depth + 1) none text.scanned root = .ok inner := by
  obtain ⟨inner, hinner, h⟩ := Except.ok_of_bind_eq_ok h
  cases h
  exact ⟨inner, rfl, hinner⟩

/-- The converse, which adds the mark to what is read from the scanned text. -/
theorem read_of_build {limits : Limits} {text : Text} {root : Bool} {inner : Node}
    (h : Node.build limits.depth (limits.depth + 1) none text.scanned root = .ok inner) :
    Node.read limits text root = .ok (inner.withRoot root) := by
  show Node.build limits.depth (limits.depth + 1) none text.scanned root >>=
    (fun node ↦ .ok (node.withRoot root)) = _
  rw [h]
  rfl

end EquationSteps
