import EquationSteps.Proofs.Meaning.Group
import EquationSteps.Proofs.Reading.Root

/-!
# The meaning of printed operands

A tree that is newly made means what it did before (`Node.meaning_remade`), so reading back what was
printed keeps the meaning. The text of operands of one group, all of them or only some, is read as a
tree that means what a group of these operands means (`Reads.meaning_linksText`).

This is about compact trees, of which the whole structure is seen in the text. For trees in which
groups stand around a single operand the text means the same, but what is read is another tree, and
the proof is another one. Compact trees are the ones that occur between edits, and for them it is
known what is read, which is needed in its own right.

The case by itself is a text that starts with a minus in front of a single operand. The reader takes
such a minus off and reads the rest by itself, so there is no group around the operand.
-/

namespace EquationSteps

namespace Node

/-- A new copy of a regular tree means what the tree means, whatever its tags were. Regular, so that
the operands of each group are of one family, by which the meaning of the group is a sum or a
product. -/
theorem contentMeaning_remade {node : Node} (h : node.isRegular = true) :
    node.remade.contentMeaning = node.contentMeaning := by
  induction node using Node.induction with
  | atom tag text => rfl
  | group tag children ih =>
    obtain ⟨-, hchain, hchildren⟩ := isRegular_group_iff.1 h
    rw [remade_group, branch, contentMeaning_group, contentMeaning_group]
    refine groupMeaning_congr hchain (forall₂_map_of_forall_mem fun child hmem ↦ ?_)
    refine ⟨by rw [sign_remade], ?_⟩
    rw [meaning, meaning, sign_remade, ih child hmem (hchildren child hmem)]

/-- So it is with the sign of the copy, which is that of the tree. -/
theorem meaning_remade {node : Node} (h : node.isRegular = true) :
    node.remade.meaning = node.meaning := by
  rw [meaning, meaning, sign_remade, contentMeaning_remade h]

/-- And with operands that are copied one by one. -/
theorem groupMeaning_map_remade {nodes : List Node} (hchain : isChain nodes = true)
    (hregular : ∀ node ∈ nodes, node.isRegular = true) :
    groupMeaning (nodes.map remade) = groupMeaning nodes :=
  groupMeaning_congr hchain (forall₂_map_of_forall_mem fun node hmem ↦
    ⟨by rw [sign_remade], meaning_remade (hregular node hmem)⟩)

end Node

open Node

/-- The text of an operand behind a minus is read as the negation of what it says. There is no other
way to read it, as it has no operator but the minus. -/
theorem Reads.eq_negation {text : Text} {read : Node} (h : Reads none ('-' :: text) read)
    (htext : isOperandText text = true) : read = .leaf .minus text := by
  have hleaf := any_isStructural_of_operand htext
  have hnegated := negated?_of_isOperandText htext
  cases h with
  | leaf hstructural =>
    have hminus : isStructural '-' = true := rfl
    cases hminus.symm.trans (by simpa using List.any_eq_false.1 hstructural '-' List.mem_cons_self)
  | negated h hinner =>
    cases hnegated.symm.trans h
    rw [hinner.eq_leaf hleaf]
    rfl
  | group h => cases hnegated.symm.trans h
  | nested h => cases hnegated.symm.trans h
  | operand _ h => cases hnegated.symm.trans h

/-- **Printed operands are read back with their meaning**, whether they are all operands of a group
or some of them. What is read is the group of them newly made, or the leaf with a minus if there is
only one operand and that is a leaf. -/
theorem Reads.meaning_linksText {nodes : List Node} {read : Node}
    (h : Reads none (linksText true nodes) read) (hchain : isChain nodes = true)
    (hregular : ∀ node ∈ nodes, node.isRegular = true)
    (hcompact : ∀ node ∈ nodes, node.isCompact = true) : read.meaning = groupMeaning nodes := by
  obtain ⟨hne, family, hsigns⟩ := isChain_iff.1 hchain
  -- a chain that shows its family is read as a group
  have hgroup : negated? (linksText true nodes) = none →
      classify (linksText true nodes) = some family → read.meaning = groupMeaning nodes := by
    intro hnegated hclassify
    have hnodes : ∀ node ∈ nodes, ∀ {read : Node}, Reads (some node.sign) node.contentText read →
        read = node.remade := fun node hmem read hread ↦ by
      rw [hread.eq_remade (hregular node hmem) (hcompact node hmem)]
      exact withSign_remade node
    rw [h.eq_branch hnegated (stripParentheses_of_classify hclassify) hclassify hsigns hregular hne
      hnodes, meaning, branch, contentMeaning_group, groupMeaning_map_remade hchain hregular]
    exact Meaning.signed_plus _
  cases nodes with
  | nil => exact absurd rfl hne
  | cons node rest =>
    cases rest with
    | nil =>
      have hnode := hregular node List.mem_cons_self
      by_cases hminus : node.sign = .minus
      · cases node with
        | atom tag text =>
          have hlinks : linksText true [.atom tag text] = '-' :: text := by
            have hsign : tag.sign = .minus := hminus
            simp [linksText, contentText, linkSign, Node.sign, hsign, Sign.symbol]
          rw [hlinks] at h
          rw [h.eq_negation (isRegular_atom_iff.1 hnode).2, groupMeaning_singleton,
            meaning, meaning, hminus]
          rfl
        | group tag operands =>
          obtain ⟨c, hmem, hc⟩ := exists_isOperator hnode (hcompact _ List.mem_cons_self)
          refine hgroup (negated?_of_isOperator ?_ hc) (classify_linksText hsigns hregular hne
            (Or.inr (List.forall_mem_singleton.2 hminus)))
          rw [← toText_eq, toText, hminus]
          exact hmem
      · rw [← toText_eq, toText_of_sign_ne_minus hminus] at h
        rw [h.eq_remade hnode (hcompact node List.mem_cons_self), groupMeaning_singleton, meaning,
          meaning, Meaning.signed_of_ne hminus, withSign, contentMeaning_mapTag,
          contentMeaning_remade hnode, Node.sign, tag_mapTag]
        exact Meaning.signed_plus _
    | cons second rest =>
      exact hgroup (negated?_linksText (hregular node List.mem_cons_self))
        (classify_linksText hsigns hregular hne (Or.inl (by simp)))

end EquationSteps
