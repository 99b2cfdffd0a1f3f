import EquationSteps.Proofs.Equality.Exact
import EquationSteps.Proofs.Reading.Depth
import EquationSteps.Proofs.Reading.Printed

/-!
# The value of printed trees

Whether two expressions are equal is decided on their texts, so the text of a tree has to mean what
the tree means. It does for every tree that can be printed (`Node.IsPrintable`), in whatever form:
groups of one operand, of which nothing is printed, are read back as that operand or not at all, and
so the tree that is read may be another one. Its value is the same.

The text is not read back for this. By induction on the tree, what is printed behind the sign of a
node says a formula that means the content of the node (`Node.exists_denotes_contentText`), where
the formula of a chain is built up from its first operand (`Node.exists_denotes_linksText`).
Evaluating a text gives what its formula means, and so the value of the tree
(`Node.sameValue_evaluate`).

**Failures are part of a value.** A meaning is a function or undefined, and evaluation fails by a
division by zero exactly where the meaning is undefined. So the equation between meanings says as
well that the text divides by zero if and only if the tree does (`SameValue`).

**What is assumed of reading** is that the whole text is read within the limit. The text of the
content is what is compared when an operand cancels with a part of a term. It is shorter by a sign
at most, and so is read as well (`IsPrintable.exists_read_contentText`).
-/

namespace EquationSteps

/-! ### Categories of expressions

Every operand is a factor, every factor a product or quotient by itself, and all of these are
sums. -/

namespace Denotes

variable {family : Family} {text : Text} {e : Formula}

/-- A factor may stand wherever an operand may. -/
theorem operand_of_factor (h : Denotes .factor text e) (family : Family) :
    Denotes family.operandCategory text e := by
  cases family with
  | sum => exact .quotient (.factor h)
  | product => exact .factor h
  | quotient => exact h

/-- An operand by itself is a chain of its family. -/
theorem category_of_operand (h : Denotes family.operandCategory text e) :
    Denotes family.category text e := by
  cases family with
  | sum => exact .term (.unsigned h)
  | product => exact .quotient h
  | quotient => exact .factor h

/-- Every chain is a sum, of one term if need be. -/
theorem sum_of_category (h : Denotes family.category text e) : Denotes .sum text e := by
  cases family with
  | sum => exact h
  | product => exact .term (.unsigned h)
  | quotient => exact .term (.unsigned (.quotient h))

end Denotes

namespace Node

/-! ### What printed trees say

The induction is on the tree. At a group, the formulas of the operands are combined in the order in
which the operands stand, with the operator that is printed before each. -/

/-- What is printed of a node behind its sign says a formula that means the content of the node. -/
def SaysContent (node : Node) : Prop :=
  ∃ e, Denotes (Family.ofSign node.sign).operandCategory node.contentText e ∧
    e.meaning = node.contentMeaning

/-- The text of one operand, with its sign if that is a minus, is a chain that means the operand. -/
theorem SaysContent.exists_denotes_toText {node : Node} (h : node.SaysContent) :
    ∃ e, Denotes (Family.ofSign node.sign).category node.toText e ∧ e.meaning = node.meaning := by
  obtain ⟨e, he, hmeaning⟩ := h
  by_cases hminus : node.sign = .minus
  · rw [hminus] at he
    rw [toText, meaning, hminus]
    exact ⟨_, .term (.minus (.unsigned he)), congrArg _ hmeaning⟩
  · rw [toText_of_sign_ne_minus hminus, meaning, Meaning.signed_of_ne hminus]
    exact ⟨e, he.category_of_operand, hmeaning⟩

/-- **A printed chain says what its operands mean.** -/
theorem exists_denotes_linksText {nodes : List Node} {family : Family} (hne : nodes ≠ [])
    (hfamily : ∀ node ∈ nodes, Family.ofSign node.sign = family)
    (h : ∀ node ∈ nodes, node.SaysContent) :
    ∃ e, Denotes family.category (linksText true nodes) e ∧ e.meaning = groupMeaning nodes := by
  induction nodes using List.reverseRecOn with
  | nil => exact absurd rfl hne
  | append_singleton front node ih =>
    have hsign := hfamily node (List.mem_append_right _ (List.mem_singleton_self _))
    have hnode := h node (List.mem_append_right _ (List.mem_singleton_self _))
    by_cases hfront : front = []
    · subst hfront
      rw [List.nil_append, ← toText_eq, groupMeaning_singleton, ← hsign]
      exact hnode.exists_denotes_toText
    · obtain ⟨e, he, hmeaning⟩ := ih hfront
        (fun other hmem ↦ hfamily other (List.mem_append_left _ hmem))
        (fun other hmem ↦ h other (List.mem_append_left _ hmem))
      obtain ⟨f, hf, hcontent⟩ := hnode
      rw [hsign] at hf
      obtain ⟨g, hg, happended⟩ := Denotes.exists_append he hsign (.unsigned hf)
      have htext : linksText true (front ++ [node]) =
          linksText true front ++ node.sign.symbol :: node.contentText := by
        rw [linksText_append hfront]
        simp [linksText, linkSign]
      refine ⟨g, htext ▸ hg, ?_⟩
      by_cases hsum : family = .sum
      · subst hsum
        rw [groupMeaning_concat_of_term hfamily, happended, if_pos rfl, hmeaning, hcontent, meaning]
      · rw [groupMeaning_concat_of_factor hfront hsum hfamily, happended, if_neg hsum, hmeaning,
          hcontent]

/-- **Printed trees say what they mean.** -/
theorem saysContent {node : Node} (h : node.isRegular = true) : node.SaysContent := by
  induction node using Node.induction with
  | atom tag text =>
    obtain ⟨e, he⟩ := Denotes.exists_of_isOperandText (isRegular_atom_iff.1 h).2
    refine ⟨e, he.operand_of_factor _, ?_⟩
    rcases he.of_factor with ⟨-, hvalue⟩ | ⟨inside, rfl, -⟩
    · exact hvalue.symm
    · cases isStructural_of_mem_operand (isRegular_atom_iff.1 h).2 List.mem_cons_self
  | group tag children ih =>
    obtain ⟨hroot, hchain, hchildren⟩ := isRegular_group_iff.1 h
    obtain ⟨hne, family, hfamily⟩ := isChain_iff.1 hchain
    obtain ⟨e, he, hmeaning⟩ := exists_denotes_linksText hne hfamily fun child hmem ↦
      ih child hmem (hchildren child hmem)
    rw [← contentMeaning_group tag] at hmeaning
    refine ⟨e, ?_, hmeaning⟩
    rw [contentText]
    split
    · exact (Denotes.parenthesized he.sum_of_category).operand_of_factor _
    · rename_i hparenthesized
      rw [isParenthesized, hroot, family?_of_forall hne hfamily] at hparenthesized
      change Denotes (Family.ofSign tag.sign).operandCategory _ _
      cases family with
      | sum => exact absurd rfl hparenthesized
      | product =>
        have hsum : Family.ofSign tag.sign = .sum := by
          rw [Family.ofSign_eq_sum_iff]
          simpa using hparenthesized
        rw [hsum]
        exact he
      | quotient =>
        cases hsign : tag.sign with
        | plus => exact .quotient he
        | minus => exact .quotient he
        | times => exact he
        | divide => simp [hsign] at hparenthesized

/-! ### Values

From formulas to what is evaluated. -/

/-- Whether a tree can be printed as an expression: each group has operands, which are all of one
family, each leaf is an operand, and only the topmost node may be a root, which then has the sign
plus. In contrast to a well-formed tree, a root may hold operands of any family. -/
structure IsPrintable (node : Node) : Prop where
  regular : (node.withRoot false).isRegular = true
  sign : node.isRoot = true → node.sign = .plus

namespace IsPrintable

variable {node : Node}

/-- All leaves of a tree that can be printed are numbers or letters. -/
theorem isValid (h : node.IsPrintable) : node.isValid = true := by
  have hvalid := isValid_of_isRegular h.regular
  cases node <;> exact hvalid

/-- Only below the topmost node the printed tree is the regular one. -/
theorem isRegular (h : node.IsPrintable) (hroot : node.isRoot = false) : node.isRegular = true := by
  rw [← isRegular_mapTag (f := fun tag ↦ { tag with root := false }) hroot.symm]
  exact h.regular

/-- What is printed behind the sign of such a tree says what its content means. -/
theorem exists_denotes_contentText (h : node.IsPrintable) :
    ∃ e, Denotes .sum node.contentText e ∧ e.meaning = node.contentMeaning := by
  cases hroot : node.isRoot with
  | false =>
    obtain ⟨e, he, hmeaning⟩ := saysContent (h.isRegular hroot)
    exact ⟨e, Denotes.sum_of_operand (.unsigned he), hmeaning⟩
  | true =>
    cases node with
    | atom tag text =>
      obtain ⟨e, he, hmeaning⟩ := saysContent h.regular
      exact ⟨e, Denotes.sum_of_operand (.unsigned he), hmeaning⟩
    | group tag children =>
      -- a root has no parentheses, whatever it holds
      obtain ⟨-, hchain, hchildren⟩ := isRegular_group_iff.1 h.regular
      obtain ⟨hne, family, hfamily⟩ := isChain_iff.1 hchain
      obtain ⟨e, he, hmeaning⟩ := exists_denotes_linksText hne hfamily fun child hmem ↦
        saysContent (hchildren child hmem)
      have hopen : isParenthesized tag children = false := by
        have htag : tag.root = true := hroot
        rw [isParenthesized, htag]
        rfl
      rw [contentText, hopen, contentMeaning_group]
      exact ⟨e, he.sum_of_category, hmeaning⟩

/-- And with the sign, what the tree means. -/
theorem exists_denotes_toText (h : node.IsPrintable) :
    ∃ e, Denotes .sum node.toText e ∧ e.meaning = node.meaning := by
  by_cases hminus : node.sign = .minus
  · have hroot : node.isRoot = false := Bool.eq_false_iff.2 fun hroot ↦ by
      cases hminus.symm.trans (h.sign hroot)
    obtain ⟨e, he, hmeaning⟩ := (saysContent (h.isRegular hroot)).exists_denotes_toText
    exact ⟨e, he.sum_of_category, hmeaning⟩
  · rw [toText_of_sign_ne_minus hminus, meaning, Meaning.signed_of_ne hminus]
    exact h.exists_denotes_contentText

/-- Where the text of a tree is read, the text of its content is. -/
theorem exists_read_contentText {limits : Limits} (h : node.IsPrintable)
    (hread : ∃ read, Node.read limits node.toText false = .ok read) :
    ∃ read, Node.read limits node.contentText false = .ok read := by
  by_cases hminus : node.sign = .minus
  · have hroot : node.isRoot = false := Bool.eq_false_iff.2 fun hroot ↦ by
      cases hminus.symm.trans (h.sign hroot)
    have hcontent := generates_contentText (h.isRegular hroot)
    rw [toText, hminus] at hread
    rw [hminus] at hcontent
    exact exists_read_of_minus hcontent hread
  · rwa [toText_of_sign_ne_minus hminus] at hread

end IsPrintable

end Node

/-- Two computations of a value agree: both give the same function, or both divide by zero. -/
inductive SameValue : Except ValueError RationalFunction → Except ValueError RationalFunction → Prop
  | function {f g : RationalFunction} (hf : f.IsProper) (hg : g.IsProper)
      (hequals : f.equals g = true) : SameValue (.ok f) (.ok g)
  | divisionByZero : SameValue (.error .divisionByZero) (.error .divisionByZero)

/-- What evaluating a text gives is the value of each tree that means what the text says. -/
theorem sameValue_evaluate {limits : Limits} {text : Text} {read : Node} {e : Formula}
    {value : Except ValueError RationalFunction} (hread : Node.read limits text false = .ok read)
    (htext : Denotes .sum text e) (hproper : ∀ {f}, value = .ok f → f.IsProper)
    (herror : ∀ {cause}, value = .error cause → cause = .divisionByZero)
    (hvalue : e.meaning = .ofValue value) : SameValue (evaluate limits text) value := by
  have hscanned : Denotes .sum text.scanned e := htext.generates.scanned_eq.symm ▸ htext
  have hmeaning : Meaning.ofValue read.value = .ofValue value := by
    rw [Node.ofValue_value, Node.meaning_of_read hread hscanned, hvalue]
  rw [evaluate_of_read hread]
  cases hleft : read.value with
  | error cause =>
    obtain rfl := Node.value_eq_error (isValid_of_denotes hread hscanned) hleft
    cases value with
    | error cause =>
      obtain rfl := herror rfl
      exact .divisionByZero
    | ok g =>
      rw [hleft] at hmeaning
      exact absurd hmeaning.symm (Meaning.of_ne_undefined _)
  | ok f =>
    cases value with
    | error cause =>
      rw [hleft] at hmeaning
      exact absurd hmeaning (Meaning.of_ne_undefined _)
    | ok g =>
      rw [hleft] at hmeaning
      have hf := Node.isProper_of_value hleft
      exact .function hf (hproper rfl)
        ((RationalFunction.equals_iff hf (hproper rfl)).2 (Meaning.of_injective hmeaning))

/-- **The text of a tree means what the tree means.** If the text of a tree is read within the
limit, evaluating it gives the value of the tree, and evaluating the text of its content gives the
value of its content. Where the value is a division by zero, so is what evaluating the text comes
to. -/
theorem Node.IsPrintable.sameValue_toText {limits : Limits} {node read : Node}
    (h : node.IsPrintable) (hread : Node.read limits node.toText false = .ok read) :
    SameValue (evaluate limits node.toText) node.value ∧
      SameValue (evaluate limits node.contentText) node.contentValue := by
  obtain ⟨content, hcontent⟩ := h.exists_read_contentText ⟨read, hread⟩
  obtain ⟨e, he, hmeaning⟩ := h.exists_denotes_toText
  obtain ⟨f, hf, hcontentMeaning⟩ := h.exists_denotes_contentText
  exact ⟨sameValue_evaluate hread he isProper_of_value (value_eq_error h.isValid)
      (hmeaning.trans (ofValue_value node).symm),
    sameValue_evaluate hcontent hf isProper_of_contentValue (contentValue_eq_error h.isValid)
      hcontentMeaning⟩

/-- A quotient behind a minus, with an operand of which only the parentheses are printed. -/
theorem Node.sameValue_toText_negatedQuotient :
    ∃ node : Node, node.toText = "-(-x)/(x+1)".toList ∧
      SameValue (evaluate .standard node.toText) node.value ∧
        SameValue (evaluate .standard node.contentText) node.contentValue := by
  have hprintable : (branch .minus [branch .divide [leaf .minus "x".toList],
      branch .divide [leaf .plus "x".toList, leaf .plus "1".toList]]).IsPrintable :=
    ⟨by decide, fun hroot ↦ by cases hroot⟩
  obtain ⟨read, hread⟩ : ∃ read, Node.read .standard "-(-x)/(x+1)".toList false = .ok read :=
    ⟨_, rfl⟩
  exact ⟨_, rfl, hprintable.sameValue_toText hread⟩

end EquationSteps
