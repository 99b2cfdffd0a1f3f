import EquationSteps.Proofs.Canonical.Remains
import EquationSteps.Proofs.Equation.Slot
import EquationSteps.Proofs.Meaning.Printed

/-!
# What is admitted as a replacement

A replacement that succeeded was admitted, read and put in place (`Equation.of_replace`). By the
exact oracle a text is admitted only if it has the value of the selected nodes, and the tree that is
put in their place has that value as well (`Equation.isReplacement_of_readReplacement`). What the
selected nodes are is read off the identities: some children of one node, or else one whole side
(`Equation.of_selectedNodes`).

The lemmas about equations invert a computation that succeeded, one step at a time, so that what
follows an edit never has to be opened again:

* `of_selectedNodes` says what a list of identities stands for;
* `of_inputErrors` and `of_checkReplacement` lead from a check without errors to the one question
  that was asked of the oracle;
* `of_replace` puts them together with what was read and put in place.

**The text is what is compared.** The oracle is asked about what is printed for the selected nodes
and about the text that was typed. From there to trees it is two steps: what is printed for operands
of one group, if it is read, means what the operands mean together (`meaning_of_read_linksText`),
and texts that the exact oracle calls equal are read as trees of the same meaning
(`Oracle.of_exactlyEqual`).

**What is put in place** (`IsReplacement`) is a regular tree of new nodes with a plus or a minus. It
is normalized by itself before it is put in, and that keeps it such a tree. Its meaning is kept only
if the oracle's answers for literals are right, which is why two lemmas state this with different
assumptions on the oracle.
-/

namespace EquationSteps

open Node

variable {limits : Limits} {text : Text} {node : Node} {selection : List NodeId}

/-! ### Reading an expression below a root

An operand is read with the mark of a root taken off, so what is read may stand in any group. -/

/-- An expression that is read by itself has a plus or a minus. Any other sign would have to stand
in front of it, behind an operand. -/
theorem Reads.isAdditive (h : Reads none text node) : node.sign.isAdditive = true := by
  cases h with
  | leaf => rfl
  | negated =>
    rw [fresh, Node.sign, tag_ofContent]
    rfl
  | group => rfl
  | nested =>
    rw [fresh, Node.sign, tag_ofContent]
    rfl
  | operand => rfl

namespace Node

/-- Below a root what is read has no mark to take off, so it is what `Reads` says of the scanned
text. -/
theorem exists_reads_of_read (h : Node.read limits text false = .ok node) :
    Reads none text.scanned node := by
  obtain ⟨inner, rfl, hbuild⟩ := exists_of_read h
  have hreads := Reads.of_build hbuild
  have hroot : inner.tag.root = false := by
    have hfresh := tag_of_everyTag hreads.isFresh
    rw [beq_iff_eq.1 hfresh]
    rfl
  have hsame : inner.withRoot false = inner := by
    cases inner with
    | atom tag text =>
      have htag : tag.root = false := hroot
      rw [withRoot, mapTag, ← htag]
    | group tag children =>
      have htag : tag.root = false := hroot
      rw [withRoot, mapTag, ← htag]
  rw [hsame]
  exact hreads

/-- What is read from an expression can be put in the place of nodes. -/
theorem isReplacement_of_read (htext : IsExpression text)
    (h : Node.read limits text false = .ok node) : node.IsReplacement where
  regular := (exists_reads_of_read h).isRegular htext
  new := isNew_of_isFresh (exists_reads_of_read h).isFresh
  sign := (exists_reads_of_read h).isAdditive

section Normalize

variable {rationalize : Text → Except ValueError Text} {passes : Nat} {node' : Node}

/-- Answers that are expressions are read as regular trees. This is the form in which the assumption
on the oracle is made in the main results. -/
theorem answersRegular_of_isExpression
    (h : ∀ literal answer, rationalize literal = .ok answer → IsExpression answer) :
    AnswersRegular rationalize := by
  intro literal content _ _ hcontent
  unfold fraction? at hcontent
  split at hcontent
  · rename_i answer hanswer
    split at hcontent
    · rename_i read hread
      cases hcontent
      exact isRegular_ofContent rfl (isReplacement_of_read (h literal answer hanswer) hread).regular
    · cases hcontent
  · cases hcontent

/-- Normalizing a replacement gives a replacement, whatever the values of the answers are. -/
theorem IsReplacement.of_normalize (hanswers : AnswersRegular rationalize) (h : node.IsReplacement)
    (hnormalize : node.normalize rationalize limits = (.ok passes, node')) :
    node'.IsReplacement := by
  have hroot := isRoot_of_isRegular h.regular
  have hnew : (node.normalize rationalize limits).2.everyTag Tag.isNew = true :=
    everyTag_normalize isLasting_isNew h.new
  rw [hnormalize] at hnew
  have hremains :=
    remains_normalize hanswers ((isShaped_iff_isRegular hroot).2 h.regular) hnormalize
  refine ⟨(isShaped_iff_isRegular (hremains.root.trans hroot)).1 hremains.shaped, hnew, ?_⟩
  rw [← Family.ofSign_eq_sum_iff, hremains.family]
  exact Family.ofSign_eq_sum_iff.2 h.sign

/-- It has the same meaning if the answers of the oracle are right. -/
theorem IsReplacement.normalize (hfaithful : IsFaithful rationalize) (h : node.IsReplacement)
    (hnormalize : node.normalize rationalize limits = (.ok passes, node')) :
    node'.IsReplacement ∧ node'.meaning = node.meaning := by
  have hroot := isRoot_of_isRegular h.regular
  have hkeeps := (keeps_normalize hfaithful ((isShaped_iff_isRegular hroot).2 h.regular)
    (marksInSums_of_isNew h.new) hnormalize).resolve_right fun hemptied ↦ by
      cases hroot.symm.trans hemptied.root
  exact ⟨h.of_normalize hfaithful.answersRegular hnormalize, hkeeps.meaning⟩

end Normalize

/-- Printed operands of one group, read as an expression, mean what the operands mean. -/
theorem meaning_of_read_linksText {nodes : List Node} (hchain : isChain nodes = true)
    (hregular : ∀ node ∈ nodes, node.isRegular = true)
    (hcompact : ∀ node ∈ nodes, node.isCompact = true)
    (h : Node.read limits (linksText true nodes) false = .ok node) :
    node.meaning = groupMeaning nodes := by
  obtain ⟨hne, family, hsigns⟩ := isChain_iff.1 hchain
  have hlinks := generates_linksText hne hsigns fun node hmem ↦
    hsigns node hmem ▸ generates_contentText (hregular node hmem)
  have hreads := exists_reads_of_read h
  rw [hlinks.sum_of_category.scanned_eq] at hreads
  exact hreads.meaning_linksText hchain hregular hcompact

end Node

/-! ### Equal values

From an answer about texts to an equation between meanings. -/

/-- Texts that are equal for the exact oracle are read as trees of the same meaning. Both are read
within the limits of the oracle, which need not be those of the equation. -/
theorem Oracle.of_exactlyEqual {a b : Text}
    (h : (Oracle.exact limits).exactlyEqual a b = .ok true) : ∃ node node',
      Node.read limits a false = .ok node ∧ Node.read limits b false = .ok node' ∧
        node.meaning = node'.meaning := by
  have hevaluate : ∀ {text : Text} {f : RationalFunction}, evaluate limits text = .ok f →
      ∃ node, Node.read limits text false = .ok node ∧ node.value = .ok f := by
    intro text f h
    unfold evaluate at h
    split at h
    · exact ⟨_, ‹_›, h⟩
    · cases h
  obtain ⟨f, hf, h⟩ := Except.ok_of_bind_eq_ok h
  obtain ⟨g, hg, h⟩ := Except.ok_of_bind_eq_ok h
  obtain ⟨node, hnode, hf⟩ := hevaluate hf
  obtain ⟨node', hnode', hg⟩ := hevaluate hg
  exact ⟨node, node', hnode, hnode', (meaning_eq_iff hg).2 ⟨f, hf, Except.ok.inj h⟩⟩

namespace Equation

variable {equation after : Equation} {oracle : Oracle} {nodes : List Node} {expression : Node}

/-! ### What a replacement went through

By inversion of the check, of the selection, and of the replacement as a whole. -/

/-- The selected nodes are children of the parent of the first one, or else they are one node
without a parent. In the first case all children are meant that are selected, in their own order. -/
theorem of_selectedNodes (h : equation.selectedNodes selection = .ok nodes) :
    ∃ first rest, selection = first :: rest ∧
      ((∃ parent, equation.findParent? first = some parent ∧
          nodes = parent.children.filter (isSelected selection)) ∨
        equation.findParent? first = none ∧ ∃ node, equation.find? first = some node ∧
          nodes = [node]) := by
  unfold selectedNodes at h
  split at h
  · cases h
  · rename_i first rest
    refine ⟨first, rest, rfl, ?_⟩
    split at h
    · cases h
    · split at h
      · rename_i parent hparent
        cases h
        exact Or.inl ⟨parent, hparent, rfl⟩
      · rename_i hparent
        split at h
        · split at h
          · rename_i node hnode
            cases h
            exact Or.inr ⟨hparent, node, hnode, rfl⟩
          · cases h
        · cases h

/-- What the check of a replacement asks is whether it is equal to the selected nodes. If there is
no error, the answer was yes. -/
theorem of_checkReplacement
    (h : (equation.checkReplacement selection text).answeredBy oracle = .ok ()) :
    ∃ nodes, equation.selectedNodes selection = .ok nodes ∧ nodes ≠ [] ∧
      oracle.exactlyEqual (selectionText nodes) text = .ok true := by
  unfold checkReplacement at h
  split at h
  · cases h
  · cases h
  · rename_i nodes hne hnodes
    rw [Inquiry.answeredBy_bind, Inquiry.answeredBy_equal] at h
    refine ⟨nodes, hnodes, hne, ?_⟩
    split at h
    · assumption
    · cases h
    · cases h

/-- A text without errors as a replacement passes the check of its value. -/
theorem of_inputErrors
    (h : (equation.inputErrors (.replace selection) text).answeredBy oracle = []) :
    (equation.checkReplacement selection text).answeredBy oracle = .ok () := by
  unfold inputErrors at h
  split at h
  · cases h
  · split at h
    · cases h
    · split at h
      · cases h
      · dsimp only at h
        split at h
        · rw [Inquiry.answeredBy_bind, Inquiry.answeredBy_pure, List.append_eq_nil_iff] at h
          have hpurpose := h.2
          unfold purposeErrors at hpurpose
          rw [Inquiry.answeredBy_bind] at hpurpose
          split at hpurpose
          · assumption
          · cases hpurpose
        · rw [Inquiry.answeredBy_pure, List.append_eq_nil_iff] at h
          cases h.2

/-- A replacement that succeeded was admitted, read and put in place. Of the questions that were
asked only the one about the value is kept. -/
theorem of_replace (h : (equation.replace selection text).answeredBy oracle = (.ok (), after)) :
    ∃ nodes expression, equation.selectedNodes selection = .ok nodes ∧ nodes ≠ [] ∧
      oracle.exactlyEqual (selectionText nodes) text = .ok true ∧
        equation.readReplacement text = .ok expression ∧
          equation.putInPlace expression (nodes.filterMap Node.id?) = (.ok (), after) := by
  unfold replace checkInput at h
  rw [Inquiry.answeredBy_bind, Inquiry.answeredBy_bind] at h
  split at h
  · cases h
  · rename_i hcheck
    split at hcheck
    · rename_i herrors
      obtain ⟨nodes, hnodes, hne, hequal⟩ := of_checkReplacement (of_inputErrors herrors)
      rw [hnodes] at h
      dsimp only at h
      split at h
      · cases h
      · exact ⟨nodes, _, hnodes, hne, hequal, ‹_›, h⟩
    · cases hcheck

/-- The tree that is put in place was read and normalized under the limits of the equation. -/
theorem exists_normalize_of_readReplacement
    (hnode : Node.read equation.limits text false = .ok node)
    (h : equation.readReplacement text = .ok expression) :
    ∃ passes, node.normalize equation.oracle.rationalize equation.limits =
      (.ok passes, expression) := by
  unfold readReplacement at h
  rw [hnode] at h
  dsimp only at h
  split at h
  · rename_i passes normalized hnormalize
    cases h
    exact ⟨passes, hnormalize⟩
  · cases h

/-- The tree that is put in place is a replacement with the meaning of its text. -/
theorem isReplacement_of_readReplacement (hfaithful : IsFaithful equation.oracle.rationalize)
    (htext : IsExpression text) (hnode : Node.read equation.limits text false = .ok node)
    (h : equation.readReplacement text = .ok expression) :
    expression.IsReplacement ∧ expression.meaning = node.meaning := by
  obtain ⟨passes, hnormalize⟩ := exists_normalize_of_readReplacement hnode h
  exact (isReplacement_of_read htext hnode).normalize hfaithful hnormalize

end Equation

end EquationSteps
