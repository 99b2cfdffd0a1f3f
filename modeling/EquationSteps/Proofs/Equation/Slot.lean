import EquationSteps.Equation.Replacement
import EquationSteps.Proofs.Canonical.Place

/-!
# Replacing operands of a group

What a replacement does to the group whose operands are selected. The first selected operand takes
over the expression and the others become zeros (`Node.replaced`), and all of them are pending until
the group is normalized.

In a sum nothing is lost: the group means the same at once (`Node.keeps_replaced_sum`). In a product
or a quotient the zeros have to be dropped first, and an expression that is the leaf `0` is dropped
along with them: where some operand is not selected, the group becomes the one without the selected
operands (`Node.losesSelected`).

**A group is split at the first selected operand**, into the operands before it, of which none is
selected, that operand, and the operands after it. The definitions are about this split rather than
about a list of identities, since the expression goes to one of the selected operands and zeros to
all others.

**What takes over the expression** depends on where it stands. A term takes over sign and content
(`takeOver_term`). A factor or a divisor keeps its own sign, so that a minus goes into its content,
as a group of one operand (`takeOver_factor`). A root keeps the group and holds the expression as
its only term (`takeOver_root`). In each of the three the identity stays that of the node that was
there.
-/

namespace EquationSteps.Node

/-- Whether a node is among the selected ones. -/
def isSelected (selection : List NodeId) (node : Node) : Bool :=
  selection.any fun id ↦ node.id? == some id

/-- An expression as it is put in the place of selected nodes: a regular tree of new nodes, behind
an additive sign. -/
structure IsReplacement (expression : Node) : Prop where
  regular : expression.isRegular = true
  new : expression.everyTag Tag.isNew = true
  sign : expression.sign.isAdditive = true

/-- The group without the selected operands. -/
def withoutSelected (selection : List NodeId) (node : Node) : Node :=
  node.withChildren (node.children.filter fun child ↦ !child.isSelected selection)

/-- Whether replacing the selected operands drops them: the expression is the leaf `0`, and the
group is a product or a quotient that has further operands. -/
def losesSelected (selection : List NodeId) (node expression : Node) : Bool :=
  expression.isZeroAtom && expression.sign != .minus && node.family? != some .sum &&
    node.children.any fun child ↦ !child.isSelected selection

/-- An operand that is not the first of the selected ones, after the replacement. -/
def marked (selection : List NodeId) (filler : Sign) (node : Node) : Node :=
  if node.isSelected selection then (node.toFiller filler).withPending true else node

/-- The operands of a group after the replacement. -/
def replaced (selection : List NodeId) (filler : Sign) (expression : Node)
    (before : List Node) (node : Node) (after : List Node) : List Node :=
  before ++ (takeOver expression node).withPending true :: after.map (marked selection filler)

variable {selection : List NodeId} {filler : Sign} {expression node : Node} {tag : Tag}
  {before after : List Node}

namespace IsReplacement

/-- A replacement is made of new nodes, so taking its identities off changes nothing. -/
theorem anonymous (h : expression.IsReplacement) : expression.anonymous = expression := by
  refine anonymous_eq_self (everyTag_mono (fun tag htag ↦ ?_) h.new)
  exact (Bool.and_eq_true_iff.1 htag).1

/-- As a factor or divisor, the expression still has its value. -/
theorem asOperand (h : expression.IsReplacement) (sign : Sign) :
    (expression.asOperand sign).isRegular = true ∧
      (expression.asOperand sign).everyTag Tag.isNew = true ∧
        (expression.asOperand sign).contentMeaning = expression.meaning := by
  unfold Node.asOperand
  split
  · rename_i hminus
    have hinner : (fresh .minus expression.content).isRegular = true :=
      isRegular_ofContent rfl h.regular
    have hnew : (fresh .minus expression.content).everyTag Tag.isNew = true :=
      everyTag_ofContent rfl h.new
    refine ⟨isRegular_group_iff.2 ⟨rfl, rfl, List.forall_mem_singleton.2 hinner⟩,
      everyTag_group_iff.2 ⟨rfl, List.forall_mem_singleton.2 hnew⟩, ?_⟩
    rw [branch, contentMeaning_group, groupMeaning_singleton, meaning, meaning, hminus, fresh,
      contentMeaning_ofContent, Node.sign, tag_ofContent]
    rfl
  · rename_i hminus
    refine ⟨isRegular_ofContent rfl h.regular, everyTag_ofContent rfl h.new, ?_⟩
    rw [fresh, contentMeaning_ofContent, meaning, Meaning.signed_of_ne hminus]

/-- As a factor or divisor, the expression is the leaf `0` only if it is `0` without a minus. -/
theorem isZeroAtom_asOperand (sign : Sign) : (expression.asOperand sign).isZeroAtom =
    (expression.isZeroAtom && expression.sign != .minus) := by
  unfold Node.asOperand
  split
  · rename_i hminus
    rw [hminus]
    simp [branch, isZeroAtom, atomText?]
  · rename_i hminus
    have hsign : (expression.sign != .minus) = true := bne_iff_ne.2 hminus
    rw [hsign, Bool.and_true]
    cases expression <;> rfl

/-- A replacement may stand as a term. -/
theorem isTerm (h : expression.IsReplacement) : expression.IsTerm :=
  ⟨h.sign, h.regular, marksInSums_of_isNew h.new⟩

end IsReplacement

/-! ### What the operands become

Each of these is an equation that gives the node after the substitution as a tag and a content. -/

/-- Changing the tag of a content behind a tag. -/
theorem mapTag_ofContent (f : Tag → Tag) (tag : Tag) (content : Content) :
    (ofContent tag content).mapTag f = ofContent (f tag) content := by
  cases content <;> rfl

/-- A term takes over the sign of the expression and its content, and keeps its identity. -/
theorem takeOver_term (he : expression.IsReplacement) (hroot : node.isRoot = false)
    (hsign : node.sign.isAdditive = true) (pending : Bool) :
    (takeOver expression node).withPending pending =
      ofContent { node.tag with sign := expression.sign, pending } expression.content := by
  rw [takeOver, if_neg (by rw [hroot]; exact Bool.false_ne_true), if_pos hsign, he.anonymous,
    withContent, withPending, mapTag_ofContent, withSign, tag_mapTag]

/-- A factor or a divisor keeps its sign and takes over the expression as an operand. -/
theorem takeOver_factor (he : expression.IsReplacement) (hroot : node.isRoot = false)
    (hsign : node.sign.isAdditive = false) (pending : Bool) :
    (takeOver expression node).withPending pending =
      ofContent { node.tag with pending } (expression.asOperand node.sign).content := by
  rw [takeOver, if_neg (by rw [hroot]; exact Bool.false_ne_true),
    if_neg (by rw [hsign]; exact Bool.false_ne_true), he.anonymous, withContent, withPending,
    mapTag_ofContent]

/-- A root that takes over the expression holds it as its only term. -/
theorem takeOver_root (he : expression.IsReplacement) (hroot : node.isRoot = true) :
    (takeOver expression node).withPending true =
      group { node.tag with pending := true } [expression.withPending true] := by
  rw [takeOver, if_pos hroot, he.anonymous, withContent, withPending, mapTag_ofContent]
  rfl

/-- A filler is the leaf `0` with the identity of what was there. -/
theorem toFiller_withPending (pending : Bool) :
    (node.toFiller filler).withPending pending =
      .atom { node.tag with sign := filler, pending } ['0'] := by
  rw [toFiller, withContent, withPending, mapTag_ofContent, withSign, tag_mapTag]
  rfl

/-- A zero that takes the place of an operand. -/
theorem of_marked (hregular : node.isRegular = true) (h : node.isSelected selection = true) :
    (node.marked selection filler).sign = filler ∧
      (node.marked selection filler).isRegular = true ∧
        (node.marked selection filler).isPending = true ∧
          (node.marked selection filler).isZeroAtom = true := by
  rw [marked, if_pos h, toFiller_withPending]
  exact ⟨rfl, isRegular_atom_iff.2 ⟨isRoot_of_isRegular hregular, rfl⟩, rfl, rfl⟩

/-- What is not selected stays as it is. -/
theorem marked_of_not_selected (h : node.isSelected selection = false) :
    node.marked selection filler = node :=
  if_neg (by rw [h]; exact Bool.false_ne_true)

/-! ### Sums

Zeros add nothing, so the selected terms may be exchanged for one with their value. -/

/-- A term that takes over the expression is a term with its value. -/
theorem takeOver_term_spec (he : expression.IsReplacement) (hterm : node.IsTerm) :
    ((takeOver expression node).withPending true).IsTerm ∧
      ((takeOver expression node).withPending true).meaning = expression.meaning := by
  have hroot := isRoot_of_isRegular hterm.regular
  rw [takeOver_term he hroot hterm.additive]
  refine ⟨⟨?_, isRegular_ofContent hroot he.regular, ?_⟩, ?_⟩
  · rw [Node.sign, tag_ofContent]
    exact he.sign
  · rw [marksInSums_ofContent]
    exact marksInSums_of_isNew he.new
  · rw [meaning, meaning, contentMeaning_ofContent, Node.sign, tag_ofContent]

/-- A term is still a term when it becomes zero. -/
theorem isTerm_marked (h : node.IsTerm) : (node.marked selection .plus).IsTerm := by
  cases hselected : node.isSelected selection with
  | true =>
    obtain ⟨hsign, hregular, -, -⟩ := @of_marked selection .plus node h.regular hselected
    refine ⟨by rw [hsign]; rfl, hregular, ?_⟩
    rw [marked, if_pos hselected, toFiller_withPending]
    rfl
  | false =>
    rw [marked_of_not_selected hselected]
    exact h

/-- The selected terms and the others add up to all terms. -/
theorem sum_filter_add (selection : List NodeId) (nodes : List Node) :
    ((nodes.filter (isSelected selection)).map meaning).sum +
      ((nodes.filter fun node ↦ !node.isSelected selection).map meaning).sum =
        (nodes.map meaning).sum := by
  have hsplit := List.sum_map_filter_add_sum_map_filter_not
    (fun node ↦ node.isSelected selection = true) meaning nodes
  simpa using hsplit

/-- The terms that are not the first of the selected ones add up to those that are not selected. -/
theorem sum_map_marked (hregular : ∀ node ∈ after, node.isRegular = true) :
    ((after.map (marked selection .plus)).map meaning).sum =
      ((after.filter fun node ↦ !node.isSelected selection).map meaning).sum := by
  induction after with
  | nil => rfl
  | cons node after ih =>
    obtain ⟨hnode, hafter⟩ := List.forall_mem_cons.1 hregular
    rw [List.map_cons, List.map_cons, List.sum_cons, ih hafter]
    cases h : node.isSelected selection with
    | true =>
      obtain ⟨-, -, -, hzero⟩ := @of_marked selection .plus node hnode h
      rw [meaning, contentMeaning_of_isZeroAtom hzero, Meaning.signed_zero, zero_add]
      simp [h]
    | false =>
      rw [marked_of_not_selected h]
      simp [h]

section Split

variable (hbefore : ∀ other ∈ before, other.isSelected selection = false)
  (hnode : node.isSelected selection = true)

include hbefore hnode

/-- The selected operands are the first one and those selected after it. -/
theorem filter_isSelected : (before ++ node :: after).filter (isSelected selection) =
    node :: after.filter (isSelected selection) := by
  have hnone : before.filter (isSelected selection) = [] := List.filter_eq_nil_iff.2
    fun other hmem ↦ by rw [hbefore other hmem]; exact Bool.false_ne_true
  rw [List.filter_append, hnone, List.nil_append, List.filter_cons_of_pos hnode]

/-- The others are those before it and those not selected after it. -/
theorem filter_not_isSelected :
    (before ++ node :: after).filter (fun other ↦ !other.isSelected selection) =
      before ++ after.filter fun other ↦ !other.isSelected selection := by
  have hall : before.filter (fun other ↦ !other.isSelected selection) = before :=
    List.filter_eq_self.2 fun other hmem ↦ by rw [hbefore other hmem]; rfl
  rw [List.filter_append, hall, List.filter_cons_of_neg (by rw [hnode]; exact Bool.false_ne_true)]

/-- In a sum, terms may be replaced by an expression of the same value. -/
theorem keeps_replaced_sum (he : expression.IsReplacement)
    (hshaped : (group tag (before ++ node :: after)).isShaped = true)
    (hmarks : (group tag (before ++ node :: after)).marksInSums = true)
    (hfamily : (group tag (before ++ node :: after)).family? = some .sum)
    (hmeaning : expression.meaning =
      groupMeaning ((before ++ node :: after).filter (isSelected selection))) :
    (group tag (before ++ node :: after)).Keeps
      (group tag (replaced selection .plus expression before node after)) := by
  have hterms := isTerm_of_isShaped hshaped hmarks hfamily
  have hself : node ∈ before ++ node :: after := List.mem_append_cons_self
  have hafter : ∀ other ∈ after, other ∈ before ++ node :: after := fun other hmem ↦
    List.mem_append_right _ (List.mem_cons_of_mem _ hmem)
  obtain ⟨htaken, htakenMeaning⟩ := takeOver_term_spec he (hterms node hself)
  have hall : ∀ child ∈ replaced selection .plus expression before node after, child.IsTerm := by
    intro child hmem
    rw [replaced, List.mem_append, List.mem_cons] at hmem
    rcases hmem with hmem | rfl | hmem
    · exact hterms child (List.mem_append_left _ hmem)
    · exact htaken
    · obtain ⟨other, hother, rfl⟩ := List.mem_map.1 hmem
      exact isTerm_marked (hterms other (hafter other hother))
  have hne : replaced selection .plus expression before node after ≠ [] :=
    List.append_ne_nil_of_right_ne_nil _ (List.cons_ne_nil _ _)
  refine Keeps.of_terms hshaped hall (Or.inl hne) ?_
  -- the expression brings in what all selected terms had, and the zeros bring in nothing
  rw [filter_isSelected hbefore hnode, groupMeaning_of_terms (List.forall_mem_cons.2
    ⟨(hterms node hself).additive, fun other hmem ↦
      (hterms other (hafter other (List.mem_of_mem_filter hmem))).additive⟩)] at hmeaning
  have hmarked := @sum_map_marked selection after fun other hmem ↦
    (hterms other (hafter other hmem)).regular
  have hsplit := sum_filter_add selection after
  rw [groupMeaning_of_terms fun child hmem ↦ (hterms child hmem).additive, replaced]
  simp only [List.map_append, List.map_cons, List.sum_append, List.sum_cons] at hmeaning ⊢
  rw [htakenMeaning, hmeaning, hmarked, ← hsplit, add_assoc]

end Split

end EquationSteps.Node
