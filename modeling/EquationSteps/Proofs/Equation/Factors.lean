import EquationSteps.Proofs.Equation.Slot

/-!
# Replacing factors and divisors

The zeros that take the place of selected factors do not leave a product as it was, so a product or
a quotient is related to what is left once it is examined. What takes over the expression leaves
operands that stand for it (`Node.StandsFor`), the zeros leave nothing, and the group can stand in
the place of the one before (`Node.keeps_examined_replaced`). An expression that is the leaf `0` is
dropped along with the zeros, so there the group is the one without the selected operands, if there
are others.

A quotient has at most two parts here, as in a canonical tree: dividing by the parts `b/c` of
`a/b/c` is not dividing by `b` and `c`.

**The steps of a replacement.** The selected operands of a group are `node` and those selected in
`after`; nothing in `before` is selected.

* `node` takes over the expression, behind its own sign, since a factor has no room for a minus;
* each selected operand after it becomes a zero with the sign of the family;
* when the group is examined, zeros are dropped, and a product that continues the product is spliced
  in. What is left is `remaining`.

**The one case that goes wrong** is stated with the others, not left out. If the expression is the
leaf `0` it looks like one of the zeros, and nothing distinguishes it when the group is examined
(`losesSelected_eq`). Then the selected operands are gone without anything in their place. If all
operands were selected, the group becomes `0`, which is right; if some were not, the group is the
product of these, and that is what the theorem says stands there: the group *without* the selected
operands, which in general has another value than the one before.

**In a sum none of this arises**, for a zero among terms may be dropped whatever it came from. That
is why sums are treated elsewhere, by the rule that examines them.
-/

namespace EquationSteps.Node

variable {selection : List NodeId} {filler : Sign} {expression node : Node} {tag : Tag}
  {before after : List Node} {kind : Family}

/-! ### What stands for the expression

Whichever way the expression is taken over, the operands that are left of it multiply, or divide, to
its meaning. -/

/-- Operands that stand for the expression in a product or a quotient. -/
structure StandsFor (kind : Family) (expression : Node) (operands : List Node) : Prop where
  /-- There are some. -/
  nonempty : operands ≠ []
  /-- In a quotient there is only one, as a quotient has no room for more. -/
  single : kind = .quotient → ∃ part, operands = [part]
  /-- They are operands of the family. -/
  family : ∀ operand ∈ operands, Family.ofSign operand.sign = kind
  /-- They have the shape of operands. -/
  regular : ∀ operand ∈ operands, operand.isRegular = true
  /-- Below them nothing but terms is pending. -/
  marks : ∀ operand ∈ operands, operand.marksInSums = true
  /-- They are not pending themselves. -/
  examined : ∀ operand ∈ operands, operand.isPending = false
  /-- Together they mean the expression. -/
  meaning : groupMeaning operands = expression.meaning

/-- What a pending operand leaves in a product or a quotient: nothing if it is a zero, its own
factors if it is a product among factors, and else itself without the mark. -/
theorem settled_of_factor (hkind : kind ≠ .sum) (hpending : node.isPending = true) :
    settled (some kind) node =
      if node.isZeroAtom then []
      else if kind = .product ∧ node.family? = some .product ∧ node.sign = .times then node.children
      else [node.withPending false] := by
  have hzero : (node.withPending false).isZeroAtom = node.isZeroAtom := by
    cases node <;> rfl
  have hfamily : (node.withPending false).family? = node.family? := by
    cases node <;> rfl
  have hchildren : (node.withPending false).children = node.children := by
    cases node <;> rfl
  have hsign : (node.withPending false).sign = node.sign := by
    cases node <;> rfl
  rw [settled, if_pos hpending]
  dsimp only
  rw [if_neg fun h : some kind = some .sum ∧ _ ↦ hkind (Option.some.inj h.1), hzero, hfamily,
    hchildren, hsign]
  simp only [Option.some.injEq]

/-- What a factor or divisor that took over the expression leaves once it is examined: nothing if
the expression is the leaf `0`, and else operands that stand for the expression. -/
theorem settled_takeOver (he : expression.IsReplacement) (hregular : node.isRegular = true)
    (hfamily : Family.ofSign node.sign = kind) (hkind : kind ≠ .sum) :
    if expression.isZeroAtom && expression.sign != .minus then
      settled (some kind) ((takeOver expression node).withPending true) = []
    else
      StandsFor kind expression
        (settled (some kind) ((takeOver expression node).withPending true)) := by
  have hroot := isRoot_of_isRegular hregular
  have hsign : node.sign.isAdditive = false := by
    rw [← Bool.not_eq_true, ← Family.ofSign_eq_sum_iff, hfamily]
    exact hkind
  obtain ⟨hoperand, hnew, hmeaning⟩ := he.asOperand node.sign
  rw [takeOver_factor he hroot hsign, ← IsReplacement.isZeroAtom_asOperand node.sign]
  generalize expression.asOperand node.sign = operand at hoperand hnew hmeaning
  have hzero : (ofContent { node.tag with pending := true } operand.content).isZeroAtom =
      operand.isZeroAtom := by
    cases operand <;> rfl
  have hpending :
      (ofContent { node.tag with pending := true } operand.content).isPending = true := by
    rw [isPending, tag_ofContent]
  rw [settled_of_factor hkind hpending, hzero]
  split
  · rfl
  · split
    -- a product among factors leaves its own factors
    · rename_i hproduct
      obtain ⟨rfl, hproduct, -⟩ := hproduct
      cases operand with
      | atom => cases hproduct
      | group operandTag operands =>
        obtain ⟨-, hchain, hoperands⟩ := isRegular_group_iff.1 hoperand
        have hnewAll := (everyTag_group_iff.1 hnew).2
        show StandsFor .product expression operands
        refine ⟨(isChain_iff.1 hchain).1, (fun h ↦ by cases h), ofSign_of_isChain hchain hproduct,
          hoperands, fun operand hmem ↦ marksInSums_of_isNew (hnewAll operand hmem),
          fun operand hmem ↦ isPending_of_isNew (hnewAll operand hmem), ?_⟩
        rw [← hmeaning, contentMeaning_group]
    -- any other operand stays, without its mark
    · have hexamined :
          (ofContent { node.tag with pending := true } operand.content).withPending false =
          ofContent { node.tag with pending := false } operand.content := by
        rw [withPending, mapTag_ofContent]
      rw [hexamined]
      refine ⟨List.cons_ne_nil _ _, fun _ ↦ ⟨_, rfl⟩, List.forall_mem_singleton.2 ?_,
        List.forall_mem_singleton.2 (isRegular_ofContent hroot hoperand),
        List.forall_mem_singleton.2 ?_, List.forall_mem_singleton.2 ?_, ?_⟩
      · rw [Node.sign, tag_ofContent]
        exact hfamily
      · rw [marksInSums_ofContent]
        exact marksInSums_of_isNew hnew
      · rw [isPending, tag_ofContent]
      · have hsame :
            (ofContent { node.tag with pending := false } operand.content).sign.isAdditive =
            false := by
          rw [Node.sign, tag_ofContent]
          exact hsign
        rw [groupMeaning_singleton, meaning_of_not_isAdditive hsame,
          contentMeaning_ofContent, hmeaning]

/-- The selected and the other factors multiply to all factors, since factors may be taken in any
order. -/
theorem prod_filter_mul (selection : List NodeId) (nodes : List Node) :
    ((nodes.filter (isSelected selection)).map contentMeaning).prod *
      ((nodes.filter fun node ↦ !node.isSelected selection).map contentMeaning).prod =
        (nodes.map contentMeaning).prod := by
  have hsplit := List.prod_map_filter_mul_prod_map_filter_not
    (fun node ↦ node.isSelected selection = true) contentMeaning nodes
  simpa using hsplit

section Factors

variable {operands : List Node}
  (hbefore : ∀ other ∈ before, other.isSelected selection = false)
  (hnode : node.isSelected selection = true)
  (hfamily : ∀ child ∈ before ++ node :: after, Family.ofSign child.sign = kind)
  (hmeaning : expression.meaning =
    groupMeaning ((before ++ node :: after).filter (isSelected selection)))
  (hstands : StandsFor kind expression operands)

include hbefore hnode hfamily hmeaning hstands

/-- A product keeps its meaning when the selected factors are exchanged for what stands for an
expression of the same value: the factors may be multiplied in any order. -/
theorem groupMeaning_of_factor (hkind : kind = .product) :
    groupMeaning (before ++ operands ++ after.filter fun other ↦ !other.isSelected selection) =
      groupMeaning (before ++ node :: after) := by
  subst hkind
  rw [filter_isSelected hbefore hnode, ← hstands.meaning] at hmeaning
  have hself := hfamily node List.mem_append_cons_self
  have hafter : ∀ other ∈ after, Family.ofSign other.sign = .product := fun other hmem ↦
    hfamily other (List.mem_append_right _ (List.mem_cons_of_mem _ hmem))
  have htimes : ∀ nodes : List Node, (∀ other ∈ nodes, Family.ofSign other.sign = .product) →
      ∀ other ∈ nodes, other.sign = .times := fun nodes hall other hmem ↦
    Family.ofSign_eq_product_iff.1 (hall other hmem)
  have hselected : ∀ other ∈ node :: after.filter (isSelected selection),
      Family.ofSign other.sign = .product :=
    List.forall_mem_cons.2 ⟨hself, fun other hmem ↦ hafter other (List.mem_of_mem_filter hmem)⟩
  have hleft : ∀ other ∈ before ++ operands ++ after.filter fun other ↦
      !other.isSelected selection, Family.ofSign other.sign = .product := by
    intro other hmem
    rw [List.mem_append, List.mem_append] at hmem
    rcases hmem with (hmem | hmem) | hmem
    · exact hfamily other (List.mem_append_left _ hmem)
    · exact hstands.family other hmem
    · exact hafter other (List.mem_of_mem_filter hmem)
  have hne : before ++ operands ++ after.filter (fun other ↦ !other.isSelected selection) ≠ [] :=
    List.append_ne_nil_of_left_ne_nil (List.append_ne_nil_of_right_ne_nil _ hstands.nonempty) _
  have hne' : before ++ node :: after ≠ [] :=
    List.append_ne_nil_of_right_ne_nil _ (List.cons_ne_nil _ _)
  rw [groupMeaning_of_factors hstands.nonempty (htimes _ hstands.family),
    groupMeaning_of_factors (List.cons_ne_nil _ _) (htimes _ hselected)] at hmeaning
  rw [groupMeaning_of_factors hne (htimes _ hleft), groupMeaning_of_factors hne' (htimes _ hfamily)]
  simp only [List.map_append, List.map_cons, List.prod_append, List.prod_cons] at hmeaning ⊢
  rw [hmeaning, ← prod_filter_mul selection after, mul_assoc, mul_assoc]

/-- A quotient of at most two parts keeps its meaning when one or both are exchanged for what stands
for an expression of the same value. -/
theorem groupMeaning_of_part (hkind : kind = .quotient)
    (hparts : (before ++ node :: after).length ≤ 2) :
    groupMeaning (before ++ operands ++ after.filter fun other ↦ !other.isSelected selection) =
      groupMeaning (before ++ node :: after) := by
  subst hkind
  rw [filter_isSelected hbefore hnode, ← hstands.meaning] at hmeaning
  obtain ⟨part, rfl⟩ := hstands.single rfl
  rw [groupMeaning_singleton] at hmeaning
  by_cases hnone : after.filter (isSelected selection) = []
  · have hall : after.filter (fun other ↦ !other.isSelected selection) = after := by
      refine List.filter_eq_self.2 fun other hmem ↦ ?_
      rw [Bool.not_eq_true', Bool.eq_false_iff]
      exact List.filter_eq_nil_iff.1 hnone other hmem
    rw [hnone, groupMeaning_singleton] at hmeaning
    rw [hall, List.append_assoc]
    refine groupMeaning_congr (isChain_of_family
      (List.append_ne_nil_of_right_ne_nil _ (List.cons_ne_nil _ _)) hfamily) ?_
    refine List.rel_append (List.forall₂_same.2 fun _ _ ↦ ⟨rfl, rfl⟩)
      (List.Forall₂.cons ⟨?_, hmeaning⟩ (List.forall₂_same.2 fun _ _ ↦ ⟨rfl, rfl⟩))
    rw [hfamily node List.mem_append_cons_self, hstands.family part List.mem_cons_self]
  · -- both parts of the quotient are selected
    obtain ⟨other, hother⟩ := List.exists_mem_of_ne_nil _ hnone
    obtain ⟨hmem, hselected⟩ := List.mem_filter.1 hother
    rw [List.length_append, List.length_cons] at hparts
    have hpositive := List.length_pos_of_mem hmem
    obtain rfl : before = [] := List.eq_nil_of_length_eq_zero (by omega)
    obtain ⟨only, rfl⟩ : ∃ only, after = [only] := List.length_eq_one_iff.1 (by omega)
    obtain rfl := List.mem_singleton.1 hmem
    rw [List.filter_cons_of_pos hselected, List.filter_nil] at hmeaning
    rw [List.filter_cons_of_neg (by rw [hselected]; exact Bool.false_ne_true)]
    exact (groupMeaning_singleton part).trans hmeaning

/-- In a product, or a quotient of at most two parts, the selected operands may be exchanged for
what stands for an expression of the same value. -/
theorem groupMeaning_of_standsFor (hkind : kind ≠ .sum)
    (hparts : kind = .quotient → (before ++ node :: after).length ≤ 2) :
    groupMeaning (before ++ operands ++ after.filter fun other ↦ !other.isSelected selection) =
      groupMeaning (before ++ node :: after) := by
  cases hcase : kind with
  | sum => exact absurd hcase hkind
  | product => exact groupMeaning_of_factor hbefore hnode hfamily hmeaning hstands hcase
  | quotient =>
    exact groupMeaning_of_part hbefore hnode hfamily hmeaning hstands hcase (hparts hcase)

end Factors

/-! ### Examining the group

First what is left of each operand, then of the group, and then how the group without them compares
to the one before. -/

/-- An operand that is not pending stays. -/
theorem settled_of_examined {family : Option Family} (h : node.isPending = false) :
    settled family node = [node] :=
  if_neg (by rw [h]; exact Bool.false_ne_true)

/-- So do all operands of a list if none is pending. -/
theorem flatMap_settled_of_examined {family : Option Family} {nodes : List Node}
    (h : ∀ other ∈ nodes, other.isPending = false) : nodes.flatMap (settled family) = nodes := by
  induction nodes with
  | nil => rfl
  | cons other nodes ih =>
    obtain ⟨hother, hnodes⟩ := List.forall_mem_cons.1 h
    rw [List.flatMap_cons, settled_of_examined hother, ih hnodes, List.singleton_append]

/-- In a product or a quotient the zeros are dropped that took the place of selected operands. -/
theorem flatMap_settled_marked (hkind : kind ≠ .sum)
    (hregular : ∀ other ∈ after, other.isRegular = true)
    (h : ∀ other ∈ after, other.isPending = false) :
    (after.map (marked selection filler)).flatMap (settled (some kind)) =
      after.filter fun other ↦ !other.isSelected selection := by
  induction after with
  | nil => rfl
  | cons other after ih =>
    obtain ⟨hother, hafter⟩ := List.forall_mem_cons.1 h
    obtain ⟨hotherRegular, hafterRegular⟩ := List.forall_mem_cons.1 hregular
    rw [List.map_cons, List.flatMap_cons, ih hafterRegular hafter]
    cases hselected : other.isSelected selection with
    | true =>
      obtain ⟨-, -, hpending, hzero⟩ := @of_marked selection filler other hotherRegular hselected
      rw [settled_of_factor hkind hpending, if_pos hzero,
        List.filter_cons_of_neg (by rw [hselected]; exact Bool.false_ne_true)]
      rfl
    | false =>
      rw [marked_of_not_selected hselected, settled_of_examined hother,
        List.filter_cons_of_pos (by rw [hselected]; rfl), List.singleton_append]

/-- The operands that are left of a product or a quotient once it is examined. What took over the
expression stands where the first selected operand was. -/
def remaining (selection : List NodeId) (kind : Family) (expression : Node)
    (before : List Node) (node : Node) (after : List Node) : List Node :=
  before ++ settled (some kind) ((takeOver expression node).withPending true) ++
    after.filter fun other ↦ !other.isSelected selection

section Group

variable (hkind : kind ≠ .sum)
  (hshaped : (group tag (before ++ node :: after)).isShaped = true)
  (hmarks : (group tag (before ++ node :: after)).marksInSums = true)
  (hfamily : (group tag (before ++ node :: after)).family? = some kind)

include hkind hshaped hfamily

/-- The operands of a product or a quotient remain of its family when some are replaced. -/
theorem ofSign_replaced (he : expression.IsReplacement) (hfiller : Family.ofSign filler = kind) :
    ∀ child ∈ replaced selection filler expression before node after,
      Family.ofSign child.sign = kind := by
  have hall := ofSign_of_isShaped hshaped hfamily
  have hregular := isRegular_of_isShaped_group hshaped
  intro child hmem
  rw [replaced, List.mem_append, List.mem_cons] at hmem
  rcases hmem with hmem | rfl | hmem
  · exact hall child (List.mem_append_left _ hmem)
  · have hself : node ∈ before ++ node :: after := List.mem_append_cons_self
    have hsign : node.sign.isAdditive = false := by
      rw [← Bool.not_eq_true, ← Family.ofSign_eq_sum_iff, hall node hself]
      exact hkind
    rw [takeOver_factor he (isRoot_of_isRegular (hregular node hself)) hsign, Node.sign,
      tag_ofContent]
    exact hall node hself
  · obtain ⟨other, hother, rfl⟩ := List.mem_map.1 hmem
    have hchild : other ∈ before ++ node :: after :=
      List.mem_append_right _ (List.mem_cons_of_mem _ hother)
    cases h : other.isSelected selection with
    | true =>
      rw [(@of_marked selection filler other (hregular other hchild) h).1]
      exact hfiller
    | false =>
      rw [marked_of_not_selected h]
      exact hall other hchild

include hmarks

/-- Examining a product or a quotient, some operands of which were replaced. If no operand is left,
then a group below a root becomes the leaf `0`, and a root stays without operands. -/
theorem examined_replaced (he : expression.IsReplacement) (hfiller : Family.ofSign filler = kind) :
    (group tag (replaced selection filler expression before node after)).examined.2 =
      if remaining selection kind expression before node after = [] ∧ tag.root = false then
        .atom tag ['0']
      else group tag (remaining selection kind expression before node after) := by
  have hregular := isRegular_of_isShaped_group hshaped
  have hnone := isPending_of_family? hmarks hfamily hkind
  have hafter : ∀ {property : Node → Prop}, (∀ child ∈ before ++ node :: after, property child) →
      ∀ other ∈ after, property other := fun h other hmem ↦
    h other (List.mem_append_right _ (List.mem_cons_of_mem _ hmem))
  have hsame : (group tag (replaced selection filler expression before node after)).family? =
      some kind := family?_of_forall (List.append_ne_nil_of_right_ne_nil _ (List.cons_ne_nil _ _))
    (ofSign_replaced hkind hshaped hfamily he hfiller)
  have hleft :
      (replaced selection filler expression before node after).flatMap (settled (some kind)) =
      remaining selection kind expression before node after := by
    rw [replaced, List.flatMap_append, List.flatMap_cons, remaining, List.append_assoc,
      flatMap_settled_of_examined fun other hmem ↦ hnone other (List.mem_append_left _ hmem),
      flatMap_settled_marked hkind (hafter hregular) (hafter hnone)]
  have hany : (replaced selection filler expression before node after).any isPending = true := by
    refine List.any_eq_true.2 ⟨_, List.mem_append_cons_self, ?_⟩
    rw [withPending, isPending, tag_mapTag]
  have hwrap : (group tag (replaced selection filler expression before node after)).wrapRoot? =
      none := by
    rw [wrapRoot?, content]
    cases isRoot _ <;> rfl
  have hstate : attempt wrapRoot?
      (false, group tag (replaced selection filler expression before node after)) =
        (false, group tag (replaced selection filler expression before node after)) :=
    attempt_of_eq_none hwrap
  have hsettle : (group tag (replaced selection filler expression before node after)).settle? =
      some (if remaining selection kind expression before node after = [] ∧ tag.root = false then
        .atom tag ['0']
      else group tag (remaining selection kind expression before node after)) := by
    rw [settle?, children, if_pos hany, hsame]
    dsimp only
    rw [hleft]
    simp only [List.isEmpty_iff, isRoot, tag_group]
    split <;> rfl
  rw [examined, hstate, attempt_of_eq_some hsettle]

omit hshaped hmarks in
/-- The expression is lost if it is the leaf `0` and some operand is not selected. A zero behind a
minus is put into a group and is not lost. -/
theorem losesSelected_eq :
    (group tag (before ++ node :: after)).losesSelected selection expression =
    (expression.isZeroAtom && expression.sign != .minus &&
      !((before ++ node :: after).filter fun other ↦ !other.isSelected selection).isEmpty) := by
  have hsum : ((group tag (before ++ node :: after)).family? != some .sum) = true := by
    rw [hfamily]
    exact bne_iff_ne.2 fun h ↦ hkind (Option.some.inj h)
  have hany : (before ++ node :: after).any (fun child ↦ !child.isSelected selection) =
      !((before ++ node :: after).filter fun other ↦ !other.isSelected selection).isEmpty := by
    rw [Bool.eq_iff_iff, List.any_eq_true, Bool.not_eq_true', Bool.eq_false_iff, ne_eq,
      List.isEmpty_iff, List.filter_eq_nil_iff]
    simp
  rw [losesSelected, hsum, Bool.and_true, children, hany]

/-- The group with operands that stand for the expression can stand in the place of the group. -/
theorem keeps_remaining (hbefore : ∀ other ∈ before, other.isSelected selection = false)
    (hnode : node.isSelected selection = true)
    (hparts : kind = .quotient → (before ++ node :: after).length ≤ 2)
    (hmeaning : expression.meaning =
      groupMeaning ((before ++ node :: after).filter (isSelected selection)))
    (hstands : StandsFor kind expression
      (settled (some kind) ((takeOver expression node).withPending true))) :
    remaining selection kind expression before node after ≠ [] ∧
      (group tag (before ++ node :: after)).Keeps
        (group tag (remaining selection kind expression before node after)) := by
  have hall := ofSign_of_isShaped hshaped hfamily
  have hregular := isRegular_of_isShaped_group hshaped
  have hmarksAll := (marksInSums_group_iff.1 hmarks).2
  have hnone := isPending_of_family? hmarks hfamily hkind
  have hsame := groupMeaning_of_standsFor hbefore hnode hall hmeaning hstands hkind hparts
  have hne : remaining selection kind expression before node after ≠ [] :=
    List.append_ne_nil_of_left_ne_nil (List.append_ne_nil_of_right_ne_nil _ hstands.nonempty) _
  -- what is left are operands from before, and those that stand for the expression
  have hleft : ∀ child ∈ remaining selection kind expression before node after,
      child ∈ before ++ node :: after ∨
        child ∈ settled (some kind) ((takeOver expression node).withPending true) := by
    intro child hmem
    rw [remaining, List.mem_append, List.mem_append] at hmem
    rcases hmem with (hmem | hmem) | hmem
    · exact Or.inl (List.mem_append_left _ hmem)
    · exact Or.inr hmem
    · refine Or.inl (List.mem_append_right _ (List.mem_cons_of_mem _ ?_))
      exact List.mem_of_mem_filter hmem
  have hfamilyLeft : ∀ child ∈ remaining selection kind expression before node after,
      Family.ofSign child.sign = kind := fun child hmem ↦
    (hleft child hmem).elim (hall child) (hstands.family child)
  refine ⟨hne, Keeps.of_children hshaped (Or.inl (isChain_of_family hne hfamilyLeft)) ?_
    (Or.inr fun child hmem ↦ (hleft child hmem).elim (hnone child) (hstands.examined child))
    (fun child hmem ↦ (hleft child hmem).elim (hmarksAll child) (hstands.marks child)) ?_ hsame⟩
  · exact fun child hmem ↦ (hleft child hmem).elim (hregular child) (hstands.regular child)
  · intro _ family _ hfamilyLeft'
    rw [family?_of_forall hne hfamilyLeft] at hfamilyLeft'
    exact hfamily.trans hfamilyLeft'

omit hkind hmarks hfamily in
/-- A group that means zero may lose all of its operands. What is put there is the leaf `0`, or
nothing in a root, which gets the term `0` later. -/
theorem keeps_nothing (hmeaning : groupMeaning (before ++ node :: after) = 0) :
    (group tag (before ++ node :: after)).Keeps
      (if tag.root = false then .atom tag ['0'] else group tag []) := by
  split
  · rename_i hroot
    have hmark : (group tag (before ++ node :: after)).isRoot = false := hroot
    refine @Keeps.of_content _ (.atom ['0']) hmark rfl rfl ?_
    rw [contentMeaning_group, hmeaning]
    exact contentMeaning_of_isZeroAtom rfl
  · rename_i hroot
    have hroot : tag.root = true := by simpa using hroot
    refine Keeps.of_children hshaped (Or.inr ⟨hroot, rfl⟩) (List.forall_mem_nil _)
      (Or.inr (List.forall_mem_nil _)) (List.forall_mem_nil _) (fun _ _ _ hnil ↦ by cases hnil) ?_
    rw [hmeaning, groupMeaning_nil]

/-- The group without the selected operands has the shape of the group. -/
theorem keeps_withoutSelected
    (hne : (before ++ node :: after).filter (fun other ↦ !other.isSelected selection) ≠ []) :
    ((group tag (before ++ node :: after)).withoutSelected selection).Keeps
      ((group tag (before ++ node :: after)).withoutSelected selection) := by
  have hmem : ∀ child ∈ (before ++ node :: after).filter fun other ↦ !other.isSelected selection,
      child ∈ before ++ node :: after := fun child hchild ↦ List.mem_of_mem_filter hchild
  have hall := ofSign_of_isShaped hshaped hfamily
  have hnone := isPending_of_family? hmarks hfamily hkind
  obtain ⟨-, hregular, hroot⟩ := isShaped_group_iff.1 hshaped
  obtain ⟨-, hmarksAll⟩ := marksInSums_group_iff.1 hmarks
  have hchain := isChain_of_family hne fun child hchild ↦ hall child (hmem child hchild)
  exact Keeps.refl
    (isShaped_group_iff.2 ⟨Or.inl hchain,
      fun child hchild ↦ hregular child (hmem child hchild), hroot⟩)
    (marksInSums_group_iff.2 ⟨Or.inr fun child hchild ↦ hnone child (hmem child hchild),
      fun child hchild ↦ hmarksAll child (hmem child hchild)⟩)

/-- Once it is examined, a product or a quotient with some operands replaced by an expression of the
same value can stand in the place of the one before, or else of the one without these operands. -/
theorem keeps_examined_replaced (he : expression.IsReplacement)
    (hfiller : Family.ofSign filler = kind)
    (hbefore : ∀ other ∈ before, other.isSelected selection = false)
    (hnode : node.isSelected selection = true)
    (hparts : kind = .quotient → (before ++ node :: after).length ≤ 2)
    (hmeaning : expression.meaning =
      groupMeaning ((before ++ node :: after).filter (isSelected selection))) :
    (if (group tag (before ++ node :: after)).losesSelected selection expression then
      (group tag (before ++ node :: after)).withoutSelected selection
    else group tag (before ++ node :: after)).Keeps
      (group tag (replaced selection filler expression before node after)).examined.2 := by
  have hself : node ∈ before ++ node :: after := List.mem_append_cons_self
  have hsettled := settled_takeOver he (isRegular_of_isShaped_group hshaped node hself)
    (ofSign_of_isShaped hshaped hfamily node hself) hkind
  rw [examined_replaced hkind hshaped hmarks hfamily he hfiller, losesSelected_eq hkind hfamily]
  cases hzero : expression.isZeroAtom && expression.sign != .minus with
  | false =>
    rw [hzero, if_neg Bool.false_ne_true] at hsettled
    obtain ⟨hne, hkeeps⟩ :=
      keeps_remaining hkind hshaped hmarks hfamily hbefore hnode hparts hmeaning hsettled
    rw [Bool.false_and, if_neg Bool.false_ne_true, if_neg fun h ↦ hne h.1]
    exact hkeeps
  | true =>
    -- the expression is dropped like the zeros, so the operands that are not selected are left
    rw [hzero, if_pos rfl] at hsettled
    have hremaining : remaining selection kind expression before node after =
        (before ++ node :: after).filter fun other ↦ !other.isSelected selection := by
      rw [remaining, hsettled, List.append_nil, filter_not_isSelected hbefore hnode]
    rw [hremaining, Bool.true_and]
    by_cases hempty :
      (before ++ node :: after).filter (fun other ↦ !other.isSelected selection) = []
    · have hselected : (before ++ node :: after).filter (isSelected selection) =
          before ++ node :: after := by
        refine List.filter_eq_self.2 fun other hmem ↦ ?_
        simpa using List.filter_eq_nil_iff.1 hempty other hmem
      have hvalue : groupMeaning (before ++ node :: after) = 0 := by
        rw [← hselected, ← hmeaning, meaning,
          contentMeaning_of_isZeroAtom (Bool.and_eq_true_iff.1 hzero).1, Meaning.signed_zero]
      have hkeeps := keeps_nothing hshaped hvalue
      rw [hempty, if_neg (by exact Bool.false_ne_true)]
      simpa using hkeeps
    · rw [if_pos (by simpa using hempty), if_neg fun h ↦ hempty h.1]
      exact keeps_withoutSelected hkind hshaped hmarks hfamily hempty

end Group

/-! ### How the group looks from above

The groups around the place must not notice the change before it is examined. -/

/-- A group with several operands shows the sign of the second one, so its text is not that of the
number one. -/
theorem exists_ne_one_of_several {children : List Node} (h : 1 < children.length) :
    ∃ c ∈ (group tag children).contentText, c ≠ '1' := by
  match children, h with
  | first :: second :: rest, _ =>
    have hsymbol : ∀ sign : Sign, sign.symbol ≠ '1' := fun sign ↦ by cases sign <;> decide
    have hlinks : second.sign.symbol ∈ linksText true (first :: second :: rest) := by
      rw [linksText, linksText]
      refine List.mem_append_right _ (List.mem_append_left _ (List.mem_append_left _ ?_))
      exact List.mem_singleton.2 rfl
    refine ⟨second.sign.symbol, ?_, hsymbol second.sign⟩
    rw [contentText]
    split
    · exact List.mem_cons_of_mem _ (List.mem_append_left _ hlinks)
    · exact hlinks

/-- A product or a quotient below a root resembles itself after the replacement. The groups above
look at its sign and its mark, at its family, and at whether it is the leaf `0` or is printed as
`1`, and they find what they found before. -/
theorem resembles_replaced (he : expression.IsReplacement) (hkind : kind ≠ .sum)
    (hshaped : (group tag (before ++ node :: after)).isShaped = true)
    (hfamily : (group tag (before ++ node :: after)).family? = some kind)
    (hfiller : Family.ofSign filler = kind) (hroot : tag.root = false)
    (hstable : IsStable tag (before ++ node :: after)) :
    (group tag (before ++ node :: after)).Resembles
      (group tag (replaced selection filler expression before node after)) where
  sign := rfl
  family := by
    rw [hfamily]
    exact family?_of_forall (List.append_ne_nil_of_right_ne_nil _ (List.cons_ne_nil _ _))
      (ofSign_replaced hkind hshaped hfamily he hfiller)
  pending := rfl
  notZero := rfl
  notOne := by
    have hlength : 1 < (before ++ node :: after).length := by
      refine (hstable.several hroot).resolve_right fun hminus ↦ hkind ?_
      have hself : node ∈ before ++ node :: after := List.mem_append_cons_self
      rw [← ofSign_of_isShaped hshaped hfamily node hself, hminus node hself]
      rfl
    refine exists_ne_one_of_several ?_
    rw [replaced, List.length_append, List.length_cons, List.length_map]
    rw [List.length_append, List.length_cons] at hlength
    exact hlength

/-- A group with replaced operands is not empty. -/
theorem fillRoot?_replaced :
    (group tag (replaced selection filler expression before node after)).fillRoot? = none :=
  fillRoot?_eq_none_iff.2 fun _ ↦ List.append_ne_nil_of_right_ne_nil _ (List.cons_ne_nil _ _)

end EquationSteps.Node
