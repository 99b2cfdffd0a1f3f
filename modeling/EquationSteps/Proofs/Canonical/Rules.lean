import EquationSteps.Proofs.Canonical.Inversion
import EquationSteps.Proofs.Meaning.Literal

/-!
# The rules keep the meaning

Each rule of normalization, applied to a shaped tree in which only terms are pending, gives a tree
that can stand in its place: `Node.Keeps` collects what that is. The sign may turn within its
family, and the root mark and the mark of pending stay where they are; the family of a root's
operands changes to terms only.

There is one exception. A root whose operands are factors loses its meaning when all of them are
dropped as ones, since an empty root stands for zero (`Node.of_prune_eq_emptiedRoot`).

**Why terms only.** A pending operand that is a zero is dropped when it is examined, since an edit
leaves zeros in the places of what it took out. Among terms that is sound whether the zero was such
a filler or not. Among factors it is not: a factor `0` that was typed in is dropped as well, and the
product loses its value. So the condition `marksInSums` is what separates the edits that keep an
equation equivalent from those that need not. It is `keeps_settle?` that needs it for the meaning;
the other rules have it only to hand it on.

**Meanings, not values.** The meaning of a tree is an element of the function field, or undefined
where something is divided by zero, and all operations are total on meanings. So a rule may be
followed by equations between meanings, with no case for the errors; that the failures of evaluation
are kept as well is part of what such an equation says.

The main lemmas, with what each rests on:

* `keeps_wrapRoot?`: a root with a term means what its term means;
* `keeps_settle?`: what a term leaves in a sum adds up to the term (`settled_sum`);
* `keeps_canonicalNumber?`: the answer of a faithful oracle means the literal;
* `keeps_regroup?`: dividing by several parts in turn (`groupMeaning_regroup`);
* `keeps_lift?` and `keeps_collapse?`: a group of one operand, and the sign that turns
  (`keeps_turned`);
* `keeps_prune`: ones in products and zeros in sums are neutral (`groupMeaning_filter_product`,
  `groupMeaning_filter_sum`).
-/

namespace EquationSteps.Node

/-- What a tree has in common with another one in whose place it can stand: it is shaped, its marks
are in sums, and its place, its family and its meaning are those of the other one. -/
structure Keeps (node node' : Node) : Prop where
  shaped : node'.isShaped = true
  marks : node'.marksInSums = true
  root : node'.isRoot = node.isRoot
  pending : node'.isPending = node.isPending
  family : Family.ofSign node'.sign = Family.ofSign node.sign
  rootFamily : node.isRoot = true → ∀ family, family ≠ .sum →
    node'.family? = some family → node.family? = some family
  meaning : node'.meaning = node.meaning

/-- A shaped tree in which only terms are pending can stand in its own place. -/
theorem Keeps.refl {node : Node} (hshaped : node.isShaped = true)
    (hmarks : node.marksInSums = true) :
    node.Keeps node :=
  ⟨hshaped, hmarks, rfl, rfl, rfl, fun _ _ _ h ↦ h, rfl⟩

theorem Keeps.trans {a b c : Node} (hab : a.Keeps b) (hbc : b.Keeps c) : a.Keeps c where
  shaped := hbc.shaped
  marks := hbc.marks
  root := hbc.root.trans hab.root
  pending := hbc.pending.trans hab.pending
  family := hbc.family.trans hab.family
  rootFamily hroot family hne hfamily :=
    hab.rootFamily hroot family hne (hbc.rootFamily (hab.root.trans hroot) family hne hfamily)
  meaning := hbc.meaning.trans hab.meaning

/-- The operands of a group may be exchanged for others of the same meaning. -/
theorem Keeps.of_children {tag : Tag} {children children' : List Node}
    (hnode : (group tag children).isShaped = true)
    (hchain : isChain children' = true ∨ tag.root = true ∧ children' = [])
    (hregular : ∀ child ∈ children', child.isRegular = true)
    (hmarks : (group tag children').family? = some .sum ∨
      ∀ child ∈ children', child.isPending = false)
    (hmarksAll : ∀ child ∈ children', child.marksInSums = true)
    (hfamily : tag.root = true → ∀ family, family ≠ .sum →
      (group tag children').family? = some family → (group tag children).family? = some family)
    (hmeaning : groupMeaning children' = groupMeaning children) :
    (group tag children).Keeps (group tag children') where
  shaped := isShaped_group_iff.2 ⟨hchain, hregular, (isShaped_group_iff.1 hnode).2.2⟩
  marks := marksInSums_group_iff.2 ⟨hmarks, hmarksAll⟩
  root := rfl
  pending := rfl
  family := rfl
  rootFamily := hfamily
  meaning := by
    rw [Node.meaning, Node.meaning, contentMeaning_group, contentMeaning_group, hmeaning]
    rfl

/-- Below a root the content of a node may be exchanged for another one of the same meaning. -/
theorem Keeps.of_content {node : Node} {content : Content} (hroot : node.isRoot = false)
    (hregular : (fresh .plus content).isRegular = true)
    (hmarks : (fresh .plus content).marksInSums = true)
    (hmeaning : (fresh .plus content).contentMeaning = node.contentMeaning) :
    node.Keeps (node.withContent content) := by
  have hcontent : (fresh .plus content).content = content := content_ofContent _ _
  have htag : (node.withContent content).tag = node.tag := tag_withContent _ _
  refine ⟨?_, ?_, congrArg Tag.root htag, congrArg Tag.pending htag, ?_, ?_, ?_⟩
  · rw [isShaped_iff_isRegular ((congrArg Tag.root htag).trans hroot), withContent, ← hcontent]
    exact isRegular_ofContent hroot hregular
  · rw [withContent, ← hcontent, marksInSums_ofContent]
    exact hmarks
  · exact congrArg (fun tag : Tag ↦ Family.ofSign tag.sign) htag
  · rw [hroot]
    exact fun h ↦ by cases h
  · have hsign : (node.withContent content).sign = node.sign := congrArg Tag.sign htag
    have hcontentMeaning := contentMeaning_ofContent node.tag (fresh .plus content)
    rw [hcontent] at hcontentMeaning
    rw [Node.meaning, Node.meaning, hsign, ← hmeaning, ← hcontentMeaning, withContent]

/-! ### Roots that are leaves

The sign of the leaf moves to the term, so the meaning stays where it was. -/

/-- A root that is a leaf means the same as the root with that leaf as its only term. -/
theorem keeps_wrapRoot? {node node' : Node} (hshaped : node.isShaped = true)
    (h : node.wrapRoot? = some node') : node.Keeps node' := by
  obtain ⟨tag, text, rfl, hroot, rfl⟩ := of_wrapRoot? h
  obtain ⟨htext, hsign⟩ : isOperandText text = true ∧ tag.sign.isAdditive = true := by
    simpa [isShaped, hroot] using hshaped
  have hfamily : Family.ofSign tag.sign = .sum := Family.ofSign_eq_sum_iff.2 hsign
  refine ⟨?_, ?_, rfl, rfl, ?_, fun _ family hne hfamily' ↦ ?_, ?_⟩
  · refine isShaped_group_iff.2 ⟨Or.inl rfl, ?_, fun _ ↦ rfl⟩
    exact List.forall_mem_singleton.2 (isRegular_atom_iff.2 ⟨rfl, htext⟩)
  · exact marksInSums_group_iff.2
      ⟨Or.inr (List.forall_mem_singleton.2 rfl), List.forall_mem_singleton.2 rfl⟩
  · exact hfamily.symm
  · exact absurd (Option.some.inj (hfamily'.symm.trans (congrArg some hfamily))) hne
  · show Meaning.signed .plus (contentMeaning (group _ [leaf tag.sign text])) = _
    rw [contentMeaning_group, groupMeaning_singleton, Meaning.signed_plus]
    rfl

/-! ### Substituted children

The one rule that looks at marks. A pending term leaves terms in the sum: none if it is a zero, its
own operands if it is a sum, with their signs turned under a minus, and else itself. -/

/-- A term in whose tree only terms are pending. -/
structure IsTerm (node : Node) : Prop where
  additive : node.sign.isAdditive = true
  regular : node.isRegular = true
  marks : node.marksInSums = true

/-- Whether a term is pending does not matter for its being one. -/
theorem IsTerm.withPending {node : Node} (h : node.IsTerm) (pending : Bool) :
    (node.withPending pending).IsTerm where
  additive := by
    cases node <;> exact h.additive
  regular := by
    rw [Node.withPending, isRegular_mapTag rfl]
    exact h.regular
  marks := by
    rw [Node.withPending, marksInSums_mapTag]
    exact h.marks

/-- Terms whose signs are turned are terms. -/
theorem IsTerm.flipSign {node : Node} (h : node.IsTerm) : node.flipSign.IsTerm where
  additive := by
    have hflipped : node.flipSign.sign = node.sign.flipped := by
      cases node <;> rfl
    rw [hflipped, Sign.isAdditive_flipped]
    exact h.additive
  regular := by
    rw [Node.flipSign, withSign, isRegular_mapTag rfl]
    exact h.regular
  marks := by
    rw [Node.flipSign, withSign, marksInSums_mapTag]
    exact h.marks

/-- The operands of a shaped group of terms. -/
theorem isAdditive_of_isShaped {tag : Tag} {children : List Node}
    (hshaped : (group tag children).isShaped = true)
    (hfamily : (group tag children).family? = some .sum) :
    ∀ child ∈ children, child.sign.isAdditive = true := fun child hmem ↦
  Family.ofSign_eq_sum_iff.1 (ofSign_of_isShaped hshaped hfamily child hmem)

/-- The operands of a sum are terms. -/
theorem isTerm_of_isShaped {tag : Tag} {children : List Node}
    (hshaped : (group tag children).isShaped = true)
    (hmarks : (group tag children).marksInSums = true)
    (hfamily : (group tag children).family? = some .sum) : ∀ child ∈ children, child.IsTerm :=
  fun child hmem ↦ ⟨isAdditive_of_isShaped hshaped hfamily child hmem,
    isRegular_of_isShaped_group hshaped child hmem, (marksInSums_group_iff.1 hmarks).2 child hmem⟩

/-- Turning the signs of terms negates their sum. -/
theorem sum_map_flipSign {terms : List Node} (h : ∀ term ∈ terms, term.IsTerm) :
    ((terms.map flipSign).map meaning).sum = -(terms.map meaning).sum := by
  have hflip : ∀ term ∈ terms, (meaning ∘ flipSign) term = -term.meaning := fun term hterm ↦
    meaning_flipSign (h term hterm).additive
  rw [List.map_map, List.map_congr_left hflip, Meaning.sum_map_neg]

/-- The operands of a sum that is a term, with the sign of the sum brought in, add up to it. -/
theorem settled_operands {node : Node} (h : node.IsTerm) (hfamily : node.family? = some .sum) :
    (∀ left ∈ if node.sign = .minus then node.children.map flipSign else node.children,
      left.IsTerm) ∧
      ((if node.sign = .minus then node.children.map flipSign else node.children).map meaning).sum =
        node.meaning := by
  cases node with
  | atom tag text => cases hfamily
  | group tag terms =>
    have hterms : ∀ term ∈ terms, term.IsTerm :=
      isTerm_of_isShaped ((isShaped_iff_isRegular (isRoot_of_isRegular h.regular)).2 h.regular)
        h.marks hfamily
    have hsum : (terms.map meaning).sum = contentMeaning (group tag terms) := by
      rw [contentMeaning_group, groupMeaning_of_terms fun term hmem ↦ (hterms term hmem).additive]
    split
    · rename_i hminus
      refine ⟨fun left hmem ↦ ?_, ?_⟩
      · obtain ⟨term, hterm, rfl⟩ := List.mem_map.1 hmem
        exact (hterms term hterm).flipSign
      · rw [meaning, hminus, Meaning.signed_minus, ← hsum]
        exact sum_map_flipSign hterms
    · rename_i hplus
      rw [meaning, Meaning.signed_of_ne hplus, ← hsum]
      exact ⟨hterms, rfl⟩

/-- What a term leaves in a sum once it is examined are terms again, and they add up to it. -/
theorem settled_sum {child : Node} (h : child.IsTerm) :
    (∀ left ∈ settled (some .sum) child, left.IsTerm) ∧
      ((settled (some .sum) child).map meaning).sum = child.meaning := by
  have hself : ∀ term : Node, term.IsTerm → (∀ left ∈ [term], left.IsTerm) ∧
      (([term]).map meaning).sum = term.meaning := fun term hterm ↦
    ⟨List.forall_mem_singleton.2 hterm, by simp⟩
  unfold settled
  split
  · have hmeaning := meaning_withPending false child
    have hexamined := h.withPending false
    generalize child.withPending false = examined at hmeaning hexamined
    rw [← hmeaning]
    dsimp only
    -- a zero goes, a sum leaves its terms, and everything else stays
    split
    · rename_i hzero
      refine ⟨fun _ h ↦ absurd h List.not_mem_nil, ?_⟩
      rw [meaning, contentMeaning_of_isZeroAtom hzero, Meaning.signed_zero]
      rfl
    · split
      · rename_i hsum
        exact settled_operands hexamined hsum.2.1
      · rw [if_neg (fun h ↦ by cases h.1)]
        exact hself examined hexamined
  · exact hself child h

/-- Sums of sums. -/
theorem sum_map_flatMap {α β : Type} (list : List α) (f : α → List β) (g : β → Meaning) :
    ((list.flatMap f).map g).sum = (list.map fun a ↦ ((f a).map g).sum).sum := by
  induction list with
  | nil => rfl
  | cons a list ih =>
    rw [List.flatMap_cons, List.map_append, List.sum_append, List.map_cons, List.sum_cons, ih]

/-- A group in which only terms are pending has no pending operand unless it is a sum. -/
theorem family?_of_isPending {tag : Tag} {children : List Node}
    (hmarks : (group tag children).marksInSums = true)
    (hpending : children.any isPending = true) : (group tag children).family? = some .sum := by
  rcases (marksInSums_group_iff.1 hmarks).1 with hsum | hnone
  · exact hsum
  · obtain ⟨child, hmem, hchild⟩ := List.any_eq_true.1 hpending
    rw [hnone child hmem] at hchild
    cases hchild

/-- A list of terms is the chain of a sum unless it is empty. -/
theorem isChain_of_isAdditive {nodes : List Node} (hne : nodes ≠ [])
    (h : ∀ node ∈ nodes, node.sign.isAdditive = true) : isChain nodes = true :=
  isChain_of_family hne fun node hmem ↦ Family.ofSign_eq_sum_iff.2 (h node hmem)

/-- Operands with additive signs make no other family than a sum. -/
theorem family?_of_isAdditive {tag : Tag} {children : List Node} {family : Family}
    (h : ∀ child ∈ children, child.sign.isAdditive = true)
    (hfamily : (group tag children).family? = some family) : family = .sum := by
  cases children with
  | nil => cases hfamily
  | cons first rest =>
    rw [← Option.some.inj hfamily]
    exact Family.ofSign_eq_sum_iff.2 (h first List.mem_cons_self)

/-- The operands of a group may be exchanged for terms that mean the same. -/
theorem Keeps.of_terms {tag : Tag} {children terms : List Node}
    (hshaped : (group tag children).isShaped = true) (hterms : ∀ term ∈ terms, term.IsTerm)
    (hne : terms ≠ [] ∨ tag.root = true)
    (hmeaning : (terms.map Node.meaning).sum = groupMeaning children) :
    (group tag children).Keeps (group tag terms) := by
  have hadditive : ∀ term ∈ terms, term.sign.isAdditive = true := fun term hmem ↦
    (hterms term hmem).additive
  have hsum : ∀ family, (group tag terms).family? = some family → family = .sum := fun family h ↦
    family?_of_isAdditive hadditive h
  refine Keeps.of_children hshaped ?_ (fun term hmem ↦ (hterms term hmem).regular) ?_
    (fun term hmem ↦ (hterms term hmem).marks)
    (fun _ family hnot h ↦ absurd (hsum family h) hnot) ?_
  · by_cases hnil : terms = []
    · exact Or.inr ⟨hne.resolve_left fun h ↦ h hnil, hnil⟩
    · exact Or.inl (isChain_of_isAdditive hnil hadditive)
  · cases terms with
    | nil => exact Or.inr (List.forall_mem_nil _)
    | cons first rest =>
      exact Or.inl (congrArg some (Family.ofSign_eq_sum_iff.2 (hadditive first List.mem_cons_self)))
  · rw [groupMeaning_of_terms hadditive, hmeaning]

/-- **Examining pending terms keeps the meaning.** The group is a sum, since something in it is
pending, and it is exchanged for what its terms leave. -/
theorem keeps_settle? {node node' : Node} (hshaped : node.isShaped = true)
    (hmarks : node.marksInSums = true) (h : node.settle? = some node') : node.Keeps node' := by
  obtain ⟨tag, operands, rfl, hpending, hcases⟩ := of_settle? h
  have hfamily := family?_of_isPending hmarks hpending
  have hterms := isTerm_of_isShaped hshaped hmarks hfamily
  have hmeaning : ((operands.flatMap (settled (some .sum))).map meaning).sum =
      groupMeaning operands := by
    rw [sum_map_flatMap, groupMeaning_of_terms fun child hmem ↦ (hterms child hmem).additive]
    exact congrArg List.sum
      (List.map_congr_left fun child hmem ↦ (settled_sum (hterms child hmem)).2)
  have hleft : ∀ left ∈ operands.flatMap (settled (some .sum)), left.IsTerm := by
    intro left hmem
    obtain ⟨child, hchild, hmem⟩ := List.mem_flatMap.1 hmem
    exact (settled_sum (hterms child hchild)).1 left hmem
  rw [hfamily] at hcases
  rcases hcases with ⟨hnil, hroot, rfl⟩ | ⟨hne, rfl⟩
  · rw [hnil] at hmeaning
    refine @Keeps.of_content (group tag operands) (.atom ['0']) hroot rfl rfl ?_
    rw [contentMeaning_group, ← hmeaning]
    exact contentMeaning_of_isZeroAtom rfl
  · exact Keeps.of_terms hshaped hleft hne hmeaning

/-! ### Numbers

Digits without their leading zeros are the same number, and a faithful oracle answers with the
number that it was asked for. -/

/-- A number may be rewritten below a root. At the root it would lose its place as a term, but a
leaf at the root is wrapped first. -/
theorem keeps_canonicalNumber? {rationalize : Text → Except ValueError Text} {node node' : Node}
    (hfaithful : IsFaithful rationalize) (hroot : node.isRoot = false)
    (h : node.canonicalNumber? rationalize = some node') : node.Keeps node' := by
  obtain ⟨tag, text, rfl, ⟨hinteger, -, rfl⟩ | ⟨hinteger, hdecimal, content, hcontent, rfl⟩⟩ :=
    of_canonicalNumber? h
  · have hcanonical := Numeral.isInteger_canonicalInteger hinteger
    refine @Keeps.of_content (atom tag text) (.atom (Numeral.canonicalInteger text)) hroot
      (isRegular_atom_iff.2 ⟨rfl, isOperandText_of_isInteger hcanonical⟩) rfl ?_
    show Meaning.ofValue (atomValue _) = Meaning.ofValue (atomValue text)
    rw [atomValue_of_isInteger hcanonical, atomValue_of_isInteger hinteger,
      Numeral.value_canonicalInteger]
  · obtain ⟨hregular, hfresh, hmeaning⟩ := hfaithful text content hdecimal hinteger hcontent
    exact Keeps.of_content hroot hregular (marksInSums_of_isNew (isNew_of_isFresh hfresh)) hmeaning

/-! ### Shape

Groups are split and dissolved, and no operand is lost. -/

/-- Below the root, and in it unless it holds terms, no operand is pending in a product or
quotient. -/
theorem isPending_of_family? {tag : Tag} {children : List Node} {family : Family}
    (hmarks : (group tag children).marksInSums = true)
    (hfamily : (group tag children).family? = some family) (hne : family ≠ .sum) :
    ∀ child ∈ children, child.isPending = false := by
  rcases (marksInSums_group_iff.1 hmarks).1 with hsum | hnone
  · exact absurd (Option.some.inj (hfamily.symm.trans hsum)) hne
  · exact hnone

/-- Dividing by one part after the other is dividing the quotient of all but the last by the
last. -/
theorem groupMeaning_regroup {first last : Node} {middle : List Node}
    (h : ∀ node ∈ first :: (middle ++ [last]), node.sign = .divide) :
    groupMeaning [branch .divide (first :: middle), last] =
      groupMeaning (first :: (middle ++ [last])) := by
  obtain ⟨hfirst, hrest⟩ := List.forall_mem_cons.1 h
  obtain ⟨hmiddle, hlast⟩ := List.forall_mem_append.1 hrest
  have hparts : ∀ node ∈ [branch .divide (first :: middle), last], node.sign = .divide :=
    List.forall_mem_cons.2 ⟨rfl, hlast⟩
  rw [groupMeaning_of_parts hparts, groupMeaning_of_parts h, branch, contentMeaning_group,
    groupMeaning_of_parts (List.forall_mem_cons.2 ⟨hfirst, hmiddle⟩), List.map_append,
    List.prod_append, mul_assoc]

/-- A quotient of several parts is the quotient of all but the last by the last. -/
theorem keeps_regrouped {tag : Tag} {first last : Node} {middle : List Node}
    (hshaped : (group tag (first :: (middle ++ [last]))).isShaped = true)
    (hmarks : (group tag (first :: (middle ++ [last]))).marksInSums = true)
    (hfamily : (group tag (first :: (middle ++ [last]))).family? = some .quotient) :
    (group tag (first :: (middle ++ [last]))).Keeps
      (group tag [branch .divide (first :: middle), last]) := by
  have hsigns := ofSign_of_isShaped hshaped hfamily
  have hdivide := fun child hmem ↦ Family.ofSign_eq_quotient_iff.1 (hsigns child hmem)
  have hregular := isRegular_of_isShaped_group hshaped
  have hpending := isPending_of_family? hmarks hfamily (by decide)
  have hmarksAll := (marksInSums_group_iff.1 hmarks).2
  have hsubset : ∀ child ∈ first :: middle, child ∈ first :: (middle ++ [last]) :=
    fun child hmem ↦ List.mem_append_left [last] hmem
  have hlast : last ∈ first :: (middle ++ [last]) :=
    List.mem_cons_of_mem _ (List.mem_append_right _ List.mem_cons_self)
  have hchain : isChain (first :: middle) = true :=
    isChain_iff.2 ⟨List.cons_ne_nil _ _, .quotient,
      fun child hmem ↦ hsigns child (hsubset child hmem)⟩
  have hfamily' : (group tag [branch .divide (first :: middle), last]).family? = some .quotient :=
    rfl
  refine Keeps.of_children hshaped (Or.inl ?_) ?_ (Or.inr ?_) ?_
    (fun _ family _ h ↦ by rw [← h, hfamily', hfamily]) (groupMeaning_regroup hdivide)
  · refine isChain_iff.2 ⟨List.cons_ne_nil _ _, .quotient, ?_⟩
    exact List.forall_mem_cons.2 ⟨rfl, List.forall_mem_singleton.2 (hsigns last hlast)⟩
  · refine List.forall_mem_cons.2 ⟨?_, List.forall_mem_singleton.2 (hregular last hlast)⟩
    exact isRegular_group_iff.2 ⟨rfl, hchain, fun child hmem ↦ hregular child (hsubset child hmem)⟩
  · exact List.forall_mem_cons.2 ⟨rfl, List.forall_mem_singleton.2 (hpending last hlast)⟩
  · refine List.forall_mem_cons.2 ⟨?_, List.forall_mem_singleton.2 (hmarksAll last hlast)⟩
    exact marksInSums_group_iff.2 ⟨Or.inr fun child hmem ↦ hpending child (hsubset child hmem),
      fun child hmem ↦ hmarksAll child (hsubset child hmem)⟩

/-- So a chain of divisions may be regrouped. -/
theorem keeps_regroup? {node node' : Node} (hshaped : node.isShaped = true)
    (hmarks : node.marksInSums = true) (h : node.regroup? = some node') : node.Keeps node' := by
  obtain ⟨tag, first, middle, last, rfl, -, hfamily, rfl⟩ := of_regroup? h
  exact keeps_regrouped hshaped hmarks hfamily

/-- A root means the sum of its terms, whether they stand in one sum with a plus or by
themselves. -/
theorem keeps_lift? {node node' : Node} (hshaped : node.isShaped = true)
    (hmarks : node.marksInSums = true) (h : node.lift? = some node') : node.Keeps node' := by
  obtain ⟨tag, onlyTag, terms, rfl, hsign, hfamily, rfl⟩ := of_lift? h
  have hregular := isRegular_of_isShaped_group hshaped _ List.mem_cons_self
  obtain ⟨-, hchain, hterms⟩ := isRegular_group_iff.1 hregular
  have hmarksAll := (marksInSums_group_iff.1 hmarks).2 _ List.mem_cons_self
  have hgroup : groupMeaning terms = groupMeaning [group onlyTag terms] := by
    rw [groupMeaning_singleton, meaning, sign, tag_group, hsign, Meaning.signed_plus,
      contentMeaning_group]
  exact Keeps.of_children hshaped (Or.inl hchain) hterms (Or.inl hfamily)
    (marksInSums_group_iff.1 hmarksAll).2
    (fun _ family hne h ↦ absurd (Option.some.inj (h.symm.trans hfamily)) hne) hgroup

/-- A group that holds one term with a minus is what the term holds, behind the opposite sign. -/
theorem keeps_turned {tag : Tag} {only : Node} (hroot : tag.root = false)
    (hregular : only.isRegular = true) (hmarks : only.marksInSums = true)
    (hadditive : tag.sign.isAdditive = true) (hminus : only.sign = .minus) :
    (group tag [only]).Keeps (ofContent { tag with sign := tag.sign.flipped } only.content) := by
  have htag := tag_ofContent { tag with sign := tag.sign.flipped } only.content
  have hrootTag :
      (ofContent { tag with sign := tag.sign.flipped } only.content).isRoot = tag.root := by
    rw [isRoot, htag]
  have hpendingTag :
      (ofContent { tag with sign := tag.sign.flipped } only.content).isPending = tag.pending := by
    rw [isPending, htag]
  have hgroup : contentMeaning (group tag [only]) = only.meaning := by
    rw [contentMeaning_group, groupMeaning_singleton]
  refine ⟨?_, ?_, hrootTag, hpendingTag, ?_, fun h ↦ ?_, ?_⟩
  · rw [isShaped_iff_isRegular (hrootTag.trans hroot)]
    exact isRegular_ofContent hroot hregular
  · rw [marksInSums_ofContent]
    exact hmarks
  · rw [sign, tag_ofContent]
    show Family.ofSign tag.sign.flipped = Family.ofSign tag.sign
    rw [Family.ofSign_eq_sum_iff.2 hadditive, Family.ofSign_eq_sum_iff, Sign.isAdditive_flipped,
      hadditive]
  · exact absurd (hroot.symm.trans h) Bool.false_ne_true
  · rw [meaning, sign, tag_ofContent, contentMeaning_ofContent, meaning, hgroup, meaning, hminus,
      Meaning.signed_minus, Meaning.signed_flipped hadditive]
    show -Meaning.signed tag.sign only.contentMeaning =
      Meaning.signed tag.sign (-only.contentMeaning)
    rw [Meaning.signed_neg]

/-- A group of one operand means what the operand means, and a minus may move from the operand to
the group. -/
theorem keeps_collapse? {node node' : Node} (hshaped : node.isShaped = true)
    (hmarks : node.marksInSums = true) (h : node.collapse? = some node') : node.Keeps node' := by
  rcases of_collapse? h with ⟨-, hlift⟩ | ⟨tag, only, rfl, hroot, hcases⟩
  · exact keeps_lift? hshaped hmarks hlift
  have hregular := isRegular_of_isShaped_group hshaped _ List.mem_cons_self
  have hmarksOnly := (marksInSums_group_iff.1 hmarks).2 _ List.mem_cons_self
  rcases hcases with ⟨hminus, hadditive, rfl⟩ | ⟨hminus, rfl⟩
  · exact keeps_turned hroot hregular hmarksOnly hadditive hminus
  · refine @Keeps.of_content (group tag [only]) only.content hroot
      (isRegular_ofContent rfl hregular) ?_ ?_
    · rw [fresh, marksInSums_ofContent]
      exact hmarksOnly
    · rw [fresh, contentMeaning_ofContent, contentMeaning_group, groupMeaning_singleton, meaning,
        Meaning.signed_of_ne hminus]

/-! ### Ones and zeros

A factor is dropped if it is printed as `1`, a term if it is the leaf `0`. Both tests are about
texts, so it has to be seen that such an operand means one, or zero, wherever it stands. -/

/-- Factors that are one may be dropped from a product. -/
theorem prod_map_filter {α M : Type} [CommMonoid M] {list : List α} {keep : α → Bool} {f : α → M}
    (h : ∀ a ∈ list, keep a = false → f a = 1) :
    ((list.filter keep).map f).prod = (list.map f).prod := by
  have hsplit := List.prod_map_filter_mul_prod_map_filter_not (fun a ↦ keep a = true) f list
  have hdropped : ((list.filter fun a ↦ ¬keep a = true).map f).prod = 1 := by
    refine List.prod_eq_one (List.forall_mem_map.2 fun a hmem ↦ ?_)
    obtain ⟨hmem, hkeep⟩ := List.mem_filter.1 hmem
    exact h a hmem (by simpa using hkeep)
  rw [hdropped, mul_one] at hsplit
  simpa using hsplit

/-- So may terms that are zero from a sum: this is the product over `Multiplicative`. -/
theorem sum_map_filter {α M : Type} [AddCommMonoid M] {list : List α} {keep : α → Bool} {f : α → M}
    (h : ∀ a ∈ list, keep a = false → f a = 0) :
    ((list.filter keep).map f).sum = (list.map f).sum :=
  @prod_map_filter α (Multiplicative M) _ list keep f h

/-- Only what means one is printed as `1`. -/
theorem contentMeaning_of_contentText {node : Node} (hregular : node.isRegular = true)
    (h : node.contentText = ['1']) : node.contentMeaning = 1 := by
  induction node using Node.induction with
  | atom tag text =>
    obtain rfl : text = ['1'] := h
    exact contentMeaning_one tag
  | group tag operands ih =>
    obtain ⟨-, hchain, hoperands⟩ := isRegular_group_iff.1 hregular
    rw [contentText] at h
    split at h
    · cases h
    · cases operands with
      | nil => cases hchain
      | cons first rest =>
        have hsign : ∀ sign : Sign, sign.symbol ∉ ['1'] := by
          intro sign
          cases sign <;> decide
        cases rest with
        | nil =>
          by_cases hminus : first.sign = .minus
          · rw [linksText, hminus] at h
            exact absurd (h ▸ List.mem_cons_self) (hsign .minus)
          · rw [linksText, linkSign_of_ne_minus hminus, linksText, List.nil_append,
              List.append_nil] at h
            rw [contentMeaning_group, groupMeaning_singleton, meaning, Meaning.signed_of_ne hminus]
            exact ih first List.mem_cons_self (hoperands first List.mem_cons_self) h
        | cons second rest =>
          refine absurd ?_ (hsign second.sign)
          rw [← h, linksText, linksText]
          simp [linkSign]

/-- What `prune` drops from a product means one. -/
theorem contentMeaning_of_toText {node : Node} (hregular : node.isRegular = true)
    (hsign : node.sign ≠ .minus) (h : node.toText = ['1']) : node.contentMeaning = 1 := by
  rw [toText_of_sign_ne_minus hsign] at h
  exact contentMeaning_of_contentText hregular h

/-- Dropping operands keeps the meaning where what is left means the same, and where it is the
identity that stands in for a group of which nothing is left. -/
theorem keeps_pruneBy {tag : Tag} {operands : List Node} {keep : Node → Bool} {identity : Text}
    {family : Family} (hshaped : (group tag operands).isShaped = true)
    (hmarks : (group tag operands).marksInSums = true)
    (hfamily : (group tag operands).family? = some family)
    (hkept : operands.filter keep ≠ [] →
      groupMeaning (operands.filter keep) = groupMeaning operands)
    (hidentity : isOperandText identity = true)
    (hnone : operands.filter keep = [] →
      contentMeaning (leaf .plus identity) = groupMeaning operands) {node' : Node}
    (h : pruneBy keep identity (group tag operands) = .changed node') :
    (group tag operands).Keeps node' := by
  have hregular := isRegular_of_isShaped_group hshaped
  have hmarksAll := (marksInSums_group_iff.1 hmarks).2
  have hsigns := ofSign_of_isShaped hshaped hfamily
  rcases of_pruneBy_eq_changed h with ⟨hroot, hnil, rfl⟩ | ⟨hne, rfl⟩
  · refine Keeps.of_content hroot (isRegular_atom_iff.2 ⟨rfl, hidentity⟩) rfl ?_
    rw [contentMeaning_group, ← hnone hnil]
    rfl
  · have hne : operands.filter keep ≠ [] := hne
    have hmem : ∀ child ∈ operands.filter keep, child ∈ operands := fun child hchild ↦
      List.mem_of_mem_filter hchild
    have hfamily' : (group tag (operands.filter keep)).family? = some family :=
      family?_of_forall hne fun child hchild ↦ hsigns child (hmem child hchild)
    refine Keeps.of_children hshaped
      (Or.inl (isChain_of_family hne fun child hchild ↦ hsigns child (hmem child hchild)))
      (fun child hchild ↦ hregular child (hmem child hchild)) ?_
      (fun child hchild ↦ hmarksAll child (hmem child hchild))
      (fun _ other _ h ↦ (hfamily.trans hfamily'.symm).trans h) (hkept hne)
    rcases (marksInSums_group_iff.1 hmarks).1 with hsum | hpending
    · exact Or.inl ((hfamily'.trans hfamily.symm).trans hsum)
    · exact Or.inr fun child hchild ↦ hpending child (hmem child hchild)

/-- The factors `1` of a product may be dropped. -/
theorem groupMeaning_filter_product {tag : Tag} {operands : List Node}
    (hshaped : (group tag operands).isShaped = true)
    (hfamily : (group tag operands).family? = some .product) :
    ((operands.filter fun child ↦ child.toText != ['1']).map contentMeaning).prod =
      groupMeaning operands := by
  have htimes : ∀ child ∈ operands, child.sign = .times := fun child hmem ↦
    Family.ofSign_eq_product_iff.1 (ofSign_of_isShaped hshaped hfamily child hmem)
  have hne : operands ≠ [] := by
    rintro rfl
    cases hfamily
  rw [groupMeaning_of_factors hne htimes]
  refine prod_map_filter fun child hmem hdropped ↦ ?_
  exact contentMeaning_of_toText (isRegular_of_isShaped_group hshaped child hmem)
    (by rw [htimes child hmem]; decide) (by simpa using hdropped)

/-- The terms `0` of a sum may be dropped. -/
theorem groupMeaning_filter_sum {tag : Tag} {operands : List Node}
    (hshaped : (group tag operands).isShaped = true)
    (hfamily : (group tag operands).family? = some .sum) :
    groupMeaning (operands.filter fun child ↦ !child.isZeroAtom) = groupMeaning operands := by
  have hadditive := isAdditive_of_isShaped hshaped hfamily
  rw [groupMeaning_of_terms fun child hmem ↦ hadditive child (List.mem_of_mem_filter hmem),
    groupMeaning_of_terms hadditive]
  refine sum_map_filter fun child hmem hdropped ↦ ?_
  rw [meaning, contentMeaning_of_isZeroAtom (by simpa using hdropped), Meaning.signed_zero]

/-- **Dropping ones and zeros keeps the meaning**, as long as the node is not a root that is
emptied. -/
theorem keeps_prune {node node' : Node} (hshaped : node.isShaped = true)
    (hmarks : node.marksInSums = true) (h : node.prune = .changed node') : node.Keeps node' := by
  cases node with
  | atom tag text => cases h
  | group tag operands =>
    rcases prune_cases (group tag operands) with hnone | ⟨hfamily, hprune⟩ | ⟨hfamily, hprune⟩
    · cases hnone.symm.trans h
    · have hprod := groupMeaning_filter_product hshaped hfamily
      have hsigns := ofSign_of_isShaped hshaped hfamily
      refine keeps_pruneBy hshaped hmarks hfamily (fun hne ↦ ?_) rfl (fun hnone ↦ ?_)
        (hprune.symm.trans h)
      · rw [← hprod]
        exact groupMeaning_of_factors hne fun child hmem ↦
          Family.ofSign_eq_product_iff.1 (hsigns child (List.mem_of_mem_filter hmem))
      · rw [← hprod, hnone]
        exact contentMeaning_one _
    · have hsum := groupMeaning_filter_sum hshaped hfamily
      refine keeps_pruneBy hshaped hmarks hfamily (fun _ ↦ hsum) rfl (fun hnone ↦ ?_)
        (hprune.symm.trans h)
      rw [← hsum, hnone, groupMeaning_nil]
      exact contentMeaning_of_isZeroAtom rfl

/-- A root that loses all of its operands gets the term `0`, which is what it meant unless its
operands were factors. These come to one. -/
theorem of_prune_eq_emptiedRoot {node node' : Node} (hshaped : node.isShaped = true)
    (h : node.prune = .emptiedRoot node') : node.isRoot = true ∧
      node' = node.withContent (.group [zeroTerm]) ∧
        (node.Keeps node' ∨ node.family? = some .product ∧ node.meaning = 1) := by
  cases node with
  | atom tag text => cases h
  | group tag operands =>
    rcases prune_cases (group tag operands) with hnone | ⟨hfamily, hprune⟩ | ⟨hfamily, hprune⟩
    · cases hnone.symm.trans h
    · obtain ⟨hroot, hnone, hnode'⟩ := of_pruneBy_eq_emptiedRoot (hprune.symm.trans h)
      have hone : groupMeaning operands = 1 := by
        have hnone : operands.filter (fun child ↦ child.toText != ['1']) = [] := hnone
        rw [← groupMeaning_filter_product hshaped hfamily, hnone]
        rfl
      have hsign : tag.sign = .plus := (isShaped_group_iff.1 hshaped).2.2 hroot
      refine ⟨hroot, hnode', Or.inr ⟨hfamily, ?_⟩⟩
      rw [meaning, contentMeaning_group, hone, sign, tag_group, hsign, Meaning.signed_plus]
    · obtain ⟨hroot, hnone, rfl⟩ := of_pruneBy_eq_emptiedRoot (hprune.symm.trans h)
      refine ⟨hroot, rfl, Or.inl ?_⟩
      have hgroup : groupMeaning [zeroTerm] = groupMeaning operands := by
        have hnone : operands.filter (fun child ↦ !child.isZeroAtom) = [] := hnone
        rw [← groupMeaning_filter_sum hshaped hfamily, hnone, groupMeaning_nil,
          groupMeaning_singleton, meaning, contentMeaning_of_isZeroAtom rfl, Meaning.signed_zero]
      refine Keeps.of_children hshaped (Or.inl rfl) (List.forall_mem_singleton.2 rfl)
        (Or.inl rfl) (List.forall_mem_singleton.2 rfl)
        (fun _ family hne hfamily' ↦ absurd (Option.some.inj hfamily').symm hne) hgroup

end EquationSteps.Node
