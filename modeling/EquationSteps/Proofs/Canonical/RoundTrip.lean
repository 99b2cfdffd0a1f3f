import EquationSteps.Proofs.Canonical.Form
import EquationSteps.Proofs.Reading.Root

/-!
# The round trip of canonical text

The text of a canonical side with terms is read back as that side, or, if its only term is a leaf
with a minus, as that leaf, which one pass wraps again (`Node.eq_or_eq_of_readsRoot`). So reading
the text of the side and normalizing it gives the side again, and with it the text.

A side may also hold factors or the parts of a quotient, since that is how a product or a quotient
in two or more pairs of parentheses is read. The text of such a side is read as a side with terms,
so the round trip fails. **The round trip succeeds exactly for sides with terms**
(`Node.normalize_read_toText_iff`).

**What a side is here** (`Node.IsSide`): a root of new nodes, shaped, to which no rule applies. That
is what normalization leaves of a tree that was read (`Node.isSide_of_normalize`). The four
conditions determine the tag of the root, so a side is known by its operands (`IsSide.eq_withRoot`),
and reading makes new nodes that carry no marks, so a regular operand that is read back is the
operand it was (`IsSide.child`).

**Where the family is lost.** Reading a root strips one pair of parentheses around the whole text
and goes on with what is inside. If that is itself in parentheses, it is read below the root, and
its operands become those of the root. Canonical text has at most one such pair (`IsSide.shows`), so
it is always read as a root of terms; a text that was typed may have more. The second half of the
theorem says that nothing else leads to sides of factors (`exists_enclosed_of_normalize`).

The text is assumed to be read again. Whether it is depends on how deeply it nests, and is the
subject of another module: normalization may nest a chain of divisions more deeply than it was
typed.
-/

namespace EquationSteps.Node

variable {rationalize : Text → Except ValueError Text} {limits : Limits}

/-! ### Reading a canonical side

By the three kinds of side: a single leaf, a single group, several operands. -/

/-- The text of a shaped root is the one of its operands. -/
theorem toText_of_root {tag : Tag} {children : List Node}
    (hshaped : (group tag children).isShaped = true) (hroot : tag.root = true) :
    (group tag children).toText = linksText true children := by
  have hsign : tag.sign = .plus := (isShaped_group_iff.1 hshaped).2.2 hroot
  have hne : (group tag children).sign ≠ .minus := by
    show tag.sign ≠ .minus
    rw [hsign]
    decide
  have hparenthesized : isParenthesized tag children = false := by
    rw [isParenthesized, hroot]
    rfl
  rw [toText_of_sign_ne_minus hne, contentText, hparenthesized]
  rfl

/-- A side as normalization leaves it: a root of new nodes, to which no rule applies. -/
structure IsSide (rationalize : Text → Except ValueError Text) (node : Node) : Prop where
  /-- It has the shape of a side. -/
  shaped : node.isShaped = true
  /-- It is marked as a root. -/
  root : node.isRoot = true
  /-- No node has an identity or is pending. -/
  new : node.everyTag Tag.isNew = true
  /-- No rule applies to any of its nodes. -/
  canonical : node.IsCanonical rationalize

/-- Normalization that settles makes a side of a new root. -/
theorem isSide_of_normalize {node node' : Node} {passes : Nat} (hfaithful : IsFaithful rationalize)
    (hshaped : node.isShaped = true) (hroot : node.isRoot = true)
    (hnew : node.everyTag Tag.isNew = true)
    (h : node.normalize rationalize limits = (.ok passes, node')) : node'.IsSide rationalize := by
  have hmarks := marksInSums_of_isNew hnew
  have hnew' : (node.normalize rationalize limits).2.everyTag Tag.isNew = true :=
    everyTag_normalize isLasting_isNew hnew
  rw [h] at hnew'
  have hcanonical := isCanonical_of_settles (everyTagBelow_of_isShaped hshaped) h
  rcases keeps_normalize hfaithful hshaped hmarks h with hkeeps | hemptied
  · exact ⟨hkeeps.shaped, hkeeps.root.trans hroot, hnew', hcanonical⟩
  · exact ⟨hemptied.zero.shaped, hemptied.zero.root, hnew', hcanonical⟩

namespace IsSide

variable {tag : Tag} {children : List Node}

/-- The operands of a side are regular and compact, and new, so reading them back gives them
again. -/
theorem child (h : (group tag children).IsSide rationalize) : ∀ child ∈ children,
    child.isRegular = true ∧ child.isCompact = true ∧ child.remade = child := by
  intro child hmem
  have hregular := isRegular_of_isShaped_group h.shaped child hmem
  have hcanonical := (isCanonical_iff.1 h.canonical).2 child hmem
  exact ⟨hregular, hcanonical.isCompact hregular,
    remade_eq_self hregular ((everyTag_group_iff.1 h.new).2 child hmem)⟩

/-- So they are all read back as they were. -/
theorem map_remade (h : (group tag children).IsSide rationalize) :
    children.map remade = children :=
  (List.map_congr_left fun child hmem ↦ (h.child child hmem).2.2).trans (List.map_id _)

/-- The tag of a side is the one of a new group, and the mark of a root. -/
theorem eq_withRoot (h : (group tag children).IsSide rationalize) :
    group tag children = (branch .plus children).withRoot true := by
  have hroot : tag.root = true := h.root
  have hsign : tag.sign = .plus := (isShaped_group_iff.1 h.shaped).2.2 hroot
  have hnew : tag.isNew = true := (everyTag_group_iff.1 h.new).1
  obtain ⟨id, sign, root, pending⟩ := tag
  cases id <;> cases pending <;> simp_all [Tag.isNew, withRoot, branch, mapTag, Tag.fresh]

/-- What is read as a root of these operands is the side, once the mark of a root is put on. -/
theorem eq_of_read {read : Node} (h : (group tag children).IsSide rationalize)
    (hread : read = branch .plus (children.map remade)) :
    read.withRoot true = group tag children := by
  rw [hread, h.map_remade, h.eq_withRoot]

/-- A leaf that is the only term of a side is read as the side, or as itself if it has a minus. -/
theorem eq_or_eq_of_leaf {read : Node} {onlyTag : Tag} {text : Text}
    (h : (group tag [.atom onlyTag text]).IsSide rationalize)
    (hadditive : onlyTag.sign.isAdditive = true)
    (hread : ReadsRoot (linksText true [.atom onlyTag text]) read) :
    read.withRoot true = group tag [.atom onlyTag text] ∨
      onlyTag.sign = .minus ∧ read = leaf .minus text := by
  obtain ⟨hregular, -, hremade⟩ := h.child _ List.mem_cons_self
  have htext : isOperandText text = true := (isRegular_atom_iff.1 hregular).2
  have hleaf : leaf onlyTag.sign text = .atom onlyTag text := hremade
  by_cases hminus : onlyTag.sign = .minus
  · have hlinks : linksText true [.atom onlyTag text] = '-' :: text := by
      simp [linksText, contentText, linkSign, sign, hminus, Sign.symbol]
    rw [hlinks] at hread
    exact Or.inr ⟨hminus, hread.eq_of_minus htext⟩
  · have hplus := Sign.eq_plus_of_ne_minus hadditive hminus
    have hsign : (atom onlyTag text).sign ≠ .minus := hminus
    rw [← toText_eq, toText_of_sign_ne_minus hsign] at hread
    have hread : ReadsRoot text read := hread
    refine Or.inl (h.eq_of_read ?_)
    rw [hread.eq_of_operand htext, h.map_remade, ← hleaf, hplus]

/-- A group that is the only term of a side is read as the side. Without a minus it is no sum, since
the side would have been lifted. -/
theorem eq_of_group {read : Node} {onlyTag : Tag} {operands : List Node}
    (h : (group tag [.group onlyTag operands]).IsSide rationalize)
    (hadditive : onlyTag.sign.isAdditive = true)
    (hread : ReadsRoot (linksText true [.group onlyTag operands]) read) :
    read.withRoot true = group tag [.group onlyTag operands] := by
  have hroot : tag.root = true := h.root
  have hregular := fun child hmem ↦ (h.child child hmem).1
  have hcompact := fun child hmem ↦ (h.child child hmem).2.1
  have honly := hregular _ List.mem_cons_self
  have hcompactOnly := hcompact _ List.mem_cons_self
  have hsigns : ∀ child ∈ [group onlyTag operands], Family.ofSign child.sign = .sum :=
    List.forall_mem_singleton.2 (Family.ofSign_eq_sum_iff.2 hadditive)
  refine h.eq_of_read ?_
  by_cases hminus : onlyTag.sign = .minus
  · have hclassify := classify_linksText hsigns hregular (List.cons_ne_nil _ _)
      (Or.inr (List.forall_mem_singleton.2 hminus))
    obtain ⟨c, hmem, hc⟩ := exists_isOperator honly hcompactOnly
    have hnegated : negated? (linksText true [.group onlyTag operands]) = none := by
      refine negated?_of_isOperator ?_ hc
      simpa [linksText, linkSign, sign, hminus] using hmem
    exact hread.eq_of_sum hnegated hclassify (List.cons_ne_nil _ _) hsigns hregular hcompact
  · have hplus := Sign.eq_plus_of_ne_minus hadditive hminus
    have hsign : (group onlyTag operands).sign ≠ .minus := hminus
    rw [← toText_eq, toText_of_sign_ne_minus hsign] at hread
    obtain ⟨family, hfamily⟩ : ∃ family, (group onlyTag operands).family? = some family :=
      exists_family?_of_isChain (isRegular_group_iff.1 honly).2.1
    have hne : family ≠ .sum := by
      rintro rfl
      have hsingle := (isIdle_group_iff.1 (isCanonical_iff.1 h.canonical).1).single _ rfl
      rw [if_pos hroot] at hsingle
      exact hsingle ⟨hplus, hfamily⟩
    exact hread.eq_of_factors hplus honly hcompactOnly hfamily hne

/-- **The text of a canonical side with terms is read as the side**, or as the leaf with a minus
that is its only term. -/
theorem eq_or_eq_of_readsRoot {read : Node} (h : (group tag children).IsSide rationalize)
    (hfamily : (group tag children).family? = some .sum)
    (hread : ReadsRoot (linksText true children) read) :
    read.withRoot true = group tag children ∨
      ∃ text, children = [leaf .minus text] ∧ read = leaf .minus text := by
  have hsigns := ofSign_of_isShaped h.shaped hfamily
  match children with
  | [] => cases hfamily
  | [.atom onlyTag text] =>
    have hadditive := Family.ofSign_eq_sum_iff.1 (hsigns _ List.mem_cons_self)
    refine (h.eq_or_eq_of_leaf hadditive hread).imp_right fun ⟨hminus, hleaf⟩ ↦ ⟨text, ?_, hleaf⟩
    have hremade : leaf onlyTag.sign text = .atom onlyTag text := (h.child _ List.mem_cons_self).2.2
    rw [← hremade, hminus]
  | [.group onlyTag operands] =>
    exact Or.inl (h.eq_of_group (Family.ofSign_eq_sum_iff.1 (hsigns _ List.mem_cons_self)) hread)
  | first :: second :: rest =>
    -- a text with several terms is a sum whether or not the first one has a minus
    have hregular := fun child hmem ↦ (h.child child hmem).1
    have hcompact := fun child hmem ↦ (h.child child hmem).2.1
    have hclassify := classify_linksText hsigns hregular (List.cons_ne_nil _ _) (Or.inl (by simp))
    exact Or.inl (h.eq_of_read (hread.eq_of_sum (negated?_linksText (hregular _ List.mem_cons_self))
      hclassify (List.cons_ne_nil _ _) hsigns hregular hcompact))

/-- The text of a canonical side is an expression. -/
theorem isExpression_toText (h : (group tag children).IsSide rationalize) :
    IsExpression (group tag children).toText ∧
      (group tag children).toText.scanned = linksText true children := by
  obtain ⟨tag', first, rest, heq⟩ := (isCanonical_iff.1 h.canonical).1.exists_group h.root
  cases heq
  obtain ⟨family, hfamily⟩ : ∃ family, (group tag (first :: rest)).family? = some family :=
    ⟨_, rfl⟩
  have hchain := isChain_of_isShaped h.shaped (List.cons_ne_nil first rest)
  have hsigns := ofSign_of_isChain hchain hfamily
  have hlinks := generates_linksText (List.cons_ne_nil _ _) hsigns fun child hmem ↦
    hsigns child hmem ▸ generates_contentText (h.child child hmem).1
  have hscanned := hlinks.sum_of_category.scanned_eq
  rw [toText_of_root h.shaped h.root, IsExpression, hscanned]
  exact ⟨hlinks.sum_of_category, rfl⟩

end IsSide

/-! ### Normalizing what is read

Either the side is read at once, and normalization finds nothing to do, or a leaf is read that one
pass wraps. -/

/-- A leaf with a minus at the root is wrapped by the first pass, and then nothing is left to do. -/
theorem normalize_leaf_minus {text : Text}
    (h : ((branch .plus [leaf .minus text]).withRoot true).IsCanonical rationalize)
    (hlimits : 2 ≤ limits.passes) :
    ((leaf .minus text).withRoot true).normalize rationalize limits =
      (.ok 1, (branch .plus [leaf .minus text]).withRoot true) := by
  obtain ⟨hidle, hall⟩ := isCanonical_iff.1 h
  have hwrapped : attempt wrapRoot? (false, (leaf .minus text).withRoot true) =
      (true, (branch .plus [leaf .minus text]).withRoot true) := rfl
  generalize (branch .plus [leaf .minus text]).withRoot true = side at h hidle hall hwrapped
  have hrewritten : ((leaf .minus text).withRoot true).rewritten rationalize = (true, side) := by
    have hrest : ∀ {rule : Node → Option Node}, rule side = none →
        attempt rule (true, side) = (true, side) := fun hrule ↦ attempt_of_eq_none hrule
    rw [rewritten, examined, hwrapped, hrest hidle.settle, hrest hidle.canonicalNumber,
      hrest hidle.regroup, hrest hidle.collapse]
  have hreshape : ((leaf .minus text).withRoot true).reshape rationalize = .opened true side := by
    rw [reshape_eq, hrewritten, hidle.prune]
    rfl
  have hpass : ((leaf .minus text).withRoot true).pass rationalize = (true, side) := by
    have hchildren : ∀ reach, side.children.map (passWithin rationalize reach) =
        side.children.map fun child ↦ (false, child) := fun reach ↦
      List.map_congr_left fun child hmem ↦ (hall child hmem).passWithin reach
    obtain ⟨reach, hreach⟩ : ∃ reach,
        ((leaf .minus text).withRoot true).weight + answerReach = reach + 1 := by
      have hpos := weight_pos ((leaf .minus text).withRoot true)
      exact Nat.exists_eq_add_one_of_ne_zero (by omega)
    rw [pass, hreach, passWithin, hreshape]
    simp [hchildren, Function.comp_def]
  obtain ⟨left, hleft⟩ := Nat.exists_eq_add_of_le hlimits
  rw [normalize, hleft, Nat.add_comm, normalizeFrom, hpass]
  dsimp only
  rw [normalizeFrom, pass, h.passWithin]

/-- The family of a tree is part of its structure. -/
theorem family?_of_sameStructure {node node' : Node} (h : node'.sameStructure node = true) :
    node'.family? = node.family? := by
  cases node with
  | atom tag text =>
    cases node' with
    | atom tag' text' => rfl
    | group tag' children' => cases h
  | group tag children =>
    cases node' with
    | atom tag' text' => cases h
    | group tag' children' =>
      rw [sameStructure, Bool.and_eq_true_iff] at h
      cases children with
      | nil =>
        cases children' with
        | nil => rfl
        | cons first' rest' => cases h.2
      | cons first rest =>
        cases children' with
        | nil => cases h.2
        | cons first' rest' =>
          rw [sameStructures, Bool.and_eq_true_iff] at h
          have hsign : first'.sign = first.sign := by
            have hfirst := h.2.1
            cases first <;> cases first' <;> simp_all [sameStructure, sign]
          exact congrArg (fun sign ↦ some (Family.ofSign sign)) hsign

/-- The text of a side without terms shows the family of the side or of its only operand, within one
pair of parentheses at most. So it is read as a root with terms, and not as the side that it was
printed for. -/
theorem IsSide.shows {tag : Tag} {children : List Node} {family : Family}
    (h : (group tag children).IsSide rationalize)
    (hfamily : (group tag children).family? = some family) (hne : family ≠ .sum) :
    (∃ family, classify (stripParentheses (linksText true children)) = some family) ∨
      (stripParentheses (linksText true children)).any isStructural = false := by
  have hnonempty : children ≠ [] := by
    rintro rfl
    cases hfamily
  have hchain := isChain_of_isShaped h.shaped hnonempty
  have hsigns := ofSign_of_isChain hchain hfamily
  have hregular := fun child hmem ↦ (h.child child hmem).1
  match children with
  | [] => cases hfamily
  | [only] =>
    have hminus : only.sign ≠ .minus := fun hminus ↦ hne (by
      rw [← hsigns only List.mem_cons_self, hminus]
      rfl)
    rw [← toText_eq, toText_of_sign_ne_minus hminus]
    have honly := hregular only List.mem_cons_self
    cases only with
    | atom onlyTag text =>
      have hleaf := any_isStructural_of_operand (isRegular_atom_iff.1 honly).2
      refine Or.inr ?_
      rw [contentText, (of_not_isStructural hleaf).2.1]
      exact hleaf
    | group onlyTag operands =>
      obtain ⟨inner, hinner⟩ : ∃ inner, (group onlyTag operands).family? = some inner :=
        exists_family?_of_isChain (isRegular_group_iff.1 honly).2.1
      obtain ⟨hclassify, hstrip⟩ :=
        classify_contentText honly (h.child _ List.mem_cons_self).2.1 hinner
      exact Or.inl ⟨inner, hstrip ▸ hclassify⟩
  | first :: second :: rest =>
    have hclassify := classify_linksText hsigns hregular (List.cons_ne_nil _ _)
      (Or.inl (by simp))
    exact Or.inl ⟨family, by rw [stripParentheses_of_classify hclassify, hclassify]⟩

/-- Normalization leaves a root without terms only of an expression in two pairs of parentheses. -/
theorem exists_enclosed_of_normalize {text : Text} {node side : Node} {passes : Nat}
    (htext : IsExpression text) (hread : Node.read limits text true = .ok node)
    (hside : node.normalize Oracle.exactFraction limits = (.ok passes, side))
    (hne : side.family? ≠ some .sum) :
    ∃ inside, text.scanned = '(' :: '(' :: (inside ++ [')', ')']) := by
  obtain ⟨hshaped, hroot, hnew⟩ := of_read_root htext hread
  have hcanonical := isSide_of_normalize isFaithful_exactFraction hshaped hroot hnew hside
  obtain ⟨tag, first, rest, rfl⟩ :=
    (isCanonical_iff.1 hcanonical.canonical).1.exists_group hcanonical.root
  have hfamily : node.family? = some (.ofSign first.sign) := by
    rcases keeps_normalize isFaithful_exactFraction hshaped (marksInSums_of_isNew hnew) hside with
      hkeeps | hemptied
    · exact hkeeps.rootFamily hroot _ (fun hsum ↦ hne (congrArg some hsum)) rfl
    · refine absurd ?_ hne
      cases hemptied.zero.content
      rfl
  obtain ⟨inner, rfl, hbuild⟩ := exists_of_read hread
  rw [family?, withRoot, children_mapTag] at hfamily
  exact (ReadsRoot.of_build hbuild).exists_enclosed htext hfamily
    fun hsum ↦ hne (congrArg some hsum)

/-- **The round trip of canonical text**, for an expression that is read as a root and normalized,
and of which the canonical text is read again. Reading and normalizing once more gives the same
structure and the same text, if and only if the canonical side holds terms. It may fail to hold
terms only if the expression stands in two pairs of parentheses. -/
theorem normalize_read_toText_iff {text : Text} {node side again : Node} {passes : Nat}
    (hlimits : 2 ≤ limits.passes) (htext : IsExpression text)
    (hread : Node.read limits text true = .ok node)
    (hside : node.normalize Oracle.exactFraction limits = (.ok passes, side))
    (hagain : Node.read limits side.toText true = .ok again) :
    ((∃ passes' side', again.normalize Oracle.exactFraction limits = (.ok passes', side') ∧
      side'.sameStructure side = true ∧ side'.toText = side.toText) ↔ side.family? = some .sum) ∧
        (side.family? ≠ some .sum →
          ∃ inside, text.scanned = '(' :: '(' :: (inside ++ [')', ')'])) := by
  obtain ⟨hshaped, hroot, hnew⟩ := of_read_root htext hread
  have hcanonical := isSide_of_normalize isFaithful_exactFraction hshaped hroot hnew hside
  obtain ⟨tag, first, rest, rfl⟩ :=
    (isCanonical_iff.1 hcanonical.canonical).1.exists_group hcanonical.root
  obtain ⟨hexpression, hscanned⟩ := hcanonical.isExpression_toText
  obtain ⟨inner, hinner, hbuild⟩ := exists_of_read hagain
  rw [hscanned] at hbuild
  have hreads := ReadsRoot.of_build hbuild
  refine ⟨⟨?_, ?_⟩, exists_enclosed_of_normalize htext hread hside⟩
  · rintro ⟨passes', side', hagainSide, hsame, -⟩
    obtain ⟨family, hfamily⟩ : ∃ family, (group tag (first :: rest)).family? = some family :=
      ⟨_, rfl⟩
    refine Decidable.byContradiction fun hne ↦ ?_
    have hne : family ≠ .sum := fun hsum ↦ hne (hsum ▸ hfamily)
    -- what is read from the text of the side holds nothing but terms, and normalization keeps that
    have hterms : ∀ family, again.family? = some family → family = .sum := by
      intro other hother
      rw [hinner, family?, withRoot, children_mapTag] at hother
      refine hreads.family?_eq_sum ?_ (hcanonical.shows hfamily hne) hother
      rw [← hscanned]
      exact hexpression
    obtain ⟨hshaped', hroot', hnew'⟩ := of_read_root hexpression hagain
    have hmarks' := marksInSums_of_isNew hnew'
    have hfamily' : side'.family? = some family := (family?_of_sameStructure hsame).trans hfamily
    rcases keeps_normalize isFaithful_exactFraction hshaped' hmarks' hagainSide with
      hkeeps | hemptied
    · exact hne (hterms family (hkeeps.rootFamily hroot' family hne hfamily'))
    · cases hterms _ hemptied.family
  · intro hfamily
    rcases hcanonical.eq_or_eq_of_readsRoot hfamily hreads with hsame | ⟨leafText, hterms, hleaf⟩
    · rw [hinner, hsame]
      exact ⟨0, _, hcanonical.canonical.normalize (by omega), sameStructure_refl _, rfl⟩
    · rw [hinner, hleaf]
      have hwrapped := hcanonical.eq_withRoot
      rw [hterms] at hwrapped hcanonical ⊢
      rw [hwrapped] at hcanonical ⊢
      exact ⟨1, _, normalize_leaf_minus hcanonical.canonical hlimits, sameStructure_refl _, rfl⟩

/-- `1-x` makes the round trip. -/
theorem normalize_read_toText_difference : ∃ node side again,
    Node.read .standard "1-x".toList true = .ok node ∧
      node.normalize Oracle.exactFraction .standard = (.ok 0, side) ∧
        Node.read .standard side.toText true = .ok again ∧
          ∃ passes' side', again.normalize Oracle.exactFraction .standard = (.ok passes', side') ∧
            side'.sameStructure side = true ∧ side'.toText = side.toText := by
  have hexpression : IsExpression "1-x".toList := isExpression_of_eq rfl (by decide)
  have hread : Node.read .standard "1-x".toList true =
      .ok ((branch .plus [leaf .plus ['1'], leaf .minus ['x']]).withRoot true) := rfl
  generalize hnode :
    (branch .plus [leaf .plus ['1'], leaf .minus ['x']]).withRoot true = node at hread
  have hsettled : (node.normalize Oracle.exactFraction .standard).1 = .ok 0 := by
    subst hnode
    decide +kernel
  have htext : (node.normalize Oracle.exactFraction .standard).2.toText = "1-x".toList := by
    subst hnode
    decide +kernel
  have hfamily : (node.normalize Oracle.exactFraction .standard).2.family? = some .sum := by
    subst hnode
    decide +kernel
  cases hside : node.normalize Oracle.exactFraction .standard with
  | mk result side =>
    rw [hside] at hsettled htext hfamily
    obtain rfl : result = .ok 0 := hsettled
    have hagain : Node.read .standard side.toText true = .ok node := by rw [htext, hread]
    exact ⟨node, side, node, hread, hside, hagain,
      (normalize_read_toText_iff (by decide) hexpression hread hside hagain).1.2 hfamily⟩

/-- `((2*x))` does not: it is read as a side with two factors, and the text `2*x` of that side is
read as a side with one term. -/
theorem not_sameStructure_enclosed : IsExpression "((2*x))".toList ∧ ∃ node side again,
    Node.read .standard "((2*x))".toList true = .ok node ∧
      node.normalize Oracle.exactFraction .standard = (.ok 0, side) ∧
        Node.read .standard side.toText true = .ok again ∧
          ∀ passes' side', again.normalize Oracle.exactFraction .standard = (.ok passes', side') →
            side'.sameStructure side = false := by
  have hexpression : IsExpression "((2*x))".toList := isExpression_of_eq rfl (by decide)
  have hread : Node.read .standard "((2*x))".toList true =
      .ok ((branch .plus [leaf .times ['2'], leaf .times ['x']]).withRoot true) := rfl
  have hagain : Node.read .standard "2*x".toList true =
      .ok ((branch .plus [branch .plus [leaf .times ['2'], leaf .times ['x']]]).withRoot true) :=
        rfl
  generalize hnode :
    (branch .plus [leaf .times ['2'], leaf .times ['x']]).withRoot true = node at hread
  generalize hother : (branch .plus [branch .plus [leaf .times ['2'], leaf .times ['x']]]).withRoot
    true = again at hagain
  have hsettled : (node.normalize Oracle.exactFraction .standard).1 = .ok 0 := by
    subst hnode
    decide +kernel
  have htext : (node.normalize Oracle.exactFraction .standard).2.toText = "2*x".toList := by
    subst hnode
    decide +kernel
  have hstructure : (again.normalize Oracle.exactFraction .standard).2.sameStructure
      (node.normalize Oracle.exactFraction .standard).2 = false := by
    subst hnode hother
    decide +kernel
  cases hside : node.normalize Oracle.exactFraction .standard with
  | mk result side =>
    rw [hside] at hsettled htext hstructure
    obtain rfl : result = .ok 0 := hsettled
    refine ⟨hexpression, node, side, again, hread, hside, by rw [htext, hagain], ?_⟩
    intro passes' side' hnormalize
    rw [hnormalize] at hstructure
    exact hstructure

end EquationSteps.Node
