import EquationSteps.Proofs.Canonical.RoundTrip
import EquationSteps.Proofs.Reading.Levels

/-!
# Reading a side back

The text of a canonical side shows a chain of operands (`Node.shown`): those of the side, or those
of its only operand, if that is a group without a minus. Only a single leaf is shown as it is. So
what is read from the text is known (`Node.readBack`), and it is a canonical side with terms. It is
the side itself if that holds terms (`IsSide.readBack_eq`). A side of factors, or of the parts of a
quotient, is read back as a side that has their product or quotient as its only term.

Whether the text is read at all depends on how deeply it nests (`Node.nesting`,
`IsSide.exists_read_iff`). Once it is read, it settles in two passes at most
(`IsSide.exists_normalize_eq`).

**Why sides that do not hold terms are in this.** Reading gives a root that holds terms, with one
exception: a text in two pairs of parentheses around a product or a quotient is read with the
factors, or the parts, as operands of the root. Such sides are settled, and operations work on them,
so what becomes of their texts has to be known as well. Nothing is lost when such a side is printed
and read, but its structure changes: in place of the factors there is a single term with these
factors, which prints the same.

**The three shapes of a side** run through the module:

* a single leaf, with or without a minus (`IsLoneLeaf`), which prints as itself;
* a single group without a minus, whose parentheses are those that the printer leaves away or puts
  around the whole text, so that its operands are what is seen (`IsSide.shows_operands`);
* anything else, where the operands of the side are seen (`IsSide.shows_own`).

The first needs a pass of its own when it has a minus: it is read as a leaf at the root, which is
then wrapped. That is the one reason for the second pass.
-/

namespace EquationSteps.Node

variable {rationalize : Text → Except ValueError Text} {limits : Limits} {tag : Tag}
  {children : List Node} {side read : Node} {passes : Nat}

/-! ### What the text of a side shows

The operands that are seen determine both what is read and how deeply the text nests. -/

/-- The operands that the text of a side shows outside of all parentheses, up to one pair around the
text. -/
def shown (side : Node) : List Node :=
  match side.children with
  | [.group tag operands] => if tag.sign = .minus then [.group tag operands] else operands
  | children => children

/-- The levels of nesting that the text of a side takes. -/
def nesting (side : Node) : Nat :=
  match side.children with
  | [.atom tag _] => if tag.sign = .minus then 2 else 1
  | _ =>
    (if (branch .plus side.shown).family? = some .product then 2 else 1) + maxDepth side.shown

/-- The side that is read from the text of a side. -/
def readBack (side : Node) : Node :=
  match side.children with
  | [.atom tag text] =>
    (branch .plus [leaf (if tag.sign = .minus then .minus else .plus) text]).withRoot true
  | _ =>
    if (branch .plus side.shown).family? = some .sum then (branch .plus side.shown).withRoot true
    else (branch .plus [branch .plus side.shown]).withRoot true

/-- Whether a side holds a single leaf. -/
def IsLoneLeaf (side : Node) : Prop :=
  ∃ tag text, side.children = [.atom tag text]

/-- The nesting, the case of a single leaf apart: a product takes a level more, since it is read
inside of a term. -/
theorem nesting_of_not_isLoneLeaf (h : ¬side.IsLoneLeaf) : side.nesting =
    (if (branch .plus side.shown).family? = some .product then 2 else 1) + maxDepth side.shown := by
  unfold nesting
  split
  · exact absurd ⟨_, _, ‹_›⟩ h
  · rfl

/-- The side that is read back, the case of a single leaf apart. -/
theorem readBack_of_not_isLoneLeaf (h : ¬side.IsLoneLeaf) : side.readBack =
    if (branch .plus side.shown).family? = some .sum then (branch .plus side.shown).withRoot true
    else (branch .plus [branch .plus side.shown]).withRoot true := by
  unfold readBack
  split
  · exact absurd ⟨_, _, ‹_›⟩ h
  · rfl

/-- Several operands are all shown. -/
theorem shown_of_several {first second : Node} {rest : List Node} :
    (group tag (first :: second :: rest)).shown = first :: second :: rest := by
  unfold shown
  split
  · rename_i heq
    cases heq
  · rfl

/-- A tree that settles within a number of passes settles within more of them. -/
theorem normalizeFrom_of_le {node result : Node} {done left more : Nat} (hle : left ≤ more)
    (h : normalizeFrom rationalize done left node = (.ok passes, result)) :
    normalizeFrom rationalize done more node = (.ok passes, result) := by
  induction left generalizing done more node with
  | zero => cases h
  | succ left ih =>
    obtain ⟨more, rfl⟩ :=
      Nat.exists_eq_add_one_of_ne_zero (Nat.ne_of_gt (Nat.lt_of_lt_of_le left.succ_pos hle))
    rw [normalizeFrom] at h ⊢
    split at h
    · exact ih (Nat.le_of_succ_le_succ hle) h
    · exact h

/-- What keeps all rules from a group keeps them from another group with the same operands, a single
operand aside. -/
theorem IsStable.of_children {tag' : Tag} (h : IsStable tag children) (hne : children ≠ [])
    (hsingle : ∀ only, children = [only] →
      if tag'.root = true then ¬(only.sign = .plus ∧ only.family? = some .sum)
      else only.sign = .minus ∧ tag'.sign.isAdditive = false) : IsStable tag' children :=
  ⟨fun _ ↦ hne, h.examined, h.parts, hsingle, h.factors, h.terms⟩

/-- No rule applies to a root with one term that cannot be lifted. -/
theorem isStable_of_term {only : Node} (hroot : tag.root = true)
    (hexamined : only.isPending = false) (hterm : Family.ofSign only.sign = .sum)
    (hlift : ¬(only.sign = .plus ∧ only.family? = some .sum)) :
    IsStable tag [only] := by
  refine ⟨fun _ ↦ List.cons_ne_nil _ _, List.forall_mem_singleton.2 hexamined, fun _ ↦ by simp, ?_,
    fun h ↦ ?_, fun _ h ↦ absurd h (by simp)⟩
  · rintro only' honly
    cases honly
    rwa [if_pos hroot]
  · cases (Option.some.inj h).symm.trans hterm

/-- Operands that a text shows: they are canonical, and no rule applies to some group of them. -/
structure IsShown (rationalize : Text → Except ValueError Text) (nodes : List Node) : Prop where
  operands : ∀ node ∈ nodes, node.IsCanonical rationalize ∧ node.remade = node
  stable : ∃ tag, IsStable tag nodes

namespace IsSide

/-- A chain of several operands, or of one with a minus, is shown as it is. -/
theorem shows_own (h : (group tag children).IsSide rationalize) (hne : children ≠ [])
    (hnegated : negated? (linksText true children) = none)
    (hseveral : 1 < children.length ∨ ∀ child ∈ children, child.sign = .minus) :
    Shows (linksText true children) children ∧ IsShown rationalize children := by
  have hregular := fun child hmem ↦ (h.child child hmem).1
  have hchain := isChain_of_isShaped h.shaped hne
  obtain ⟨-, family, hsigns⟩ := isChain_iff.1 hchain
  obtain ⟨hidle, hcanonical⟩ := isCanonical_iff.1 h.canonical
  refine ⟨⟨hnegated, ?_, isRegular_group_iff.2 ⟨rfl, hchain, hregular⟩,
    isCompact_group_iff.2 ⟨hseveral, fun child hmem ↦ (h.child child hmem).2.1⟩⟩,
    fun child hmem ↦ ⟨hcanonical child hmem, (h.child child hmem).2.2⟩, tag,
    isIdle_group_iff.1 hidle⟩
  exact stripParentheses_of_classify (classify_linksText hsigns hregular hne hseveral)

/-- A group that is the only operand and has no minus shows its own operands. -/
theorem shows_operands {onlyTag : Tag} {operands : List Node}
    (h : (group tag [.group onlyTag operands]).IsSide rationalize) (hsign : onlyTag.sign ≠ .minus) :
    Shows (linksText true [.group onlyTag operands]) operands ∧ IsShown rationalize operands := by
  obtain ⟨honly, hcompact, -⟩ := h.child _ List.mem_cons_self
  obtain ⟨-, hchain, hregular⟩ := isRegular_group_iff.1 honly
  obtain ⟨hseveral, hcompactAll⟩ := isCompact_group_iff.1 hcompact
  obtain ⟨hne, family, hsigns⟩ := isChain_iff.1 hchain
  obtain ⟨hidle, hcanonical⟩ :=
    isCanonical_iff.1 ((isCanonical_iff.1 h.canonical).2 _ List.mem_cons_self)
  have hnew := (everyTag_group_iff.1 ((everyTag_group_iff.1 h.new).2 _ List.mem_cons_self)).2
  have hplain : (group onlyTag operands).sign ≠ .minus := hsign
  rw [← toText_eq, toText_of_sign_ne_minus hplain]
  refine ⟨⟨negated?_contentText honly, ?_, isRegular_group_iff.2 ⟨rfl, hchain, hregular⟩,
    isCompact_group_iff.2 ⟨hseveral, hcompactAll⟩⟩, fun child hmem ↦ ⟨hcanonical child hmem, ?_⟩,
    onlyTag, isIdle_group_iff.1 hidle⟩
  · exact (classify_contentText honly hcompact (family?_of_forall hne hsigns)).2
  · exact remade_eq_self (hregular child hmem) (hnew child hmem)

/-- **The text of a side shows its operands**, unless the side holds a single leaf. -/
theorem shows_shown (h : side.IsSide rationalize) (hleaf : ¬side.IsLoneLeaf) :
    Shows side.toText side.shown ∧ IsShown rationalize side.shown := by
  obtain ⟨tag, first, rest, rfl⟩ := (isCanonical_iff.1 h.canonical).1.exists_group h.root
  have hregular := (h.child first List.mem_cons_self).1
  rw [toText_of_root h.shaped h.root]
  match rest with
  | second :: rest =>
    rw [shown_of_several]
    exact h.shows_own (List.cons_ne_nil _ _) (negated?_linksText hregular) (Or.inl (by simp))
  | [] =>
    cases first with
    | atom onlyTag text => exact absurd ⟨_, _, rfl⟩ hleaf
    | group onlyTag operands =>
      by_cases hminus : onlyTag.sign = .minus
      · have hshown : shown (group tag [group onlyTag operands]) = [group onlyTag operands] :=
          if_pos hminus
        obtain ⟨c, hmem, hc⟩ := exists_isOperator hregular (h.child _ List.mem_cons_self).2.1
        rw [hshown]
        refine h.shows_own (List.cons_ne_nil _ _) (negated?_of_isOperator ?_ hc)
          (Or.inr (List.forall_mem_singleton.2 hminus))
        simpa [linksText, linkSign, sign, hminus] using hmem
      · have hshown : shown (group tag [group onlyTag operands]) = operands := if_neg hminus
        rw [hshown]
        exact h.shows_operands hminus

/-- The side is a group with a leaf. -/
theorem exists_eq_of_isLoneLeaf (h : side.IsSide rationalize) (hleaf : side.IsLoneLeaf) :
    ∃ tag leafTag text, side = group tag [.atom leafTag text] := by
  obtain ⟨tag, first, rest, rfl⟩ := (isCanonical_iff.1 h.canonical).1.exists_group h.root
  obtain ⟨leafTag, text, hchildren⟩ := hleaf
  exact ⟨tag, leafTag, text, congrArg (group tag) hchildren⟩

/-- The text of a side that holds a leaf is the one of the leaf. -/
theorem toText_of_leaf {text : Text} {leafTag : Tag}
    (h : (group tag [.atom leafTag text]).IsSide rationalize) : isOperandText text = true ∧
      (group tag [.atom leafTag text]).toText =
        if leafTag.sign = .minus then '-' :: text else text := by
  refine ⟨(isRegular_atom_iff.1 (h.child _ List.mem_cons_self).1).2, ?_⟩
  rw [toText_of_root h.shaped h.root, ← toText_eq]
  by_cases hminus : leafTag.sign = .minus <;>
    simp [toText, contentText, linkSign, sign, hminus, Sign.symbol]

/-! ### Reading the text of a side

A text that shows a chain is read as that chain, and each of its operands as it was. -/

/-- What is read from the text of a side that holds a leaf. -/
theorem read_of_leaf {text : Text} {leafTag : Tag}
    (h : (group tag [.atom leafTag text]).IsSide rationalize)
    (hread : ReadsRoot (group tag [.atom leafTag text]).toText read) :
    read = if leafTag.sign = .minus then leaf .minus text else branch .plus [leaf .plus text] := by
  obtain ⟨htext, hlinks⟩ := h.toText_of_leaf
  rw [hlinks] at hread
  split
  · rename_i hminus
    rw [if_pos hminus] at hread
    exact hread.eq_of_minus htext
  · rename_i hminus
    rw [if_neg hminus] at hread
    exact hread.eq_of_operand htext

/-- A chain that is shown, as the side that is read back. -/
theorem isCanonical_readBack_of_shows {text : Text} {nodes : List Node} (hshows : Shows text nodes)
    (hshown : IsShown rationalize nodes) :
    (if (branch .plus nodes).family? = some .sum then (branch .plus nodes).withRoot true
      else (branch .plus [branch .plus nodes]).withRoot true).IsCanonical rationalize := by
  obtain ⟨source, hstable⟩ := hshown.stable
  have hcanonical : ∀ node ∈ nodes, node.IsCanonical rationalize := fun node hmem ↦
    (hshown.operands node hmem).1
  have hminus : ∀ only, nodes = [only] → only.sign = .minus := by
    rintro only rfl
    refine ((isCompact_group_iff.1 hshows.compact).1.resolve_left ?_) only List.mem_cons_self
    simp
  split
  · refine .group
      (isIdle_group_iff.2 (hstable.of_children hshows.ne_nil fun only honly ↦ ?_)) hcanonical
    refine (if_pos rfl).mpr fun h ↦ ?_
    rw [hminus only honly] at h
    cases h.1
  · rename_i hsum
    have hgroup : (branch .plus nodes).IsCanonical rationalize := by
      refine .group (isIdle_group_iff.2 (hstable.of_children hshows.ne_nil fun only honly ↦ ?_))
        hcanonical
      refine absurd ?_ hsum
      rw [honly, family?, branch, Node.children, List.head?_cons, Option.map_some,
        hminus only honly]
      rfl
    exact .group (isIdle_group_iff.2 (isStable_of_term rfl rfl rfl fun h ↦ hsum h.2))
      (List.forall_mem_singleton.2 hgroup)

/-- A leaf that is shown is the only term of the side that is read back. -/
theorem isCanonical_readBack_of_leaf {text : Text} {leafTag : Tag} {sign : Sign}
    (h : (group tag [.atom leafTag text]).IsSide rationalize) (hsign : Family.ofSign sign = .sum) :
    ((branch .plus [leaf sign text]).withRoot true).IsCanonical rationalize := by
  have hleaf := (isCanonical_iff.1 h.canonical).2 _ List.mem_cons_self
  have hnumber := (isIdle_atom_iff.1 (isCanonical_iff.1 hleaf).1).2
  have hcanonical : (leaf sign text).IsCanonical rationalize :=
    .atom (isIdle_atom_iff.2 ⟨rfl, hnumber⟩)
  exact .group (isIdle_group_iff.2 (isStable_of_term rfl rfl hsign fun h ↦ by cases h.2))
    (List.forall_mem_singleton.2 hcanonical)

/-- The side that is read back is canonical. -/
theorem isCanonical_readBack (h : side.IsSide rationalize) :
    side.readBack.IsCanonical rationalize := by
  by_cases hleaf : side.IsLoneLeaf
  · obtain ⟨tag, leafTag, text, rfl⟩ := h.exists_eq_of_isLoneLeaf hleaf
    refine h.isCanonical_readBack_of_leaf ?_
    split <;> rfl
  · obtain ⟨hshows, hshown⟩ := h.shows_shown hleaf
    rw [readBack_of_not_isLoneLeaf hleaf]
    exact isCanonical_readBack_of_shows hshows hshown

/-- **What is read from the text of a side** is known, except that a leaf with a minus is still to
be wrapped. -/
theorem eq_readBack_or (h : side.IsSide rationalize) (hread : ReadsRoot side.toText read) :
    read.withRoot true = side.readBack ∨ ∃ text, read = leaf .minus text ∧
      side.readBack = (branch .plus [leaf .minus text]).withRoot true := by
  by_cases hleaf : side.IsLoneLeaf
  · obtain ⟨tag, leafTag, text, rfl⟩ := h.exists_eq_of_isLoneLeaf hleaf
    have hreadBack : (group tag [.atom leafTag text]).readBack = (branch .plus
      [leaf (if leafTag.sign = .minus then .minus else .plus) text]).withRoot true := rfl
    rw [h.read_of_leaf hread, hreadBack]
    split
    · exact Or.inr ⟨text, rfl, rfl⟩
    · exact Or.inl rfl
  · obtain ⟨hshows, hshown⟩ := h.shows_shown hleaf
    obtain ⟨family, hfamily⟩ : ∃ family, (branch .plus side.shown).family? = some family :=
      exists_family?_of_isChain (isRegular_group_iff.1 hshows.regular).2.1
    have hremade : side.shown.map remade = side.shown :=
      (List.map_congr_left fun node hmem ↦ (hshown.operands node hmem).2).trans (List.map_id _)
    refine Or.inl ?_
    rw [hshows.eq_root hfamily hread, readBack_of_not_isLoneLeaf hleaf, Shows.root,
      hremade, hfamily]
    by_cases hsum : family = .sum
    · rw [if_pos hsum, if_pos (congrArg some hsum)]
    · rw [if_neg hsum, if_neg fun h ↦ hsum (Option.some.inj h)]

/-! ### Reading and normalizing

Now with the limits. The nesting decides whether there is a tree, and the passes only have to be
two. -/

/-- There are no blanks in what is printed, and no products without a star. -/
theorem scanned_toText (h : side.IsSide rationalize) : side.toText.scanned = side.toText := by
  obtain ⟨tag, first, rest, rfl⟩ := (isCanonical_iff.1 h.canonical).1.exists_group h.root
  rw [h.isExpression_toText.2, toText_of_root h.shaped h.root]

/-- **The text of a side is read if and only if it nests within the limit.** -/
theorem exists_read_iff (h : side.IsSide rationalize) :
    (∃ again, Node.read limits side.toText true = .ok again) ↔ side.nesting ≤ limits.depth + 1 := by
  rw [Node.exists_read_iff, h.scanned_toText]
  by_cases hleaf : side.IsLoneLeaf
  · obtain ⟨tag, leafTag, text, rfl⟩ := h.exists_eq_of_isLoneLeaf hleaf
    obtain ⟨htext, hlinks⟩ := h.toText_of_leaf
    have hnesting : (group tag [atom leafTag text]).nesting =
        if leafTag.sign = .minus then 2 else 1 :=
      rfl
    rw [hlinks, hnesting]
    split
    · exact exists_build_minus_iff htext
    · exact iff_of_true (exists_build_operand htext) (Nat.le_add_left _ _)
  · obtain ⟨hshows, hshown⟩ := h.shows_shown hleaf
    obtain ⟨family, hfamily⟩ : ∃ family, (branch .plus side.shown).family? = some family :=
      exists_family?_of_isChain (isRegular_group_iff.1 hshows.regular).2.1
    rw [nesting_of_not_isLoneLeaf hleaf, hshows.exists_build_iff hfamily, hfamily]
    simp only [Option.some.injEq]

/-- **A side with terms is read back as it was.** -/
theorem readBack_eq (h : side.IsSide rationalize) (hfamily : side.family? = some .sum) :
    side.readBack = side := by
  obtain ⟨tag, first, rest, rfl⟩ := (isCanonical_iff.1 h.canonical).1.exists_group h.root
  -- under a limit that is large enough the text is read
  obtain ⟨again, hagain⟩ : ∃ again, Node.read ⟨(group tag (first :: rest)).nesting, 0⟩
      (group tag (first :: rest)).toText true = .ok again := h.exists_read_iff.2 (Nat.le_succ _)
  obtain ⟨read, -, hbuild⟩ := exists_of_read hagain
  rw [h.scanned_toText] at hbuild
  have hread := ReadsRoot.of_build hbuild
  have hlinks := hread
  rw [toText_of_root h.shaped h.root] at hlinks
  rcases h.eq_or_eq_of_readsRoot hfamily hlinks with hside | ⟨text, hchildren, rfl⟩
  · rcases h.eq_readBack_or hread with hsame | ⟨text, rfl, -⟩
    · exact hsame.symm.trans hside
    · cases hside
  · rcases h.eq_readBack_or hread with hsame | ⟨text', hleaf, hreadBack⟩
    · rw [hchildren] at hsame
      cases hsame
    · cases hleaf
      rw [hreadBack, h.eq_withRoot, hchildren]

/-- **What is read from the text of a side settles** as the side that is read back. -/
theorem exists_normalize_eq (h : side.IsSide rationalize)
    (hread : Node.read limits side.toText true = .ok read) (hlimits : 2 ≤ limits.passes) :
    ∃ passes, read.normalize rationalize limits = (.ok passes, side.readBack) := by
  obtain ⟨inner, rfl, hbuild⟩ := exists_of_read hread
  rw [h.scanned_toText] at hbuild
  have hcanonical := h.isCanonical_readBack
  rcases h.eq_readBack_or (ReadsRoot.of_build hbuild) with hsame | ⟨text, rfl, hreadBack⟩
  · rw [hsame]
    exact ⟨0, hcanonical.normalize (by omega)⟩
  · rw [hreadBack] at hcanonical ⊢
    exact ⟨1, normalize_leaf_minus hcanonical hlimits⟩

/-- The text of a side that nests within the limit is read, and settles as the side that is read
back. -/
theorem exists_read_normalize (h : side.IsSide rationalize)
    (hnesting : side.nesting ≤ limits.depth + 1) (hlimits : 2 ≤ limits.passes) :
    ∃ read passes, Node.read limits side.toText true = .ok read ∧
      read.normalize rationalize limits = (.ok passes, side.readBack) := by
  obtain ⟨read, hread⟩ := h.exists_read_iff.2 hnesting
  obtain ⟨passes, hnormalize⟩ := h.exists_normalize_eq hread hlimits
  exact ⟨read, passes, hread, hnormalize⟩

/-- The text of a side that nests deeper than the limit is refused. -/
theorem read_eq_error (h : side.IsSide rationalize) (hnesting : ¬side.nesting ≤ limits.depth + 1) :
    Node.read limits side.toText true = .error (.nestingTooDeep limits.depth) := by
  cases hread : Node.read limits side.toText true with
  | ok read => exact absurd (h.exists_read_iff.1 ⟨read, hread⟩) hnesting
  | error cause =>
    rcases Except.error_of_bind_eq_error hread with hbuild | ⟨node, hnode⟩
    · rw [build_eq_error hbuild]
    · cases hnode

/-- However many passes are allowed, a text that is read and settles gives the side that is read
back. -/
theorem eq_readBack_of_normalize {result : Node} (h : side.IsSide rationalize)
    (hread : Node.read limits side.toText true = .ok read)
    (hnormalize : read.normalize rationalize limits = (.ok passes, result)) :
    result = side.readBack := by
  obtain ⟨passes', hsettled⟩ := @exists_normalize_eq rationalize ⟨limits.depth, max limits.passes 2⟩
    side read h hread (le_max_right _ _)
  have hsame := normalizeFrom_of_le (le_max_left _ 2) hnormalize
  exact congrArg Prod.snd (hsame.symm.trans hsettled)

end IsSide

/-- What is read back holds terms. -/
theorem family?_readBack (side : Node) : side.readBack.family? = some .sum := by
  by_cases hleaf : side.IsLoneLeaf
  · obtain ⟨tag, text, hchildren⟩ := hleaf
    unfold readBack
    rw [hchildren]
    dsimp only
    split <;> rfl
  · rw [readBack_of_not_isLoneLeaf hleaf]
    split
    · assumption
    · rfl

end EquationSteps.Node
