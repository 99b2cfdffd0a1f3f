import EquationSteps.Proofs.Canonical.RoundTrip
import EquationSteps.Proofs.Equation.Factors

/-!
# Replacing on one side

What normalization makes of a side on which a replacement was made. Between edits a side is settled:
it is a shaped root to which no rule applies (`Node.IsSettled`). Where operands of one group were
replaced, the normalized side can stand in the place of the side before, or, if the group loses the
selected operands, in the place of the side without them (`Node.keeps_normalize_replaced`). Where
the whole side was replaced, it means the same (`Node.meaning_normalize_whole`).

As always, a side whose operands are factors is the exception: if they all come to one, the term `0`
is left of it.

**Two cases for one statement.** In a sum, the group with the replaced terms means the same at once,
and normalization of the whole side is followed from there. In a product or a quotient it does not
mean the same before it is examined, so the side is followed from the moment at which a pass has
come down to the group. The statement is the same for both, with the tree in whose place the result
can stand as `base`.

A settled side has no marks at all, so the only pending nodes are those that the replacement made.
-/

namespace EquationSteps.Node

variable {rationalize : Text → Except ValueError Text} {limits : Limits} {passes : Nat}
  {selection : List NodeId} {expression node result side : Node} {tag : Tag}
  {before after : List Node} {frames : List Frame} {kind : Family}

/-- In a canonical tree nothing is pending, below the root. -/
theorem IsCanonical.marksInSums (h : node.IsCanonical rationalize) : node.marksInSums = true := by
  induction node using Node.induction with
  | atom tag text => rfl
  | group tag children ih =>
    obtain ⟨hidle, hall⟩ := isCanonical_iff.1 h
    exact marksInSums_group_iff.2 ⟨Or.inr (isIdle_group_iff.1 hidle).examined,
      fun child hmem ↦ ih child hmem (hall child hmem)⟩

/-- A side as it is between edits, whatever its identities are. -/
structure IsSettled (rationalize : Text → Except ValueError Text) (side : Node) : Prop where
  /-- It has the shape of a side. -/
  shaped : side.isShaped = true
  /-- Its topmost node is marked as a root. -/
  root : side.isRoot = true
  /-- No rule applies to any of its nodes. -/
  canonical : side.IsCanonical rationalize

/-- Identities do not matter for being settled. -/
theorem isSettled_anonymous_iff :
    side.anonymous.IsSettled rationalize ↔ side.IsSettled rationalize := by
  constructor
  · rintro ⟨hshaped, hroot, hcanonical⟩
    exact ⟨(isShaped_anonymous side).symm.trans hshaped, (isRoot_anonymous side).symm.trans hroot,
      isCanonical_anonymous_iff.1 hcanonical⟩
  · rintro ⟨hshaped, hroot, hcanonical⟩
    exact ⟨(isShaped_anonymous side).trans hshaped, (isRoot_anonymous side).trans hroot,
      isCanonical_anonymous_iff.2 hcanonical⟩

/-- A side that was numbered is settled. -/
theorem IsSide.isSettled (h : side.anonymous.IsSide rationalize) : side.IsSettled rationalize :=
  isSettled_anonymous_iff.1 ⟨h.shaped, h.root, h.canonical⟩

/-- A side on which nothing is done stays as it is. The first pass finds nothing to do and is the
last one. -/
theorem IsSettled.eq_of_normalize (h : side.IsSettled rationalize)
    (hnormalize : side.normalize rationalize limits = (.ok passes, result)) : result = side := by
  have hlimits : 0 < limits.passes := by
    refine Nat.pos_of_ne_zero fun hzero ↦ ?_
    rw [normalize, hzero, normalizeFrom] at hnormalize
    cases hnormalize
  have hsame := h.canonical.normalize hlimits
  exact (congrArg Prod.snd (hnormalize.symm.trans hsame))

/-- A replaced whole side has the value of the expression, which becomes its only term. The mark on
the root itself is one that no pass looks at. -/
theorem meaning_normalize_whole (hfaithful : IsFaithful rationalize)
    (h : side.IsSettled rationalize) (he : expression.IsReplacement)
    (hnormalize : ((takeOver expression side).withPending true).normalize rationalize limits =
      (.ok passes, result)) : result.meaning = expression.meaning := by
  have hterm := he.isTerm.withPending true
  have hfamily : Family.ofSign (expression.withPending true).sign = .sum :=
    Family.ofSign_eq_sum_iff.2 hterm.additive
  have hsign : side.tag.sign = .plus := by
    obtain ⟨tag, first, rest, rfl⟩ := (isCanonical_iff.1 h.canonical).1.exists_group h.root
    exact (isShaped_group_iff.1 h.shaped).2.2 h.root
  rw [takeOver_root he h.root] at hnormalize
  have hshaped : (group { side.tag with pending := true } [expression.withPending true]).isShaped =
      true := isShaped_group_iff.2
    ⟨Or.inl rfl, List.forall_mem_singleton.2 hterm.regular, fun _ ↦ hsign⟩
  have hmarksSide : (group { side.tag with pending := true }
      [expression.withPending true]).marksInSums = true :=
    marksInSums_group_iff.2 ⟨Or.inl (congrArg some hfamily),
      List.forall_mem_singleton.2 hterm.marks⟩
  have hkeeps := (keeps_normalize hfaithful hshaped hmarksSide hnormalize).resolve_right
    fun hemptied ↦ by
      have hproduct := hemptied.family
      rw [family?_of_forall (List.cons_ne_nil _ _) (List.forall_mem_singleton.2 hfamily)]
        at hproduct
      cases hproduct
  rw [hkeeps.meaning, meaning, Node.sign, tag_group, contentMeaning_group, groupMeaning_singleton,
    meaning_withPending]
  exact (congrArg (fun sign ↦ Meaning.signed sign expression.meaning) hsign).trans
    (Meaning.signed_plus _)

/-- **What replacing operands of one group makes of a side.** The tree in whose place the result can
stand is the side, with the group as it was, or without the selected operands if they are lost. -/
theorem keeps_normalize_replaced (hfaithful : IsFaithful rationalize)
    (h : (plug frames (group tag (before ++ node :: after))).IsSettled rationalize)
    (he : expression.IsReplacement)
    (hfamily : (group tag (before ++ node :: after)).family? = some kind)
    (hbefore : ∀ other ∈ before, other.isSelected selection = false)
    (hnode : node.isSelected selection = true)
    (hmeaning : expression.meaning =
      groupMeaning ((before ++ node :: after).filter (isSelected selection)))
    (hnormalize : (plug frames (group tag
      (replaced selection kind.defaultSign expression before node after))).normalize
        rationalize limits = (.ok passes, result)) :
    let base := plug frames
      (if (group tag (before ++ node :: after)).losesSelected selection expression then
        (group tag (before ++ node :: after)).withoutSelected selection
      else group tag (before ++ node :: after))
    base.Keeps result ∨ base.IsEmptied result := by
  have hmarks := h.canonical.marksInSums
  obtain ⟨hshapedGroup, hmarksGroup, hcanonicalGroup⟩ := of_plug h.shaped hmarks h.canonical
  have hstable := isIdle_group_iff.1 (isCanonical_iff.1 hcanonicalGroup).1
  by_cases hkind : kind = .sum
  -- in a sum the replaced group means the same at once
  · subst hkind
    have hsum := keeps_replaced_sum hbefore hnode he hshapedGroup hmarksGroup hfamily hmeaning
    have hkeeps := hsum.plug h.shaped hmarks rfl rfl rfl
    have hloses :
        (group tag (before ++ node :: after)).losesSelected selection expression = false := by
      rw [losesSelected, hfamily]
      simp
    dsimp only
    rw [hloses, if_neg Bool.false_ne_true]
    refine (keeps_normalize hfaithful hkeeps.shaped hkeeps.marks hnormalize).imp hkeeps.trans
      fun hemptied ↦ ?_
    exact ⟨h.root, hkeeps.rootFamily h.root .product (by decide) hemptied.family,
      hkeeps.meaning.symm.trans hemptied.one, hemptied.zero⟩
  -- in a product or a quotient it does so once it is examined
  · have hfiller : Family.ofSign kind.defaultSign = kind := Family.ofSign_defaultSign kind
    have hexamined :=
      keeps_examined_replaced hkind hshapedGroup hmarksGroup hfamily he hfiller hbefore
      hnode (fun hquotient ↦ hstable.parts (hquotient ▸ hfamily)) hmeaning
    have htag : ∀ {test : Prop} [Decidable test],
        (if test then (group tag (before ++ node :: after)).withoutSelected selection
        else group tag (before ++ node :: after)).tag = tag := by
      intro test _
      split <;> rfl
    have hroot :
        (group tag (replaced selection kind.defaultSign expression before node after)).isRoot =
        (group tag (before ++ node :: after)).isRoot := rfl
    dsimp only
    refine keeps_normalize_plug hfaithful h.shaped hmarks h.canonical ?_ ?_ ?_ (fun hne ↦ ?_) hroot
      hexamined fillRoot?_replaced hnormalize
    · rw [Node.sign, htag]
      rfl
    · rw [isPending, htag]
      rfl
    · rw [isRoot, htag]
      rfl
    · obtain ⟨frame, frames, rfl⟩ := List.exists_cons_of_ne_nil hne
      have hroot : tag.root = false := isRoot_of_isRegular (isRegular_of_plug h.shaped)
      exact resembles_replaced he hkind hshapedGroup hfamily hfiller hroot hstable

end EquationSteps.Node
