import EquationSteps.Proofs.Canonical.Rest
import EquationSteps.Proofs.Canonical.Tags
import EquationSteps.Proofs.Tree.Numbering

/-!
# The form of canonical trees

What it means for a group that no rule applies to it is read off the rules (`isIdle_group_iff`): it
has operands, none of them is pending, a quotient has at most two, a single one has a minus, and
there are no factors `1` and no terms `0` in it. So each group of a canonical tree has several
operands or a single one with a minus (`IsCanonical.isCompact`). Identities do not matter for any of
that (`isCanonical_anonymous_iff`).

**One lemma for each rule.** A rule that does not apply returns `none`, and for each of them that is
an equation about the tag and the operands of the group:

* `fillRoot?_eq_none_iff`: a root is not empty;
* `settle?_eq_none_iff`: no operand is waiting to be examined;
* `regroup?_eq_none_iff`: a quotient has a dividend and a divisor, and nothing more;
* `collapse?_eq_none_iff`: a single operand has a reason to stand in a group of its own;
* `prune_eq_unchanged_iff`: there is nothing to drop.

Together they are `IsStable`, a structure with one field for each, which is what proofs about
canonical groups take apart. For leaves there is only the rule for numbers, and that no leaf is a
root (`isIdle_atom_iff`).

**The single operand.** Below a root, a group of one operand stands only for a minus that has
nowhere else to go: the group is a factor or a divisor, and its operand is negated, as in `x*(-y)`.
At the root, a single term is the usual case, and only a sum with a plus is taken apart. These two
cases are why `single` asks about the root.
-/

namespace EquationSteps.Node

variable {rationalize : Text → Except ValueError Text} {node : Node} {tag : Tag}
  {children : List Node}

/-! ### Where no rule applies

Each rule is inverted once, and the conditions are collected. -/

/-- What keeps all rules from a group. There is a field for each rule, in the order in which the
rules are tried. -/
structure IsStable (tag : Tag) (children : List Node) : Prop where
  /-- A root has operands. -/
  nonempty : tag.root = true → children ≠ []
  /-- No operand is pending. -/
  examined : ∀ child ∈ children, child.isPending = false
  /-- A quotient has at most two parts. -/
  parts : (group tag children).family? = some .quotient → children.length ≤ 2
  /-- A single operand has a reason to stand in a group of its own. -/
  single : ∀ only, children = [only] →
    if tag.root = true then ¬(only.sign = .plus ∧ only.family? = some .sum)
    else only.sign = .minus ∧ tag.sign.isAdditive = false
  /-- No factor is printed as `1`. -/
  factors : (group tag children).family? = some .product → ∀ child ∈ children, child.toText ≠ ['1']
  /-- No term among several is the leaf `0`. -/
  terms : (group tag children).family? = some .sum → 1 < children.length →
    ∀ child ∈ children, child.isZeroAtom = false

/-- A root with operands is not filled, and no other group ever is. -/
theorem fillRoot?_eq_none_iff :
    (group tag children).fillRoot? = none ↔ (tag.root = true → children ≠ []) := by
  cases hroot : tag.root with
  | false =>
    have hfill : (group tag children).fillRoot? = none := by
      rw [fillRoot?, isRoot, tag_group, hroot]
    simp [hfill]
  | true =>
    rw [fillRoot?, isRoot, tag_group, hroot]
    cases children with
    | nil => simp [content]
    | cons first rest => simp [content]

/-- Operands are examined if one of them is pending. The rule does not look at whether anything
comes of it. -/
theorem settle?_eq_none_iff :
    node.settle? = none ↔ ∀ child ∈ node.children, child.isPending = false := by
  constructor
  · intro hsettle child hmem
    refine Bool.eq_false_iff.2 fun hpending ↦ ?_
    have hany : node.children.any isPending = true := List.any_eq_true.2 ⟨child, hmem, hpending⟩
    rw [settle?, if_pos hany] at hsettle
    dsimp only at hsettle
    split at hsettle <;> cases hsettle
  · intro hnone
    have hany : ¬ node.children.any isPending = true := by
      rw [Bool.not_eq_true, List.any_eq_false]
      exact fun child hmem ↦ by rw [hnone child hmem]; exact Bool.false_ne_true
    rw [settle?, if_neg hany]

/-- A quotient of at most two parts is not regrouped. -/
theorem regroup?_eq_none_iff :
    node.regroup? = none ↔ (node.family? = some .quotient → node.children.length ≤ 2) := by
  unfold regroup?
  split
  · rename_i hlong
    cases hlast : node.children.getLast? with
    | none =>
      rw [List.getLast?_eq_none_iff] at hlast
      rw [hlast] at hlong
      cases hlong.2
    | some last =>
      have hnot : ¬ node.children.length ≤ 2 := by omega
      simp [hlong.1, hnot]
  · rename_i hshort
    simp only [true_iff]
    intro hfamily
    have hnot : ¬ 2 < node.children.length := fun hlong ↦ hshort ⟨hfamily, hlong⟩
    omega

/-- A single operand stays in its group below a root if it has a minus that the group's sign cannot
take over, and in a root unless it is a sum with a plus. -/
theorem collapse?_eq_none_iff :
    (group tag children).collapse? = none ↔ ∀ only, children = [only] →
      if tag.root = true then ¬(only.sign = .plus ∧ only.family? = some .sum)
      else only.sign = .minus ∧ tag.sign.isAdditive = false := by
  have hroot : (group tag children).isRoot = tag.root := rfl
  have hsign : (group tag children).sign = tag.sign := rfl
  rw [collapse?, hroot, hsign, Node.children]
  cases children with
  | nil => cases tag.root <;> simp [lift?, Node.children]
  | cons only rest =>
    cases rest with
    | nil =>
      cases tag.root with
      | false => by_cases hminus : only.sign = .minus <;> simp [hminus]
      | true => simp [lift?, Node.children]
    | cons second rest => cases tag.root <;> simp [lift?, Node.children]

/-- Nothing is dropped if the test keeps every operand. -/
theorem pruneBy_eq_unchanged_iff {keep : Node → Bool} {identity : Text} :
    node.pruneBy keep identity = .unchanged ↔ ∀ child ∈ node.children, keep child = true := by
  rw [← List.length_filter_eq_length_iff]
  unfold pruneBy
  dsimp only
  split
  · rename_i hlength
    simp [hlength]
  · rename_i hlength
    simp only [hlength, iff_false]
    split
    · split <;> exact fun h ↦ by cases h
    · exact fun h ↦ by cases h

/-- Products are searched for factors `1`, and sums of several terms for terms `0`; a term `0` that
stands alone stays. -/
theorem prune_eq_unchanged_iff :
    node.prune = .unchanged ↔
      (node.family? = some .product → ∀ child ∈ node.children, child.toText ≠ ['1']) ∧
        (node.family? = some .sum → 1 < node.children.length →
          ∀ child ∈ node.children, child.isZeroAtom = false) := by
  unfold prune
  split
  · rename_i hproduct
    simp [pruneBy_eq_unchanged_iff, hproduct]
  · rename_i hsum
    split
    · rename_i hseveral
      simp [pruneBy_eq_unchanged_iff, hsum, hseveral]
    · rename_i hfew
      simp [hsum, hfew]
  · rename_i hproduct hsum
    exact iff_of_true rfl ⟨fun h ↦ (hproduct h).elim, fun h ↦ (hsum h).elim⟩

/-- No rule applies to a group exactly if it is stable. The rule for numbers is about leaves only,
so the oracle does not occur in what keeps the rules from a group. -/
theorem isIdle_group_iff : (group tag children).IsIdle rationalize ↔ IsStable tag children := by
  constructor
  · rintro ⟨hfill, -, hsettle, -, hregroup, hcollapse, hprune⟩
    obtain ⟨hfactors, hterms⟩ := prune_eq_unchanged_iff.1 hprune
    exact ⟨fillRoot?_eq_none_iff.1 hfill, settle?_eq_none_iff.1 hsettle,
      regroup?_eq_none_iff.1 hregroup, collapse?_eq_none_iff.1 hcollapse, hfactors, hterms⟩
  · rintro ⟨hnonempty, hexamined, hparts, hsingle, hfactors, hterms⟩
    refine ⟨fillRoot?_eq_none_iff.2 hnonempty, ?_, settle?_eq_none_iff.2 hexamined, rfl,
      regroup?_eq_none_iff.2 hparts, collapse?_eq_none_iff.2 hsingle,
      prune_eq_unchanged_iff.2 ⟨hfactors, hterms⟩⟩
    rw [wrapRoot?, content]
    cases (group tag children).isRoot <;> rfl

/-- A root to which no rule applies is a group with operands. -/
theorem IsIdle.exists_group (h : node.IsIdle rationalize) (hroot : node.isRoot = true) :
    ∃ tag first rest, node = group tag (first :: rest) := by
  cases node with
  | atom tag text =>
    have hwrap := h.wrapRoot
    rw [wrapRoot?, hroot] at hwrap
    cases hwrap
  | group tag children =>
    cases children with
    | nil => exact absurd rfl ((isIdle_group_iff.1 h).nonempty hroot)
    | cons first rest => exact ⟨tag, first, rest, rfl⟩

/-! ### Compact trees

In a compact tree no group stands around a single operand without a reason. What is printed can then
be read back part by part, as parentheses that enclose a single operand are never printed. -/

/-- A group below a root that is at rest has several operands, or a single one with a minus. This is
what makes it compact, and what the printer shows of it. -/
theorem IsStable.several (h : IsStable tag children) (hroot : tag.root = false) :
    1 < children.length ∨ ∀ child ∈ children, child.sign = .minus := by
  match children with
  | [] => exact Or.inr (List.forall_mem_nil _)
  | [only] =>
    have hsingle := h.single only rfl
    rw [if_neg (by rw [hroot]; exact Bool.false_ne_true)] at hsingle
    exact Or.inr (List.forall_mem_singleton.2 hsingle.1)
  | first :: second :: rest =>
    rw [List.length_cons, List.length_cons]
    exact Or.inl (by omega)

/-- A regular canonical tree is compact. -/
theorem IsCanonical.isCompact (h : node.IsCanonical rationalize)
    (hregular : node.isRegular = true) :
    node.isCompact = true := by
  induction node using Node.induction with
  | atom tag text => rfl
  | group tag children ih =>
    obtain ⟨hidle, hall⟩ := isCanonical_iff.1 h
    obtain ⟨hroot, -, hchildren⟩ := isRegular_group_iff.1 hregular
    exact isCompact_group_iff.2 ⟨(isIdle_group_iff.1 hidle).several hroot, fun child hmem ↦
      ih child hmem (hall child hmem) (hchildren child hmem)⟩

/-! ### Trees with identities

Rules look at signs, at contents and at marks, and at nothing that numbering changes. -/

/-- No rule applies to a leaf that is not a root and whose number, if it is one, is in canonical
form. -/
theorem isIdle_atom_iff {text : Text} :
    (atom tag text).IsIdle rationalize ↔
      tag.root = false ∧ (leaf .plus text).canonicalNumber? rationalize = none := by
  have hnumber : (atom tag text).canonicalNumber? rationalize = none ↔
      (leaf .plus text).canonicalNumber? rationalize = none := by
    simp only [canonicalNumber?, leaf, content]
    split
    · split <;> simp
    · split <;> simp
  rw [← hnumber]
  constructor
  · intro h
    refine ⟨Bool.eq_false_iff.2 fun hroot ↦ ?_, h.canonicalNumber⟩
    have hwrap := h.wrapRoot
    rw [wrapRoot?, isRoot, tag_atom, hroot] at hwrap
    cases hwrap
  · rintro ⟨hroot, hcanonical⟩
    refine ⟨?_, ?_, rfl, hcanonical, rfl, ?_, rfl⟩
    · rw [fillRoot?, isRoot, tag_atom, hroot]
    · rw [wrapRoot?, isRoot, tag_atom, hroot]
    · rw [collapse?, isRoot, tag_atom, hroot]
      rfl

/-- Removing identities changes none of the conditions. -/
theorem isStable_anonymous_iff :
    IsStable { tag with id := none } (children.map anonymous) ↔ IsStable tag children := by
  have hfamily : (group { tag with id := none } (children.map anonymous)).family? =
      (group tag children).family? := by
    rw [← anonymous_group, family?_anonymous]
  have hsingle : ∀ only : Node, children.map anonymous = [only] ↔
      ∃ child, children = [child] ∧ only = child.anonymous := by
    intro only
    rw [List.map_eq_singleton_iff]
    exact exists_congr fun child ↦ and_congr_right fun _ ↦ eq_comm
  constructor
  · intro h
    refine ⟨fun hroot hnil ↦ h.nonempty hroot (by rw [hnil]; rfl), fun child hmem ↦ ?_,
      fun hquotient ↦ ?_, fun only honly ↦ ?_, fun hproduct child hmem ↦ ?_,
      fun hsum hseveral child hmem ↦ ?_⟩
    · rw [← isPending_anonymous]
      exact h.examined _ (List.mem_map_of_mem hmem)
    · rw [← @List.length_map _ _ children anonymous]
      exact h.parts (hfamily.trans hquotient)
    · have hstable := h.single only.anonymous ((hsingle _).2 ⟨only, honly, rfl⟩)
      rw [sign_anonymous, family?_anonymous] at hstable
      exact hstable
    · rw [← toText_anonymous]
      exact h.factors (hfamily.trans hproduct) _ (List.mem_map_of_mem hmem)
    · rw [← isZeroAtom_anonymous]
      exact h.terms (hfamily.trans hsum) (by rwa [List.length_map]) _ (List.mem_map_of_mem hmem)
  · intro h
    refine ⟨fun hroot hnil ↦ h.nonempty hroot (List.map_eq_nil_iff.1 hnil),
      List.forall_mem_map.2 ?_, fun hquotient ↦ ?_, fun only honly ↦ ?_,
      fun hproduct ↦ List.forall_mem_map.2 ?_, fun hsum hseveral ↦ List.forall_mem_map.2 ?_⟩
    · exact fun child hmem ↦ (isPending_anonymous child).trans (h.examined child hmem)
    · rw [List.length_map]
      exact h.parts (hfamily.symm.trans hquotient)
    · obtain ⟨child, hchild, rfl⟩ := (hsingle _).1 honly
      rw [sign_anonymous, family?_anonymous]
      exact h.single child hchild
    · intro child hmem
      rw [toText_anonymous]
      exact h.factors (hfamily.symm.trans hproduct) child hmem
    · intro child hmem
      rw [isZeroAtom_anonymous]
      exact h.terms (hfamily.symm.trans hsum) (by rwa [List.length_map] at hseveral) child hmem

/-- A tree is canonical exactly if it is without its identities. So a side that was numbered is
settled if it was before. -/
theorem isCanonical_anonymous_iff :
    node.anonymous.IsCanonical rationalize ↔ node.IsCanonical rationalize := by
  induction node using Node.induction with
  | atom tag text =>
    rw [isCanonical_iff, isCanonical_iff]
    refine and_congr ?_ Iff.rfl
    rw [anonymous, isIdle_atom_iff, isIdle_atom_iff]
  | group tag children ih =>
    rw [anonymous_group, isCanonical_iff, isCanonical_iff, isIdle_group_iff, isIdle_group_iff,
      isStable_anonymous_iff]
    refine and_congr_right fun _ ↦ ?_
    rw [Node.children, Node.children, List.forall_mem_map]
    exact forall₂_congr ih

end EquationSteps.Node
