import EquationSteps.Proofs.Canonical.Passes
import Mathlib.Data.List.DropRight

/-!
# What the rules spend

The rules work against each other: one rule splits a chain of divisions into nested groups, another
one dissolves groups; an answer of the oracle puts a group where a leaf stood, and a root grows a
term. The *potential* of a tree (`Node.potential`) is a number that every rule lowers when it fires.
What it counts besides the nodes is the work that is still to be done at each of them:

* two for a node that is pending, and two for a leaf that is a root;
* one for an integer with leading zeros, three for a decimal literal with a point (`literalCost`);
* one for a root without operands, which gets the term `0`;
* two for each operand of a group beyond the second, since a quotient gives one up when it splits
  and an operand that is spliced in brings its own operands with it.

The rules are taken one by one here; the potential never rises and falls by at least one
(`potential_settle?`, `potential_regroup?`, …), whatever the shape of the tree. Of the oracle it is
required that its answers are canonical digits (`AnswersInDigits`).

**The weights are forced.** A quotient of three parts that is split becomes two groups in place of
one, so the third part must have been worth more than one group. A decimal may become a group of two
leaves, which is two nodes more, so its literal must be worth three. A leaf that is a root becomes a
group with a leaf in it, one node more. And a pending sum that is spliced into its parent makes the
parent longer by its operands less one, each worth two there; what pays for them is that they were
counted in the sum, where two of them were free, and the mark.

**Rules that report no change** do not have to lower anything, and it is enough that they do not
raise it: filling an empty root, and emptying one, for the pass ends there (`Pruned.Lowers`).

Without the requirement on answers there is no bound. An oracle that answers `0.5` with `0.5` would
have the same leaf rewritten in every pass.
-/

namespace EquationSteps

namespace Numeral

/-- Whether a text is a run of digits without leading zeros. -/
def isCanonical (text : Text) : Bool :=
  isInteger text && canonicalInteger text == text

/-- A canonical run of digits is an integer that is its own canonical form. -/
theorem isCanonical_iff {text : Text} :
    isCanonical text = true ↔ isInteger text = true ∧ canonicalInteger text = text := by
  simp [isCanonical]

/-- Dropping the leading zeros twice drops no more than once. -/
theorem canonicalInteger_canonicalInteger (text : Text) :
    canonicalInteger (canonicalInteger text) = canonicalInteger text := by
  unfold canonicalInteger
  cases hdigits : text.dropWhile (· == '0') with
  | nil => rfl
  | cons c rest =>
    have hidempotent : (c :: rest).dropWhile (· == '0') = c :: rest := by
      rw [← hdigits, List.dropWhile_idempotent]
    dsimp only
    rw [hidempotent]

/-- What is left of an integer without its leading zeros is canonical. -/
theorem isCanonical_canonicalInteger {text : Text} (h : isInteger text = true) :
    isCanonical (canonicalInteger text) = true :=
  isCanonical_iff.2 ⟨isInteger_canonicalInteger h, canonicalInteger_canonicalInteger text⟩

end Numeral

/-- Every answer is an integer without leading zeros, or a quotient of two such integers. The
answers of the exact oracle are of this kind, and any others that are as well can be dealt with. -/
def AnswersInDigits (rationalize : Text → Except ValueError Text) : Prop :=
  ∀ literal answer, rationalize literal = .ok answer → Numeral.isCanonical answer = true ∨
    ∃ numerator denominator, answer = numerator ++ '/' :: denominator ∧
      Numeral.isCanonical numerator = true ∧ Numeral.isCanonical denominator = true

namespace Node

variable {rationalize : Text → Except ValueError Text} {node node' : Node}

/-! ### The potential

Defined by recursion over the tree, with the cost of a node beside those of its operands. -/

/-- What a leaf spends until its text is canonical. A decimal may become a group of two leaves, so
it costs three. -/
def literalCost (text : Text) : Nat :=
  if Numeral.isInteger text then if Numeral.isCanonical text then 0 else 1
  else if Numeral.isDecimal text then 3
  else 0

/-- What a node spends until it is examined. -/
def pendingCost (tag : Tag) : Nat :=
  if tag.pending then 2 else 0

mutual

/-- The number of changes that a tree can at most go through. -/
def potential : Node → Nat
  | .atom tag text => 1 + pendingCost tag + (if tag.root then 2 else 0) + literalCost text
  | .group tag children =>
    1 + pendingCost tag + (if tag.root ∧ children = [] then 1 else 0) + 2 * (children.length - 2) +
      totalPotential children

/-- The sum of the potentials in a list of nodes. -/
def totalPotential : List Node → Nat
  | [] => 0
  | node :: nodes => potential node + totalPotential nodes

end

/-- Canonical digits have nothing left to spend. -/
theorem literalCost_of_isCanonical {text : Text} (h : Numeral.isCanonical text = true) :
    literalCost text = 0 := by
  rw [literalCost, if_pos (Numeral.isCanonical_iff.1 h).1, if_pos h]

/-- The most expensive leaf is a decimal. -/
theorem literalCost_le (text : Text) : literalCost text ≤ 3 := by
  unfold literalCost
  split
  · split <;> omega
  · split <;> omega

/-- No nodes have no potential. -/
@[simp] theorem totalPotential_nil : totalPotential [] = 0 := rfl

/-- The potential of several nodes is the sum over them. -/
@[simp] theorem totalPotential_cons (node : Node) (nodes : List Node) :
    totalPotential (node :: nodes) = node.potential + totalPotential nodes := rfl

/-- And so it is of two lists of nodes. -/
@[simp] theorem totalPotential_append (nodes nodes' : List Node) :
    totalPotential (nodes ++ nodes') = totalPotential nodes + totalPotential nodes' := by
  induction nodes with
  | nil => rw [List.nil_append, totalPotential_nil, Nat.zero_add]
  | cons node nodes ih => rw [List.cons_append, totalPotential_cons, totalPotential_cons, ih,
      Nat.add_assoc]

/-- Every node counts for itself. -/
theorem potential_pos (node : Node) : 0 < node.potential := by
  cases node <;> rw [potential] <;> omega

/-- So there are at most as many nodes in a list as its potential says. -/
theorem length_le_totalPotential (nodes : List Node) : nodes.length ≤ totalPotential nodes := by
  induction nodes with
  | nil => exact Nat.le_refl 0
  | cons node nodes ih =>
    have hpos := node.potential_pos
    rw [List.length_cons, totalPotential_cons]
    omega

/-- The sign of a node does not count. -/
@[simp] theorem potential_withSign (sign : Sign) (node : Node) :
    (node.withSign sign).potential = node.potential := by
  cases node <;> rfl

/-- Nor does turning it. -/
@[simp] theorem potential_flipSign (node : Node) : node.flipSign.potential = node.potential :=
  potential_withSign _ node

/-- Turning the signs of operands, as a sum with a minus does when it is spliced in, costs
nothing. -/
theorem totalPotential_map_flipSign (nodes : List Node) :
    totalPotential (nodes.map flipSign) = totalPotential nodes := by
  induction nodes with
  | nil => rfl
  | cons node nodes ih =>
    rw [List.map_cons, totalPotential_cons, totalPotential_cons, potential_flipSign, ih]

/-- A node that is not a root and takes over another node's content costs no more than that node,
its own mark of pending apart. -/
theorem potential_withContent_le (hroot : node.isRoot = false) (only : Node) :
    (node.withContent only.content).potential ≤ only.potential + pendingCost node.tag := by
  have hmark : node.tag.root = false := hroot
  cases only with
  | atom tag text =>
    show 1 + pendingCost node.tag + (if node.tag.root then 2 else 0) + literalCost text ≤
      1 + pendingCost tag + (if tag.root then 2 else 0) + literalCost text + pendingCost node.tag
    rw [hmark, if_neg Bool.false_ne_true]
    omega
  | group tag children =>
    show 1 + pendingCost node.tag + (if node.tag.root ∧ children = [] then 1 else 0) +
        2 * (children.length - 2) + totalPotential children ≤
      1 + pendingCost tag + (if tag.root ∧ children = [] then 1 else 0) +
        2 * (children.length - 2) + totalPotential children + pendingCost node.tag
    rw [hmark, if_neg fun h ↦ Bool.false_ne_true h.1]
    omega

/-! ### Roots

The two rules that apply to roots alone. -/

/-- The term that an empty root gets is paid for by its being empty. -/
theorem potential_fillRoot? (h : node.fillRoot? = some node') :
    node'.potential ≤ node.potential := by
  obtain ⟨tag, rfl, hroot, rfl⟩ := of_fillRoot? h
  simp [potential, zeroTerm, leaf, literalCost, pendingCost, Tag.fresh, hroot,
    show Numeral.isInteger ['0'] = true from rfl, show Numeral.isCanonical ['0'] = true from rfl]

/-- A leaf that becomes a group of one leaf loses the two that a leaf at the root is charged
with. -/
theorem potential_wrapRoot? (h : node.wrapRoot? = some node') :
    node'.potential < node.potential := by
  obtain ⟨tag, text, rfl, hroot, rfl⟩ := of_wrapRoot? h
  simp [potential, leaf, pendingCost, Tag.fresh, hroot]
  omega

/-! ### Substituted children

Examining an operand takes its mark and leaves nothing, the operand, or the operand's own operands.
Two inequalities are needed, as a group is charged for its operands beyond the second: one that
counts two for each operand, and one for groups that stay short. -/

/-- What a child leaves behind pays for two more operands each, and for one less if the child was
pending. -/
theorem potential_settled (family : Option Family) (child : Node) :
    totalPotential (settled family child) + 2 * (settled family child).length +
        (if child.isPending then 1 else 0) ≤ child.potential + 2 ∧
      totalPotential (settled family child) + (if child.isPending then 2 else 0) ≤
        child.potential := by
  by_cases hpending : child.isPending = true
  case neg =>
    rw [settled, if_neg hpending, if_neg hpending, if_neg hpending]
    simp
  obtain ⟨kept, hkept, hpotential⟩ : ∃ kept, kept = child.withPending false ∧
      kept.potential + 2 = child.potential := by
    refine ⟨_, rfl, ?_⟩
    have htag : child.tag.pending = true := hpending
    cases child with
    | atom tag text =>
      simp only [tag_atom] at htag
      simp [withPending, mapTag, potential, pendingCost, htag]
      omega
    | group tag children =>
      simp only [tag_group] at htag
      simp [withPending, mapTag, potential, pendingCost, htag]
      omega
  -- the operands of a group cost two less than the group, and two more for each beyond the second
  have hoperands : ∀ family, kept.family? = some family →
      totalPotential kept.children + 2 * kept.children.length ≤ kept.potential + 3 ∧
        totalPotential kept.children + 1 ≤ kept.potential := by
    intro family hfamily
    cases kept with
    | atom tag text => cases hfamily
    | group tag children =>
      show totalPotential children + 2 * children.length ≤ potential (group tag children) + 3 ∧
        totalPotential children + 1 ≤ potential (group tag children)
      rw [potential]
      omega
  rw [settled, if_pos hpending, if_pos hpending, if_pos hpending, ← hkept]
  dsimp only
  split
  · simp
    omega
  split
  · rename_i hsum
    obtain ⟨hlong, hshort⟩ := hoperands _ hsum.2.1
    split
    · rw [totalPotential_map_flipSign, List.length_map]
      omega
    · omega
  split
  · rename_i hproduct
    obtain ⟨hlong, hshort⟩ := hoperands _ hproduct.2.1
    omega
  · simp
    omega

/-- And so do all children together. -/
theorem potential_flatMap_settled (family : Option Family) (children : List Node) :
    totalPotential (children.flatMap (settled family)) +
        2 * (children.flatMap (settled family)).length +
        (if children.any isPending then 1 else 0) ≤
      totalPotential children + 2 * children.length ∧
    totalPotential (children.flatMap (settled family)) +
        (if children.any isPending then 2 else 0) ≤ totalPotential children := by
  induction children with
  | nil => simp
  | cons child rest ih =>
    obtain ⟨hlong, hshort⟩ := potential_settled family child
    obtain ⟨hlongRest, hshortRest⟩ := ih
    rw [List.flatMap_cons, totalPotential_append, totalPotential_cons, List.length_append,
      List.length_cons, List.any_cons]
    cases hchild : child.isPending <;> cases hrest : rest.any isPending <;>
      simp only [hchild, hrest, Bool.or_true, Bool.or_false, Bool.false_eq_true, if_true,
        if_false] at hlong hshort hlongRest hshortRest ⊢ <;> omega

/-- Examining lowers the potential: the marks that are taken are worth more than what is spliced
in. -/
theorem potential_settle? (h : node.settle? = some node') : node'.potential < node.potential := by
  obtain ⟨tag, children, rfl, hany, hcases⟩ := of_settle? h
  obtain ⟨hlong, hshort⟩ := potential_flatMap_settled (group tag children).family? children
  rw [if_pos hany] at hlong hshort
  rcases hcases with ⟨-, hroot, rfl⟩ | ⟨-, rfl⟩
  · rw [potential, potential, hroot, literalCost_of_isCanonical rfl, if_neg Bool.false_ne_true]
    omega
  · have hne : children ≠ [] := by
      rintro rfl
      cases hany
    rw [potential, potential, if_neg (c := tag.root ∧ children = []) fun h ↦ hne h.2]
    split
    · rename_i hempty
      have hnone := congrArg List.length hempty.2
      rw [List.length_nil] at hnone
      omega
    · omega

/-! ### Numbers

A literal is spent at once: digits become canonical, and an answer consists of canonical digits. -/

/-- A canonical answer is read as an integer or as a quotient of two. -/
theorem content_of_fraction? {literal : Text} {content : Content}
    (hanswers : AnswersInDigits rationalize) (h : fraction? rationalize literal = some content) :
    (∃ digits, content = .atom digits ∧ Numeral.isCanonical digits = true) ∨
      ∃ numerator denominator, content = .group [leaf .divide numerator, leaf .divide denominator] ∧
        Numeral.isCanonical numerator = true ∧ Numeral.isCanonical denominator = true := by
  unfold fraction? at h
  split at h
  case h_2 => cases h
  rename_i answer hanswer
  split at h
  case h_2 => cases h
  rename_i node hread
  cases h
  -- the answer is the text of a regular and compact tree, so it is read as that tree
  have hback : ∀ printed : Node, printed.isRegular = true → printed.isCompact = true →
      answer = printed.contentText → node.content = (printed.remade.withSign .plus).content := by
    rintro printed hregular hcompact rfl
    obtain ⟨inner, rfl, hbuild⟩ := exists_of_read hread
    rw [(generates_contentText hregular).scanned_eq] at hbuild
    have hinner := (Reads.of_build hbuild).eq_remade hregular hcompact
    rw [withRoot, content_mapTag, hinner, Option.getD_none]
  rcases hanswers literal answer hanswer with hdigits | ⟨numerator, denominator, hquotient, hn, hd⟩
  · have hoperand := isOperandText_of_isInteger (Numeral.isCanonical_iff.1 hdigits).1
    exact Or.inl ⟨answer, hback (leaf .plus answer) (isRegular_atom_iff.2 ⟨rfl, hoperand⟩) rfl rfl,
      hdigits⟩
  · have hoperand : ∀ digits, Numeral.isCanonical digits = true →
        (leaf .divide digits).isRegular = true := fun digits h ↦
      isRegular_atom_iff.2 ⟨rfl, isOperandText_of_isInteger (Numeral.isCanonical_iff.1 h).1⟩
    have hregular : (branch .plus [leaf .divide numerator, leaf .divide denominator]).isRegular =
        true := by
      refine isRegular_group_iff.2 ⟨rfl, rfl, ?_⟩
      simp [hoperand numerator hn, hoperand denominator hd]
    refine Or.inr ⟨numerator, denominator, hback _ hregular rfl ?_, hn, hd⟩
    rw [hquotient]
    simp [branch, leaf, contentText, isParenthesized, family?, Family.ofSign, linksText, linkSign,
      Tag.fresh, children, sign, Sign.symbol]

/-- A literal that is rewritten becomes canonical digits or two leaves with such digits, and neither
is ever rewritten again. -/
theorem potential_canonicalNumber? (hanswers : AnswersInDigits rationalize)
    (h : node.canonicalNumber? rationalize = some node') : node'.potential < node.potential := by
  obtain ⟨tag, text, rfl, ⟨hinteger, hchanges, rfl⟩ |
    ⟨hinteger, hdecimal, content, hfraction, rfl⟩⟩ :=
    of_canonicalNumber? h
  · have hcost : literalCost text = 1 := by
      rw [literalCost, if_pos hinteger, if_neg fun h ↦ hchanges (Numeral.isCanonical_iff.1 h).2]
    rw [potential, potential, hcost,
      literalCost_of_isCanonical (Numeral.isCanonical_canonicalInteger hinteger)]
    omega
  · have hcost : literalCost text = 3 := by
      rw [literalCost, if_neg (Bool.eq_false_iff.1 hinteger), if_pos hdecimal]
    rw [potential, hcost]
    rcases content_of_fraction? hanswers hfraction with
      ⟨digits, rfl, hdigits⟩ | ⟨numerator, denominator, rfl, hn, hd⟩
    · show 1 + pendingCost tag + (if tag.root then 2 else 0) + literalCost digits < _
      rw [literalCost_of_isCanonical hdigits]
      omega
    · have hleaf : ∀ digits, Numeral.isCanonical digits = true →
          (leaf .divide digits).potential = 1 := by
        intro digits hdigits
        rw [leaf, potential, literalCost_of_isCanonical hdigits]
        rfl
      -- a group with two leaves costs three, and the leaf that it replaces one and three
      show potential (group tag [leaf .divide numerator, leaf .divide denominator]) < _
      rw [potential, totalPotential_cons, totalPotential_cons, hleaf numerator hn,
        hleaf denominator hd, if_neg fun h ↦ List.cons_ne_nil _ _ h.2]
      simp only [List.length_cons, List.length_nil, totalPotential_nil]
      omega

/-! ### Shape

Splitting a chain of divisions makes a group, and collapsing takes one away. The third and later
operands pay for the first, and the second is paid for by the group that goes. -/

/-- A part that is beyond the second one moves into a group where it is no longer that. The group
costs one, and the part was charged two more. -/
theorem potential_regroup? (h : node.regroup? = some node') : node'.potential < node.potential := by
  obtain ⟨tag, first, middle, last, rfl, hmiddle, -, rfl⟩ := of_regroup? h
  have hlength := List.length_pos_of_ne_nil hmiddle
  rw [potential, potential, if_neg fun h ↦ List.cons_ne_nil _ _ h.2,
    if_neg fun h ↦ List.cons_ne_nil _ _ h.2, branch, totalPotential_cons, potential,
    ← List.cons_append, totalPotential_append]
  -- the new group costs one, and the quotient gives up the two for an operand beyond the second
  simp [pendingCost, Tag.fresh]
  omega

/-- A root that takes over the terms of its only term has one node less. -/
theorem potential_lift? (h : node.lift? = some node') : node'.potential < node.potential := by
  obtain ⟨tag, onlyTag, terms, rfl, -, hsum, rfl⟩ := of_lift? h
  have hne : terms ≠ [] := by
    rintro rfl
    cases hsum
  rw [potential, potential, totalPotential_cons, potential, if_neg fun h ↦ hne h.2,
    if_neg fun h ↦ List.cons_ne_nil _ _ h.2]
  simp only [List.length_singleton, totalPotential_nil]
  omega

/-- A group that gives way to its operand takes at least its own node with it. -/
theorem potential_collapse? (h : node.collapse? = some node') :
    node'.potential < node.potential := by
  rcases of_collapse? h with ⟨-, hlift⟩ | ⟨tag, only, rfl, hroot, hcases⟩
  · exact potential_lift? hlift
  have hgroup : only.potential + pendingCost tag < potential (group tag [only]) := by
    rw [potential, totalPotential_cons, totalPotential_nil]
    omega
  rcases hcases with ⟨-, -, rfl⟩ | ⟨-, rfl⟩
  · have hflipped : (group tag [only]).flipSign.isRoot = false := hroot
    exact (potential_withContent_le hflipped only).trans_lt hgroup
  · have hgroupRoot : (group tag [only]).isRoot = false := hroot
    exact (potential_withContent_le hgroupRoot only).trans_lt hgroup

/-! ### Ones and zeros

Operands that are dropped take their potential with them. -/

/-- Each operand that is dropped was worth at least one. -/
theorem totalPotential_filter (keep : Node → Bool) (nodes : List Node) :
    totalPotential (nodes.filter keep) + (nodes.length - (nodes.filter keep).length) ≤
      totalPotential nodes := by
  induction nodes with
  | nil => exact Nat.le_refl 0
  | cons node nodes ih =>
    have hpos := node.potential_pos
    have hlength := List.length_filter_le keep nodes
    rw [List.filter_cons]
    split <;> simp only [totalPotential_cons, List.length_cons] <;> omega

/-- A change lowers the potential, and a root that is emptied does not raise it. -/
def Pruned.Lowers (node : Node) : Pruned → Prop
  | .unchanged => True
  | .changed node' => node'.potential < node.potential
  | .emptiedRoot node' => node'.potential ≤ node.potential

/-- Dropping operands by any test lowers the potential, if the leaf that may be put in is worth no
more than a leaf. -/
theorem lowers_pruneBy {identity : Text} (hidentity : literalCost identity = 0)
    (keep : Node → Bool) (node : Node) : (node.pruneBy keep identity).Lowers node := by
  cases node with
  | atom tag text => exact True.intro
  | group tag children =>
    have hfilter := totalPotential_filter keep children
    have hlength := List.length_filter_le keep children
    -- what is left may be an empty root, which is filled, so the operands must pay for a zero
    have hcount := length_le_totalPotential children
    have hbefore : children ≠ [] → potential (group tag children) =
        1 + pendingCost tag + 2 * (children.length - 2) + totalPotential children := fun hne ↦ by
      rw [potential, if_neg fun h ↦ hne h.2, Nat.add_zero]
    have hchildren : (group tag children).children = children := rfl
    simp only [pruneBy, hchildren]
    by_cases hsame : (children.filter keep).length = children.length
    · rw [if_pos hsame]
      exact True.intro
    have hne : children ≠ [] := by
      rintro rfl
      exact hsame rfl
    have hpos := List.length_pos_of_ne_nil hne
    rw [if_neg hsame]
    by_cases hempty : (children.filter keep).isEmpty = true
    case neg =>
      rw [if_neg hempty]
      show potential (group tag (children.filter keep)) < potential (group tag children)
      rw [hbefore hne, potential, if_neg fun h ↦ hempty (List.isEmpty_iff.2 h.2)]
      omega
    rw [if_pos hempty]
    by_cases hroot : (group tag children).isRoot = true
    · have hzero : totalPotential [zeroTerm] = 1 := by
        rw [zeroTerm, leaf, totalPotential_cons, potential, literalCost_of_isCanonical rfl]
        rfl
      rw [if_pos hroot]
      show potential (group tag [zeroTerm]) ≤ potential (group tag children)
      rw [hbefore hne, potential, hzero, if_neg fun h ↦ List.cons_ne_nil _ _ h.2,
        List.length_singleton]
      omega
    · have hmark : tag.root = false := by simpa [isRoot] using hroot
      rw [if_neg hroot]
      show potential (atom tag identity) < potential (group tag children)
      rw [hbefore hne, potential, hidentity, hmark, if_neg Bool.false_ne_true]
      omega

/-- Dropping ones and zeros lowers the potential, as `1` and `0` are canonical digits. -/
theorem lowers_prune (node : Node) : node.prune.Lowers node := by
  rcases prune_cases node with hnone | ⟨-, hprune⟩ | ⟨-, hprune⟩
  · rw [hnone]
    exact True.intro
  · rw [hprune]
    exact lowers_pruneBy (literalCost_of_isCanonical rfl) _ node
  · rw [hprune]
    exact lowers_pruneBy (literalCost_of_isCanonical rfl) _ node

end Node

end EquationSteps
