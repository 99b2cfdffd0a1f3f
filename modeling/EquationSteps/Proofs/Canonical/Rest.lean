import EquationSteps.Proofs.Canonical.Tags

/-!
# Where normalization comes to rest

A tree is canonical if no rule applies anywhere in it (`Node.IsCanonical`). Normalization that
settles leaves a canonical tree (`Node.isCanonical_of_settles`), and it leaves a canonical tree as
it is (`Node.IsCanonical.normalize`). So what canonical trees look like is read off the rules.

A pass that reports no change need not leave the tree as it was: a root that is empty, or becomes
so, gets the term `0` and ends the pass. What it is left with is canonical all the same. Below the
topmost node there are no roots, and a pass without a change is one without an effect. That is all
the shape that is needed; what an oracle answers does not matter.

**One rule at a time is not what happens.** At each node the rules are tried in a fixed order, each
on what the one before it made, so a node to which no rule applies is one on which seven attempts
fail (`IsIdle`). It goes the other way as well: if no change is noted, then each of the attempts
failed on the node itself, since the first one that succeeded would have been noted
(`reshape_eq_opened_false_iff`).

**One rule that does everything.** Operations change a settled side in a single place, and what
normalization makes of it is then one rule, whose result is canonical. For these cases it is known
what the rules make of the node (`reshape_eq_opened_true` and the lemmas after it), and a pass that
comes to such a node leaves it canonical (`passWithin_of_reshape`).

**How far a pass goes.** Its reach is the weight of the tree and more, and the operands of a node
weigh less than the node (`weight_lt_of_mem_children`), so a pass that changes nothing has seen
every node.
-/

namespace EquationSteps.Node

variable {rationalize : Text → Except ValueError Text} {node node' : Node}

/-! ### One node

What it means that no rule applies, in terms of what is reported. -/

/-- No rule applies to the node itself. The nodes below it are not looked at. -/
structure IsIdle (rationalize : Text → Except ValueError Text) (node : Node) : Prop where
  fillRoot : node.fillRoot? = none
  wrapRoot : node.wrapRoot? = none
  settle : node.settle? = none
  canonicalNumber : node.canonicalNumber? rationalize = none
  regroup : node.regroup? = none
  collapse : node.collapse? = none
  prune : node.prune = .unchanged

/-- An attempt that notes no change did nothing. -/
theorem attempt_eq_false_iff {rule : Node → Option Node} {state : Bool × Node} :
    attempt rule state = (false, node') ↔ state = (false, node') ∧ rule node' = none := by
  constructor
  · intro h
    cases hrule : rule state.2 with
    | some other =>
      rw [attempt_of_eq_some hrule] at h
      cases h
    | none =>
      rw [attempt_of_eq_none hrule] at h
      rw [h] at hrule
      exact ⟨h, hrule⟩
  · rintro ⟨rfl, hrule⟩
    exact attempt_of_eq_none hrule

/-- No change is noted before anything is dropped exactly if none of the five rules applies. -/
theorem rewritten_eq_false_iff :
    node.rewritten rationalize = (false, node') ↔ node' = node ∧ node.wrapRoot? = none ∧
      node.settle? = none ∧ node.canonicalNumber? rationalize = none ∧ node.regroup? = none ∧
        node.collapse? = none := by
  simp only [rewritten, examined, attempt_eq_false_iff, Prod.mk.injEq, true_and]
  constructor
  · rintro ⟨⟨⟨⟨⟨rfl, hwrap⟩, hsettle⟩, hnumber⟩, hregroup⟩, hcollapse⟩
    exact ⟨rfl, hwrap, hsettle, hnumber, hregroup, hcollapse⟩
  · rintro ⟨rfl, hwrap, hsettle, hnumber, hregroup, hcollapse⟩
    exact ⟨⟨⟨⟨⟨rfl, hwrap⟩, hsettle⟩, hnumber⟩, hregroup⟩, hcollapse⟩

/-- The rules report no change exactly if none of them applies. -/
theorem reshape_eq_opened_false_iff :
    node.reshape rationalize = .opened false node' ↔ node' = node ∧ node.IsIdle rationalize := by
  rw [reshape_eq]
  constructor
  · intro h
    split at h
    · cases h
    · rename_i hfill
      split at h
      · rename_i hprune
        injection h with hchanged hnode
        have hrewritten : node.rewritten rationalize = (false, node') :=
          Prod.ext hchanged hnode
        obtain ⟨rfl, hwrap, hsettle, hnumber, hregroup, hcollapse⟩ :=
          rewritten_eq_false_iff.1 hrewritten
        rw [hrewritten] at hprune
        exact ⟨rfl, hfill, hwrap, hsettle, hnumber, hregroup, hcollapse, hprune⟩
      · cases h
      · cases h
  · rintro ⟨rfl, hidle⟩
    have hrewritten : node'.rewritten rationalize = (false, node') :=
      rewritten_eq_false_iff.2 ⟨rfl, hidle.wrapRoot, hidle.settle, hidle.canonicalNumber,
        hidle.regroup, hidle.collapse⟩
    rw [hidle.fillRoot, hrewritten]
    dsimp only
    rw [hidle.prune]

/-! One rule may be all there is to do at a node. -/

/-- If the rules before dropping lead to a node to which no rule applies, then that is where the
rules end, with a change. -/
theorem reshape_eq_opened_true (hfill : node.fillRoot? = none)
    (hrewritten : node.rewritten rationalize = (true, node')) (hidle : node'.IsIdle rationalize) :
    node.reshape rationalize = .opened true node' := by
  rw [reshape_eq, hfill, hrewritten]
  dsimp only
  rw [hidle.prune]

/-- Examining operands may be all there is to do. -/
theorem rewritten_of_settle? (hwrap : node.wrapRoot? = none) (hsettle : node.settle? = some node')
    (hidle : node'.IsIdle rationalize) : node.rewritten rationalize = (true, node') := by
  have hwrapped : attempt wrapRoot? (false, node) = (false, node) := attempt_of_eq_none hwrap
  have hsettled : attempt settle? (false, node) = (true, node') := attempt_of_eq_some hsettle
  have hnumber : attempt (canonicalNumber? rationalize) (true, node') = (true, node') :=
    attempt_of_eq_none hidle.canonicalNumber
  have hregrouped : attempt regroup? (true, node') = (true, node') :=
    attempt_of_eq_none hidle.regroup
  have hcollapsed : attempt collapse? (true, node') = (true, node') :=
    attempt_of_eq_none hidle.collapse
  rw [rewritten, examined, hwrapped, hsettled, hnumber, hregrouped, hcollapsed]

/-- So may be rewriting a number. -/
theorem rewritten_of_canonicalNumber? (hwrap : node.wrapRoot? = none)
    (hsettle : node.settle? = none) (hnumber : node.canonicalNumber? rationalize = some node')
    (hidle : node'.IsIdle rationalize) :
    node.rewritten rationalize = (true, node') := by
  have hwrapped : attempt wrapRoot? (false, node) = (false, node) := attempt_of_eq_none hwrap
  have hsettled : attempt settle? (false, node) = (false, node) := attempt_of_eq_none hsettle
  have hnumbered : attempt (canonicalNumber? rationalize) (false, node) = (true, node') :=
    attempt_of_eq_some hnumber
  have hregrouped : attempt regroup? (true, node') = (true, node') :=
    attempt_of_eq_none hidle.regroup
  have hcollapsed : attempt collapse? (true, node') = (true, node') :=
    attempt_of_eq_none hidle.collapse
  rw [rewritten, examined, hwrapped, hsettled, hnumbered, hregrouped, hcollapsed]

/-- Or giving way to a single operand, after which nothing is tried but dropping. -/
theorem rewritten_of_collapse? (hwrap : node.wrapRoot? = none) (hsettle : node.settle? = none)
    (hnumber : node.canonicalNumber? rationalize = none) (hregroup : node.regroup? = none)
    (hcollapse : node.collapse? = some node') : node.rewritten rationalize = (true, node') := by
  have hwrapped : attempt wrapRoot? (false, node) = (false, node) := attempt_of_eq_none hwrap
  have hsettled : attempt settle? (false, node) = (false, node) := attempt_of_eq_none hsettle
  have hnumbered : attempt (canonicalNumber? rationalize) (false, node) = (false, node) :=
    attempt_of_eq_none hnumber
  have hregrouped : attempt regroup? (false, node) = (false, node) := attempt_of_eq_none hregroup
  have hcollapsed : attempt collapse? (false, node) = (true, node') := attempt_of_eq_some hcollapse
  rw [rewritten, examined, hwrapped, hsettled, hnumbered, hregrouped, hcollapsed]

/-! ### Trees

Canonical trees are those that are idle at every node. -/

/-- No rule applies to any node of the tree. -/
inductive IsCanonical (rationalize : Text → Except ValueError Text) : Node → Prop where
  | atom {tag : Tag} {text : Text} (idle : (atom tag text).IsIdle rationalize) :
    IsCanonical rationalize (atom tag text)
  | group {tag : Tag} {children : List Node} (idle : (group tag children).IsIdle rationalize)
    (all : ∀ child ∈ children, IsCanonical rationalize child) :
    IsCanonical rationalize (group tag children)

/-- A tree is canonical if it is idle and its operands are canonical. -/
theorem isCanonical_iff :
    node.IsCanonical rationalize ↔
      node.IsIdle rationalize ∧ ∀ child ∈ node.children, child.IsCanonical rationalize := by
  constructor
  · intro h
    cases h with
    | atom idle => exact ⟨idle, fun child hmem ↦ absurd hmem List.not_mem_nil⟩
    | group idle all => exact ⟨idle, all⟩
  · rintro ⟨idle, all⟩
    cases node with
    | atom tag text => exact .atom idle
    | group tag children => exact .group idle all

/-- A pass leaves a canonical tree as it is. -/
theorem IsCanonical.passWithin (h : node.IsCanonical rationalize) (reach : Nat) :
    passWithin rationalize reach node = (false, node) := by
  induction reach generalizing node with
  | zero => rfl
  | succ reach ih =>
    obtain ⟨hidle, hall⟩ := isCanonical_iff.1 h
    rw [Node.passWithin, reshape_eq_opened_false_iff.2 ⟨rfl, hidle⟩]
    have hchildren : node.children.map (Node.passWithin rationalize reach) =
        node.children.map fun child ↦ (false, child) :=
      List.map_congr_left fun child hmem ↦ ih (hall child hmem)
    simp [hchildren, Function.comp_def]

/-- Normalization leaves a canonical tree as it is. -/
theorem IsCanonical.normalize (h : node.IsCanonical rationalize) {limits : Limits}
    (hlimits : 0 < limits.passes) : node.normalize rationalize limits = (.ok 0, node) := by
  obtain ⟨left, hleft⟩ := Nat.exists_eq_succ_of_ne_zero hlimits.ne'
  rw [Node.normalize, hleft, normalizeFrom, pass, h.passWithin]

/-- If the rules make a node canonical at once, so does a pass that comes to it, in whatever
tree. -/
theorem passWithin_of_reshape {changed : Bool}
    (h : node.reshape rationalize = .opened changed node')
    (hcanonical : node'.IsCanonical rationalize) (reach : Nat) :
    passWithin rationalize (reach + 1) node = (changed, node') := by
  obtain ⟨-, hall⟩ := isCanonical_iff.1 hcanonical
  have hchildren : node'.children.map (passWithin rationalize reach) =
      node'.children.map fun child ↦ (false, child) :=
    List.map_congr_left fun child hmem ↦ (hall child hmem).passWithin reach
  rw [passWithin, h]
  simp [hchildren, Function.comp_def]

/-- Normalization of the node itself then ends there, with one pass to see it. -/
theorem normalize_of_reshape (h : node.reshape rationalize = .opened true node')
    (hcanonical : node'.IsCanonical rationalize) {limits : Limits} (hlimits : 2 ≤ limits.passes) :
    node.normalize rationalize limits = (.ok 1, node') := by
  obtain ⟨left, hleft⟩ := Nat.exists_eq_add_of_le' hlimits
  have hfirst : node.pass rationalize = (true, node') :=
    passWithin_of_reshape h hcanonical (node.weight + 4095)
  have hsecond : node'.pass rationalize = (false, node') := hcanonical.passWithin _
  rw [Node.normalize, hleft, normalizeFrom, hfirst]
  dsimp only
  rw [normalizeFrom, hsecond]

/-- Whether or not there was a change, normalization then settles. -/
theorem exists_normalize_of_reshape {changed : Bool}
    (h : node.reshape rationalize = .opened changed node')
    (hcanonical : node'.IsCanonical rationalize) {limits : Limits} (hlimits : 2 ≤ limits.passes) :
    ∃ passes, node.normalize rationalize limits = (.ok passes, node') := by
  cases changed with
  | true => exact ⟨1, normalize_of_reshape h hcanonical hlimits⟩
  | false =>
    obtain ⟨rfl, -⟩ := reshape_eq_opened_false_iff.1 h
    exact ⟨0, hcanonical.normalize (Nat.lt_of_lt_of_le Nat.zero_lt_two hlimits)⟩

/-- A root of which the term `0` is left is canonical. -/
theorem isCanonical_of_content (hroot : node.isRoot = true)
    (hcontent : node.content = .group [zeroTerm]) :
    node.IsCanonical rationalize := by
  cases node with
  | atom tag text => cases hcontent
  | group tag children =>
    cases hcontent
    have hzero : zeroTerm.IsCanonical rationalize := .atom ⟨rfl, rfl, rfl, rfl, rfl, rfl, rfl⟩
    refine .group ⟨?_, ?_, rfl, rfl, rfl, ?_, rfl⟩ (List.forall_mem_singleton.2 hzero)
    · rw [fillRoot?, hroot]
      rfl
    · rw [wrapRoot?, hroot]
      rfl
    · rw [collapse?, if_pos hroot]
      rfl

/-! ### Passes without a change

By induction on the reach: below the topmost node a pass without a change has no effect, and at the
topmost node it has none unless the node is a root that was filled. -/

/-- Only a root ends a pass, and it is left with the term `0`. -/
theorem of_closed_reshape (h : node.reshape rationalize = .closed node') :
    node.isRoot = true ∧ node'.isRoot = true ∧ node'.content = .group [zeroTerm] := by
  rw [reshape_eq] at h
  split at h
  · rename_i filled hfill
    cases h
    obtain ⟨tag, rfl, hroot, rfl⟩ := of_fillRoot? hfill
    exact ⟨hroot, hroot, rfl⟩
  · split at h
    · cases h
    · cases h
    · rename_i emptied hprune
      cases h
      obtain ⟨keep, identity, hby⟩ := exists_pruneBy hprune nofun
      obtain ⟨hroot, -, rfl⟩ := of_pruneBy_eq_emptiedRoot hby
      refine ⟨?_, ?_, content_withContent _ _⟩
      · rw [← isRoot_of_reflTransGen (reflTransGen_rewritten rationalize node)]
        exact hroot
      · rw [isRoot, tag_withContent]
        exact hroot

/-- Every node has a weight. -/
theorem weight_pos (node : Node) : 0 < node.weight := by
  cases node <;> rw [weight] <;> split <;> omega

/-- Operands weigh less than their group. -/
theorem weight_lt_of_mem_children {child : Node} (hmem : child ∈ node.children) :
    child.weight < node.weight := by
  cases node with
  | atom tag text => exact absurd hmem List.not_mem_nil
  | group tag children =>
    have hweight : child.weight ≤ totalWeight children := weight_le_totalWeight hmem
    rw [weight]
    split <;> omega

/-- A pass that reports no change ended at the node, or no rule applies to the node and no change is
reported from below. -/
theorem passWithin_succ_eq_false {reach : Nat}
    (h : Node.passWithin rationalize (reach + 1) node = (false, node')) :
    node.reshape rationalize = .closed node' ∨ node.IsIdle rationalize ∧
      (∀ child ∈ node.children, (Node.passWithin rationalize reach child).1 = false) ∧
        node' = node.withChildren (node.children.map fun child ↦
          (Node.passWithin rationalize reach child).2) := by
  rw [Node.passWithin] at h
  split at h
  · rename_i closed hreshape
    cases h
    exact Or.inl hreshape
  · rename_i changed opened hreshape
    simp only [Prod.mk.injEq, Bool.or_eq_false_iff] at h
    obtain ⟨⟨rfl, hvisited⟩, rfl⟩ := h
    obtain ⟨rfl, hidle⟩ := reshape_eq_opened_false_iff.1 hreshape
    refine Or.inr ⟨hidle, fun child hmem ↦ ?_, ?_⟩
    · simpa using List.any_eq_false.1 hvisited _ (List.mem_map_of_mem hmem)
    · rw [List.map_map]
      rfl

/-- One level of a pass that reports no change, if no change below means no effect: either no rule
applies to the node or below, or the node is a root that is left with the term `0`. -/
theorem of_passWithin_succ {reach : Nat}
    (hbelow : ∀ child ∈ node.children, ∀ child',
      Node.passWithin rationalize reach child = (false, child') →
        child' = child ∧ child.IsCanonical rationalize)
    (h : Node.passWithin rationalize (reach + 1) node = (false, node')) :
    node' = node ∧ node.IsCanonical rationalize ∨ node.reshape rationalize = .closed node' := by
  rcases passWithin_succ_eq_false h with hclosed | ⟨hidle, hunchanged, rfl⟩
  · exact Or.inr hclosed
  · have hall : ∀ child ∈ node.children, (Node.passWithin rationalize reach child).2 = child ∧
        child.IsCanonical rationalize := fun child hmem ↦
      hbelow child hmem _ (Prod.ext (hunchanged child hmem) rfl)
    have hchildren : (node.children.map fun child ↦ (Node.passWithin rationalize reach child).2) =
        node.children :=
      (List.map_congr_left fun child hmem ↦ (hall child hmem).1).trans (List.map_id _)
    rw [hchildren, withChildren_children]
    exact Or.inl ⟨rfl, isCanonical_iff.2 ⟨hidle, fun child hmem ↦ (hall child hmem).2⟩⟩

/-- **A pass over a whole tree that reports no change** had no effect, and no rule applies anywhere,
or else the tree is a root that is left with the term `0`. -/
theorem of_passWithin_eq_false {reach : Nat} (hreach : node.weight ≤ reach)
    (hroots : node.EveryTagBelow fun tag ↦ !tag.root)
    (h : passWithin rationalize reach node = (false, node')) :
    node' = node ∧ node.IsCanonical rationalize ∨ node.reshape rationalize = .closed node' := by
  induction reach generalizing node node' with
  | zero =>
    have hpos := weight_pos node
    omega
  | succ reach ih =>
    refine of_passWithin_succ (fun child hmem child' hchild ↦ ?_) h
    obtain ⟨htag, hbelow⟩ := everyTag_iff.1 (hroots child hmem)
    have hroot : child.isRoot = false := by simpa [isRoot] using htag
    have hweight := weight_lt_of_mem_children hmem
    rcases ih (by omega) hbelow hchild with hsame | hclosed
    · exact hsame
    · cases hroot.symm.trans (of_closed_reshape hclosed).1

/-- So it leaves a canonical tree. -/
theorem isCanonical_of_passWithin {reach : Nat} (hreach : node.weight ≤ reach)
    (hroots : node.EveryTagBelow fun tag ↦ !tag.root)
    (h : passWithin rationalize reach node = (false, node')) : node'.IsCanonical rationalize := by
  rcases of_passWithin_eq_false hreach hroots h with ⟨rfl, hcanonical⟩ | hclosed
  · exact hcanonical
  · obtain ⟨-, hroot, hcontent⟩ := of_closed_reshape hclosed
    exact isCanonical_of_content hroot hcontent

/-! ### Normalization

The last pass is one that reports no change, so it leaves a canonical tree. -/

/-- **Normalization that settles leaves a canonical tree**, if only the topmost node may be a
root. -/
theorem isCanonical_of_settles {limits : Limits} {passes : Nat}
    (hroots : node.EveryTagBelow fun tag ↦ !tag.root)
    (h : node.normalize rationalize limits = (.ok passes, node')) :
    node'.IsCanonical rationalize := by
  obtain ⟨last, hlast, hpass⟩ := exists_pass_of_normalizeFrom h
  exact isCanonical_of_passWithin (Nat.le_add_right _ _)
    ((everyTag_of_reflTransGen isLasting_not_root hlast).2 hroots) hpass

/-- There are no roots in a regular tree. -/
theorem everyTag_of_isRegular (h : node.isRegular = true) :
    node.everyTag (fun tag ↦ !tag.root) = true := by
  induction node using Node.induction with
  | atom tag text =>
    rw [everyTag, (isRegular_atom_iff.1 h).1]
    rfl
  | group tag children ih =>
    obtain ⟨hroot, -, hchildren⟩ := isRegular_group_iff.1 h
    refine everyTag_group_iff.2 ⟨?_, fun child hmem ↦ ih child hmem (hchildren child hmem)⟩
    rw [hroot]
    rfl

/-- Only the topmost node of a shaped tree may be a root. -/
theorem everyTagBelow_of_isShaped (h : node.isShaped = true) :
    node.EveryTagBelow fun tag ↦ !tag.root := by
  cases node with
  | atom tag text => exact List.forall_mem_nil _
  | group tag children =>
    exact fun child hmem ↦ everyTag_of_isRegular (isRegular_of_isShaped_group h child hmem)

end EquationSteps.Node
