import EquationSteps.Canonical.Pass

/-!
# What the rules do

For each rule of normalization, the trees to which it applies and what it makes of them. Whatever is
kept by the rules, or bounded along them, is proved by these cases, and no rule is opened for it.

There is one lemma for each rule, named after it (`of_settle?`, `of_regroup?`, and so on). Its
hypothesis is that the rule returned something, and its conclusion gives the tag and the operands of
the node, the conditions that were tested, and the result. The lemmas say all that there is to say:
a proof that has the conclusion knows as much as one that opened the rule. This is why the guards
are in them as well, such as that a quotient that is regrouped has something between its first and
its last part.

**Pruning is two rules in one.** Products lose ones and sums lose zeros, by the same function with
another test. What is the same about them is stated for any test (`of_pruneBy_eq_changed`,
`of_pruneBy_eq_emptiedRoot`), and `prune_cases` says which tests there are.

At the end stands what normalization as a whole can fail by. There is one failure, that the limit on
passes is reached, and it names the limit (`normalize_eq_error`).
-/

namespace EquationSteps.Node

variable {rationalize : Text → Except ValueError Text} {node node' : Node}

/-! ### Rules that make something of a node -/

/-- A root without operands gets the term `0`. -/
theorem of_fillRoot? (h : node.fillRoot? = some node') :
    ∃ tag, node = group tag [] ∧ tag.root = true ∧ node' = group tag [zeroTerm] := by
  unfold fillRoot? at h
  split at h
  · rename_i hroot hcontent
    cases h
    cases node with
    | atom tag text => cases hcontent
    | group tag children =>
      cases hcontent
      exact ⟨tag, rfl, hroot, rfl⟩
  · cases h

/-- A root that is a leaf becomes a group of one term. The sign moves to the term, and the root has
a plus. -/
theorem of_wrapRoot? (h : node.wrapRoot? = some node') :
    ∃ tag text, node = atom tag text ∧ tag.root = true ∧
      node' = group { tag with sign := .plus } [leaf tag.sign text] := by
  unfold wrapRoot? at h
  split at h
  · rename_i hroot hcontent
    cases h
    cases node with
    | atom tag text =>
      cases hcontent
      exact ⟨tag, _, rfl, hroot, rfl⟩
    | group tag children => cases hcontent
  · cases h

/-- Examining operands leaves a zero of a group below the root, if nothing else is left. -/
theorem of_settle? (h : node.settle? = some node') :
    ∃ tag operands, node = group tag operands ∧ operands.any isPending = true ∧
      (operands.flatMap (settled node.family?) = [] ∧ tag.root = false ∧ node' = atom tag ['0'] ∨
        (operands.flatMap (settled node.family?) ≠ [] ∨ tag.root = true) ∧
          node' = group tag (operands.flatMap (settled node.family?))) := by
  cases node with
  | atom tag text => cases h
  | group tag operands =>
    unfold settle? at h
    split at h
    · rename_i hpending
      refine ⟨tag, operands, rfl, hpending, ?_⟩
      dsimp only [children] at h
      split at h
      · rename_i hempty
        cases h
        exact Or.inl ⟨List.isEmpty_iff.1 hempty.1, hempty.2, rfl⟩
      · rename_i hempty
        cases h
        refine Or.inr ⟨?_, rfl⟩
        by_cases hnil : operands.flatMap (settled (group tag operands).family?) = []
        · refine Or.inr (Bool.not_eq_false _ ▸ fun hroot ↦ ?_)
          exact hempty ⟨List.isEmpty_iff.2 hnil, hroot⟩
        · exact Or.inl hnil
    · cases h

/-- A leaf with an integer loses leading zeros; one with a decimal that is not an integer gets the
content that was read from the oracle's answer. -/
theorem of_canonicalNumber? (h : node.canonicalNumber? rationalize = some node') :
    ∃ tag text, node = atom tag text ∧
      ((Numeral.isInteger text = true ∧ Numeral.canonicalInteger text ≠ text ∧
          node' = atom tag (Numeral.canonicalInteger text)) ∨
        Numeral.isInteger text = false ∧ Numeral.isDecimal text = true ∧
          ∃ content, fraction? rationalize text = some content ∧
            node' = ofContent tag content) := by
  cases node with
  | group tag children => cases h
  | atom tag text =>
    refine ⟨tag, text, rfl, ?_⟩
    simp only [canonicalNumber?, content] at h
    split at h
    · rename_i hinteger
      split at h
      · cases h
      · rename_i hchanges
        cases h
        exact Or.inl ⟨hinteger, hchanges, rfl⟩
    · rename_i hinteger
      split at h
      · rename_i hdecimal
        obtain ⟨content, hfraction, rfl⟩ := Option.map_eq_some_iff.1 h
        exact Or.inr ⟨Bool.eq_false_iff.2 hinteger, hdecimal, content, hfraction, rfl⟩
      · cases h

/-- A quotient of at least three parts keeps the last of them, and the others become its
dividend. -/
theorem of_regroup? (h : node.regroup? = some node') :
    ∃ tag first middle last, node = group tag (first :: (middle ++ [last])) ∧ middle ≠ [] ∧
      node.family? = some .quotient ∧
        node' = group tag [branch .divide (first :: middle), last] := by
  unfold regroup? at h
  split at h
  · rename_i hquotient
    obtain ⟨hfamily, hlength⟩ := hquotient
    split at h
    · rename_i last hlast
      cases h
      cases node with
      | atom tag text => cases hlast
      | group tag operands =>
        obtain ⟨parts, rfl⟩ := List.getLast?_eq_some_iff.1 hlast
        cases parts with
        | nil => exact absurd hlength (by simp [children])
        | cons first middle =>
          refine ⟨tag, first, middle, last, rfl, ?_, hfamily, ?_⟩
          · rintro rfl
            exact absurd hlength (by simp [children])
          · show group tag [branch .divide ((first :: middle) ++ [last]).dropLast, last] = _
            rw [List.dropLast_concat]
    · cases h
  · cases h

/-- A root with a single term takes over the terms of that term, if it is a sum with a plus. -/
theorem of_lift? (h : node.lift? = some node') :
    ∃ tag onlyTag terms, node = group tag [group onlyTag terms] ∧ onlyTag.sign = .plus ∧
      (group onlyTag terms).family? = some .sum ∧ node' = group tag terms := by
  unfold lift? at h
  split at h
  · rename_i only hchildren
    split at h
    · rename_i hsum
      cases h
      cases node with
      | atom tag text => cases hchildren
      | group tag operands =>
        obtain rfl : operands = [only] := hchildren
        cases only with
        | atom onlyTag text => cases hsum.2
        | group onlyTag terms => exact ⟨tag, onlyTag, terms, rfl, hsum.1, hsum.2, rfl⟩
    · cases h
  · cases h

/-- A root gives way to a sum, and any other group to its only operand. -/
theorem of_collapse? (h : node.collapse? = some node') :
    node.isRoot = true ∧ node.lift? = some node' ∨
      ∃ tag only, node = group tag [only] ∧ tag.root = false ∧
        (only.sign = .minus ∧ tag.sign.isAdditive = true ∧
            node' = ofContent { tag with sign := tag.sign.flipped } only.content ∨
          only.sign ≠ .minus ∧ node' = ofContent tag only.content) := by
  unfold collapse? at h
  split at h
  · exact Or.inl ⟨‹_›, h⟩
  · rename_i hroot
    split at h
    · rename_i only hchildren
      cases node with
      | atom tag text => cases hchildren
      | group tag operands =>
        obtain rfl : operands = [only] := hchildren
        refine Or.inr ⟨tag, only, rfl, Bool.eq_false_iff.2 hroot, ?_⟩
        split at h
        · rename_i hminus
          split at h
          · cases h
            exact Or.inl ⟨hminus, ‹_›, rfl⟩
          · cases h
        · rename_i hminus
          cases h
          exact Or.inr ⟨hminus, rfl⟩
    · cases h

/-! ### Dropping operands -/

/-- What is left of a group after some operands are dropped: those that pass the test, or the given
leaf if none does and the group is not a root. -/
theorem of_pruneBy_eq_changed {keep : Node → Bool} {identity : Text}
    (h : node.pruneBy keep identity = .changed node') :
    (node.isRoot = false ∧ node.children.filter keep = [] ∧
        node' = node.withContent (.atom identity)) ∨
      (node.children.filter keep ≠ [] ∧
        node' = node.withContent (.group (node.children.filter keep))) := by
  simp only [pruneBy] at h
  split at h
  · cases h
  · split at h
    · rename_i hempty
      split at h
      · cases h
      · rename_i hroot
        cases h
        exact Or.inl ⟨by simpa using hroot, List.isEmpty_iff.1 hempty, rfl⟩
    · rename_i hempty
      cases h
      exact Or.inr ⟨fun hnil ↦ hempty (List.isEmpty_iff.2 hnil), rfl⟩

/-- Only a root is emptied, and it gets the term `0`. -/
theorem of_pruneBy_eq_emptiedRoot {keep : Node → Bool} {identity : Text}
    (h : node.pruneBy keep identity = .emptiedRoot node') :
    node.isRoot = true ∧ node.children.filter keep = [] ∧
      node' = node.withContent (.group [zeroTerm]) := by
  simp only [pruneBy] at h
  split at h
  · cases h
  · split at h
    · rename_i hempty
      split at h
      · rename_i hroot
        cases h
        exact ⟨hroot, List.isEmpty_iff.1 hempty, rfl⟩
      · cases h
    · cases h

/-- Only products and sums are pruned. -/
theorem prune_cases (node : Node) : node.prune = .unchanged ∨
    node.family? = some .product ∧
      node.prune = node.pruneBy (fun child ↦ child.toText != ['1']) ['1'] ∨
    node.family? = some .sum ∧ node.prune = node.pruneBy (fun child ↦ !child.isZeroAtom) ['0'] := by
  unfold prune
  split
  · exact Or.inr (Or.inl ⟨‹_›, rfl⟩)
  · split
    · exact Or.inr (Or.inr ⟨‹_›, rfl⟩)
    · exact Or.inl rfl
  · exact Or.inl rfl

/-- Dropping ones and zeros is dropping some of the operands. -/
theorem exists_pruneBy {pruned : Pruned} (h : node.prune = pruned)
    (hchanged : pruned ≠ .unchanged) :
    ∃ keep identity, node.pruneBy keep identity = pruned := by
  rcases prune_cases node with hnone | ⟨-, hprune⟩ | ⟨-, hprune⟩
  · exact absurd (h.symm.trans hnone) hchanged
  · exact ⟨_, _, hprune.symm.trans h⟩
  · exact ⟨_, _, hprune.symm.trans h⟩

/-! ### How normalization fails -/

/-- The passes that were done and those that were left add up to the number in the failure. -/
theorem normalizeFrom_eq_error {done left : Nat} {cause : TreeError}
    (h : (node.normalizeFrom rationalize done left).1 = .error cause) :
    cause = .notSettled (done + left) := by
  induction left generalizing done node with
  | zero =>
    cases h
    rfl
  | succ left ih =>
    rw [normalizeFrom] at h
    split at h
    · rw [ih h, Nat.add_right_comm, Nat.add_assoc]
    · cases h

/-- Normalization fails in no other way than by not settling within the limit. -/
theorem normalize_eq_error {limits : Limits} {cause : TreeError}
    (h : (node.normalize rationalize limits).1 = .error cause) :
    cause = .notSettled limits.passes := by
  rw [normalizeFrom_eq_error h, Nat.zero_add]

end EquationSteps.Node
