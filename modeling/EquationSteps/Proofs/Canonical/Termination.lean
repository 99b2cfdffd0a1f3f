import EquationSteps.Proofs.Canonical.Potential

/-!
# Normalization settles

Every pass that reports a change spends at least one of the tree's potential, and no pass adds to it
(`Node.spends_passWithin`, by induction on the reach of the pass). So the number of changing passes
is bounded by the potential (`Node.changes_le_potential`), which in turn is at most eight times the
number of nodes. A limit above that bound is never what ends normalization
(`Node.normalize_settles`).

That the tree has no root below its topmost node enters the bound on the potential alone: each
further root could cost two more than a node costs otherwise.

**From rules to passes.** A pass applies several rules to a node and then goes on to the operands.
What it spends is what the rules spend on the node (`spends_reshape`), and then what is spent on the
operands (`Spends.children`). At both places it may be that nothing is reported and nothing spent;
what has to be excluded is that something is reported and nothing spent, and `Spends` says just
that, as a single inequality.

**A pass that empties a root** reports no change although it changes the tree. It need not spend
anything, and it ends normalization.

**The bound is linear, and not sharp.** A node costs at most one, two for its mark, three for its
literal, and two as an operand beyond the second. Counting eight for each node leaves room for an
operand to pay for its place in the group as well (`totalPotential_le`), which makes the induction
go through without a case for the number of operands. The theorem allows nine and two more, so that
the statement can be read without knowing what is counted.
-/

namespace EquationSteps

namespace Numeral

/-- The digits of a number other than zero begin with another digit than zero. -/
theorem dropWhile_digits {n : Nat} (h : n ≠ 0) : (digits n).dropWhile (· == '0') = digits n := by
  induction n using Nat.strong_induction_on with
  | _ n ih =>
    unfold digits
    by_cases hlt : n < 10
    · have hfirst : ¬ (n.digitChar == '0') = true := by simpa using h
      rw [Nat.toDigits_of_lt_base hlt]
      exact List.dropWhile_cons_of_neg hfirst
    · have hle : 10 ≤ n := Nat.le_of_not_lt hlt
      have hne : n / 10 ≠ 0 := by omega
      have hdropped : (Nat.toDigits 10 (n / 10)).dropWhile (· == '0') = Nat.toDigits 10 (n / 10) :=
        ih (n / 10) (by omega) hne
      rw [Nat.toDigits_of_base_le (by decide) hle, List.dropWhile_append, hdropped, if_neg]
      simp [Nat.toDigits_ne_nil]

/-- The digits of a number are canonical. -/
theorem isCanonical_digits (n : Nat) : isCanonical (digits n) = true := by
  refine isCanonical_iff.2 ⟨isInteger_digits n, ?_⟩
  by_cases h : n = 0
  · subst h
    rfl
  · rw [canonicalInteger, dropWhile_digits h]
    cases hdigits : digits n with
    | nil => exact absurd hdigits Nat.toDigits_ne_nil
    | cons c rest => rfl

end Numeral

/-- The oracle that knows the fractions of decimal literals answers in canonical digits. None of
them is rewritten again. -/
theorem answersInDigits_exactFraction : AnswersInDigits Oracle.exactFraction := by
  intro literal answer h
  obtain ⟨q, hfraction, rfl⟩ := Node.of_exactFraction h
  rw [Numeral.fractionText,
    Numeral.integerText_of_nonneg (Rat.num_nonneg.2 (Numeral.decimalFraction?_nonneg hfraction))]
  split
  · exact Or.inl (Numeral.isCanonical_digits _)
  · exact Or.inr ⟨_, _, rfl, Numeral.isCanonical_digits _, Numeral.isCanonical_digits _⟩

namespace Node

variable {rationalize : Text → Except ValueError Text} {node node' : Node}

/-! ### One node

The rules that are attempted, one after another, each on what the one before it made. -/

/-- The outcome costs no more than the node, and it costs less if a change is reported. -/
def Spends (node : Node) (outcome : Bool × Node) : Prop :=
  outcome.2.potential + (if outcome.1 then 1 else 0) ≤ node.potential

/-- A rule that lowers the potential whenever it fires may be attempted. -/
theorem Spends.attempt {state : Bool × Node} {rule : Node → Option Node} (h : node.Spends state)
    (hrule : ∀ node', rule state.2 = some node' → node'.potential < state.2.potential) :
    node.Spends (attempt rule state) := by
  cases hnode' : rule state.2 with
  | none =>
    rw [attempt_of_eq_none hnode']
    exact h
  | some node' =>
    have hlower := hrule node' hnode'
    have hstate : state.2.potential ≤ node.potential := (Nat.le_add_right _ _).trans h
    rw [attempt_of_eq_some hnode', Spends, if_pos rfl]
    exact hlower.trans_le hstate

/-- The rules before dropping, in their order. -/
theorem spends_rewritten (hanswers : AnswersInDigits rationalize) (node : Node) :
    node.Spends (node.rewritten rationalize) := by
  have hstart : node.Spends (false, node) := Nat.le_refl _
  have hwrapped := hstart.attempt fun _ ↦ potential_wrapRoot?
  have hexamined := hwrapped.attempt fun _ ↦ potential_settle?
  have hnumber := hexamined.attempt fun _ ↦ potential_canonicalNumber? hanswers
  have hregrouped := hnumber.attempt fun _ ↦ potential_regroup?
  exact hregrouped.attempt fun _ ↦ potential_collapse?

/-- What the rules make of a node, whether the pass goes on to the children or not. -/
theorem spends_reshape (hanswers : AnswersInDigits rationalize) :
    (∀ {changed}, node.reshape rationalize = .opened changed node' →
      node.Spends (changed, node')) ∧
    (node.reshape rationalize = .closed node' → node.Spends (false, node')) := by
  have hrewritten := spends_rewritten hanswers node
  have hprune := lowers_prune (node.rewritten rationalize).2
  have hle : (node.rewritten rationalize).2.potential ≤ node.potential :=
    (Nat.le_add_right _ _).trans hrewritten
  rw [reshape_eq]
  cases hfill : node.fillRoot? with
  | some filled =>
    refine ⟨fun h ↦ (nomatch h), ?_⟩
    rintro ⟨⟩
    exact potential_fillRoot? hfill
  | none =>
    dsimp only
    cases hpruned : (node.rewritten rationalize).2.prune with
    | unchanged =>
      refine ⟨?_, fun h ↦ (nomatch h)⟩
      rintro _ ⟨⟩
      exact hrewritten
    | changed pruned =>
      rw [hpruned] at hprune
      refine ⟨?_, fun h ↦ (nomatch h)⟩
      rintro _ ⟨⟩
      exact Nat.lt_of_lt_of_le hprune hle
    | emptiedRoot emptied =>
      rw [hpruned] at hprune
      refine ⟨fun h ↦ (nomatch h), ?_⟩
      rintro ⟨⟩
      exact hprune.trans hle

/-! ### One pass

By induction on the reach, for all trees at once. -/

/-- What is spent on the children of a group is spent on the group. -/
theorem Spends.children {visit : Node → Bool × Node}
    (hvisit : ∀ child : Node, child.Spends (visit child)) (node : Node) :
    node.Spends ((node.children.map visit).any (·.1),
      node.withChildren ((node.children.map visit).map (·.2))) := by
  have hall : ∀ nodes : List Node, totalPotential ((nodes.map visit).map (·.2)) +
      (if (nodes.map visit).any (·.1) then 1 else 0) ≤ totalPotential nodes := by
    intro nodes
    induction nodes with
    | nil => exact Nat.le_refl 0
    | cons child rest ih =>
      have hchild := hvisit child
      rw [Spends] at hchild
      rw [List.map_cons, List.map_cons, totalPotential_cons, totalPotential_cons, List.any_cons]
      cases hfirst : (visit child).1 <;> cases hrest : (rest.map visit).any (·.1) <;>
        simp only [hfirst, hrest, Bool.or_true, Bool.or_false, Bool.false_eq_true, if_true,
          if_false] at hchild ih ⊢ <;> omega
  cases node with
  | atom tag text => exact Nat.le_refl _
  | group tag operands =>
    have hoperands := hall operands
    have hempty : (operands.map visit).map (·.2) = [] ↔ operands = [] := by simp
    show potential (group tag ((operands.map visit).map (·.2))) +
      (if (operands.map visit).any (·.1) then 1 else 0) ≤ potential (group tag operands)
    rw [potential, potential, List.length_map, List.length_map]
    simp only [hempty]
    omega

/-- **A pass spends what it changes.** -/
theorem spends_passWithin (hanswers : AnswersInDigits rationalize) (reach : Nat) (node : Node) :
    node.Spends (passWithin rationalize reach node) := by
  induction reach generalizing node with
  | zero => exact Nat.le_refl _
  | succ reach ih =>
    rw [passWithin]
    split
    · rename_i closed hreshape
      exact (spends_reshape hanswers).2 hreshape
    · rename_i changed opened hreshape
      have hopened := (spends_reshape hanswers).1 hreshape
      have hbelow := Spends.children ih opened
      -- the rules and the children may both have changed, but the pass reports one change
      rw [Spends] at hopened hbelow ⊢
      cases changed <;>
        cases hvisited : (opened.children.map (passWithin rationalize reach)).any (·.1) <;>
        simp only [hvisited, Bool.or_true, Bool.or_false, Bool.false_eq_true, if_true,
          if_false] at hopened hbelow ⊢ <;> omega

/-! ### A run of passes

The reports of a run are counted independently of where normalization ends, so that the bound is one
on every run. -/

/-- How many of the first passes over a tree report a change. -/
def changes (rationalize : Text → Except ValueError Text) : Nat → Node → Nat
  | 0, _ => 0
  | passes + 1, node =>
    (if (node.pass rationalize).1 then 1 else 0) + changes rationalize passes
      (node.pass rationalize).2

/-- **There are no more changing passes than the potential says.** -/
theorem changes_le_potential (hanswers : AnswersInDigits rationalize) (passes : Nat) (node : Node) :
    node.changes rationalize passes ≤ node.potential := by
  induction passes generalizing node with
  | zero => exact Nat.zero_le _
  | succ passes ih =>
    have hpass : (node.pass rationalize).2.potential +
        (if (node.pass rationalize).1 then 1 else 0) ≤ node.potential :=
      spends_passWithin hanswers _ node
    have hrest := ih (node.pass rationalize).2
    rw [changes]
    omega

/-- Normalization fails to settle only if every pass within the limit reports a change. -/
theorem exists_of_changes_lt {done left : Nat} (h : node.changes rationalize left < left) :
    ∃ passes node', normalizeFrom rationalize done left node = (.ok passes, node') := by
  induction left generalizing done node with
  | zero => cases h
  | succ left ih =>
    rw [changes] at h
    rw [normalizeFrom]
    cases hpass : node.pass rationalize with
    | mk changed next =>
      cases changed with
      | false => exact ⟨done, next, rfl⟩
      | true =>
        rw [hpass, if_pos rfl] at h
        have hrest : next.changes rationalize left < left := by
          dsimp only at h
          omega
        exact ih hrest

/-! ### The number of nodes

The potential is not a number that anyone would look at, so it is bounded by one that is. -/

mutual

/-- The number of nodes of a tree. -/
def size : Node → Nat
  | .atom _ _ => 1
  | .group _ children => 1 + totalSize children

/-- The number of nodes in a list of trees. -/
def totalSize : List Node → Nat
  | [] => 0
  | node :: nodes => size node + totalSize nodes

end

/-- Operands without a root among them cost eight for each of their nodes, and that pays for their
number as well. -/
theorem totalPotential_le {nodes : List Node}
    (h : ∀ node ∈ nodes, node.potential + 2 ≤ 8 * node.size) :
    totalPotential nodes + 2 * nodes.length ≤ 8 * totalSize nodes := by
  induction nodes with
  | nil => exact Nat.le_refl 0
  | cons node nodes ih =>
    obtain ⟨hnode, hrest⟩ := List.forall_mem_cons.1 h
    have hnodes := ih hrest
    rw [totalPotential_cons, List.length_cons, totalSize]
    omega

/-- A mark costs two at most. -/
theorem pendingCost_le (tag : Tag) : pendingCost tag ≤ 2 := by
  unfold pendingCost
  split <;> omega

/-- The potential of a tree without a root. -/
theorem potential_add_two_le (h : node.everyTag (fun tag ↦ !tag.root) = true) :
    node.potential + 2 ≤ 8 * node.size := by
  induction node using Node.induction with
  | atom tag text =>
    have hmark : tag.root = false := by simpa [everyTag] using h
    have hpending := pendingCost_le tag
    have hliteral := literalCost_le text
    rw [potential, size, hmark, if_neg Bool.false_ne_true]
    omega
  | group tag children ih =>
    obtain ⟨htag, hchildren⟩ := everyTag_group_iff.1 h
    have hmark : tag.root = false := by simpa using htag
    have hpending := pendingCost_le tag
    have htotal := totalPotential_le fun child hmem ↦ ih child hmem (hchildren child hmem)
    rw [potential, size, hmark, if_neg fun h ↦ Bool.false_ne_true h.1]
    omega

/-- The potential of a tree that is a root at most at the top. -/
theorem potential_le (h : ∀ child ∈ node.children, child.everyTag (fun tag ↦ !tag.root) = true) :
    node.potential ≤ 8 * node.size := by
  cases node with
  | atom tag text =>
    have hpending := pendingCost_le tag
    have hliteral := literalCost_le text
    rw [potential, size]
    split <;> omega
  | group tag children =>
    have hpending := pendingCost_le tag
    have htotal : totalPotential children + 2 * children.length ≤ 8 * totalSize children :=
      totalPotential_le fun child hmem ↦ potential_add_two_le (h child hmem)
    rw [potential, size]
    split <;> omega

/-! ### Termination

Both halves of the theorem: the number of changing passes, and a limit that is never reached. -/

/-- **Normalization settles.** A tree that is a root at most at the top goes through a number of
changing passes that is linear in the number of its nodes, so a limit above that number is never
reached. Its signs, families and marks of pending may be any. -/
theorem normalize_settles (hanswers : AnswersInDigits rationalize)
    (hroot : ∀ child ∈ node.children, child.everyTag (fun tag ↦ !tag.root) = true) :
    (∀ passes, node.changes rationalize passes ≤ 9 * node.size + 2) ∧
      ∀ limits : Limits, 9 * node.size + 2 < limits.passes →
        ∃ passes node', node.normalize rationalize limits = (.ok passes, node') := by
  have hbound : ∀ passes, node.changes rationalize passes ≤ 9 * node.size + 2 := fun passes ↦
    calc node.changes rationalize passes
        ≤ node.potential := changes_le_potential hanswers passes node
      _ ≤ 8 * node.size := potential_le hroot
      _ ≤ 9 * node.size + 2 := by omega
  exact ⟨hbound, fun limits hlimits ↦ exists_of_changes_lt ((hbound _).trans_lt hlimits)⟩

/-- A root that mixes families, with an empty group, a decimal and marks of pending. -/
def mixedRoot : Node :=
  .group ⟨none, .times, true, true⟩
    [.atom ⟨none, .divide, false, true⟩ "0.50".toList, branch .minus [], leaf .times "007".toList]

/-- Four nodes, so at most 38 passes change it, and the usual limit is enough. -/
theorem normalize_settles_mixed :
    (∀ passes, mixedRoot.changes Oracle.exactFraction passes ≤ 38) ∧
      ∃ passes node', mixedRoot.normalize Oracle.exactFraction .standard = (.ok passes, node') := by
  have hroot :
      ∀ child ∈ mixedRoot.children, child.everyTag (fun tag ↦ !tag.root) = true := by decide
  have hsettles := normalize_settles answersInDigits_exactFraction hroot
  exact ⟨hsettles.1, hsettles.2 .standard (by decide)⟩

end Node

end EquationSteps
