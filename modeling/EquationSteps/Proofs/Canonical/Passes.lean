import EquationSteps.Proofs.Canonical.Rules
import Mathlib.Data.List.Forall2

/-!
# Passes keep the meaning

The rules are put together here. What the rules make of one node can stand in its place
(`Node.keeps_of_opened`), so one pass over a tree can stand in its place as well, by induction on
the reach of the pass (`Node.passed_passWithin`), and so can normalization, by induction on the
passes (`Node.keeps_normalize`). The exception is the root whose operands are factors that all come
to one: it ends as a root with the term `0`.

**What can stand in the place of a node** keeps its meaning and the shape that the nodes around it
rely on (`Node.Keeps`). It is a relation between two trees and composes, so that each of the steps
below is one link of a chain.

**Why the base is another tree.** Most lemmas speak of a `base` in whose place the node can stand
once its operands are examined, rather than of the node itself. After an edit the node may have
pending factors, and examining these may change what it means; what the edit was to make of the node
is then some other tree. From the moment at which the operands are examined, though, nothing depends
on where the node came from. For a tree in which only terms are pending, the tree itself is such a
base (`keeps_examined`), and that is the case that the theorems on passes start from.

**The exception.** `IsEmptied` says all that is known of it: the tree was a root of factors, its
meaning was one, and what is left is the term `0`. A side of an equation that holds terms is never
emptied. A pass that empties a root reports no change, so normalization ends with that pass, and no
further pass starts from a tree that has lost its meaning.
-/

namespace EquationSteps.Node

variable {rationalize : Text → Except ValueError Text} {node node' base : Node}

/-! ### One node

The rules come one after another. Wrapping and examining are set apart as `examined`, because they
are the only ones to which marks matter. -/

/-- What is left of a node when a root that is a leaf is wrapped and the pending children are
examined. -/
def examined (node : Node) : Bool × Node :=
  attempt settle? (attempt wrapRoot? (false, node))

/-- What the rules before `prune` make of a node. -/
def rewritten (rationalize : Text → Except ValueError Text) (node : Node) : Bool × Node :=
  attempt collapse? (attempt regroup? (attempt (canonicalNumber? rationalize) node.examined))

/-- What the rules make of a node, in terms of what they make of it before anything is dropped. -/
theorem reshape_eq (rationalize : Text → Except ValueError Text) (node : Node) :
    node.reshape rationalize =
      match node.fillRoot? with
      | some node => .closed node
      | none =>
        match (node.rewritten rationalize).2.prune with
        | .unchanged =>
          .opened (node.rewritten rationalize).1 (node.rewritten rationalize).2
        | .changed node => .opened true node
        | .emptiedRoot node => .closed node := by
  unfold reshape rewritten examined
  cases node.fillRoot? with
  | some node' => rfl
  | none =>
    generalize attempt collapse? (attempt regroup? (attempt (canonicalNumber? rationalize)
      (attempt settle? (attempt wrapRoot? (false, node))))) = state
    cases state with
    | mk changed node' => rfl

/-- A rule that applies is noted as a change. -/
theorem attempt_of_eq_some {state : Bool × Node} {rule : Node → Option Node}
    (h : rule state.2 = some node') : attempt rule state = (true, node') := by
  rw [attempt, h]

/-- A rule that does not apply changes nothing, and notes nothing. -/
theorem attempt_of_eq_none {state : Bool × Node} {rule : Node → Option Node}
    (h : rule state.2 = none) : attempt rule state = state := by
  rw [attempt, h]

/-- A rule that keeps what it applies to may be attempted. -/
theorem Keeps.attempt {state : Bool × Node} {rule : Node → Option Node} (h : node.Keeps state.2)
    (hrule : ∀ node', rule state.2 = some node' → state.2.Keeps node') :
    node.Keeps (attempt rule state).2 := by
  cases hnode' : rule state.2 with
  | none =>
    rw [attempt_of_eq_none hnode']
    exact h
  | some node' =>
    rw [attempt_of_eq_some hnode']
    exact h.trans (hrule node' hnode')

/-- A root is a group once its children are examined. -/
theorem exists_group_of_isRoot (hroot : node.isRoot = true) : ∃ tag children,
    node.examined.2 = group tag children ∧ tag.root = true := by
  unfold examined
  obtain ⟨tag, operands, hwrapped, htag⟩ : ∃ tag children,
      (attempt wrapRoot? (false, node)).2 = group tag children ∧ tag.root = true := by
    cases node with
    | atom tag text =>
      have hwrap : (atom tag text).wrapRoot? =
          some (group { tag with sign := .plus } [leaf tag.sign text]) := by
        unfold wrapRoot?
        rw [hroot]
        rfl
      rw [attempt_of_eq_some hwrap]
      exact ⟨_, _, rfl, hroot⟩
    | group tag operands =>
      have hwrap : (group tag operands).wrapRoot? = none := by
        unfold wrapRoot?
        rw [hroot]
        rfl
      rw [attempt_of_eq_none hwrap]
      exact ⟨tag, operands, rfl, hroot⟩
  cases hsettle : settle? (attempt wrapRoot? (false, node)).2 with
  | none =>
    rw [attempt_of_eq_none hsettle]
    exact ⟨tag, operands, hwrapped, htag⟩
  | some node' =>
    rw [attempt_of_eq_some hsettle]
    rw [hwrapped] at hsettle
    obtain ⟨_, _, hgroup, -, ⟨-, hnot, -⟩ | ⟨-, rfl⟩⟩ := of_settle? hsettle <;> cases hgroup
    · cases htag.symm.trans hnot
    · exact ⟨_, _, rfl, htag⟩

/-- Examining the children of a node in which only terms are pending keeps the meaning. -/
theorem keeps_examined (hshaped : node.isShaped = true) (hmarks : node.marksInSums = true) :
    node.Keeps node.examined.2 := by
  have hwrapped : node.Keeps (attempt wrapRoot? (false, node)).2 :=
    Keeps.attempt (.refl hshaped hmarks) fun _ h ↦ keeps_wrapRoot? hshaped h
  exact hwrapped.attempt fun _ h ↦ keeps_settle? hwrapped.shaped hwrapped.marks h

/-- A root of which the term `0` is all that is left. -/
structure IsZeroRoot (node : Node) : Prop where
  shaped : node.isShaped = true
  root : node.isRoot = true
  content : node.content = .group [zeroTerm]

/-- A shaped root that loses its operands for the term `0`. -/
theorem isZeroRoot_of_withContent (hshaped : node.isShaped = true) (hroot : node.isRoot = true)
    (hgroup : node.atomText? = none) : (node.withContent (.group [zeroTerm])).IsZeroRoot := by
  cases node with
  | atom tag text => cases hgroup
  | group tag operands =>
    refine ⟨?_, hroot, rfl⟩
    exact isShaped_group_iff.2 ⟨Or.inl rfl, List.forall_mem_singleton.2 rfl,
      (isShaped_group_iff.1 hshaped).2.2⟩

section Examined

/-! Once the children are examined, what the other rules make of the node can stand in the place of
every tree in whose place the node can stand then. That tree need not be the node before: where
factors are pending, examining them may change the meaning. -/

variable (hfaithful : IsFaithful rationalize) (hroot : base.isRoot = node.isRoot)
  (hkeeps : base.Keeps node.examined.2)

include hfaithful hroot hkeeps

/-- Numbers, chains of divisions and groups of one operand may all be rewritten. -/
theorem keeps_rewritten : base.Keeps (node.rewritten rationalize).2 := by
  have hnumber : base.Keeps (attempt (canonicalNumber? rationalize) node.examined).2 := by
    refine hkeeps.attempt fun node' h ↦ ?_
    cases hmark : node.isRoot with
    | false => exact keeps_canonicalNumber? hfaithful (hkeeps.root.trans (hroot.trans hmark)) h
    | true =>
      obtain ⟨tag, operands, hgroup, -⟩ := exists_group_of_isRoot hmark
      rw [hgroup] at h
      cases h
  have hregrouped := hnumber.attempt fun _ h ↦ keeps_regroup? hnumber.shaped hnumber.marks h
  exact hregrouped.attempt fun _ h ↦ keeps_collapse? hregrouped.shaped hregrouped.marks h

/-- **What the rules make of a node can stand in its place**, if the pass goes on to the
operands. -/
theorem keeps_of_opened {changed : Bool} (h : node.reshape rationalize = .opened changed node') :
    base.Keeps node' := by
  have hkeeps := keeps_rewritten hfaithful hroot hkeeps
  rw [reshape_eq] at h
  split at h
  · cases h
  · split at h
    · cases h
      exact hkeeps
    · rename_i hprune
      cases h
      exact hkeeps.trans (keeps_prune hkeeps.shaped hkeeps.marks hprune)
    · cases h

/-- A node that ends the pass is a root with the term `0`, which can stand in the place unless the
operands were factors that come to one. -/
theorem of_closed (hfill : node.fillRoot? = none) (h : node.reshape rationalize = .closed node') :
    base.isRoot = true ∧ node'.IsZeroRoot ∧
      (base.Keeps node' ∨ base.family? = some .product ∧ base.meaning = 1) := by
  have hkeeps := keeps_rewritten hfaithful hroot hkeeps
  rw [reshape_eq, hfill] at h
  dsimp only at h
  split at h
  · cases h
  · cases h
  · rename_i emptied hprune
    cases h
    obtain ⟨hmark, rfl, hmeaning⟩ := of_prune_eq_emptiedRoot hkeeps.shaped hprune
    have hbase := hkeeps.root.symm.trans hmark
    have hgroup : (node.rewritten rationalize).2.atomText? = none := by
      cases hrewritten : (node.rewritten rationalize).2 with
      | atom tag text =>
        rw [hrewritten] at hprune
        cases hprune
      | group tag operands => rfl
    refine ⟨hbase, isZeroRoot_of_withContent hkeeps.shaped hmark hgroup, ?_⟩
    refine hmeaning.imp hkeeps.trans fun ⟨hproduct, hone⟩ ↦ ?_
    exact ⟨hkeeps.rootFamily hbase .product (by decide) hproduct, hkeeps.meaning.symm.trans hone⟩

end Examined

/-- An empty root means zero, so the term `0` can stand in its place. -/
theorem keeps_fillRoot? (hshaped : node.isShaped = true) (h : node.fillRoot? = some node') :
    node.isRoot = true ∧ node'.IsZeroRoot ∧ node.Keeps node' := by
  obtain ⟨tag, rfl, hroot, rfl⟩ := of_fillRoot? h
  refine ⟨hroot, @isZeroRoot_of_withContent (group tag []) hshaped hroot rfl, ?_⟩
  have hgroup : groupMeaning [zeroTerm] = groupMeaning [] := by
    rw [groupMeaning_nil, groupMeaning_singleton, meaning, contentMeaning_of_isZeroAtom rfl,
      Meaning.signed_zero]
  exact Keeps.of_children hshaped (Or.inl rfl) (List.forall_mem_singleton.2 rfl)
    (Or.inl rfl) (List.forall_mem_singleton.2 rfl)
    (fun _ family hne hfamily ↦ absurd (Option.some.inj hfamily).symm hne) hgroup

/-! ### One pass

A pass goes on to the operands that the rules left, and each of them is regular, whatever the node
was. So the induction is on the reach, for all trees at once. -/

/-- A node below a root agrees with what can stand in its place. -/
theorem Keeps.agrees (h : node.Keeps node') : Agrees node node' :=
  ⟨h.family, h.meaning⟩

/-- The children of a group may be exchanged for what can stand in their place. -/
theorem Keeps.of_forall₂ {tag : Tag} {children children' : List Node}
    (hshaped : (group tag children).isShaped = true)
    (hmarks : (group tag children).marksInSums = true)
    (h : List.Forall₂ Keeps children children') :
    (group tag children).Keeps (group tag children') := by
  have hregular := isRegular_of_isShaped_group hshaped
  obtain ⟨hlevel, -⟩ := marksInSums_group_iff.1 hmarks
  have hagrees : List.Forall₂ Agrees children children' := h.imp fun _ _ ↦ Keeps.agrees
  have hfamily? : (group tag children').family? = (group tag children).family? := by
    cases h with
    | nil => rfl
    | cons hfirst _ => exact congrArg some hfirst.family
  -- by induction on the pairs: no child gets a mark or loses its shape
  have hall : (∀ child ∈ children', child.isRegular = true ∧ child.marksInSums = true) ∧
      ((∀ child ∈ children, child.isPending = false) → ∀ child ∈ children',
        child.isPending = false) := by
    clear hshaped hmarks hlevel hagrees hfamily?
    induction h with
    | nil => exact ⟨List.forall_mem_nil _, fun _ ↦ List.forall_mem_nil _⟩
    | cons hfirst _ ih =>
      obtain ⟨hfirstRegular, hrestRegular⟩ := List.forall_mem_cons.1 hregular
      obtain ⟨hrest, hpending⟩ := ih hrestRegular
      have hroot := hfirst.root.trans (isRoot_of_isRegular hfirstRegular)
      refine ⟨List.forall_mem_cons.2
        ⟨⟨(isShaped_iff_isRegular hroot).1 hfirst.shaped, hfirst.marks⟩, hrest⟩, fun hnone ↦ ?_⟩
      obtain ⟨hfirstNone, hrestNone⟩ := List.forall_mem_cons.1 hnone
      exact List.forall_mem_cons.2 ⟨hfirst.pending.trans hfirstNone, hpending hrestNone⟩
  refine Keeps.of_children hshaped ?_ (fun child hmem ↦ (hall.1 child hmem).1)
    (hlevel.imp hfamily?.trans hall.2) (fun child hmem ↦ (hall.1 child hmem).2)
    (fun _ _ _ hfamily ↦ hfamily?.symm.trans hfamily) ?_
  · rcases (isShaped_group_iff.1 hshaped).1 with hchain | ⟨hroot, rfl⟩
    · obtain ⟨hne, family, hfamily⟩ := isChain_iff.1 hchain
      have hne' : children' ≠ [] := by
        rintro rfl
        cases h
        exact hne rfl
      exact Or.inl (isChain_of_family hne' (ofSign_of_forall₂ hagrees hfamily))
    · cases h
      exact Or.inr ⟨hroot, rfl⟩
  · rcases (isShaped_group_iff.1 hshaped).1 with hchain | ⟨-, rfl⟩
    · exact groupMeaning_congr hchain hagrees
    · cases h
      rfl

/-- What becomes of the one root that may lose its meaning: its operands were factors that come to
one, and the term `0` is left. -/
structure IsEmptied (node node' : Node) : Prop where
  root : node.isRoot = true
  family : node.family? = some .product
  one : node.meaning = 1
  zero : node'.IsZeroRoot

/-- What a pass makes of a tree: it can stand in the place of the given one, or else the tree is a
root that was emptied, and the pass reports no change. -/
def Passed (base : Node) (outcome : Bool × Node) : Prop :=
  base.Keeps outcome.2 ∨ base.IsEmptied outcome.2 ∧ outcome.1 = false

/-- One level of a pass, if the passes below it keep the meaning. -/
theorem passed_passWithin_succ {reach : Nat} (hfaithful : IsFaithful rationalize)
    (hbelow : ∀ child : Node, child.isRegular = true → child.marksInSums = true →
      child.Keeps (passWithin rationalize reach child).2)
    (hroot : base.isRoot = node.isRoot) (hkeeps : base.Keeps node.examined.2)
    (hfill : node.fillRoot? = none) :
    base.Passed (passWithin rationalize (reach + 1) node) := by
  rw [passWithin]
  split
  · rename_i closed hreshape
    obtain ⟨hmark, hzero, hnode⟩ := of_closed hfaithful hroot hkeeps hfill hreshape
    exact hnode.imp_right fun ⟨hproduct, hone⟩ ↦ ⟨⟨hmark, hproduct, hone, hzero⟩, rfl⟩
  · rename_i changed opened hreshape
    have hopened := keeps_of_opened hfaithful hroot hkeeps hreshape
    refine Or.inl (hopened.trans ?_)
    cases opened with
    | atom tag text => exact .refl hopened.shaped hopened.marks
    | group tag operands =>
      have hregular := isRegular_of_isShaped_group hopened.shaped
      have hmarksAll := (marksInSums_group_iff.1 hopened.marks).2
      show (group tag operands).Keeps
        (group tag ((operands.map (passWithin rationalize reach)).map (·.2)))
      rw [List.map_map]
      exact Keeps.of_forall₂ hopened.shaped hopened.marks (forall₂_map_of_forall_mem
        fun child hmem ↦
        hbelow child (hregular child hmem) (hmarksAll child hmem))

/-- One pass over a tree in which only terms are pending. -/
theorem passed_passWithin (hfaithful : IsFaithful rationalize) (reach : Nat)
    (hshaped : node.isShaped = true) (hmarks : node.marksInSums = true) :
    node.Passed (passWithin rationalize reach node) := by
  induction reach generalizing node with
  | zero => exact Or.inl (.refl hshaped hmarks)
  | succ reach ih =>
    cases hfill : node.fillRoot? with
    | some filled =>
      have hfilled := (keeps_fillRoot? hshaped hfill).2.2
      rw [passWithin, reshape_eq, hfill]
      exact Or.inl hfilled
    | none =>
      refine passed_passWithin_succ hfaithful (fun child hregular hmarks ↦ ?_) rfl
        (keeps_examined hshaped hmarks) hfill
      have hroot := isRoot_of_isRegular hregular
      rcases ih ((isShaped_iff_isRegular hroot).2 hregular) hmarks with hkeeps | ⟨hemptied, -⟩
      · exact hkeeps
      · cases hroot.symm.trans hemptied.root

/-! ### All passes

Each pass starts from what the last one left. If that can stand in the place of the first tree, so
can what comes of it; if it was emptied, there is no further pass. -/

/-- Normalization that starts with the given pass, of a tree in whose place that pass can stand. -/
theorem keeps_normalizeFrom_succ {done left : Nat}
    {result : Except TreeError Nat}
    (hnext : ∀ done result next, next.isShaped = true → next.marksInSums = true →
      normalizeFrom rationalize done left next = (result, node') →
        next.Keeps node' ∨ next.IsEmptied node')
    (hpassed : base.Passed (node.pass rationalize))
    (h : normalizeFrom rationalize done (left + 1) node = (result, node')) :
    base.Keeps node' ∨ base.IsEmptied node' := by
  rw [normalizeFrom] at h
  cases hpass : node.pass rationalize with
  | mk changed next =>
    rw [hpass] at h hpassed
    cases changed with
    | false =>
      cases h
      exact hpassed.imp_right And.left
    | true =>
      -- the pass that empties a root reports no change, so this one kept the meaning
      have hkeeps : base.Keeps next := by
        rcases hpassed with hkeeps | ⟨-, hchanged⟩
        · exact hkeeps
        · cases hchanged
      refine (hnext _ _ _ hkeeps.shaped hkeeps.marks h).imp hkeeps.trans fun hemptied ↦ ?_
      have hroot := hkeeps.root.symm.trans hemptied.root
      exact ⟨hroot, hkeeps.rootFamily hroot .product (by decide) hemptied.family,
        hkeeps.meaning.symm.trans hemptied.one, hemptied.zero⟩

/-- Any number of passes gives a tree that can stand in the place, or empties a root. -/
theorem keeps_normalizeFrom (hfaithful : IsFaithful rationalize) {done left : Nat}
    {result : Except TreeError Nat} (hshaped : node.isShaped = true)
    (hmarks : node.marksInSums = true)
    (h : normalizeFrom rationalize done left node = (result, node')) :
    node.Keeps node' ∨ node.IsEmptied node' := by
  induction left generalizing done node result with
  | zero =>
    cases h
    exact Or.inl (.refl hshaped hmarks)
  | succ left ih =>
    exact keeps_normalizeFrom_succ (fun _ _ _ hshaped hmarks h ↦ ih hshaped hmarks h)
      (passed_passWithin hfaithful _ hshaped hmarks) h

/-- Normalization gives a tree that can stand in the place of the one before, unless it empties a
root with factors. That holds whether or not it settles within the limit. -/
theorem keeps_normalize (hfaithful : IsFaithful rationalize) {limits : Limits}
    {result : Except TreeError Nat} (hshaped : node.isShaped = true)
    (hmarks : node.marksInSums = true)
    (h : node.normalize rationalize limits = (result, node')) :
    node.Keeps node' ∨ node.IsEmptied node' :=
  keeps_normalizeFrom hfaithful hshaped hmarks h

end EquationSteps.Node
