import EquationSteps.Proofs.Canonical.Passes
import Mathlib.Logic.Relation

/-!
# Normalization as rewriting

In what order the rules are applied, how often, and on which level of the tree, matters for where
normalization ends, but not for what every single rule respects. `Node.Rewrites` is one application
of one rule to one node somewhere in a tree, and normalization is a sequence of such applications
(`Node.reflTransGen_normalize`), whether it settles or not. So a relation between trees that is
respected by the rules and by the groups around them holds between a tree and what normalization
makes of it (`Node.normalize_induction`). No shape of the tree is assumed, and nothing about the
answers of the oracle.

A rule that is only attempted once others were may keep what it would not keep elsewhere: a number
is rewritten after a root that is a leaf was wrapped. A relation that needs this is followed through
a normalization level by level instead (`Node.normalizeFrom_induction`).
-/

namespace EquationSteps.Node

open Relation

variable {rationalize : Text → Except ValueError Text} {node node' : Node}

/-- A rule of normalization applies to a node, and what it makes of it. There is a case for each
rule, and two for dropping operands, of which one is left with an empty root. -/
inductive Fires (rationalize : Text → Except ValueError Text) (node node' : Node) : Prop where
  | fillRoot (h : node.fillRoot? = some node')
  | wrapRoot (h : node.wrapRoot? = some node')
  | settle (h : node.settle? = some node')
  | canonicalNumber (h : node.canonicalNumber? rationalize = some node')
  | regroup (h : node.regroup? = some node')
  | collapse (h : node.collapse? = some node')
  | prune (h : node.prune = .changed node')
  | emptyRoot (h : node.prune = .emptiedRoot node')

/-- A rule of normalization applies to one node of a tree. -/
inductive Rewrites (rationalize : Text → Except ValueError Text) : Node → Node → Prop where
  /-- It applies to the topmost node. -/
  | here {node node' : Node} (h : Fires rationalize node node') : Rewrites rationalize node node'
  /-- It applies to a node in one of the operands. -/
  | operand {child child' : Node} (tag : Tag) (before after : List Node)
    (h : Rewrites rationalize child child') :
    Rewrites rationalize (group tag (before ++ child :: after))
      (group tag (before ++ child' :: after))

/-! ### Level by level

The induction that follows normalization as it is carried out: node by node, first the rules and
then the operands. -/

/-- The node that the rules make of a node, whether the pass goes on below it or not. -/
def Reshaped.outcome : Reshaped → Node
  | .closed node => node
  | .opened _ node => node

section Levels

/-! A relation that holds between a node and what the rules make of it, and between groups if it
holds between their operands one by one, holds along a pass and along a normalization. -/

variable {motive : Node → Node → Prop} (hrefl : ∀ node, motive node node)
  (htrans : ∀ {a b c}, motive a b → motive b c → motive a c)
  (hreshape : ∀ node, motive node (node.reshape rationalize).outcome)
  (hgroup : ∀ (tag : Tag) {children children' : List Node}, List.Forall₂ motive children children' →
    motive (group tag children) (group tag children'))

include hrefl htrans hreshape hgroup

/-- Such a relation holds between a tree and what a pass makes of it. -/
theorem passWithin_induction (reach : Nat) (node : Node) :
    motive node (passWithin rationalize reach node).2 := by
  induction reach generalizing node with
  | zero => exact hrefl node
  | succ reach ih =>
    have hlevel := hreshape node
    rw [passWithin]
    split
    · rename_i closed hclosed
      rw [hclosed] at hlevel
      exact hlevel
    · rename_i changed opened hopened
      rw [hopened] at hlevel
      refine htrans hlevel ?_
      cases opened with
      | atom tag text => exact hrefl (atom tag text)
      | group tag children =>
        show motive (group tag children)
          (group tag ((children.map (passWithin rationalize reach)).map (·.2)))
        rw [List.map_map]
        exact hgroup tag (forall₂_map_of_forall_mem fun child _ ↦ ih child)

/-- And between a tree and what any number of passes make of it, whether they settle or not. -/
theorem normalizeFrom_induction (done left : Nat) (node : Node) :
    motive node (normalizeFrom rationalize done left node).2 := by
  induction left generalizing done node with
  | zero => exact hrefl node
  | succ left ih =>
    have hpass : motive node (node.pass rationalize).2 :=
      passWithin_induction hrefl htrans hreshape hgroup _ node
    rw [normalizeFrom]
    cases hnext : node.pass rationalize with
    | mk changed next =>
      rw [hnext] at hpass
      cases changed with
      | false => exact hpass
      | true => exact htrans hpass (ih (done + 1) next)

end Levels

/-! ### Lists of operands -/

/-- Operands may be rewritten behind others that stay. -/
theorem reflTransGen_operands {children children' : List Node} (tag : Tag) (done : List Node)
    (h : List.Forall₂ (ReflTransGen (Rewrites rationalize)) children children') :
    ReflTransGen (Rewrites rationalize) (group tag (done ++ children))
      (group tag (done ++ children')) := by
  induction h generalizing done with
  | nil => exact .refl
  | @cons child child' children children' hchild _ ih =>
    have hfirst := hchild.lift (fun child ↦ group tag (done ++ child :: children)) fun _ _ hstep ↦
      Rewrites.operand tag done children hstep
    have hrest := ih (done ++ [child'])
    rw [List.append_assoc, List.append_assoc] at hrest
    exact hfirst.trans hrest

/-! ### Passes

A pass, step by step, is made of rules that fire at places in the tree. -/

/-- A rule may be attempted. -/
theorem reflTransGen_attempt {state : Bool × Node} {rule : Node → Option Node}
    (h : ReflTransGen (Rewrites rationalize) node state.2)
    (hrule : ∀ {node node'}, rule node = some node' → Fires rationalize node node') :
    ReflTransGen (Rewrites rationalize) node (attempt rule state).2 := by
  cases hfires : rule state.2 with
  | none =>
    rw [attempt_of_eq_none hfires]
    exact h
  | some node' =>
    rw [attempt_of_eq_some hfires]
    exact h.tail (.here (hrule hfires))

/-- The rules that are attempted before anything is dropped. -/
theorem reflTransGen_rewritten (rationalize : Text → Except ValueError Text) (node : Node) :
    ReflTransGen (Rewrites rationalize) node (node.rewritten rationalize).2 := by
  have hwrapped : ReflTransGen (Rewrites rationalize) node (attempt wrapRoot? (false, node)).2 :=
    reflTransGen_attempt .refl Fires.wrapRoot
  have hsettled := reflTransGen_attempt hwrapped Fires.settle
  have hnumber := reflTransGen_attempt hsettled Fires.canonicalNumber
  have hregrouped := reflTransGen_attempt hnumber Fires.regroup
  exact reflTransGen_attempt hregrouped Fires.collapse

/-- The rules make a node into the one that the pass goes on from, or with which it ends. -/
theorem reflTransGen_reshape (rationalize : Text → Except ValueError Text) (node : Node) :
    ReflTransGen (Rewrites rationalize) node (node.reshape rationalize).outcome := by
  have hrewritten := reflTransGen_rewritten rationalize node
  rw [reshape_eq]
  split
  · rename_i filled hfill
    exact .single (.here (.fillRoot hfill))
  · split
    · exact hrewritten
    · rename_i hprune
      exact hrewritten.tail (.here (.prune hprune))
    · rename_i hprune
      exact hrewritten.tail (.here (.emptyRoot hprune))

/-- The operands of a group may all be rewritten. -/
theorem reflTransGen_group (tag : Tag) {children children' : List Node}
    (h : List.Forall₂ (ReflTransGen (Rewrites rationalize)) children children') :
    ReflTransGen (Rewrites rationalize) (group tag children) (group tag children') :=
  reflTransGen_operands tag [] h

/-- A pass is a sequence of applications of the rules, to whatever reach. -/
theorem reflTransGen_passWithin (rationalize : Text → Except ValueError Text) (reach : Nat)
    (node : Node) :
    ReflTransGen (Rewrites rationalize) node (passWithin rationalize reach node).2 :=
  passWithin_induction (fun _ ↦ .refl) .trans (reflTransGen_reshape rationalize) reflTransGen_group
    reach node

/-- Normalization that settles ends with a pass that reports no change. -/
theorem exists_pass_of_normalizeFrom {done left passes : Nat}
    (h : normalizeFrom rationalize done left node = (.ok passes, node')) :
    ∃ last, ReflTransGen (Rewrites rationalize) node last ∧
      last.pass rationalize = (false, node') := by
  induction left generalizing done node with
  | zero => cases h
  | succ left ih =>
    have hpass := reflTransGen_passWithin rationalize (node.weight + answerReach) node
    rw [normalizeFrom, pass] at h
    cases hnext : passWithin rationalize (node.weight + answerReach) node with
    | mk changed next =>
      rw [hnext] at h hpass
      cases changed with
      | false =>
        cases h
        exact ⟨node, .refl, hnext⟩
      | true =>
        obtain ⟨last, hlast, hsettled⟩ := ih h
        exact ⟨last, hpass.trans hlast, hsettled⟩

/-- **Normalization is a sequence of applications of the rules**, whether it settles or not. -/
theorem reflTransGen_normalize (rationalize : Text → Except ValueError Text) (limits : Limits)
    (node : Node) :
    ReflTransGen (Rewrites rationalize) node (node.normalize rationalize limits).2 :=
  normalizeFrom_induction (fun _ ↦ .refl) .trans (reflTransGen_reshape rationalize)
    reflTransGen_group
    0 limits.passes node

/-- **What the rules respect one by one holds along a normalization**, if a group respects it in its
operands. -/
theorem normalize_induction {motive : Node → Node → Prop} (hrefl : ∀ node, motive node node)
    (htrans : ∀ {a b c}, motive a b → motive b c → motive a c)
    (hrule : ∀ {node node'}, Fires rationalize node node' → motive node node')
    (hgroup : ∀ {child child'} (tag : Tag) (before after : List Node), motive child child' →
      motive (group tag (before ++ child :: after)) (group tag (before ++ child' :: after)))
    (limits : Limits) (node : Node) : motive node (node.normalize rationalize limits).2 := by
  have hstep : ∀ {node node'}, Rewrites rationalize node node' → motive node node' := by
    intro node node' h
    induction h with
    | here h => exact hrule h
    | operand tag before after _ ih => exact hgroup tag before after ih
  have hnormalize := reflTransGen_normalize rationalize limits node
  generalize (node.normalize rationalize limits).2 = node' at hnormalize
  induction hnormalize with
  | refl => exact hrefl node
  | tail _ h ih => exact htrans ih (hstep h)

end EquationSteps.Node
