import EquationSteps.Proofs.Equation.Form
import EquationSteps.Proofs.Equation.Input
import EquationSteps.Proofs.Equation.Search
import EquationSteps.Session.Selection

/-!
# Selections can be replaced

Whatever is clicked, what is selected is a set of nodes that one replacement can take the place of
(`Equation.IsSiblingSet`): different nodes, which are children of one node as soon as there are two,
and never both parts of a fraction. One click preserves this (`Equation.IsSiblingSet.toggle`), and
so every selection that comes about by clicks has it (`Selection.Arises.isSiblingSet`).

A click that adds a node is the one that matters. The first selected identity decides whether the
node is added, and it decides for all of the others, as their parent is the only node with the first
one among its children (`Equation.Contains.unique`). Both parts of a fraction would be selected by
the second click, and that click is the one that selects the fraction instead; so a selection with
more nodes has no part of a fraction.

**Fractions need the shape of the equation.** That the two parts are recognized rests on the sign of
division, which the parts of a fraction have in a settled equation
(`Equation.IsSettled.sign_of_isFraction`). This is the only place where the shape is used.

A nonempty set of this kind is resolved to nodes (`Equation.IsSiblingSet.exists_selects`), so the
check of a replacement has nothing to say about what is selected. What it says about the text is
another matter and is not restricted here. The check may ask the oracle, and the result holds
whatever the answers are (`Equation.IsSiblingSet.eq_nil_of_mem_errors`).
-/

namespace EquationSteps

open Node

/-- Whether a problem lies in what is selected, and not in the text. -/
def InputError.concernsSelection : InputError → Bool
  | nothingSelected | notSiblings | tree .noSuchNode => true
  | _ => false

namespace Equation

variable {equation : Equation} {id : NodeId} {ids : List NodeId} {next : NodeId}
  {node inner parent fraction : Node}

/-! ### The nodes of an equation -/

/-- The identities of an equation are those of its two sides. -/
theorem mem_issued_iff :
    id ∈ equation.issued ↔ some id ∈ equation.left.ids ++ equation.right.ids := by
  rw [issued, List.mem_append, List.mem_append, Node.mem_issued_iff, Node.mem_issued_iff]

/-- The operands of a fraction have the sign of division. -/
theorem IsSettled.sign_of_isFraction (h : equation.IsSettled)
    (hfraction : equation.Contains fraction) (hfamily : fraction.family? = some .quotient) :
    ∀ child ∈ fraction.children, child.sign = .divide := by
  obtain ⟨side, hside, frames, rfl⟩ := hfraction
  have hsettled := h.of_mem hside
  obtain ⟨hshaped, -⟩ := of_plug hsettled.shaped hsettled.canonical.marksInSums hsettled.canonical
  cases fraction with
  | atom tag text => exact List.forall_mem_nil _
  | group tag children => exact fun child hmem ↦
      Family.ofSign_eq_quotient_iff.1 (ofSign_of_isShaped hshaped hfamily child hmem)

/-- Each node of an equation has an identity between edits. -/
theorem IsTracked.exists_id? (h : equation.IsTracked next) (hnode : equation.Contains node) :
    ∃ id ∈ equation.issued, node.id? = some id := by
  have hmem : node.id? ∈ equation.left.ids ++ equation.right.ids := by
    refine hnode.ids_subset ?_
    rw [ids_eq_cons]
    exact List.mem_cons_self
  cases hid : node.id? with
  | none => exact absurd (hid ▸ hmem) h.numbered
  | some id => exact ⟨id, mem_issued_iff.2 (hid ▸ hmem), rfl⟩

/-! ### Sets that can be replaced -/

/-- The identities are those of different nodes of an equation, which are children of one node
unless there is only one of them. Of the parts of a fraction there is at most one among them. -/
structure IsSiblingSet (equation : Equation) (ids : List NodeId) : Prop where
  /-- No node is selected twice. -/
  nodup : ids.Nodup
  /-- Each identity is that of a node. -/
  issued : ∀ id ∈ ids, id ∈ equation.issued
  /-- Two nodes or more are children of one node. -/
  siblings : ids.length ≤ 1 ∨
    ∃ parent, equation.Contains parent ∧ ∀ id ∈ ids, parent.hasChild id = true
  /-- Not both parts of a fraction are selected. -/
  part : ∀ fraction, equation.Contains fraction → fraction.family? = some .quotient →
    ∀ a ∈ ids, ∀ b ∈ ids, fraction.hasChild a = true → fraction.hasChild b = true → a = b

/-- Nothing selected is such a set. -/
theorem isSiblingSet_nil (equation : Equation) : equation.IsSiblingSet [] :=
  ⟨List.nodup_nil, List.forall_mem_nil _, Or.inl (Nat.zero_le _), fun _ _ _ ↦ List.forall_mem_nil _⟩

/-- A single node is one as well, a side included. -/
theorem isSiblingSet_singleton (h : id ∈ equation.issued) : equation.IsSiblingSet [id] := by
  refine ⟨List.nodup_singleton id, List.forall_mem_singleton.2 h, Or.inl (Nat.le_refl 1),
    fun _ _ _ a ha b hb _ _ ↦ ?_⟩
  rw [List.mem_singleton.1 ha, List.mem_singleton.1 hb]

namespace IsSiblingSet

/-- Fewer of the nodes can be replaced as well. -/
theorem of_sublist {fewer : List NodeId} (h : equation.IsSiblingSet ids)
    (hfewer : fewer.Sublist ids) :
    equation.IsSiblingSet fewer where
  nodup := h.nodup.sublist hfewer
  issued := fun id hid ↦ h.issued id (hfewer.subset hid)
  siblings := h.siblings.imp hfewer.length_le.trans fun ⟨parent, hparent, hchildren⟩ ↦
    ⟨parent, hparent, fun id hid ↦ hchildren id (hfewer.subset hid)⟩
  part := fun fraction hfraction hfamily a ha b hb ↦
    h.part fraction hfraction hfamily a (hfewer.subset ha) b (hfewer.subset hb)

/-- A sibling of the first node is one of all of them. -/
theorem exists_parent {first : NodeId} {rest : List NodeId}
    (h : equation.IsSiblingSet (first :: rest))
    (hnodup : (equation.left.ids ++ equation.right.ids).Nodup)
    (hsibling : equation.areSiblings id first = true) :
    ∃ parent, equation.Contains parent ∧
      ∀ other ∈ first :: rest ++ [id], parent.hasChild other = true := by
  obtain ⟨parent, hparent, hid, hfirst⟩ := areSiblings_iff.1 hsibling
  refine ⟨parent, hparent, List.forall_mem_append.2 ⟨?_, List.forall_mem_singleton.2 hid⟩⟩
  rcases h.siblings with hlength | ⟨common, hcommon, hchildren⟩
  · obtain rfl : rest = [] :=
      List.length_eq_zero_iff.1 (Nat.le_zero.1 (Nat.le_of_succ_le_succ hlength))
    exact List.forall_mem_singleton.2 hfirst
  · rwa [hparent.unique hnodup hcommon hfirst (hchildren first List.mem_cons_self)]

/-- **A click on a sibling** adds it. If that gives both parts of a fraction, it selects the
fraction. -/
theorem promote {first : NodeId} {rest : List NodeId} (h : equation.IsSiblingSet (first :: rest))
    (htracked : equation.IsTracked next) (hid : id ∈ equation.issued) (hnew : id ∉ first :: rest)
    (hsibling : equation.areSiblings id first = true) :
    equation.IsSiblingSet (Selection.promote equation (first :: rest ++ [id])) := by
  have hnodup := htracked.settled.nodup
  obtain ⟨parent, hparent, hchildren⟩ := h.exists_parent hnodup hsibling
  have hfirst := hchildren first List.mem_cons_self
  -- the node is added unless it is the second one and both are parts of a fraction
  have hadded : (∀ fraction, equation.Contains fraction → fraction.family? = some .quotient →
      fraction.hasChild first = true → rest ≠ []) →
        equation.IsSiblingSet (first :: rest ++ [id]) := by
    intro hseveral
    refine ⟨?_, List.forall_mem_append.2 ⟨h.issued, List.forall_mem_singleton.2 hid⟩,
      Or.inr ⟨parent, hparent, hchildren⟩,
      fun fraction hfraction hfamily a ha b hb haChild hbChild ↦ ?_⟩
    · exact List.nodup_append.2 ⟨h.nodup, List.nodup_singleton id, fun old hold new hmem ↦ by
        rintro rfl
        exact hnew (List.mem_singleton.1 hmem ▸ hold)⟩
    · -- the fraction would be the parent, and then it has two parts among the others
      obtain rfl := hfraction.unique hnodup hparent haChild (hchildren a ha)
      obtain ⟨second, others, rfl⟩ := List.exists_cons_of_ne_nil
        (hseveral fraction hfraction hfamily hfirst)
      have hsame :=
        h.part fraction hfraction hfamily first List.mem_cons_self second (by simp) hfirst
        (hchildren second (by simp))
      rw [hsame] at h
      exact absurd List.mem_cons_self (List.nodup_cons.1 h.nodup).1
  cases rest with
  | cons second others =>
    have hsame : Selection.promote equation (first :: (second :: others) ++ [id]) =
        first :: (second :: others) ++ [id] := by
      cases others <;> rfl
    rw [hsame]
    exact hadded fun _ _ _ _ ↦ List.cons_ne_nil _ _
  | nil =>
    obtain ⟨node, hnode, hfirstId⟩ := hasChild_iff.1 hfirst
    have hfind := find?_of_contains hnodup (Contains.operand hparent hnode) hfirstId
    have hfindParent := (findParent?_eq_some_iff hnodup).2 ⟨hparent, hfirst⟩
    obtain ⟨common, hcommon, hcommonId⟩ := htracked.exists_id? hparent
    rw [List.cons_append, List.nil_append, Selection.promote, hfind, hfindParent, Option.any_some,
      Option.bind_some, hcommonId]
    by_cases hsign : (node.sign == .divide) = true
    · rw [if_pos hsign]
      exact isSiblingSet_singleton hcommon
    · rw [if_neg hsign]
      refine hadded fun fraction hfraction hfamily hchild ↦ ?_
      obtain rfl := hfraction.unique hnodup hparent hchild hfirst
      rw [htracked.settled.sign_of_isFraction hfraction hfamily node hnode] at hsign
      exact absurd rfl hsign

/-- **One click** leaves a set that can be replaced. -/
theorem toggle {selection : Selection} (h : equation.IsSiblingSet selection.ids)
    (htracked : equation.IsTracked next) (hid : id ∈ equation.issued) :
    equation.IsSiblingSet (selection.toggle equation id).ids := by
  unfold Selection.toggle
  split
  · exact h
  · show equation.IsSiblingSet (Selection.click equation id selection.ids)
    generalize selection.ids = ids at h
    unfold Selection.click
    split
    · rename_i hsibling
      split
      · exact h.of_sublist List.filter_sublist
      · rename_i hnew
        cases ids with
        | nil => cases hsibling
        | cons first rest => exact h.promote htracked hid (by simpa using hnew) hsibling
    · exact isSiblingSet_singleton hid

/-! ### What the check of a replacement says

The problems that the check lists come from the selection or from the text. Those of the first kind
are traced back to how the selected identities are resolved. -/

/-- A set that is not empty is resolved to nodes. -/
theorem exists_selects (h : equation.IsSiblingSet ids) (hne : ids ≠ []) :
    ∃ nodes, equation.Selects ids nodes := by
  rcases h.siblings with hlength | ⟨parent, hparent, hchildren⟩
  · obtain ⟨id, rfl⟩ : ∃ id, ids = [id] :=
      List.length_eq_one_iff.1 (Nat.le_antisymm hlength (List.length_pos_of_ne_nil hne))
    have hid := mem_issued_iff.1 (h.issued id List.mem_cons_self)
    obtain ⟨side, hside, hid⟩ : ∃ side ∈ [equation.left, equation.right], some id ∈ side.ids := by
      rcases List.mem_append.1 hid with hleft | hright
      · exact ⟨_, List.mem_cons_self, hleft⟩
      · exact ⟨_, by simp, hright⟩
    rcases id?_or_hasChild_of_mem_ids hid with htop | ⟨parent, hparent, hchild⟩
    · exact ⟨_, .whole hside htop⟩
    · exact ⟨_, .operands ⟨side, hside, hparent⟩ hne (List.forall_mem_singleton.2 hchild)⟩
  · exact ⟨_, .operands hparent hne hchildren⟩

end IsSiblingSet

variable {text : Text} {errors : List InputError} {error : InputError}

/-- That a text has other variables than the equation is a problem of the text. -/
theorem concernsSelection_eq_false_of_mem_foreignErrors {expression : Node}
    (h : error ∈ equation.foreignErrors expression) : error.concernsSelection = false := by
  unfold foreignErrors at h
  split at h
  · cases h
  · rw [List.mem_singleton.1 h]
    rfl

/-- What the check of an input says about the selection is what the check of the value says. -/
theorem checkReplacement_of_mem_inputErrors
    (h : (equation.inputErrors (.replace ids) text).MayReturn errors) (hmem : error ∈ errors)
    (herror : error.concernsSelection = true) :
    (equation.checkReplacement ids text).MayReturn (.error error) := by
  have hother : ∀ {other : InputError}, other.concernsSelection = false → error ≠ other := by
    rintro _ hfalse rfl
    cases herror.symm.trans hfalse
  have hsingle :
      ∀ {other : InputError}, (pure [other] : Inquiry (List InputError)).MayReturn errors →
      other.concernsSelection = false → False := fun hpure hfalse ↦ by
    rw [Inquiry.mayReturn_pure_iff.1 hpure] at hmem
    exact hother hfalse (List.mem_singleton.1 hmem)
  unfold inputErrors at h
  split at h
  · exact (hsingle h rfl).elim
  split at h
  · exact (hsingle h rfl).elim
  split at h
  · rename_i cause hread
    obtain rfl := read_eq_error hread
    exact (hsingle h rfl).elim
  dsimp only at h
  split at h
  · obtain ⟨found, hfound, h⟩ := Inquiry.mayReturn_bind_iff.1 h
    rw [Inquiry.mayReturn_pure_iff.1 h] at hmem
    rcases List.mem_append.1 hmem with hforeign | hmem
    · cases herror.symm.trans (concernsSelection_eq_false_of_mem_foreignErrors hforeign)
    · obtain ⟨answer, hanswer, hfound⟩ := Inquiry.mayReturn_bind_iff.1 hfound
      cases answer with
      | ok _ =>
        rw [Inquiry.mayReturn_pure_iff.1 hfound] at hmem
        cases hmem
      | error cause =>
        rw [Inquiry.mayReturn_pure_iff.1 hfound] at hmem
        rwa [List.mem_singleton.1 hmem]
  · rw [Inquiry.mayReturn_pure_iff.1 h] at hmem
    rcases List.mem_append.1 hmem with hforeign | hmem
    · cases herror.symm.trans (concernsSelection_eq_false_of_mem_foreignErrors hforeign)
    · exact absurd (List.mem_singleton.1 hmem) (hother rfl)

/-- **What the check of a replacement says about the selection** is that it cannot be resolved, or
that nothing is selected. -/
theorem selectedNodes_of_mem_errors
    (h : (equation.checkInput (.replace ids) text).MayReturn (.error errors))
    (hmem : error ∈ errors) (herror : error.concernsSelection = true) :
    equation.selectedNodes ids = .error error ∨ equation.selectedNodes ids = .ok [] := by
  obtain ⟨found, hfound, h⟩ := Inquiry.mayReturn_bind_iff.1 h
  obtain rfl : errors = found := by
    cases found with
    | nil => cases Inquiry.mayReturn_pure_iff.1 h
    | cons first rest => exact Except.error.inj (Inquiry.mayReturn_pure_iff.1 h)
  have hcheck := checkReplacement_of_mem_inputErrors hfound hmem herror
  unfold checkReplacement at hcheck
  split at hcheck
  · rename_i cause hcause
    cases Inquiry.mayReturn_pure_iff.1 hcheck
    exact Or.inl hcause
  · exact Or.inr ‹_›
  · obtain ⟨answer, -, hcheck⟩ := Inquiry.mayReturn_bind_iff.1 hcheck
    split at hcheck
    · cases Inquiry.mayReturn_pure_iff.1 hcheck
    · cases Inquiry.mayReturn_pure_iff.1 hcheck
      cases herror
    · cases Inquiry.mayReturn_pure_iff.1 hcheck
      cases herror

/-- **The check of a replacement does not object to the selection**, unless that is empty. -/
theorem IsSiblingSet.eq_nil_of_mem_errors (hset : equation.IsSiblingSet ids)
    (hnodup : (equation.left.ids ++ equation.right.ids).Nodup)
    (h : (equation.checkInput (.replace ids) text).MayReturn (.error errors))
    (hmem : error ∈ errors) (herror : error.concernsSelection = true) :
    ids = [] ∧ error = .nothingSelected := by
  by_cases hne : ids = []
  · subst hne
    rcases selectedNodes_of_mem_errors h hmem herror with hnodes | hnodes
    · exact ⟨rfl, (Except.error.inj hnodes).symm⟩
    · cases hnodes
  · obtain ⟨nodes, hselects⟩ := hset.exists_selects hne
    rcases selectedNodes_of_mem_errors h hmem herror with hnodes | hnodes
    · cases hnodes.symm.trans (hselects.selectedNodes_eq hnodup)
    · cases hnodes.symm.trans (hselects.selectedNodes_eq hnodup)
      exact absurd rfl hselects.ne_nil

end Equation

namespace Selection

/-! ### Many clicks -/

/-- The selections that come about by clicks on nodes of an equation, each on any node. In between
the selection may be cleared. -/
inductive Arises (equation : Equation) : Selection → Prop where
  /-- At first nothing is selected. -/
  | empty : Arises equation empty
  /-- A click reaches any node of the equation, whether as an echo or not. -/
  | toggle {selection : Selection} {id : NodeId} (h : Arises equation selection)
    (hid : id ∈ equation.issued) : Arises equation (selection.toggle equation id)
  /-- The selection is cleared. -/
  | clear {selection : Selection} (h : Arises equation selection) : Arises equation empty

variable {equation : Equation} {selection : Selection} {next : NodeId}

/-- **Many clicks** leave a set that can be replaced. -/
theorem Arises.isSiblingSet (h : selection.Arises equation) (htracked : equation.IsTracked next) :
    equation.IsSiblingSet selection.ids := by
  induction h with
  | empty => exact equation.isSiblingSet_nil
  | toggle _ hid ih => exact ih.toggle htracked hid
  | clear => exact equation.isSiblingSet_nil

/-- **Whatever is clicked can be replaced.** In an equation that was built from two expressions, and
in every one that is reached from it by edits, each sequence of clicks selects different nodes,
which are children of one node unless there is only one, and at most one part of each fraction. The
check of a replacement never says that they are no siblings, or that there is no such node, and that
nothing is selected only if so it is. The oracle may answer anything, in expressions. -/
theorem isSiblingSet_of_arises {limits : Limits} {oracle : Oracle} {left right : Text}
    {built : Equation} (first : NodeId) (hleft : IsExpression left) (hright : IsExpression right)
    (horacle : ∀ literal answer, oracle.rationalize literal = .ok answer → IsExpression answer)
    (hbuilt : Equation.ofSides limits oracle left right = .ok built)
    (hreaches : (built.number first).1.Reaches (built.number first).2 equation next)
    (h : selection.Arises equation) :
    equation.IsSiblingSet selection.ids ∧
      ∀ text errors,
        (equation.checkInput (.replace selection.ids) text).MayReturn (.error errors) →
          .notSiblings ∉ errors ∧ .tree .noSuchNode ∉ errors ∧
            (.nothingSelected ∈ errors → selection.ids = []) := by
  have hanswers := answersRegular_of_isExpression horacle
  have hsame : (built.number first).1.oracle = oracle := (Equation.exists_of_ofSides hbuilt).2.1
  obtain ⟨htracked, -⟩ := hreaches.isTracked
    (Equation.isTracked_of_answersRegular first hleft hright hanswers hbuilt) (hsame ▸ hanswers)
  have hset := h.isSiblingSet htracked
  refine ⟨hset, fun text errors hcheck ↦ ?_⟩
  have hempty : ∀ {error : InputError}, error ∈ errors → error.concernsSelection = true →
      selection.ids = [] ∧ error = .nothingSelected :=
    hset.eq_nil_of_mem_errors htracked.settled.nodup hcheck
  exact ⟨fun hmem ↦ (nomatch (hempty hmem rfl).2), fun hmem ↦ (nomatch (hempty hmem rfl).2),
    fun hmem ↦ (hempty hmem rfl).1⟩

/-- In `x/2+1=1`, clicks on both parts of the fraction select the fraction. -/
theorem isSiblingSet_of_arises_fraction : ∃ (built : Equation) (selection : Selection),
    Equation.ofSides .standard (.exact .standard) "x/2+1".toList "1".toList = .ok built ∧
      selection.Arises (built.number 0).1 ∧ selection.ids = [1] ∧
        (built.number 0).1.IsSiblingSet selection.ids := by
  have hfacts :
      ((Equation.ofSides .standard (.exact .standard) "x/2+1".toList "1".toList).toOption.map
      fun built ↦ let equation := (built.number 0).1
        decide (2 ∈ equation.issued ∧ 3 ∈ equation.issued ∧
          ((empty.toggle equation 2).toggle equation 3).ids = [1])) = some true := by
    decide +kernel
  obtain ⟨built, hbuilt, hdividend, hdivisor, hids⟩ := Except.exists_ok_of_toOption hfacts
  have harises := (Arises.empty.toggle hdividend).toggle hdivisor
  exact ⟨built, _, hbuilt, harises, hids,
    (isSiblingSet_of_arises 0 (isExpression_of_eq rfl (by decide))
      (isExpression_of_eq rfl (by decide))
      (fun _ _ ↦ isExpression_of_exactFraction) hbuilt .start harises).1⟩

end Selection

end EquationSteps
