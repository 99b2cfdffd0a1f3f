import EquationSteps.Proofs.Equation.Selection
import EquationSteps.Proofs.Equation.Workspace

/-!
# Rejected edits

An edit that is rejected should leave the equation as it is. All ways in which an edit can fail are
ahead of its first change, but for one: the sides are normalized last, and that need not settle.

* A replacement checks its input, resolves the selection and reads the expression before it changes
  anything. After that it searches for each of the selected nodes in the equation that it is
  changing. None of these searches fails: where no identity occurs twice, the nodes of a selection
  are found one after the other whatever was put in the place of those before
  (`Equation.Selects.exists_conclude`).
* An operation reads its operand once for each side, and what is read depends on the text alone. So
  a text that nests too deeply fails for the left side, before anything has changed
  (`Equation.eq_of_nestingTooDeep`).

No identity occurs twice in any equation that was built from texts and then edited and copied
(`Workspace.IsOrderly.nodup_ids`), so all of it holds of these
(`Workspace.equation_kept_of_rejected`).
-/

namespace EquationSteps

open Node

variable {rationalize : Text → Except ValueError Text} {limits : Limits} {text : Text}

/-- An operation that fails by a text that nests too deeply fails with the operand. -/
theorem of_transformSide_nestingTooDeep {onTerm : Operand → Node → Inquiry Node} {side side' : Node}
    {limit : Nat} (h : (transformSide onTerm rationalize limits text side).MayReturn
      (.error (.nestingTooDeep limit), side')) :
    Operand.read rationalize limits text = .error (.nestingTooDeep limit) ∧ side' = side := by
  rcases of_mayReturn_transformSide h with ⟨⟨cause, hread, hcause⟩, hside⟩ |
    ⟨operand, applied, -, -, hresult, -⟩
  · rw [Except.error.inj hcause]
    exact ⟨hread, hside⟩
  · -- normalization fails in another way
    cases hnormalize : (applied.normalize rationalize limits).1 with
    | ok passes =>
      rw [hnormalize] at hresult
      cases hresult
    | error cause =>
      rw [hnormalize, normalize_eq_error hnormalize] at hresult
      cases hresult

namespace Equation

variable {equation after : Equation} {selection : List NodeId} {nodes : List Node}

/-! ### Operations on both sides

The left side comes first. If its operand cannot be read, nothing has been done. -/

/-- **A text that nests too deeply changes neither side.** -/
theorem eq_of_nestingTooDeep {onTerm : Operand → Node → Inquiry Node} {limit : Nat}
    (h : (equation.onSides (transformSide onTerm rationalize limits text)).MayReturn
      (.error (.nestingTooDeep limit), after)) : after = equation := by
  obtain ⟨⟨result, left⟩, hleft, h⟩ := Inquiry.mayReturn_bind_iff.1 h
  cases result with
  | error cause =>
    cases Inquiry.mayReturn_pure_iff.1 h
    obtain ⟨-, rfl⟩ := of_transformSide_nestingTooDeep hleft
    rfl
  | ok _ =>
    obtain ⟨⟨result, right⟩, hright, h⟩ := Inquiry.mayReturn_bind_iff.1 h
    cases Inquiry.mayReturn_pure_iff.1 h
    -- the operand was read for the left side, and so it can be read for the right one
    obtain ⟨herror, -⟩ := of_transformSide_nestingTooDeep hright
    rcases of_mayReturn_transformSide hleft with ⟨⟨cause, -, hcause⟩, -⟩ |
      ⟨operand, applied, hread, -⟩
    · cases hcause
    · cases hread.symm.trans herror

/-! ### Replacements

Normalizing and putting in place are the last steps, so what can go wrong in them is all that can go
wrong after a change. -/

/-- Normalizing an equation fails only by not settling. -/
theorem normalize_eq_error {cause : TreeError} (h : equation.normalize.1 = .error cause) :
    cause = .notSettled equation.limits.passes := by
  have hside : ∀ side : Node, (equation.normalizeSide side).1 = .error cause →
      cause = .notSettled equation.limits.passes := by
    intro side hside
    unfold normalizeSide at hside
    dsimp only at hside
    cases hnormalize : (side.normalize equation.oracle.rationalize equation.limits).1 with
    | ok passes =>
      rw [hnormalize] at hside
      cases hside
    | error cause' =>
      rw [hnormalize] at hside
      rw [← Except.error.inj hside]
      exact Node.normalize_eq_error hnormalize
  unfold normalize at h
  split at h
  · rename_i hleft
    exact hside equation.left (by rw [hleft]; exact h)
  · exact hside equation.right h

/-- Once it is in place, a replacement fails only if normalization does not settle. -/
theorem conclude_cases (equation : Equation) : equation.conclude.1 = .ok () ∨
    equation.conclude.1 = .error [.tree (.notSettled equation.limits.passes)] := by
  rw [conclude]
  cases hnormalize : equation.normalize.1 with
  | ok _ => exact Or.inl rfl
  | error cause =>
    rw [normalize_eq_error hnormalize]
    exact Or.inr rfl

/-- A node of the equation is reached where it stands. -/
theorem exists_reached (hnodup : (equation.left.ids ++ equation.right.ids).Nodup) {node : Node}
    (h : equation.Contains node) : ∃ outer : Node → Equation, outer node = equation ∧
      (∀ node, (outer node).limits = equation.limits) ∧ node.ids.Nodup ∧
        ∀ id, some id ∈ node.ids → IsReached id outer := by
  obtain ⟨side, hside, frames, hplug⟩ := h
  rcases List.mem_pair.1 hside with rfl | rfl
  · refine ⟨fun node ↦ { equation with left := plug frames node }, ?_, fun _ ↦ rfl,
      reached_left hnodup hplug⟩
    dsimp only
    rw [← hplug]
  · refine ⟨fun node ↦ { equation with right := plug frames node }, ?_, fun _ ↦ rfl,
      reached_right hnodup hplug⟩
    dsimp only
    rw [← hplug]

/-- **All of the selected nodes are found** when an expression is put in their place one after the
other, whatever the expression is. -/
theorem Selects.exists_conclude (hnodup : (equation.left.ids ++ equation.right.ids).Nodup)
    (h : equation.Selects selection nodes) (expression : Node) :
    ∃ changed : Equation, changed.limits = equation.limits ∧
      equation.putInPlace expression (nodes.filterMap Node.id?) = changed.conclude := by
  have hne := h.ne_nil
  cases h with
  | @whole id side hside hid =>
    obtain ⟨outer, houter, hlimits, -, hreached⟩ :=
      exists_reached hnodup ⟨side, hside, contains_self side⟩
    have hput := @putInPlace_whole id expression outer side (hreached id (mem_ids_of_id? hid)) hid
    rw [houter] at hput
    rw [List.filterMap_cons_some hid, List.filterMap_nil]
    exact ⟨_, hlimits _, hput⟩
  | operands hparent =>
    obtain ⟨outer, houter, hlimits, hids, hreached⟩ := exists_reached hnodup hparent
    obtain ⟨tag, before, node, rest, family, -, -, -, -, hput⟩ :=
      exists_putInPlace_operands hreached hids hne expression
    rw [houter] at hput
    exact ⟨_, hlimits _, hput⟩

/-- What comes of putting an expression in the place of nodes that a selection was resolved to. -/
theorem putInPlace_cases (hnodup : (equation.left.ids ++ equation.right.ids).Nodup)
    (h : equation.selectedNodes selection = .ok nodes) (expression : Node) :
    (equation.putInPlace expression (nodes.filterMap Node.id?)).1 = .ok () ∨
      (equation.putInPlace expression (nodes.filterMap Node.id?)).1 =
        .error [.tree (.notSettled equation.limits.passes)] := by
  obtain ⟨changed, hlimits, hput⟩ :=
    (selects_of_selectedNodes hnodup h).exists_conclude hnodup expression
  rw [hput, ← hlimits]
  exact changed.conclude_cases

/-- **A replacement that is rejected changes neither side**, if it is not for normalization that
does not settle. -/
theorem eq_of_replace_eq_error {errors : List InputError}
    (hnodup : (equation.left.ids ++ equation.right.ids).Nodup)
    (h : (equation.replace selection text).MayReturn (.error errors, after))
    (hsettled : ∀ passes, .tree (.notSettled passes) ∉ errors) : after = equation := by
  rcases of_mayReturn_replace h with ⟨-, hkept⟩ | ⟨nodes, expression, hnodes, -, hput⟩
  · exact hkept
  · -- the equation is changed, and there is no failure but the excluded one
    have hcases := putInPlace_cases hnodup hnodes expression
    rw [hput] at hcases
    rcases hcases with hok | herror
    · cases hok
    · cases herror
      exact absurd List.mem_cons_self (hsettled _)

end Equation

/-! ### Edits

The outcome of an edit names the kind of its failure, and from there one gets back to the step. -/

/-- A failure of a tree comes from an operation on trees. -/
theorem Edit.of_ofTree_eq_error {outcome : Except TreeError Unit × Equation} {cause : TreeError}
    {after : Equation} (h : ofTree outcome = (.error (.tree cause), after)) :
    outcome = (.error cause, after) := by
  obtain ⟨result, equation⟩ := outcome
  cases result <;> cases h
  rfl

/-- Errors of input come from a replacement. -/
theorem Edit.of_ofInput_eq_error {outcome : Except (List InputError) Unit × Equation}
    {errors : List InputError} {after : Equation}
    (h : ofInput outcome = (.error (.input errors), after)) : outcome = (.error errors, after) := by
  obtain ⟨result, equation⟩ := outcome
  cases result <;> cases h
  rfl

/-- An edit that leaves a numbered equation as it is issues no identities. -/
theorem Equation.eq_of_run {equation after : Equation} {edit : Edit}
    {result : Except Rejection Unit} {start next : NodeId}
    (hnumbered : none ∉ equation.left.ids ++ equation.right.ids)
    (hkept : ∀ edited, (edit.apply equation).MayReturn (result, edited) → edited = equation)
    (h : (Edit.run start equation edit).MayReturn (result, after, next)) : after = equation := by
  obtain ⟨⟨outcome, edited⟩, hedited, h⟩ := Inquiry.mayReturn_bind_iff.1 h
  obtain ⟨rfl, hafter⟩ := Prod.mk.inj (Inquiry.mayReturn_pure_iff.1 h)
  rw [hkept edited hedited, Equation.number_eq_self hnumbered] at hafter
  exact congrArg Prod.fst hafter

namespace Workspace

variable {workspace : Workspace} {equation : Equation}

/-- **Rejected edits leave the equation alone**, in whatever way it came about: built from any
texts, edited before with or without success, copied. Both sides are as they were, with all
identities and marks, after a replacement that is rejected for any other reason than that
normalization does not settle, and after a multiplication or division by a text that nests too
deeply. Once a selection is resolved, nothing but that normalization can fail: none of the selected
nodes is missed while they are replaced one after the other. -/
theorem equation_kept_of_rejected {first : NodeId} (hworkspace : (empty first).Reaches workspace)
    (hequation : equation ∈ workspace.equations) :
    (∀ selection text errors start after next,
      (Edit.run start equation (.replace selection text)).MayReturn
        (.error (.input errors), after, next) →
        (∀ passes, .tree (.notSettled passes) ∉ errors) → after = equation) ∧
    (∀ selection nodes expression, equation.selectedNodes selection = .ok nodes →
      (equation.putInPlace expression (nodes.filterMap Node.id?)).1 = .ok () ∨
        (equation.putInPlace expression (nodes.filterMap Node.id?)).1 =
          .error [.tree (.notSettled equation.limits.passes)]) ∧
    ∀ edit text, edit = .multiply text ∨ edit = .divide text → ∀ limit start after next,
      (Edit.run start equation edit).MayReturn
        (.error (.tree (.nestingTooDeep limit)), after, next) →
        after = equation := by
  have horderly := (isOrderly_empty first).reaches hworkspace
  have hnumbered := horderly.numbered equation hequation
  have hnodup := horderly.nodup_ids hequation
  refine ⟨fun selection text errors start after next h hsettled ↦
    Equation.eq_of_run hnumbered (fun edited hedited ↦ ?_) h,
    fun selection nodes expression hnodes ↦ Equation.putInPlace_cases hnodup hnodes expression,
    fun edit text hedit limit start after next h ↦
      Equation.eq_of_run hnumbered (fun edited hedited ↦ ?_) h⟩
  · obtain ⟨outcome, houtcome, hedited⟩ := Inquiry.mayReturn_bind_iff.1 hedited
    obtain rfl := Edit.of_ofInput_eq_error (Inquiry.mayReturn_pure_iff.1 hedited).symm
    exact Equation.eq_of_replace_eq_error hnodup houtcome hsettled
  · rcases hedit with rfl | rfl
    · obtain ⟨outcome, houtcome, hedited⟩ := Inquiry.mayReturn_bind_iff.1 hedited
      obtain rfl := Edit.of_ofTree_eq_error (Inquiry.mayReturn_pure_iff.1 hedited).symm
      exact Equation.eq_of_nestingTooDeep houtcome
    · obtain ⟨outcome, houtcome, hedited⟩ := Inquiry.mayReturn_bind_iff.1 hedited
      obtain rfl := Edit.of_ofTree_eq_error (Inquiry.mayReturn_pure_iff.1 hedited).symm
      exact Equation.eq_of_nestingTooDeep houtcome

/-- Where texts may nest three levels deep, the terms of `x+x=1` are not replaced by `3*x`, which
has another value, and the equation is not multiplied by an expression of more levels. -/
theorem equation_kept_of_rejected_sum : ∃ (built : Equation) (other tooDeep : Equation × NodeId),
    Equation.ofSides ⟨3, 256⟩ (.exact ⟨3, 256⟩) "x+x".toList "1".toList = .ok built ∧
      (Edit.run 9 (built.number 0).1 (.replace [1, 2] "3*x".toList)).answeredBy built.oracle =
        (.error (.input [.notEquivalent]), other) ∧ other.1 = (built.number 0).1 ∧
      (Edit.run 9 (built.number 0).1 (.multiply "(2+(3+(4+5)))*6".toList)).answeredBy built.oracle =
        (.error (.tree (.nestingTooDeep 3)), tooDeep) ∧ tooDeep.1 = (built.number 0).1 := by
  have hfacts : ((Equation.ofSides ⟨3, 256⟩ (.exact ⟨3, 256⟩) "x+x".toList "1".toList).toOption.map
      fun built ↦ decide
        (((Edit.run 9 (built.number 0).1 (.replace [1, 2] "3*x".toList)).answeredBy
            built.oracle).1 = .error (.input [.notEquivalent]) ∧
          ((Edit.run 9 (built.number 0).1 (.multiply "(2+(3+(4+5)))*6".toList)).answeredBy
            built.oracle).1 = .error (.tree (.nestingTooDeep 3)))) = some true := by
    decide +kernel
  obtain ⟨built, hbuilt, hother, htooDeep⟩ := Except.exists_ok_of_toOption hfacts
  have hworkspace : (empty 0).Reaches ((empty 0).add built) := .single (.build hbuilt)
  obtain ⟨hreplace, -, hoperation⟩ := equation_kept_of_rejected hworkspace List.mem_cons_self
  have hmay : ∀ {edit : Edit} {result : Except Rejection Unit},
      ((Edit.run 9 (built.number 0).1 edit).answeredBy built.oracle).1 = result →
        (Edit.run 9 (built.number 0).1 edit).MayReturn
          (result, ((Edit.run 9 (built.number 0).1 edit).answeredBy built.oracle).2) := by
    rintro edit _ rfl
    exact Inquiry.mayReturn_answeredBy built.oracle _
  exact ⟨built, _, _, hbuilt, Prod.ext hother rfl,
    hreplace _ _ _ _ _ _ (hmay hother) fun passes hmem ↦ (by cases List.mem_singleton.1 hmem),
    Prod.ext htooDeep rfl, hoperation _ _ (Or.inl rfl) _ _ _ _ (hmay htooDeep)⟩

end Workspace

end EquationSteps
