import EquationSteps.Proofs.Equation.Run
import EquationSteps.Proofs.Side.Identity

/-!
# Equations side by side

Equations that are built, edited and copied side by side share one counter of identities. No edit
leaves an identity in an equation that was not there before or that two nodes have, whether it
succeeds or fails, whatever the texts say and whatever is answered to its questions
(`Equation.issued_subperm_of_apply`). Then the new nodes are numbered, with identities that no
equation has had (`Equation.issued_number`).

So one step keeps the identities of a workspace apart (`Workspace.IsOrderly.step`), and of the
identities that were issued before the step no equation has one that it did not have before
(`Workspace.of_step`). Along a run of steps that gives: identities are unique, a dropped identity
does not come back, and equations at different places have no identity in common at any two times, a
copy and its original among them (`Workspace.identities_unique`).

**The model of a session.** A workspace is a list of equations and the next identity to issue.
Equations are added at the end and stay at their places, so a place is a name for an equation that
lasts through a run. A step builds an equation, edits one where it stands, or copies one to a new
place (`Workspace.Step`). Texts, limits and oracles may be any, and so may the answers to the
questions of an edit. The step for an edit has no condition that the edit succeeds: a failed edit
may have changed the equation, and its new nodes are numbered as well.

**The invariant and the frame.** `IsOrderly` is what makes identities unique at one time, and it is
kept by every step. Uniqueness over time needs a second fact, that an equation only gains identities
from the counter. With the counter growing, an identity that was issued and is not there cannot come
back, neither to the equation that lost it nor to any other one.

Nothing here asks for trees of any shape. Identities are counted as lists up to order
(`List.Subperm`), because exchanging the sides puts those of the right side first.
-/

namespace EquationSteps

open Node

namespace Node

variable {id : NodeId} {f : Node → Node} {node node' expression : Node}

/-! ### Changing a node in place

A change that only loses identities at one node only loses them in the tree. -/

/-- Changing one node issues no identity if the change of a node does not. -/
theorem issued_modify?_sublist (hf : ∀ node, (f node).issued.Sublist node.issued)
    (h : node.modify? id f = some node') : node'.issued.Sublist node.issued := by
  induction node using Node.induction generalizing node' with
  | atom tag text =>
    rw [modify?] at h
    split at h
    · cases h
      exact hf _
    · cases h
  | group tag children ih =>
    rw [modify?] at h
    split at h
    · cases h
      exact hf _
    · obtain ⟨changed, hchanged, rfl⟩ := Option.map_eq_some_iff.1 h
      rw [issued_group, issued_group]
      refine List.Sublist.append_left ?_ _
      clear h
      -- the search goes on behind an operand only if nothing was changed in it
      induction children generalizing changed with
      | nil => cases hchanged
      | cons first rest ihRest =>
        obtain ⟨ihFirst, ih⟩ := List.forall_mem_cons.1 ih
        rw [modifyAmong?] at hchanged
        split at hchanged
        · rename_i first' hfirst
          cases hchanged
          rw [List.flatMap_cons, List.flatMap_cons]
          exact (ihFirst hfirst).append_right _
        · obtain ⟨rest', hrest, rfl⟩ := Option.map_eq_some_iff.1 hchanged
          rw [List.flatMap_cons, List.flatMap_cons]
          exact (ihRest ih rest' hrest).append_left _

/-- Taking over an expression leaves no identity but the node's own. -/
theorem issued_takeOver_sublist (expression node : Node) :
    (takeOver expression node).issued.Sublist node.issued := by
  rw [issued_takeOver, issued_eq node]
  exact List.sublist_append_left _ _

/-- Becoming a zero leaves none other either. -/
theorem issued_toFiller_sublist (sign : Sign) (node : Node) :
    (node.toFiller sign).issued.Sublist node.issued := by
  have hfilled :=
    @issued_withContent_sublist (node.withSign sign) (.atom ['0']) (List.nil_sublist _)
  rwa [withSign, issued_mapTag rfl] at hfilled

end Node

namespace Equation

variable {equation after built : Equation} {text left right : Text}
  {selection : List NodeId} {edit : Edit} {limits : Limits} {oracle : Oracle}

/-! ### One edit

Each kind of edit, whether it succeeds or fails. In a failure some of the steps were done, and each
of them only loses identities. -/

/-- If both sides lose identities, so does the equation. -/
theorem issued_subperm_of_sides (hleft : after.left.issued.Sublist equation.left.issued)
    (hright : after.right.issued.Sublist equation.right.issued) :
    after.issued.Subperm equation.issued :=
  (hleft.append hright).subperm

/-- An operation on both sides, which may have failed on the second. -/
theorem issued_subperm_of_onSides {onTerm : Operand → Node → Inquiry Node}
    {rationalize : Text → Except ValueError Text} {result : Except TreeError Unit}
    (honTerm : IssuesNothing onTerm)
    (h : (equation.onSides (transformSide onTerm rationalize limits text)).MayReturn
      (result, after)) :
    after.issued.Subperm equation.issued := by
  obtain ⟨⟨leftResult, left⟩, hleft, h⟩ := Inquiry.mayReturn_bind_iff.1 h
  have hleftIssued := issued_transformSide_sublist honTerm hleft
  cases leftResult with
  | error cause =>
    cases Inquiry.mayReturn_pure_iff.1 h
    exact issued_subperm_of_sides hleftIssued (List.Sublist.refl _)
  | ok _ =>
    obtain ⟨⟨rightResult, right⟩, hright, h⟩ := Inquiry.mayReturn_bind_iff.1 h
    cases Inquiry.mayReturn_pure_iff.1 h
    exact issued_subperm_of_sides hleftIssued (issued_transformSide_sublist honTerm hright)

/-- Normalizing, which may have failed on either. -/
theorem issued_subperm_normalize (equation : Equation) :
    equation.normalize.2.issued.Subperm equation.issued := by
  have hside : ∀ side : Node, (equation.normalizeSide side).2.issued.Sublist side.issued :=
    issued_normalize_sublist _ _
  have hleft := hside equation.left
  unfold normalize
  split
  · rename_i hnormalized
    rw [hnormalized] at hleft
    exact issued_subperm_of_sides hleft (List.Sublist.refl _)
  · rename_i hnormalized
    rw [hnormalized] at hleft
    exact issued_subperm_of_sides hleft (hside equation.right)

/-- Substituting, as far as it got. -/
theorem issued_subperm_of_substitute {f : Node → Node} {ids : List NodeId}
    {result : Except TreeError Unit} (hf : ∀ node, (f node).issued.Sublist node.issued)
    (h : substitute f ids equation = (result, after)) : after.issued.Subperm equation.issued := by
  have hpending : ∀ node, ((f node).withPending true).issued.Sublist node.issued := fun node ↦ by
    rw [withPending, issued_mapTag rfl]
    exact hf node
  induction ids generalizing equation with
  | nil =>
    cases h
    exact List.Subperm.refl _
  | cons id ids ih =>
    rw [substitute] at h
    split at h
    · rename_i changed hmodify
      refine (ih h).trans ?_
      unfold modify? at hmodify
      split at hmodify
      · rename_i left hleft
        cases hmodify
        exact issued_subperm_of_sides (issued_modify?_sublist hpending hleft) (List.Sublist.refl _)
      · obtain ⟨right, hright, rfl⟩ := Option.map_eq_some_iff.1 hmodify
        exact issued_subperm_of_sides (List.Sublist.refl _) (issued_modify?_sublist hpending hright)
    · cases h
      exact List.Subperm.refl _

/-- Putting an expression in place, with the normalization after it. -/
theorem issued_subperm_putInPlace (expression : Node) (ids : List NodeId) (equation : Equation) :
    (putInPlace expression ids equation).2.issued.Subperm equation.issued := by
  cases ids with
  | nil => exact List.Subperm.refl _
  | cons first rest =>
    unfold putInPlace
    dsimp only
    cases htaken : substitute (takeOver expression) [first] equation with
    | mk result taken =>
      have htakenIssued := issued_subperm_of_substitute (issued_takeOver_sublist expression) htaken
      cases result with
      | error cause => exact htakenIssued
      | ok _ =>
        dsimp only
        split
        · rename_i hfilled
          exact (issued_subperm_of_substitute (issued_toFiller_sublist _) hfilled).trans
            htakenIssued
        · rename_i filled hfilled
          have hnormalized := (issued_subperm_normalize filled).trans
            ((issued_subperm_of_substitute (issued_toFiller_sublist _) hfilled).trans htakenIssued)
          split
          · rename_i heq
            rwa [heq] at hnormalized
          · rename_i heq
            rwa [heq] at hnormalized

/-- A replacement, whether it is rejected or put in place. -/
theorem issued_subperm_of_replace {result : Except (List InputError) Unit}
    (h : (equation.replace selection text).MayReturn (result, after)) :
    after.issued.Subperm equation.issued := by
  rcases of_mayReturn_replace h with ⟨-, rfl⟩ | ⟨nodes, expression, -, -, hput⟩
  · exact List.Subperm.refl _
  · have hissued := issued_subperm_putInPlace expression (nodes.filterMap Node.id?) equation
    rwa [hput] at hissued

/-- **No edit issues an identity**, whether it succeeds or fails, and whatever the answers to the
questions that it asks are. -/
theorem issued_subperm_of_apply {result : Except Rejection Unit}
    (h : (edit.apply equation).MayReturn (result, after)) :
    after.issued.Subperm equation.issued := by
  cases edit with
  | multiply factor =>
    obtain ⟨outcome, houtcome, h⟩ := Inquiry.mayReturn_bind_iff.1 h
    cases Inquiry.mayReturn_pure_iff.1 h
    exact issued_subperm_of_onSides issuesNothing_multiplyTerm houtcome
  | divide divisor =>
    obtain ⟨outcome, houtcome, h⟩ := Inquiry.mayReturn_bind_iff.1 h
    cases Inquiry.mayReturn_pure_iff.1 h
    exact issued_subperm_of_onSides issuesNothing_divideTerm houtcome
  | replace selection expression =>
    obtain ⟨outcome, houtcome, h⟩ := Inquiry.mayReturn_bind_iff.1 h
    cases Inquiry.mayReturn_pure_iff.1 h
    exact issued_subperm_of_replace houtcome
  | swapSides =>
    cases Inquiry.mayReturn_pure_iff.1 h
    exact List.perm_append_comm.subperm
  | normalize =>
    cases Inquiry.mayReturn_pure_iff.1 h
    exact issued_subperm_normalize equation
  | copy =>
    cases Inquiry.mayReturn_pure_iff.1 h
    rw [Equation.issued, copy, issued_anonymous, issued_anonymous]
    exact List.nil_subperm

/-! ### New equations

What is built and what is copied has no identities, and all nodes of it get new ones. -/

/-- An equation that is built has no identities yet, whatever the texts of its sides. -/
theorem issued_of_ofSides (h : ofSides limits oracle left right = .ok built) :
    built.issued = [] := by
  obtain ⟨leftNode, hleft, h⟩ := Except.ok_of_bind_eq_ok h
  obtain ⟨rightNode, hright, h⟩ := Except.ok_of_bind_eq_ok h
  have hnormalized := issued_subperm_normalize ⟨leftNode, rightNode, limits, oracle⟩
  have hread : (⟨leftNode, rightNode, limits, oracle⟩ : Equation).issued = [] := by
    rw [Equation.issued, issued_eq_nil_of_read hleft, issued_eq_nil_of_read hright, List.append_nil]
  rw [hread] at hnormalized
  split at h
  · rename_i equation hequation
    cases h
    rw [hequation] at hnormalized
    exact List.subperm_nil.1 hnormalized
  · cases h

/-- A copy has none of the identities of its original. -/
theorem issued_copy (equation : Equation) : equation.copy.issued = [] := by
  rw [Equation.issued, copy, issued_anonymous, issued_anonymous, List.append_nil]

/-- Where all nodes are numbered, nothing is left to number. -/
theorem number_eq_self (hnumbered : none ∉ equation.left.ids ++ equation.right.ids)
    (next : NodeId) :
    equation.number next = (equation, next) := by
  obtain ⟨hleft, hright⟩ := not_or.1 (List.mem_append.not.1 hnumbered)
  rw [number, Node.number_eq_self _ _ hleft]
  dsimp only
  rw [Node.number_eq_self _ _ hright]

/-- All nodes are numbered. -/
theorem numbered_number (equation : Equation) (next : NodeId) :
    none ∉ (equation.number next).1.left.ids ++ (equation.number next).1.right.ids := by
  obtain ⟨-, hleft, -⟩ := Node.issued_number equation.left next
  obtain ⟨-, hright, -⟩ := Node.issued_number equation.right (equation.left.number next).2
  exact fun hnone ↦ (List.mem_append.1 hnone).elim hleft hright

end Equation

/-! ### Steps

The system as a relation between workspaces, and the invariant of its states. -/

/-- Equations side by side, with the next identity to issue. -/
structure Workspace where
  equations : List Equation
  next : NodeId

namespace Workspace

variable {workspace after earlier middle later : Workspace} {equation : Equation} {id : NodeId}
  {place other : Nat}

/-- There are no equations yet. -/
def empty (first : NodeId) : Workspace := ⟨[], first⟩

/-- The workspace with one more equation, of which the new nodes are numbered. -/
def add (equation : Equation) (workspace : Workspace) : Workspace :=
  ⟨workspace.equations ++ [(equation.number workspace.next).1], (equation.number workspace.next).2⟩

/-- The identities of the equation at a place. -/
def issuedAt (workspace : Workspace) (place : Nat) : List NodeId :=
  workspace.equations[place]?.elim [] Equation.issued

/-- What can happen to equations side by side. An edit may succeed or fail, and its questions may be
answered in any way. -/
inductive Step (workspace : Workspace) : Workspace → Prop where
  /-- An equation is built from texts. -/
  | build {limits : Limits} {oracle : Oracle} {left right : Text} {built : Equation}
    (h : Equation.ofSides limits oracle left right = .ok built) :
    Step workspace (workspace.add built)
  /-- An equation is edited where it stands. -/
  | edit {place : Nat} {equation edited : Equation} {edit : Edit} {result : Except Rejection Unit}
    {next : NodeId} (h : workspace.equations[place]? = some equation)
    (hrun : (Edit.run workspace.next equation edit).MayReturn (result, edited, next)) :
    Step workspace ⟨workspace.equations.set place edited, next⟩
  /-- An equation is copied, and the copy is put at a place of its own. -/
  | copy {place : Nat} {equation : Equation} (h : workspace.equations[place]? = some equation) :
    Step workspace (workspace.add equation.copy)

/-- What can happen after several steps. -/
def Reaches : Workspace → Workspace → Prop :=
  Relation.ReflTransGen Step

/-- The identities of a workspace are apart: every node has one, no two nodes have the same, and all
of them have been issued. -/
structure IsOrderly (workspace : Workspace) : Prop where
  numbered : ∀ equation ∈ workspace.equations, none ∉ equation.left.ids ++ equation.right.ids
  nodup : (workspace.equations.flatMap Equation.issued).Nodup
  issued_lt : ∀ id ∈ workspace.equations.flatMap Equation.issued, id < workspace.next

/-- Nothing is doubled where there is nothing. -/
theorem isOrderly_empty (first : NodeId) : (empty first).IsOrderly :=
  ⟨List.forall_mem_nil _, List.nodup_nil, List.forall_mem_nil _⟩

/-! ### One more equation

Building and copying are the same for what follows: an equation without identities is added. -/

section Add

variable (hnew : equation.issued = [])

include hnew

/-- An equation without identities gets a range of new ones. -/
theorem issued_number_of_new (next : NodeId) : ∃ count, (equation.number next).2 = next + count ∧
    (equation.number next).1.issued.Perm (List.range' next count) := by
  have hnumber := Equation.issued_number next equation
  rwa [hnew] at hnumber

/-- Adding an equation without identities keeps the identities apart: those it gets are from the
counter on. -/
theorem IsOrderly.of_add (h : workspace.IsOrderly) : (workspace.add equation).IsOrderly := by
  obtain ⟨count, hnext, hissued⟩ := issued_number_of_new hnew workspace.next
  have hall : ((workspace.add equation).equations.flatMap Equation.issued).Perm
      (workspace.equations.flatMap Equation.issued ++ List.range' workspace.next count) := by
    show ((workspace.equations ++ [_]).flatMap Equation.issued).Perm _
    rw [List.flatMap_append, List.flatMap_singleton]
    exact hissued.append_left _
  obtain ⟨hnodup, hlt⟩ := Equation.nodup_of_subperm_range' hall.subperm h.nodup h.issued_lt
  refine ⟨List.forall_mem_append.2 ⟨h.numbered, List.forall_mem_singleton.2 ?_⟩, hnodup, ?_⟩
  · exact equation.numbered_number workspace.next
  · rw [Workspace.add, hnext]
    exact hlt

/-- The equations that are there keep their identities, and the identities of the new one are
new. -/
theorem issuedAt_add (place : Nat) : workspace.next ≤ (workspace.add equation).next ∧
    ∀ id ∈ (workspace.add equation).issuedAt place,
      id ∈ workspace.issuedAt place ∨ workspace.next ≤ id := by
  obtain ⟨count, hnext, hissued⟩ := issued_number_of_new hnew workspace.next
  refine ⟨?_, fun id hid ↦ ?_⟩
  · rw [add, hnext]
    exact Nat.le_add_right _ _
  · unfold issuedAt add at hid
    dsimp only at hid
    by_cases hplace : place < workspace.equations.length
    · rw [List.getElem?_append_left hplace] at hid
      exact Or.inl hid
    · rw [List.getElem?_append_right (Nat.le_of_not_lt hplace)] at hid
      cases hlast : place - workspace.equations.length with
      | zero =>
        rw [hlast] at hid
        exact Or.inr (List.mem_range'_1.1 (hissued.mem_iff.1 hid)).1
      | succ beyond =>
        rw [hlast] at hid
        cases hid

end Add

/-! ### Editing an equation where it stands -/

section Edit

variable {edited : Equation} {edit : Edit} {result : Except Rejection Unit} {next : NodeId}
  (h : workspace.equations[place]? = some equation)
  (hrun : (Edit.run workspace.next equation edit).MayReturn (result, edited, next))

include hrun

/-- What an edit leaves is numbered, with no identities but those from before and new ones. -/
theorem of_run : ∃ count, next = workspace.next + count ∧
    none ∉ edited.left.ids ++ edited.right.ids ∧
      edited.issued.Subperm (equation.issued ++ List.range' workspace.next count) := by
  obtain ⟨⟨outcome, applied⟩, happlied, hrun⟩ := Inquiry.mayReturn_bind_iff.1 hrun
  cases Inquiry.mayReturn_pure_iff.1 hrun
  obtain ⟨count, hnext, hissued⟩ := Equation.issued_number workspace.next applied
  refine ⟨count, hnext, applied.numbered_number workspace.next, hissued.subperm.trans ?_⟩
  exact (List.subperm_append_right _).2 (Equation.issued_subperm_of_apply happlied)

include h

/-- An edit keeps the identities apart: the edited equation has some of its own and new ones. -/
theorem IsOrderly.of_edit (horderly : workspace.IsOrderly) :
    IsOrderly ⟨workspace.equations.set place edited, next⟩ := by
  obtain ⟨count, rfl, hnumbered, hissued⟩ := of_run hrun
  obtain ⟨hplace, hequation⟩ := List.getElem?_eq_some_iff.1 h
  obtain ⟨before, after, hsplit, -, hset⟩ := @List.exists_of_set _ _ edited _ hplace
  rw [hequation] at hsplit
  -- the equations around the edited one keep what they have, and the new identities go to the end
  have hall : ((workspace.equations.set place edited).flatMap Equation.issued).Subperm
      (workspace.equations.flatMap Equation.issued ++ List.range' workspace.next count) := by
    rw [hset, hsplit, List.flatMap_append, List.flatMap_cons, List.flatMap_append,
      List.flatMap_cons, List.append_assoc, List.append_assoc]
    refine (List.subperm_append_left _).2 (((List.subperm_append_right _).2 hissued).trans ?_)
    rw [List.append_assoc]
    exact ((List.perm_append_comm).append_left _).subperm
  obtain ⟨hnodup, hlt⟩ := Equation.nodup_of_subperm_range' hall horderly.nodup horderly.issued_lt
  refine ⟨fun other hother ↦ ?_, hnodup, hlt⟩
  rcases List.mem_or_eq_of_mem_set hother with hmem | rfl
  · exact horderly.numbered other hmem
  · exact hnumbered

/-- An edit leaves the other equations as they are, and in the edited one the identities are those
from before and new ones. -/
theorem issuedAt_edit (other : Nat) : workspace.next ≤ next ∧
    ∀ id ∈ issuedAt ⟨workspace.equations.set place edited, next⟩ other,
      id ∈ workspace.issuedAt other ∨ workspace.next ≤ id := by
  obtain ⟨count, rfl, -, hissued⟩ := of_run hrun
  refine ⟨Nat.le_add_right _ _, fun id hid ↦ ?_⟩
  unfold issuedAt at hid ⊢
  dsimp only at hid
  by_cases hplace : place = other
  · subst hplace
    obtain ⟨hlt, -⟩ := List.getElem?_eq_some_iff.1 h
    rw [List.getElem?_set_self hlt] at hid
    rw [h]
    exact (List.mem_append.1 (hissued.subset hid)).imp_right fun hnew ↦ (List.mem_range'_1.1 hnew).1
  · rw [List.getElem?_set_ne hplace] at hid
    exact Or.inl hid

end Edit

/-! ### Many steps

By cases for one step, and by induction for a run. -/

/-- One step keeps the identities apart. -/
theorem IsOrderly.step (h : workspace.IsOrderly) (hstep : workspace.Step after) :
    after.IsOrderly := by
  cases hstep with
  | build hbuilt => exact h.of_add (Equation.issued_of_ofSides hbuilt)
  | edit hequation hrun => exact h.of_edit hequation hrun
  | copy hequation => exact h.of_add (Equation.issued_copy _)

/-- Of the identities that were issued before a step, no equation gets one. -/
theorem of_step (h : workspace.Step after) (place : Nat) : workspace.next ≤ after.next ∧
    ∀ id ∈ after.issuedAt place, id ∈ workspace.issuedAt place ∨ workspace.next ≤ id := by
  cases h with
  | build hbuilt => exact issuedAt_add (Equation.issued_of_ofSides hbuilt) place
  | edit hequation hrun => exact issuedAt_edit hequation hrun place
  | copy hequation => exact issuedAt_add (Equation.issued_copy _) place

/-- So do many steps. -/
theorem IsOrderly.reaches (h : workspace.IsOrderly) (hreaches : workspace.Reaches after) :
    after.IsOrderly := by
  induction hreaches with
  | refl => exact h
  | tail _ hstep ih => exact ih.step hstep

/-- Of the identities that were issued before many steps, no equation gets one. -/
theorem of_reaches (h : workspace.Reaches after) (place : Nat) : workspace.next ≤ after.next ∧
    ∀ id ∈ after.issuedAt place, id ∈ workspace.issuedAt place ∨ workspace.next ≤ id := by
  induction h with
  | refl => exact ⟨Nat.le_refl _, fun id hid ↦ Or.inl hid⟩
  | tail _ hstep ih =>
    obtain ⟨hnext, hissued⟩ := ih
    obtain ⟨hnextStep, hissuedStep⟩ := of_step hstep place
    refine ⟨Nat.le_trans hnext hnextStep, fun id hid ↦ ?_⟩
    rcases hissuedStep id hid with hbefore | hnew
    · exact hissued id hbefore
    · exact Or.inr (Nat.le_trans hnext hnew)

/-- In an equation of an orderly workspace no identity occurs twice. -/
theorem IsOrderly.nodup_ids (h : workspace.IsOrderly) (hequation : equation ∈ workspace.equations) :
    (equation.left.ids ++ equation.right.ids).Nodup := by
  obtain ⟨hleft, hright⟩ := not_or.1 (List.mem_append.not.1 (h.numbered equation hequation))
  rw [ids_eq_map_issued hleft, ids_eq_map_issued hright, ← List.map_append]
  exact ((List.nodup_flatMap.1 h.nodup).1 equation hequation).map (Option.some_injective _)

/-! ### Places

What it means for equations at two places that identities are apart. -/

/-- All identities that an equation has were issued. -/
theorem IsOrderly.lt_of_mem_issuedAt (h : workspace.IsOrderly)
    (hid : id ∈ workspace.issuedAt place) :
    id < workspace.next := by
  unfold issuedAt at hid
  cases hequation : workspace.equations[place]? with
  | none =>
    rw [hequation] at hid
    cases hid
  | some equation =>
    rw [hequation] at hid
    exact h.issued_lt id (List.mem_flatMap.2 ⟨equation, List.mem_of_getElem? hequation, hid⟩)

/-- Equations at different places have no identity in common. -/
theorem IsOrderly.disjoint (h : workspace.IsOrderly) (hne : place ≠ other) :
    (workspace.issuedAt place).Disjoint (workspace.issuedAt other) := by
  have hpairs : ∀ {place other : Nat}, place < other →
      (workspace.issuedAt place).Disjoint (workspace.issuedAt other) := by
    intro place other hlt id hplace hother
    unfold issuedAt at hplace hother
    cases hleft : workspace.equations[place]? with
    | none =>
      rw [hleft] at hplace
      cases hplace
    | some left =>
      cases hright : workspace.equations[other]? with
      | none =>
        rw [hright] at hother
        cases hother
      | some right =>
        rw [hleft] at hplace
        rw [hright] at hother
        obtain ⟨hleftLt, rfl⟩ := List.getElem?_eq_some_iff.1 hleft
        obtain ⟨hrightLt, rfl⟩ := List.getElem?_eq_some_iff.1 hright
        exact List.pairwise_iff_getElem.1 (List.nodup_flatMap.1 h.nodup).2 place other
          hleftLt hrightLt
          hlt hplace hother
  rcases Nat.lt_or_gt_of_ne hne with hlt | hgt
  · exact hpairs hlt
  · exact (hpairs hgt).symm

/-- So do equations at different places at two different times. -/
theorem IsOrderly.disjoint_of_reaches (h : workspace.IsOrderly) (hreaches : workspace.Reaches after)
    (hne : place ≠ other) : (workspace.issuedAt place).Disjoint (after.issuedAt other) := by
  intro id hplace hother
  rcases (of_reaches hreaches other).2 id hother with hbefore | hnew
  · exact h.disjoint hne hplace hbefore
  · exact Nat.not_lt_of_le hnew (h.lt_of_mem_issuedAt hplace)

/-- **Identities are unique**, along every sequence of steps: equations are built from any texts
with any oracles, edited with any texts, successfully or not and with any answers, and copied. At
any time all nodes of both sides of an equation have identities, which are pairwise distinct; an
identity that an equation has lost does not come back to it; and no identity is had by equations at
different places, at the same time or at different times. In particular a copy shares no identity
with its original, or with anything that becomes of it later. -/
theorem identities_unique {first : NodeId} (hearlier : (empty first).Reaches earlier)
    (hmiddle : earlier.Reaches middle) (hlater : middle.Reaches later) :
    (∀ equation ∈ earlier.equations, none ∉ equation.left.ids ++ equation.right.ids ∧
      (equation.left.ids ++ equation.right.ids).Nodup) ∧
    (∀ place, ∀ id ∈ earlier.issuedAt place, id ∉ middle.issuedAt place →
      id ∉ later.issuedAt place) ∧
    (∀ place other, place ≠ other → (earlier.issuedAt place).Disjoint (middle.issuedAt other)) ∧
    ∀ (place : Nat) (equation : Equation), earlier.equations[place]? = some equation → ∀ after,
      (earlier.add equation.copy).Reaches after →
        (equation.copy.number earlier.next).1.issued.Disjoint equation.issued ∧
          (equation.copy.number earlier.next).1.issued.Disjoint (after.issuedAt place) := by
  have horderly := (isOrderly_empty first).reaches hearlier
  refine ⟨fun equation hmem ↦ ⟨horderly.numbered equation hmem, horderly.nodup_ids hmem⟩,
    fun place id hid hdropped hback ↦ ?_, fun place other hne ↦ ?_,
    fun place equation hequation after hafter ↦ ?_⟩
  · -- what comes back would be new, but it was issued long before
    rcases (of_reaches hlater place).2 id hback with hbefore | hnew
    · exact hdropped hbefore
    · have hissued := horderly.lt_of_mem_issuedAt hid
      exact Nat.not_lt_of_le ((of_reaches hmiddle place).1.trans hnew) hissued
  · exact horderly.disjoint_of_reaches hmiddle hne
  · have hadded := horderly.step (.copy hequation)
    have hlt := (List.getElem?_eq_some_iff.1 hequation).1
    have hcopy : (earlier.add equation.copy).issuedAt earlier.equations.length =
        (equation.copy.number earlier.next).1.issued := by
      simp [issuedAt, add]
    have hplace : (earlier.add equation.copy).issuedAt place = equation.issued := by
      simp [issuedAt, add, List.getElem?_append_left hlt, hequation]
    rw [← hcopy, ← hplace]
    exact ⟨hadded.disjoint (Nat.ne_of_gt hlt),
      hadded.disjoint_of_reaches hafter (Nat.ne_of_gt hlt)⟩

/-- Both terms of `x+x=1` are replaced by `2*x`, and the result is copied: the identity of the
second term does not come back, and the copy has none of the identities of its original. -/
theorem identities_unique_sum : ∃ earlier middle later : Workspace,
    (empty 0).Reaches earlier ∧ earlier.Reaches middle ∧ middle.Reaches later ∧
      2 ∈ earlier.issuedAt 0 ∧ 2 ∉ middle.issuedAt 0 ∧ later.issuedAt 1 ≠ [] ∧
        2 ∉ later.issuedAt 0 ∧ (middle.issuedAt 0).Disjoint (later.issuedAt 1) := by
  have hfacts : ((Equation.new "x+x".toList "1".toList).toOption.map fun built ↦
      let earlier := (empty 0).add built
      let run :=
        (Edit.run earlier.next (built.number 0).1 (.replace [1, 2] "2*x".toList)).answeredBy
        built.oracle
      let middle : Workspace := ⟨earlier.equations.set 0 run.2.1, run.2.2⟩
      decide (2 ∈ earlier.issuedAt 0 ∧ 2 ∉ middle.issuedAt 0 ∧
        (middle.add run.2.1.copy).issuedAt 1 ≠ [])) = some true := by
    decide +kernel
  obtain ⟨built, hbuilt, hissued, hdropped, hcopied⟩ := Except.exists_ok_of_toOption hfacts
  have hrun := Inquiry.mayReturn_answeredBy built.oracle
    (Edit.run ((empty 0).add built).next (built.number 0).1 (.replace [1, 2] "2*x".toList))
  generalize (Edit.run ((empty 0).add built).next (built.number 0).1
    (.replace [1, 2] "2*x".toList)).answeredBy built.oracle = outcome at hrun hdropped hcopied
  obtain ⟨result, edited, next⟩ := outcome
  have hearlier : (empty 0).Reaches ((empty 0).add built) := .single (.build hbuilt)
  have hmiddle : ((empty 0).add built).Reaches ⟨[edited], next⟩ :=
    .single (@Step.edit _ 0 (built.number 0).1 edited _ result next rfl hrun)
  have hlater : Reaches ⟨[edited], next⟩ (add edited.copy ⟨[edited], next⟩) :=
    .single (@Step.copy _ 0 edited rfl)
  obtain ⟨-, hgone, -⟩ := identities_unique hearlier hmiddle hlater
  obtain ⟨-, -, hapart, -⟩ :=
    identities_unique (hearlier.trans hmiddle) hlater Relation.ReflTransGen.refl
  exact ⟨_, _, _, hearlier, hmiddle, hlater, hissued, hdropped, hcopied,
    hgone 0 2 hissued hdropped, hapart 0 1 (by decide)⟩

end Workspace

end EquationSteps
