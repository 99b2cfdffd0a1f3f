import EquationSteps.Equation.Edit
import EquationSteps.Proofs.Equation.Soundness
import EquationSteps.Proofs.Side.Remains

/-!
# Runs of edits

What a sequence of successful edits keeps of an equation, whatever the answers to the questions that
the edits ask. Between edits an equation is settled, and all of its identities are below the next
one to issue (`Equation.IsTracked`). Each edit leaves settled sides that have no identities but
those of the equation before (`Equation.IsSettled.continues_apply`), and the nodes it made are then
numbered (`Equation.isTracked_number`). So every equation that is reached is tracked, and it holds
terms on both sides if the one at the start does (`Reaches.isTracked`).

**Two halves of an edit.** An edit first changes the equation and then numbers what has no identity.
What it leaves before the numbering is described by `Continues`, with one lemma for each kind of
edit:

* operations on both sides (`IsSettled.continues_onSides`);
* normalizing, which finds nothing to do (`IsSettled.continues_normalize`);
* exchanging the sides and copying (`IsSettled.continues_swapSides`, `IsSettled.continues_copy`);
* replacing selected nodes (`IsSettled.continues_replace`), by what remains of the side at whose
  place the replacement is made (`IsPlace.continues`).

**Identities may be lost but never doubled.** Before the numbering there are no new ones, and the
numbering takes the next ones in order. The identities afterwards are those that were left together
with a range that was not issued before, up to the order (`issued_number`), so none occurs twice
(`nodup_of_subperm_range'`).

**What is assumed** is that the operands of edits are expressions (`Edit.HasExpression`) and that
the oracle's answers for literals are read as regular trees. Its answers to comparisons may be
anything, which is why edits are inquiries here and not computations. Edits that fail are not part
of a run; what they leave is the subject of other modules.
-/

namespace EquationSteps

open Node

namespace Node

variable {frames : List Frame} {node node' expression side : Node} {selection : List NodeId}
  {family : Family} {tag : Tag} {before after : List Node}

/-! ### What a replacement leaves of a side

The nodes that are exchanged keep their identities, their place and the kind of their sign, so the
side remains, whatever stands there now. -/

/-- What remains of a node remains within a tree. The groups above it keep their operands' families,
and their tags are not touched. -/
theorem Remains.plug (hshaped : (plug frames node).isShaped = true) (h : node.Remains node') :
    (Node.plug frames node).Remains (Node.plug frames node') := by
  induction frames with
  | nil => exact h
  | cons frame frames ih =>
    rw [plug_cons] at hshaped ⊢
    have hregular := isRegular_of_isShaped_group hshaped
    obtain ⟨hbefore, hrest⟩ := List.forall_mem_append.1 hregular
    obtain ⟨hinner, hafter⟩ := List.forall_mem_cons.1 hrest
    exact .of_forall₂ hshaped
      (List.rel_append (forall₂_remains_of_regular hbefore)
        (.cons (ih (isShaped_of_isRegular hinner)) (forall₂_remains_of_regular hafter)))

/-- Below a root a node may be exchanged for a new one that keeps its identity. The new content has
to be a regular tree of new nodes, and the sign may be another one of the same family. -/
theorem Remains.of_exchange {f : Tag → Tag} {content : Content}
    (hid : (f node.tag).id = node.tag.id) (hmark : (f node.tag).root = node.tag.root)
    (hsign : Family.ofSign (f node.tag).sign = Family.ofSign node.tag.sign)
    (hregular : node.isRegular = true) (hcontent : (fresh .plus content).isRegular = true)
    (hnew : (fresh .plus content).everyTag Tag.isNew = true) :
    node.Remains (ofContent (f node.tag) content) := by
  have hroot := isRoot_of_isRegular hregular
  have htag : node.Remains (node.mapTag f) :=
    .of_tag hid hmark hsign hroot (isShaped_of_isRegular hregular)
  have hexchanged : (node.mapTag f).Remains ((node.mapTag f).withContent content) :=
    .of_new (htag.root.trans hroot) hcontent hnew
  rw [withContent, tag_mapTag] at hexchanged
  exact htag.trans hexchanged

/-- The first selected node takes over the expression and keeps its identity. If it is a factor or a
divisor, a minus of the expression goes into a group below it. -/
theorem remains_takeOver (he : expression.IsReplacement) (hregular : node.isRegular = true) :
    node.Remains ((takeOver expression node).withPending true) := by
  have hroot := isRoot_of_isRegular hregular
  -- a term gets the sign of the expression, and any other operand keeps its own
  cases hsign : node.sign.isAdditive with
  | true =>
    rw [takeOver_term he hroot hsign]
    refine @Remains.of_exchange node
      (fun tag ↦ { tag with sign := expression.sign, pending := true }) _
      rfl rfl ?_ hregular (isRegular_ofContent rfl he.regular) (everyTag_ofContent rfl he.new)
    rw [Family.ofSign_eq_sum_iff.2 he.sign]
    exact (Family.ofSign_eq_sum_iff.2 hsign).symm
  | false =>
    obtain ⟨hoperand, hnew, -⟩ := he.asOperand node.sign
    rw [takeOver_factor he hroot hsign]
    exact @Remains.of_exchange node (fun tag ↦ { tag with pending := true }) _ rfl rfl rfl hregular
      (isRegular_ofContent rfl hoperand) (everyTag_ofContent rfl hnew)

/-- The others become zeros and keep theirs, with the sign that operands of the group have by
default. -/
theorem remains_marked (hregular : node.isRegular = true)
    (hsign : Family.ofSign node.sign = family) :
    node.Remains (node.marked selection family.defaultSign) := by
  unfold marked
  split
  · rw [toFiller_withPending]
    refine @Remains.of_exchange node
      (fun tag ↦ { tag with sign := family.defaultSign, pending := true })
      (.atom ['0']) rfl rfl ?_ hregular
      rfl rfl
    rw [Family.ofSign_defaultSign, ← hsign, sign]
  · exact .refl (isShaped_of_isRegular hregular)

/-- Replacing operands leaves a group of the same family, with as many operands as there were. -/
theorem remains_replaced (selection : List NodeId) (he : expression.IsReplacement)
    (hshaped : (group tag (before ++ node :: after)).isShaped = true)
    (hfamily : (group tag (before ++ node :: after)).family? = some family) :
    (group tag (before ++ node :: after)).Remains
      (group tag (replaced selection family.defaultSign expression before node after)) := by
  have hregular := isRegular_of_isShaped_group hshaped
  have hsigns := ofSign_of_isShaped hshaped hfamily
  obtain ⟨hbefore, hrest⟩ := List.forall_mem_append.1 hregular
  obtain ⟨hnode, hafter⟩ := List.forall_mem_cons.1 hrest
  have hsignsAfter := (List.forall_mem_cons.1 (List.forall_mem_append.1 hsigns).2).2
  have hmarked : List.Forall₂ Remains after (after.map (marked selection family.defaultSign)) :=
    forall₂_map_of_forall_mem fun other hmem ↦
      remains_marked (hafter other hmem) (hsignsAfter other hmem)
  exact .of_forall₂ hshaped (List.rel_append (forall₂_remains_of_regular hbefore)
    (.cons (remains_takeOver he hnode) hmarked))

/-- Replacing a whole side leaves a root with one term. -/
theorem remains_takeOver_root (he : expression.IsReplacement) (hshaped : side.isShaped = true)
    (hroot : side.isRoot = true) (hgroup : side.atomText? = none) :
    side.Remains ((takeOver expression side).withPending true) := by
  cases side with
  | atom tag text => cases hgroup
  | group tag children =>
    have hterm := he.isTerm.withPending true
    rw [takeOver_root he hroot]
    refine ⟨?_, rfl, rfl, fun _ family hne hfamily ↦ ?_, ?_⟩
    · exact isShaped_group_iff.2 ⟨Or.inl rfl, List.forall_mem_singleton.2 hterm.regular,
        (isShaped_group_iff.1 hshaped).2.2⟩
    · exact absurd
        ((Option.some.inj hfamily).symm.trans (Family.ofSign_eq_sum_iff.2 hterm.additive)) hne
    · rw [issued_group, issued_group, List.flatMap_singleton, withPending, issued_mapTag rfl,
        issued_eq_nil_of_isNew he.new, List.append_nil]
      exact List.sublist_append_left _ _

end Node

/-- The edits whose operands are expressions. Edits without an operand are among them. -/
def Edit.HasExpression : Edit → Prop
  | .multiply text | .divide text | .replace _ text => IsExpression text
  | .swapSides | .normalize | .copy => True

/-- An operation that succeeded as an edit succeeded. -/
theorem Edit.of_ofTree {outcome : Except TreeError Unit × Equation} {after : Equation}
    (h : ofTree outcome = (.ok (), after)) : outcome = (.ok (), after) := by
  obtain ⟨result, equation⟩ := outcome
  cases result <;> cases h
  rfl

/-- And so did a replacement. -/
theorem Edit.of_ofInput {outcome : Except (List InputError) Unit × Equation} {after : Equation}
    (h : ofInput outcome = (.ok (), after)) : outcome = (.ok (), after) := by
  obtain ⟨result, equation⟩ := outcome
  cases result <;> cases h
  rfl

namespace Equation

variable {equation after : Equation} {text : Text} {selection : List NodeId} {edit : Edit}
  {first next : NodeId}

/-- Whether both sides hold terms. -/
def HoldsTerms (equation : Equation) : Prop :=
  equation.left.family? = some .sum ∧ equation.right.family? = some .sum

/-- The identities of the nodes of an equation. -/
def issued (equation : Equation) : List NodeId :=
  equation.left.issued ++ equation.right.issued

/-! ### One edit

Each of the edits leads from a settled equation to one that continues it. -/

/-- What an edit leads to, before the new nodes are numbered: the sides are settled, no node has an
identity that was not there before, and sides of terms are left with terms. -/
structure Continues (equation after : Equation) : Prop where
  /-- The limits are kept. -/
  limits : after.limits = equation.limits
  /-- So is the oracle. -/
  oracle : after.oracle = equation.oracle
  /-- Both sides are settled. -/
  sides : ∀ side ∈ [Equation.left, Equation.right],
    (side after).IsSettled equation.oracle.rationalize
  /-- No node has an identity that was not there before, and none has one twice that was there
  once. -/
  issued : after.issued.Subperm equation.issued
  /-- Sides of terms are left with terms. -/
  terms : equation.HoldsTerms → after.HoldsTerms

/-- A side of terms is left with terms. -/
theorem family?_of_remains {rationalize : Text → Except ValueError Text} {side side' : Node}
    (h : side.Remains side') (hside' : side'.IsSettled rationalize)
    (hsum : side.family? = some .sum) : side'.family? = some .sum := by
  obtain ⟨tag, first, rest, rfl⟩ := (isCanonical_iff.1 hside'.canonical).1.exists_group hside'.root
  have hfamily : (group tag (first :: rest)).family? = some (Family.ofSign first.sign) := rfl
  by_cases hfirst : Family.ofSign first.sign = .sum
  · rw [hfamily, hfirst]
  · have hbefore := h.rootFamily (h.root.symm.trans hside'.root) _ hfirst hfamily
    exact absurd (Option.some.inj (hbefore.symm.trans hsum)) hfirst

/-- Sides may be exchanged for what remains of them. This is how all edits but exchanging and
copying are seen to continue an equation. -/
theorem continues_of_remains (hlimits : after.limits = equation.limits)
    (horacle : after.oracle = equation.oracle)
    (h : ∀ side ∈ [Equation.left, Equation.right], (side equation).Remains (side after) ∧
      (side after).IsSettled equation.oracle.rationalize) : equation.Continues after := by
  obtain ⟨⟨hleft, hleftSettled⟩, hright⟩ := List.forall_mem_cons.1 h
  obtain ⟨hright, hrightSettled⟩ := List.forall_mem_singleton.1 hright
  exact ⟨hlimits, horacle, fun side hmem ↦ (h side hmem).2,
    (hleft.issued.append hright.issued).subperm,
    fun hterms ↦ ⟨family?_of_remains hleft hleftSettled hterms.1,
      family?_of_remains hright hrightSettled hterms.2⟩⟩

/-- Changing both sides: if it succeeds, then it has succeeded on each of them. -/
theorem of_onSides {f : Node → Inquiry (Except TreeError Unit × Node)}
    (h : (equation.onSides f).MayReturn (.ok (), after)) :
    after.limits = equation.limits ∧ after.oracle = equation.oracle ∧
      ∀ side ∈ [Equation.left, Equation.right],
        (f (side equation)).MayReturn (.ok (), side after) := by
  obtain ⟨⟨result, left⟩, hleft, h⟩ := Inquiry.mayReturn_bind_iff.1 h
  cases result with
  | error cause => cases Inquiry.mayReturn_pure_iff.1 h
  | ok _ =>
    obtain ⟨⟨result, right⟩, hright, h⟩ := Inquiry.mayReturn_bind_iff.1 h
    cases Inquiry.mayReturn_pure_iff.1 h
    exact ⟨rfl, rfl, List.forall_mem_cons.2 ⟨hleft, List.forall_mem_singleton.2 hright⟩⟩

/-- Multiplying and dividing both sides. -/
theorem IsSettled.continues_onSides {onTerm : Operand → Node → Inquiry Node}
    (hequation : equation.IsSettled) (hanswers : AnswersRegular equation.oracle.rationalize)
    (honTerm : LeavesTerms onTerm) (htext : IsExpression text)
    (h : (equation.onSides (transformSide onTerm equation.oracle.rationalize equation.limits
      text)).MayReturn (.ok (), after)) : equation.Continues after := by
  obtain ⟨hlimits, horacle, hsides⟩ := of_onSides h
  exact continues_of_remains hlimits horacle fun side hmem ↦
    remains_transformSide honTerm hanswers htext (hequation.sides side hmem) (hsides side hmem)

/-- Normalizing a settled equation, which has nothing to do. -/
theorem IsSettled.continues_normalize (hequation : equation.IsSettled)
    (h : equation.normalize = (.ok (), after)) : equation.Continues after := by
  obtain ⟨hlimits, horacle, hsides⟩ := of_normalize h
  refine continues_of_remains hlimits horacle fun side hmem ↦ ?_
  obtain ⟨passes, hside⟩ := hsides side hmem
  have hsettled := hequation.sides side hmem
  rw [hsettled.eq_of_normalize hside]
  exact ⟨.refl hsettled.shaped, hsettled⟩

/-- Exchanging the sides. The identities are the same in another order, which is why they are
compared up to a permutation. -/
theorem IsSettled.continues_swapSides (hequation : equation.IsSettled) :
    equation.Continues equation.swapSides where
  limits := rfl
  oracle := rfl
  sides := List.forall_mem_cons.2 ⟨hequation.sides Equation.right (by simp),
    List.forall_mem_singleton.2 (hequation.sides Equation.left (by simp))⟩
  issued := List.perm_append_comm.subperm
  terms := And.symm

/-- Copying an equation. The copy has no identities at all until it is numbered. -/
theorem IsSettled.continues_copy (hequation : equation.IsSettled) :
    equation.Continues equation.copy where
  limits := rfl
  oracle := rfl
  sides :=
    List.forall_mem_cons.2 ⟨isSettled_anonymous_iff.2 (hequation.sides Equation.left (by simp)),
      List.forall_mem_singleton.2
        (isSettled_anonymous_iff.2 (hequation.sides Equation.right (by simp)))⟩
  issued := by
    rw [Equation.issued, copy, issued_anonymous, issued_anonymous]
    exact List.nil_subperm
  terms h := ⟨(family?_anonymous _).trans h.1, (family?_anonymous _).trans h.2⟩

/-- A replacement is rejected and leaves the equation, or it is resolved, read and put in place,
whatever the answers to the questions of its admission. -/
theorem of_mayReturn_replace {result : Except (List InputError) Unit}
    (h : (equation.replace selection text).MayReturn (result, after)) :
    ((∃ errors, result = .error errors) ∧ after = equation) ∨
      ∃ nodes expression, equation.selectedNodes selection = .ok nodes ∧
        equation.readReplacement text = .ok expression ∧
          equation.putInPlace expression (nodes.filterMap Node.id?) = (result, after) := by
  obtain ⟨checked, -, h⟩ := Inquiry.mayReturn_bind_iff.1 h
  split at h
  · cases Inquiry.mayReturn_pure_iff.1 h
    exact .inl ⟨⟨_, rfl⟩, rfl⟩
  · split at h
    · cases Inquiry.mayReturn_pure_iff.1 h
      exact .inl ⟨⟨_, rfl⟩, rfl⟩
    · rename_i nodes hnodes
      split at h
      · cases Inquiry.mayReturn_pure_iff.1 h
        exact .inl ⟨⟨_, rfl⟩, rfl⟩
      · rename_i expression hread
        exact .inr ⟨nodes, expression, hnodes, hread, (Inquiry.mayReturn_pure_iff.1 h).symm⟩

/-- The tree that is put in place was read. -/
theorem exists_read_of_readReplacement {expression : Node}
    (h : equation.readReplacement text = .ok expression) :
    ∃ node, Node.read equation.limits text false = .ok node := by
  cases hnode : Node.read equation.limits text false with
  | error cause =>
    rw [readReplacement, hnode] at h
    cases h
  | ok node => exact ⟨node, rfl⟩

/-- Substituting changes the sides only. -/
theorem settings_of_substitute {f : Node → Node} {ids : List NodeId}
    (h : substitute f ids equation = (.ok (), after)) :
    after.limits = equation.limits ∧ after.oracle = equation.oracle := by
  induction ids generalizing equation with
  | nil =>
    cases h
    exact ⟨rfl, rfl⟩
  | cons id ids ih =>
    rw [substitute] at h
    split at h
    · rename_i changed hmodify
      obtain ⟨hlimits, horacle⟩ := ih h
      unfold modify? at hmodify
      split at hmodify
      · cases hmodify
        exact ⟨hlimits, horacle⟩
      · obtain ⟨right, -, rfl⟩ := Option.map_eq_some_iff.1 hmodify
        exact ⟨hlimits, horacle⟩
    · cases h

/-- A replacement that succeeds substitutes the first of the nodes, then the others, and then
normalizes. -/
theorem exists_substitute_of_putInPlace {expression : Node} {ids : List NodeId}
    (h : putInPlace expression ids equation = (.ok (), after)) :
    ∃ first rest filler taken filled, ids = first :: rest ∧
      substitute (takeOver expression) [first] equation = (.ok (), taken) ∧
        substitute (toFiller filler) rest taken = (.ok (), filled) ∧
          filled.normalize = (.ok (), after) := by
  cases ids with
  | nil => cases h
  | cons first rest =>
    unfold putInPlace at h
    dsimp only at h
    cases htaken : substitute (takeOver expression) [first] equation with
    | mk result taken =>
      rw [htaken] at h
      cases result with
      | error cause => cases h
      | ok _ =>
        dsimp only at h
        split at h
        · cases h
        · rename_i filled hfilled
          split at h
          · rename_i hnormalize
            cases h
            exact ⟨first, rest, _, taken, filled, rfl, htaken, hfilled, hnormalize⟩
          · cases h

/-- So does putting a replacement in place. -/
theorem settings_of_putInPlace {expression : Node} {ids : List NodeId}
    (h : putInPlace expression ids equation = (.ok (), after)) :
    after.limits = equation.limits ∧ after.oracle = equation.oracle := by
  obtain ⟨first, rest, filler, taken, filled, -, htaken, hfilled, hnormalize⟩ :=
    exists_substitute_of_putInPlace h
  obtain ⟨hlimits, horacle⟩ := settings_of_substitute htaken
  obtain ⟨hfilledLimits, hfilledOracle⟩ := settings_of_substitute hfilled
  obtain ⟨hafterLimits, hafterOracle, -⟩ := of_normalize hnormalize
  exact ⟨hafterLimits.trans (hfilledLimits.trans hlimits),
    hafterOracle.trans (hfilledOracle.trans horacle)⟩

section Place

variable {side other : Equation → Node} {frames : List Frame} {outer : Node → Equation}

/-- Normalizing a side that was changed at a place. The other side is as it was. -/
theorem IsPlace.continues (hplace : IsPlace side other frames outer equation)
    (hequation : equation.IsSettled) (hanswers : AnswersRegular equation.oracle.rationalize)
    (hlimits : after.limits = equation.limits) (horacle : after.oracle = equation.oracle)
    {side' : Node} {passes : Nat} (hremains : (side equation).Remains side')
    (hside : side'.normalize equation.oracle.rationalize equation.limits = (.ok passes, side after))
    (hother : other after = other equation) : equation.Continues after := by
  have hshaped := hremains.shaped
  have hnormalized := hremains.trans (remains_normalize hanswers hshaped hside)
  have hsettled := hequation.sides side hplace.isSide
  have hothers := hequation.sides other hplace.isOther
  refine continues_of_remains hlimits horacle fun either heither ↦ ?_
  rcases hplace.sides either heither with rfl | rfl
  · exact ⟨hnormalized, hnormalized.shaped, hnormalized.root.trans hsettled.root,
      isCanonical_of_settles (everyTagBelow_of_isShaped hshaped) hside⟩
  · rw [hother]
    exact ⟨.refl hothers.shaped, hothers⟩

end Place

/-- Replacing selected nodes. What was selected, an operand or a whole side, decides about the
place. -/
theorem IsSettled.continues_replace (hequation : equation.IsSettled)
    (hanswers : AnswersRegular equation.oracle.rationalize) (htext : IsExpression text)
    (h : (equation.replace selection text).MayReturn (.ok (), after)) :
    equation.Continues after := by
  rcases of_mayReturn_replace h with ⟨⟨errors, herror⟩, -⟩ |
    ⟨nodes, expression, hnodes, hread, hput⟩
  · cases herror
  obtain ⟨node, hnode⟩ := exists_read_of_readReplacement hread
  obtain ⟨passes, hnormalize⟩ := exists_normalize_of_readReplacement hnode hread
  have he := (isReplacement_of_read htext hnode).of_normalize hanswers hnormalize
  obtain ⟨hlimits, horacle⟩ := settings_of_putInPlace hput
  have hne : nodes ≠ [] := by
    rintro rfl
    cases hput
  obtain ⟨first, others, rfl, ⟨parent, hparent, rfl⟩ | ⟨hnone, node, hfind, rfl⟩⟩ :=
    of_selectedNodes hnodes
  · -- operands of one parent are selected, and what is left of the parent stands at its place
    obtain ⟨side, other, frames, outer, hplace, houter, hreached, hnodup, -⟩ :=
      hequation.exists_place_of_findParent? hparent
    obtain ⟨tag, before, node, rest, family, passes, rfl, hfamily, -, -, hside, hother⟩ :=
      exists_replaced hplace hequation houter hreached hnodup hne hput
    have hsettled := hplace.isSettled hequation houter
    have hshaped := (of_plug hsettled.shaped hsettled.canonical.marksInSums hsettled.canonical).1
    have hremains := (remains_replaced (first :: others) he hshaped hfamily).plug hsettled.shaped
    rw [← hplace.here, houter] at hremains
    exact hplace.continues hequation hanswers hlimits horacle hremains hside hother
  · -- a node without a parent is a whole side
    obtain ⟨side, other, outer, hplace, houter, rfl, hid, hreached⟩ :=
      hequation.exists_place_of_find? hnone hfind
    have hsettled := hequation.sides side hplace.isSide
    rw [List.filterMap_cons_some hid, List.filterMap_nil, ← houter, putInPlace_whole hreached hid,
      conclude_eq_ok_iff] at hput
    obtain ⟨⟨passes, hside⟩, hother⟩ := hplace.of_normalize hequation hput
    obtain ⟨tag, head, tail, hgroup⟩ :=
      (isCanonical_iff.1 hsettled.canonical).1.exists_group hsettled.root
    have hatom : (side equation).atomText? = none := by
      rw [hgroup]
      rfl
    exact hplace.continues hequation hanswers hlimits horacle
      (remains_takeOver_root he hsettled.shaped hsettled.root hatom) hside hother

/-- **What an edit leads to**, whatever the answers to the questions that it asks. There is one case
for each kind of edit. -/
theorem IsSettled.continues_apply (hequation : equation.IsSettled)
    (hanswers : AnswersRegular equation.oracle.rationalize) (hedit : edit.HasExpression)
    (h : (edit.apply equation).MayReturn (.ok (), after)) : equation.Continues after := by
  cases edit with
  | multiply factor =>
    obtain ⟨outcome, houtcome, h⟩ := Inquiry.mayReturn_bind_iff.1 h
    obtain rfl := Edit.of_ofTree (Inquiry.mayReturn_pure_iff.1 h).symm
    exact hequation.continues_onSides hanswers leavesTerms_multiplyTerm hedit houtcome
  | divide divisor =>
    obtain ⟨outcome, houtcome, h⟩ := Inquiry.mayReturn_bind_iff.1 h
    obtain rfl := Edit.of_ofTree (Inquiry.mayReturn_pure_iff.1 h).symm
    exact hequation.continues_onSides hanswers leavesTerms_divideTerm hedit houtcome
  | replace selection expression =>
    obtain ⟨outcome, houtcome, h⟩ := Inquiry.mayReturn_bind_iff.1 h
    obtain rfl := Edit.of_ofInput (Inquiry.mayReturn_pure_iff.1 h).symm
    exact hequation.continues_replace hanswers hedit houtcome
  | swapSides =>
    cases Inquiry.mayReturn_pure_iff.1 h
    exact hequation.continues_swapSides
  | normalize =>
    exact hequation.continues_normalize (Edit.of_ofTree (Inquiry.mayReturn_pure_iff.1 h).symm)
  | copy =>
    cases Inquiry.mayReturn_pure_iff.1 h
    exact hequation.continues_copy

/-! ### Between edits

What edits leave is numbered, and then the next edit may start. -/

/-- Identities stay apart if there are new ones at most from a range that was not issued before. -/
theorem nodup_of_subperm_range' {old new : List NodeId} {next count : NodeId}
    (h : new.Subperm (old ++ List.range' next count)) (hnodup : old.Nodup)
    (hlt : ∀ id ∈ old, id < next) :
    new.Nodup ∧ ∀ id ∈ new, id < next + count := by
  have hrange : ∀ id ∈ List.range' next count, next ≤ id ∧ id < next + count := fun id hid ↦
    List.mem_range'_1.1 hid
  have hall : (old ++ List.range' next count).Nodup :=
    List.nodup_append.2 ⟨hnodup, List.nodup_range', fun id hid new hnew ↦
      Nat.ne_of_lt (Nat.lt_of_lt_of_le (hlt id hid) (hrange new hnew).1)⟩
  refine ⟨?_, fun id hid ↦ ?_⟩
  · obtain ⟨kept, hperm, hsublist⟩ := h
    exact hperm.nodup_iff.1 (hall.sublist hsublist)
  · rcases List.mem_append.1 (h.subset hid) with hold | hnew
    · exact Nat.lt_of_lt_of_le (hlt id hold) (Nat.le_add_right _ _)
    · exact (hrange id hnew).2

/-- An equation between edits, with the next identity to issue. -/
structure IsTracked (next : NodeId) (equation : Equation) : Prop where
  /-- Both sides are settled, and no identity occurs twice. -/
  settled : equation.IsSettled
  /-- Each node has an identity. -/
  numbered : none ∉ equation.left.ids ++ equation.right.ids
  /-- All identities are below the next one. -/
  issued_lt : ∀ id ∈ equation.issued, id < next

/-- Numbering keeps the identities that there are, and adds the next ones. -/
theorem issued_number (next : NodeId) (equation : Equation) :
    ∃ count, (equation.number next).2 = next + count ∧
      (equation.number next).1.issued.Perm (equation.issued ++ List.range' next count) := by
  obtain ⟨-, -, hleft, hnext⟩ := Node.issued_number equation.left next
  obtain ⟨-, -, hright, hlast⟩ := Node.issued_number equation.right (equation.left.number next).2
  refine ⟨equation.left.ids.count none + equation.right.ids.count none, hlast.trans ?_, ?_⟩
  · rw [hnext, Nat.add_assoc]
  · rw [← List.range'_append_1, ← hnext]
    refine (hleft.append hright).trans ?_
    rw [Equation.issued, List.append_assoc, List.append_assoc]
    refine List.Perm.append_left _ ?_
    rw [← List.append_assoc, ← List.append_assoc]
    exact List.perm_append_comm.append_right _

/-- **Numbering a settled equation** that has no identity twice gives one as it is between edits. -/
theorem isTracked_number
    (hsides : ∀ side ∈ [Equation.left, Equation.right],
      (side equation).IsSettled equation.oracle.rationalize)
    (hnodup : equation.issued.Nodup) (hlt : ∀ id ∈ equation.issued, id < next) :
    (equation.number next).1.IsTracked (equation.number next).2 := by
  obtain ⟨hleft, hleftNumbered, -⟩ := Node.issued_number equation.left next
  obtain ⟨hright, hrightNumbered, -⟩ :=
    Node.issued_number equation.right (equation.left.number next).2
  obtain ⟨count, hcount, hissued⟩ := issued_number next equation
  obtain ⟨hnodup, hlt⟩ := nodup_of_subperm_range' hissued.subperm hnodup hlt
  refine ⟨⟨?_, ?_⟩, ?_, ?_⟩
  · -- whether a side is settled does not depend on its identities
    refine List.forall_mem_cons.2 ⟨?_, List.forall_mem_singleton.2 ?_⟩
    · refine isSettled_anonymous_iff.1 (hleft ▸ isSettled_anonymous_iff.2 ?_)
      exact hsides Equation.left (by simp)
    · refine isSettled_anonymous_iff.1 (hright ▸ isSettled_anonymous_iff.2 ?_)
      exact hsides Equation.right (by simp)
  · show ((equation.left.number next).1.ids ++
      (equation.right.number (equation.left.number next).2).1.ids).Nodup
    rw [ids_eq_map_issued hleftNumbered, ids_eq_map_issued hrightNumbered, ← List.map_append]
    exact List.Nodup.map (Option.some_injective _) hnodup
  · exact fun hnone ↦ (List.mem_append.1 hnone).elim hleftNumbered hrightNumbered
  · rw [hcount]
    exact hlt

/-- No identity occurs twice between edits. -/
theorem IsTracked.nodup_issued (h : equation.IsTracked next) : equation.issued.Nodup := by
  obtain ⟨hleft, hright⟩ := not_or.1 (List.mem_append.not.1 h.numbered)
  have hnodup := h.settled.nodup
  rw [ids_eq_map_issued hleft, ids_eq_map_issued hright, ← List.map_append] at hnodup
  exact hnodup.of_map

/-- Numbering changes no operands. -/
theorem holdsTerms_number_iff : (equation.number next).1.HoldsTerms ↔ equation.HoldsTerms := by
  refine and_congr ?_ ?_
  · exact Eq.congr_left (family?_number _ _)
  · exact Eq.congr_left (family?_number _ _)

/-- One successful edit: what it leads to is tracked by the next identity after it. The oracle is
kept, and so are terms. -/
theorem IsTracked.run (h : equation.IsTracked next)
    (hanswers : AnswersRegular equation.oracle.rationalize) (hedit : edit.HasExpression)
    {next' : NodeId} (hrun : (Edit.run next equation edit).MayReturn (.ok (), after, next')) :
    after.IsTracked next' ∧ after.oracle = equation.oracle ∧
      (equation.HoldsTerms → after.HoldsTerms) := by
  obtain ⟨⟨result, edited⟩, hedited, hrun⟩ := Inquiry.mayReturn_bind_iff.1 hrun
  cases Inquiry.mayReturn_pure_iff.1 hrun
  have hcontinues := h.settled.continues_apply hanswers hedit hedited
  obtain ⟨issued, hperm, hsublist⟩ := hcontinues.issued
  refine ⟨isTracked_number ?_ ?_ fun id hid ↦ h.issued_lt id (hcontinues.issued.subset hid),
    hcontinues.oracle, fun hterms ↦ holdsTerms_number_iff.2 (hcontinues.terms hterms)⟩
  · rw [hcontinues.oracle]
    exact hcontinues.sides
  · exact hperm.nodup_iff.1 (h.nodup_issued.sublist hsublist)

/-! ### Many edits

By induction on the run, with one edit as the step. -/

/-- The equations to which successful edits lead from one equation, each with the next identity to
issue. The questions that the edits ask may be answered in any way. -/
inductive Reaches (start : Equation) (first : NodeId) : Equation → NodeId → Prop where
  /-- An equation is reached from itself. -/
  | start : Reaches start first start first
  /-- One edit more, which succeeded for some answers. -/
  | edit {equation after : Equation} {next next' : NodeId} {edit : Edit}
    (h : Reaches start first equation next) (hedit : edit.HasExpression)
    (hrun : (Edit.run next equation edit).MayReturn (.ok (), after, next')) :
    Reaches start first after next'

/-- An edit may take the answers of an oracle. -/
theorem Reaches.edit_of_answeredBy {start : Equation} (h : start.Reaches first equation next)
    (hedit : edit.HasExpression) (oracle : Oracle)
    (hrun : ((Edit.run next equation edit).answeredBy oracle).1 = .ok ()) :
    start.Reaches first ((Edit.run next equation edit).answeredBy oracle).2.1
      ((Edit.run next equation edit).answeredBy oracle).2.2 := by
  refine .edit h hedit ?_
  rw [← hrun]
  exact Inquiry.mayReturn_answeredBy oracle _

/-- **What many edits lead to.** Every equation that is reached is tracked, has the oracle of the
first one, and holds terms on both sides if that does. -/
theorem Reaches.isTracked {start : Equation} (hstart : start.IsTracked first)
    (hanswers : AnswersRegular start.oracle.rationalize) (h : start.Reaches first equation next) :
    equation.IsTracked next ∧ equation.oracle = start.oracle ∧
      (start.HoldsTerms → equation.HoldsTerms) := by
  induction h with
  | start => exact ⟨hstart, rfl, id⟩
  | edit _ hedit hrun ih =>
    obtain ⟨htracked, horacle, hterms⟩ := ih
    obtain ⟨hafter, hafterOracle, hafterTerms⟩ := htracked.run (horacle ▸ hanswers) hedit hrun
    exact ⟨hafter, hafterOracle.trans horacle, hafterTerms ∘ hterms⟩

/-- The limits stay what they are. -/
theorem Reaches.limits_eq {start : Equation} (hstart : start.IsTracked first)
    (hanswers : AnswersRegular start.oracle.rationalize) (h : start.Reaches first equation next) :
    equation.limits = start.limits := by
  induction h with
  | start => rfl
  | edit hreaches hedit hrun ih =>
    obtain ⟨htracked, horacle, -⟩ := hreaches.isTracked hstart hanswers
    obtain ⟨⟨result, edited⟩, hedited, hrun⟩ := Inquiry.mayReturn_bind_iff.1 hrun
    cases Inquiry.mayReturn_pure_iff.1 hrun
    exact (htracked.settled.continues_apply (horacle ▸ hanswers) hedit hedited).limits.trans ih

end Equation

end EquationSteps
