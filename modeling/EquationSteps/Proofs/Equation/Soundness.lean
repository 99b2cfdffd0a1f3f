import EquationSteps.Equality.Memo
import EquationSteps.Proofs.Equation.Admission
import EquationSteps.Proofs.Equation.Side
import EquationSteps.Proofs.Equation.Substitution

/-!
# What a replacement keeps

A replacement that succeeded has the value of the selected nodes, so both sides should denote what
they did before. They do, with two exceptions.

* In a product or a quotient, an expression that is the leaf `0` is taken for one of the zeros that
  mark operands to be dropped. So the side that follows is the one of the equation without the
  selected nodes, if their parent has other children (`Equation.losesSelected`).
* A side of which the operands are factors, all of which come to one, is left with the term `0`
  (`Node.IsEmptied`).

`Equation.replace_keeps_value_iff` says for each side of an equation that was just built, and
whatever is selected, when the side keeps its value.

**How the theorem is put together:**

* an equation between edits is settled on both sides, and no identity occurs twice
  (`Equation.IsSettled`, `isSettled_number`);
* a selection is resolved to operands of one node or to a whole side, and either is at a place of
  the equation (`IsSettled.exists_place_of_findParent?`, `IsSettled.exists_place_of_find?`);
* the replacement exchanges nodes at that place and normalizes (`exists_replaced`), and what comes
  of the side follows the side (`follows_operands`, `follows_whole`);
* the other side is settled, so normalizing leaves it as it is (`IsPlace.of_normalize`).

**The counterpart.** Both exceptions are described, not excluded. The side after a replacement
follows the side of the *counterpart* of the equation, which is the equation itself, or the equation
without the selected nodes in the first exception. Following means having the same meaning, unless
the side was emptied, which is the second one. So the theorem is an equivalence for each side: the
value is kept if and only if that of the counterpart is the one that was there.

**The selection and the text are arbitrary**, and the oracle may answer from memory. That the
replacement succeeded is the assumption, and it includes that the exact oracle confirmed the value.
-/

namespace EquationSteps

open Node

variable {limits : Limits} {text : Text} {selection : List NodeId}

namespace Equation

/-! ### The equation that a replacement leads to

What would follow if dropping were all that a replacement did. -/

/-- The equation without the selected children of the first selected node's parent. The parent is
searched for on the left first, as everywhere. -/
def withoutSelected (selection : List NodeId) (equation : Equation) : Equation :=
  match selection with
  | [] => equation
  | first :: _ =>
    match equation.left.modifyParent? first (Node.withoutSelected selection) with
    | some left => { equation with left }
    | none =>
      match equation.right.modifyParent? first (Node.withoutSelected selection) with
      | some right => { equation with right }
      | none => equation

/-- Whether a replacement drops the selected nodes instead of replacing them. That depends on the
text only by what is read from it. -/
def losesSelected (selection : List NodeId) (text : Text) (equation : Equation) : Bool :=
  match equation.readReplacement text,
    selection.head?.bind fun first ↦ equation.findParent? first with
  | .ok expression, some parent => parent.losesSelected selection expression
  | _, _ => false

/-- The equation, without the selected nodes if a replacement drops them. -/
def counterpart (selection : List NodeId) (text : Text) (equation : Equation) : Equation :=
  if equation.losesSelected selection text then equation.withoutSelected selection else equation

variable {equation after : Equation} {oracle : Oracle} {expression : Node}

/-! ### Settled equations

What is built is settled, and numbering keeps it so. -/

/-- An equation as it is between edits: both sides are settled, and no identity occurs twice. -/
structure IsSettled (equation : Equation) : Prop where
  /-- Each side is settled. -/
  sides : ∀ side ∈ [Equation.left, Equation.right],
    (side equation).IsSettled equation.oracle.rationalize
  /-- No identity occurs twice, on one side or on both. -/
  nodup : (equation.left.ids ++ equation.right.ids).Nodup

/-- Normalizing an equation normalizes each side, and nothing else. -/
theorem of_normalize (h : equation.normalize = (.ok (), after)) :
    after.limits = equation.limits ∧ after.oracle = equation.oracle ∧
      ∀ side ∈ [Equation.left, Equation.right], ∃ passes,
        (side equation).normalize equation.oracle.rationalize equation.limits =
          (.ok passes, side after) := by
  have hnormalizeSide : ∀ {side side' : Node}, equation.normalizeSide side = (.ok (), side') →
      ∃ passes, side.normalize equation.oracle.rationalize equation.limits =
        (.ok passes, side') := by
    intro side side' h
    unfold normalizeSide at h
    cases hside : side.normalize equation.oracle.rationalize equation.limits with
    | mk result normalized =>
      rw [hside] at h
      cases result with
      | error cause => cases h
      | ok passes =>
        cases h
        exact ⟨passes, rfl⟩
  unfold normalize at h
  split at h
  · cases h
  · rename_i left hleft
    cases hright : equation.normalizeSide equation.right with
    | mk result right =>
      rw [hright] at h
      cases h
      exact ⟨rfl, rfl, List.forall_mem_cons.2 ⟨hnormalizeSide hleft,
        List.forall_mem_singleton.2 (hnormalizeSide hright)⟩⟩

/-- The sides of an equation that is built are read and normalized, each as a root and under the
same limits. -/
theorem exists_of_ofSides {limits : Limits} {oracle : Oracle} {left right : Text}
    (h : ofSides limits oracle left right = .ok equation) :
    equation.limits = limits ∧ equation.oracle = oracle ∧
      (∃ read passes, Node.read limits left true = .ok read ∧
        read.normalize oracle.rationalize limits = (.ok passes, equation.left)) ∧
      ∃ read passes, Node.read limits right true = .ok read ∧
        read.normalize oracle.rationalize limits = (.ok passes, equation.right) := by
  obtain ⟨leftRead, hleftRead, h⟩ := Except.ok_of_bind_eq_ok h
  obtain ⟨rightRead, hrightRead, h⟩ := Except.ok_of_bind_eq_ok h
  split at h
  · rename_i hnormalize
    cases h
    obtain ⟨hlimits, horacle, hsides⟩ := of_normalize hnormalize
    obtain ⟨⟨passes, hleft⟩, hright⟩ := List.forall_mem_cons.1 hsides
    obtain ⟨passes', hright⟩ := List.forall_mem_singleton.1 hright
    exact ⟨hlimits, horacle, ⟨leftRead, passes, hleftRead, hleft⟩,
      rightRead, passes', hrightRead, hright⟩
  · cases h

/-- The sides of an equation that is built from expressions are sides as normalization leaves
them. -/
theorem of_ofSides {limits : Limits} {oracle : Oracle} {left right : Text}
    (hleft : IsExpression left) (hright : IsExpression right)
    (horacle : oracle.rationalize = Oracle.exactFraction)
    (h : ofSides limits oracle left right = .ok equation) :
    equation.limits = limits ∧ equation.oracle = oracle ∧
      ∀ side ∈ [Equation.left, Equation.right], (side equation).IsSide Oracle.exactFraction := by
  obtain ⟨hlimits, hsame, ⟨leftRead, passes, hleftRead, hleftSide⟩,
    rightRead, passes', hrightRead, hrightSide⟩ := exists_of_ofSides h
  rw [horacle] at hleftSide hrightSide
  obtain ⟨hshaped, hroot, hnew⟩ := of_read_root hleft hleftRead
  obtain ⟨hshaped', hroot', hnew'⟩ := of_read_root hright hrightRead
  exact ⟨hlimits, hsame, List.forall_mem_cons.2
    ⟨isSide_of_normalize isFaithful_exactFraction hshaped hroot hnew hleftSide,
      List.forall_mem_singleton.2
        (isSide_of_normalize isFaithful_exactFraction hshaped' hroot' hnew' hrightSide)⟩⟩

/-- `Equation.of_ofSides` under the standard limits and with the exact oracle. -/
theorem of_new {left right : Text} (hleft : IsExpression left) (hright : IsExpression right)
    (h : Equation.new left right = .ok equation) :
    equation.limits = .standard ∧ equation.oracle = .exact .standard ∧
      equation.left.IsSide Oracle.exactFraction ∧ equation.right.IsSide Oracle.exactFraction := by
  obtain ⟨hlimits, horacle, hsides⟩ := of_ofSides hleft hright rfl h
  exact ⟨hlimits, horacle, hsides Equation.left (by simp), hsides Equation.right (by simp)⟩

/-- An equation whose nodes have no identities is settled once they are numbered. -/
theorem isSettled_number (hleft : equation.left.IsSide equation.oracle.rationalize)
    (hright : equation.right.IsSide equation.oracle.rationalize) (next : NodeId) :
    (equation.number next).1.IsSettled := by
  have hnone : ∀ {side : Node}, side.everyTag Tag.isNew = true →
      side.everyTag (fun tag ↦ tag.id.isNone) = true := fun hnew ↦
    everyTag_mono (fun tag htag ↦ (Bool.and_eq_true_iff.1 htag).1) hnew
  obtain ⟨hanonymous, hids, hnext⟩ := number_spec equation.left next (hnone hleft.new)
  rw [number]
  cases hnumber : equation.left.number next with
  | mk left next' =>
    rw [hnumber] at hanonymous hids hnext
    dsimp only at hanonymous hids hnext ⊢
    obtain ⟨hanonymous', hids', -⟩ := number_spec equation.right next' (hnone hright.new)
    refine ⟨List.forall_mem_cons.2 ⟨?_, List.forall_mem_singleton.2 ?_⟩, ?_⟩
    · refine IsSide.isSettled ?_
      rw [hanonymous]
      exact hleft
    · refine IsSide.isSettled ?_
      rw [hanonymous']
      exact hright
    · dsimp only
      rw [hids, hids', hnext, ← List.map_append, List.range'_append_1]
      exact List.Nodup.map (Option.some_injective _) List.nodup_range'

/-! ### One side

The side with the selected nodes and the other one. Everything is stated for a place on either of
them. -/

end Equation

/-- A side after an operation follows a side if it means the same, unless it was emptied. An emptied
side is the term `0`, and the side it comes from held factors that all came to one. -/
def Node.Follows (base side : Node) : Prop :=
  side.meaning = base.meaning ∨ base.IsEmptied side

namespace Equation

variable {equation after : Equation} {oracle : Oracle} {expression : Node}

/-- What is selected of the operands of a group is compared as a chain. -/
theorem selectionText_of_isRegular {nodes : List Node} (h : ∀ node ∈ nodes, node.isRegular = true) :
    selectionText nodes = linksText true nodes := by
  match nodes with
  | [] => rfl
  | [node] =>
    have hroot := isRoot_of_isRegular (h node List.mem_cons_self)
    rw [selectionText, hroot]
    rfl
  | _ :: _ :: _ => rfl

/-- The replacement has the meaning of the selected operands of a group. Their text is that of a
chain, or of a single operand with its sign. -/
theorem meaning_of_selectionText {nodes : List Node} {node : Node}
    {children : List Node} {tag : Tag} (hshaped : (group tag children).isShaped = true)
    (hcanonical : (group tag children).IsCanonical equation.oracle.rationalize)
    (hnodes : nodes ≠ []) (hmem : ∀ node ∈ nodes, node ∈ children)
    (hread : Node.read limits (selectionText nodes) false = .ok node) :
    node.meaning = groupMeaning nodes := by
  have hregular := fun node h ↦ isRegular_of_isShaped_group hshaped node (hmem node h)
  have hcompact : ∀ node ∈ nodes, node.isCompact = true := fun node h ↦
    ((isCanonical_iff.1 hcanonical).2 node (hmem node h)).isCompact (hregular node h)
  have hchain : isChain nodes = true := by
    obtain ⟨first, hfirst⟩ := List.exists_mem_of_ne_nil _ hnodes
    obtain ⟨-, family, hfamily⟩ :=
      isChain_iff.1 (isChain_of_isShaped hshaped (List.ne_nil_of_mem (hmem first hfirst)))
    exact isChain_of_family hnodes fun node h ↦ hfamily node (hmem node h)
  rw [selectionText_of_isRegular hregular] at hread
  exact meaning_of_read_linksText hchain hregular hcompact hread

/-- A whole side that is compared is read with its meaning. -/
theorem meaning_of_selectionText_whole {rationalize : Text → Except ValueError Text}
    {side node : Node} (h : side.IsSettled rationalize)
    (hread : Node.read limits (selectionText [side]) false = .ok node) :
    node.meaning = side.meaning := by
  obtain ⟨tag, first, rest, rfl⟩ := (isCanonical_iff.1 h.canonical).1.exists_group h.root
  have hregular := isRegular_of_isShaped_group h.shaped
  have hcompact : ∀ child ∈ first :: rest, child.isCompact = true := fun child hmem ↦
    ((isCanonical_iff.1 h.canonical).2 child hmem).isCompact (hregular child hmem)
  have hchain := isChain_of_isShaped h.shaped (List.cons_ne_nil first rest)
  have hsign : tag.sign = .plus := (isShaped_group_iff.1 h.shaped).2.2 h.root
  rw [selectionText, if_pos h.root, toText_of_root h.shaped h.root] at hread
  rw [meaning_of_read_linksText hchain hregular hcompact hread, meaning,
    contentMeaning_group, Node.sign, tag_group, hsign, Meaning.signed_plus]

/-- The place of a node on one side of an equation, with the other side as it is. -/
structure IsPlace (side other : Equation → Node) (frames : List Frame) (outer : Node → Equation)
    (equation : Equation) : Prop where
  /-- There are no other sides than the two. -/
  sides : ∀ either ∈ [Equation.left, Equation.right], either = side ∨ either = other
  /-- The side that the place is on is one of them, -/
  isSide : side ∈ [Equation.left, Equation.right]
  /-- and so is the other one. -/
  isOther : other ∈ [Equation.left, Equation.right]
  /-- At the place a node is put into the side. -/
  here : ∀ node, side (outer node) = plug frames node
  /-- The other side does not depend on the node. -/
  rest : ∀ node, other (outer node) = other equation
  /-- Neither do the limits, -/
  limits : ∀ node, (outer node).limits = equation.limits
  /-- nor the oracle. -/
  oracle : ∀ node, (outer node).oracle = equation.oracle

section Sides

variable {side other : Equation → Node} {outer : Node → Equation}
  {frames : List Frame} {id : NodeId}

/-- A place on the left, with the right side as it is. -/
theorem isPlace_left : IsPlace Equation.left Equation.right frames
    (fun node ↦ { equation with left := plug frames node }) equation :=
  ⟨by simp, by simp, by simp, fun _ ↦ rfl, fun _ ↦ rfl, fun _ ↦ rfl, fun _ ↦ rfl⟩

/-- A place on the right, with the left side as it is. -/
theorem isPlace_right : IsPlace Equation.right Equation.left frames
    (fun node ↦ { equation with right := plug frames node }) equation :=
  ⟨by simp, by simp, by simp, fun _ ↦ rfl, fun _ ↦ rfl, fun _ ↦ rfl, fun _ ↦ rfl⟩

/-- The parent of a selected node is at a place, and it is the one that loses the selected nodes. -/
theorem IsSettled.exists_place_of_findParent? (hequation : equation.IsSettled) {first : NodeId}
    {parent : Node} (h : equation.findParent? first = some parent) :
    ∃ side other frames outer, IsPlace side other frames outer equation ∧ outer parent = equation ∧
      (∀ id, some id ∈ parent.ids → IsReached id outer) ∧ parent.ids.Nodup ∧
        ∀ rest, equation.withoutSelected (first :: rest) =
          outer (parent.withoutSelected (first :: rest)) := by
  cases hleft : equation.left.findParent? first with
  | some found =>
    rw [findParent?, hleft] at h
    obtain rfl : found = parent := Option.some.inj h
    obtain ⟨frames, hplug, -, hmodify⟩ := exists_plug_of_findParent? hleft
    obtain ⟨hnodup, hreached⟩ := reached_left hequation.nodup hplug
    refine ⟨_, _, frames, _, isPlace_left, ?_, hreached, hnodup, fun rest ↦ ?_⟩
    · rw [← hplug]
    · rw [withoutSelected, hmodify]
  | none =>
    rw [findParent?, hleft, Option.none_or] at h
    obtain ⟨frames, hplug, -, hmodify⟩ := exists_plug_of_findParent? h
    obtain ⟨hnodup, hreached⟩ := reached_right hequation.nodup hplug
    refine ⟨_, _, frames, _, isPlace_right, ?_, hreached, hnodup, fun rest ↦ ?_⟩
    · rw [← hplug]
    · rw [withoutSelected, modifyParent?_eq_none hleft]
      dsimp only
      rw [hmodify]

/-- A selected node without a parent is a whole side. -/
theorem IsSettled.exists_place_of_find? (hequation : equation.IsSettled) {first : NodeId}
    {node : Node} (hnone : equation.findParent? first = none)
    (h : equation.find? first = some node) :
    ∃ side other outer, IsPlace side other [] outer equation ∧ outer (side equation) = equation ∧
      node = side equation ∧ node.id? = some first ∧ IsReached first outer := by
  rw [findParent?, Option.or_eq_none_iff] at hnone
  cases hleft : equation.left.find? first with
  | some found =>
    rw [find?, hleft] at h
    obtain rfl : found = node := Option.some.inj h
    obtain rfl := eq_of_find? hnone.1 hleft
    have hid := id?_of_find? hleft
    obtain ⟨-, hreached⟩ := reached_left hequation.nodup (plug_nil equation.left).symm
    exact ⟨_, _, _, isPlace_left, rfl, rfl, hid, hreached first (mem_ids_of_id? hid)⟩
  | none =>
    rw [find?, hleft, Option.none_or] at h
    obtain rfl := eq_of_find? hnone.2 h
    have hid := id?_of_find? h
    obtain ⟨-, hreached⟩ := reached_right hequation.nodup (plug_nil equation.right).symm
    exact ⟨_, _, _, isPlace_right, rfl, rfl, hid, hreached first (mem_ids_of_id? hid)⟩

/-- Normalizing an equation that was changed at a place. -/
theorem IsPlace.of_normalize (hplace : IsPlace side other frames outer equation)
    (hequation : equation.IsSettled) {node : Node} (h : (outer node).normalize = (.ok (), after)) :
    (∃ passes, (plug frames node).normalize equation.oracle.rationalize equation.limits =
      (.ok passes, side after)) ∧ other after = other equation := by
  obtain ⟨-, -, hsides⟩ := Equation.of_normalize h
  obtain ⟨passes, hside⟩ := hsides side hplace.isSide
  obtain ⟨passes', hother⟩ := hsides other hplace.isOther
  rw [hplace.here, hplace.limits, hplace.oracle] at hside
  rw [hplace.rest, hplace.limits, hplace.oracle] at hother
  exact ⟨⟨passes, hside⟩, (hequation.sides other hplace.isOther).eq_of_normalize hother⟩

/-- What is at a place of a settled equation is so within a settled side. -/
theorem IsPlace.isSettled (hplace : IsPlace side other frames outer equation)
    (hequation : equation.IsSettled) {node : Node} (hnode : outer node = equation) :
    (plug frames node).IsSettled equation.oracle.rationalize := by
  rw [← hplace.here, hnode]
  exact hequation.sides side hplace.isSide

/-- **Replacing children of one node** normalizes the side with the children replaced. The other
side is normalized as well, but there it has nothing to do. -/
theorem exists_replaced (hplace : IsPlace side other frames outer equation)
    (hequation : equation.IsSettled) {parent : Node} (hparent : outer parent = equation)
    (hreached : ∀ id, some id ∈ parent.ids → IsReached id outer) (hnodup : parent.ids.Nodup)
    (hne : parent.children.filter (isSelected selection) ≠ [])
    (h : putInPlace expression ((parent.children.filter (isSelected selection)).filterMap Node.id?)
      equation = (.ok (), after)) :
    ∃ tag before node rest family passes, parent = group tag (before ++ node :: rest) ∧
      parent.family? = some family ∧ (∀ other ∈ before, other.isSelected selection = false) ∧
        node.isSelected selection = true ∧
          (plug frames (group tag
            (replaced selection family.defaultSign expression before node rest))).normalize
              equation.oracle.rationalize equation.limits = (.ok passes, side after) ∧
            other after = other equation := by
  obtain ⟨tag, before, node, rest, family, hgroup, hfamily, hbefore, hnode, hput⟩ :=
    exists_putInPlace_operands hreached hnodup hne expression
  rw [hparent, h] at hput
  obtain ⟨⟨passes, hside⟩, hother⟩ := hplace.of_normalize hequation (conclude_eq_ok_iff.1 hput.symm)
  exact ⟨tag, before, node, rest, family, passes, hgroup, hfamily, hbefore, hnode, hside, hother⟩

/-- A side follows the one before once children of one node are replaced. -/
theorem follows_operands (hplace : IsPlace side other frames outer equation)
    (hequation : equation.IsSettled) (hfaithful : IsFaithful equation.oracle.rationalize)
    {parent : Node} (hparent : outer parent = equation)
    (hreached : ∀ id, some id ∈ parent.ids → IsReached id outer) (hnodup : parent.ids.Nodup)
    (he : expression.IsReplacement)
    (hne : parent.children.filter (isSelected selection) ≠ [])
    (hmeaning : expression.meaning = groupMeaning (parent.children.filter (isSelected selection)))
    (h : putInPlace expression ((parent.children.filter (isSelected selection)).filterMap Node.id?)
      equation = (.ok (), after)) :
    (plug frames (if parent.losesSelected selection expression then parent.withoutSelected selection
      else parent)).Follows (side after) ∧ other after = other equation := by
  obtain ⟨tag, before, node, rest, family, passes, rfl, hfamily, hbefore, hnode, hside, hother⟩ :=
    exists_replaced hplace hequation hparent hreached hnodup hne h
  refine ⟨?_, hother⟩
  exact (keeps_normalize_replaced hfaithful (hplace.isSettled hequation hparent) he
    hfamily hbefore hnode
    hmeaning hside).imp_left Keeps.meaning

/-- **Replacing a whole side** by an expression of the same meaning. Nothing is lost here, because
there are no operands that would be dropped. -/
theorem follows_whole (hplace : IsPlace side other [] outer equation)
    (hequation : equation.IsSettled) (hfaithful : IsFaithful equation.oracle.rationalize)
    (hside : outer (side equation) = equation) (hid : (side equation).id? = some id)
    (hreached : IsReached id outer) (he : expression.IsReplacement)
    (hmeaning : expression.meaning = (side equation).meaning)
    (h : putInPlace expression [id] equation = (.ok (), after)) :
    (side equation).Follows (side after) ∧ other after = other equation := by
  rw [← hside, putInPlace_whole hreached hid, conclude_eq_ok_iff] at h
  obtain ⟨⟨passes, hresult⟩, hother⟩ := hplace.of_normalize hequation h
  refine ⟨Or.inl ?_, hother⟩
  rw [← hmeaning]
  exact meaning_normalize_whole hfaithful (hequation.sides side hplace.isSide) he hresult

/-- What the replacement of children of one node leads to. -/
theorem counterpart_of_parent {first : NodeId} {rest : List NodeId} {parent : Node}
    (hread : equation.readReplacement text = .ok expression)
    (hparent : equation.findParent? first = some parent) :
    equation.counterpart (first :: rest) text =
      if parent.losesSelected (first :: rest) expression then
        equation.withoutSelected (first :: rest)
      else equation := by
  rw [counterpart, losesSelected, hread, List.head?_cons, Option.bind_some, hparent]

/-- A whole side is never lost. -/
theorem counterpart_of_whole {first : NodeId} {rest : List NodeId}
    (hparent : equation.findParent? first = none) :
    equation.counterpart (first :: rest) text = equation := by
  rw [counterpart, losesSelected, List.head?_cons, Option.bind_some, hparent]
  cases equation.readReplacement text <;> rfl

end Sides

/-- **What a replacement leads to.** Each side follows the one of the equation, without the selected
nodes if they are dropped. The oracle is the exact one under the limits of the equation. -/
theorem IsSettled.follows_replace (hequation : equation.IsSettled)
    (hexact : equation.oracle = .exact equation.limits) (htext : IsExpression text)
    (h : (equation.replace selection text).answeredBy equation.oracle = (.ok (), after)) :
    ∀ either ∈ [Equation.left, Equation.right],
      (either (equation.counterpart selection text)).Follows (either after) := by
  obtain ⟨nodes, expression, hnodes, hne, hequal, hreplacement, hput⟩ := of_replace h
  rw [hexact] at hequal
  have hfaithful : IsFaithful equation.oracle.rationalize := by
    rw [hexact]
    exact isFaithful_exactFraction
  obtain ⟨selected, read, hselected, hread, hsame⟩ := Oracle.of_exactlyEqual hequal
  obtain ⟨he, hvalue⟩ := isReplacement_of_readReplacement hfaithful htext hread hreplacement
  obtain ⟨first, rest, rfl, ⟨parent, hparent, rfl⟩ | ⟨hnone, node, hfind, rfl⟩⟩ :=
    of_selectedNodes hnodes
  -- some children of one node: the expression means their group
  · obtain ⟨side, other, frames, outer, hplace, houter, hreached, hnodup, hwithout⟩ :=
      hequation.exists_place_of_findParent? hparent
    have hmeaning : expression.meaning =
        groupMeaning (parent.children.filter (isSelected (first :: rest))) := by
      have hside := hequation.sides side hplace.isSide
      rw [← houter, hplace.here, houter] at hside
      obtain ⟨hshaped, -, hcanonical⟩ :=
        of_plug hside.shaped hside.canonical.marksInSums hside.canonical
      cases parent with
      | atom tag text => exact absurd rfl hne
      | group tag children =>
        rw [hvalue, ← hsame]
        exact meaning_of_selectionText hshaped hcanonical hne
          (fun node hmem ↦ List.mem_of_mem_filter hmem) hselected
    have hcounterpart : equation.counterpart (first :: rest) text =
        outer (if parent.losesSelected (first :: rest) expression then
          parent.withoutSelected (first :: rest) else parent) := by
      rw [counterpart_of_parent hreplacement hparent, hwithout]
      split
      · rfl
      · exact houter.symm
    obtain ⟨hside, hother⟩ :=
      follows_operands hplace hequation hfaithful houter hreached hnodup he hne hmeaning hput
    intro either heither
    rw [hcounterpart]
    rcases hplace.sides either heither with rfl | rfl
    · rw [hplace.here]
      exact hside
    · rw [hplace.rest, ← hother]
      exact Or.inl rfl
  -- a whole side: the expression means the side
  · obtain ⟨side, other, outer, hplace, houter, rfl, hid, hreached⟩ :=
      hequation.exists_place_of_find? hnone hfind
    have hmeaning : expression.meaning = (side equation).meaning := by
      rw [hvalue, ← hsame]
      exact meaning_of_selectionText_whole (hequation.sides side hplace.isSide) hselected
    rw [List.filterMap_cons_some hid, List.filterMap_nil] at hput
    obtain ⟨hside, hother⟩ :=
      follows_whole hplace hequation hfaithful houter hid hreached he hmeaning hput
    intro either heither
    rw [counterpart_of_whole hnone]
    rcases hplace.sides either heither with rfl | rfl
    · exact hside
    · rw [← hother]
      exact Or.inl rfl

/-! ### Values

From meanings back to values: a side had a value, so its meaning is defined, and equal meanings are
equal values. -/

end Equation

/-- The root with the term `0` means zero. -/
theorem Node.IsZeroRoot.meaning {side : Node} (h : side.IsZeroRoot) : side.meaning = 0 := by
  cases side with
  | atom tag text => cases h.content
  | group tag children =>
    cases h.content
    rw [Node.meaning, contentMeaning_group, groupMeaning_singleton, Node.meaning,
      contentMeaning_of_isZeroAtom rfl, Meaning.signed_zero, Meaning.signed_zero]

/-- When a side that follows another one has a given value. An emptied side has the value zero, and
any other has the value of the side that it follows. -/
theorem Node.Follows.value_iff {base side before : Node} {f : RationalFunction}
    (h : base.Follows side) (hvalue : before.value = .ok f) :
    (∃ g, side.value = .ok g ∧ g.equals f = true) ↔
      base.IsEmptied side ∧ f.isZero = true ∨
        ¬base.IsEmptied side ∧ ∃ g, base.value = .ok g ∧ g.equals f = true := by
  rw [← meaning_eq_iff hvalue, ← meaning_eq_iff hvalue]
  by_cases hemptied : base.IsEmptied side
  · have hzero : side.meaning = before.meaning ↔ f.isZero = true := by
      rw [hemptied.zero.meaning, ← ofValue_value before, hvalue, Meaning.ofValue_ok,
        RationalFunction.isZero_iff (isProper_of_value hvalue), ← Meaning.of_zero]
      exact ⟨fun h ↦ (Meaning.of_injective h).symm, fun h ↦ congrArg Meaning.of h.symm⟩
    simp [hemptied, hzero]
  · have hsame : side.meaning = base.meaning := h.resolve_right hemptied
    simp [hemptied, hsame]

namespace Equation

/-- **When a replacement keeps the value of a side.** The equation was built from two expressions,
with the exact oracle, which may answer from memory; the replacement is an expression, and it
succeeded. A side that had a value has the same function as its value, if and only if the side of
the equation has, without the selected nodes if the replacement drops them. A side of factors that
is emptied is zero instead. -/
theorem replace_keeps_value_iff {left right : Text} {built equation after : Equation}
    {next : NodeId} (hleft : IsExpression left) (hright : IsExpression right)
    (htext : IsExpression text) (hbuilt : Equation.new left right = .ok built)
    (hnumber : (built.number next).1 = equation)
    (h : (equation.replace selection text).answeredBy equation.oracle = (.ok (), after) ∨
      ∃ memo : Memo, memo.Agrees equation.oracle ∧
        ((equation.replace selection text).remembering equation.oracle memo).1 = (.ok (), after)) :
    ∀ side ∈ [Equation.left, Equation.right], ∀ f, (side equation).value = .ok f →
      ((∃ g, (side after).value = .ok g ∧ g.equals f = true) ↔
        (side (equation.counterpart selection text)).IsEmptied (side after) ∧ f.isZero = true ∨
          ¬(side (equation.counterpart selection text)).IsEmptied (side after) ∧
            ∃ g, (side (equation.counterpart selection text)).value = .ok g ∧
              g.equals f = true) := by
  obtain ⟨hlimits, horacle, hleftSide, hrightSide⟩ := of_new hleft hright hbuilt
  have hanswered : (equation.replace selection text).answeredBy equation.oracle =
      (.ok (), after) := by
    rcases h with h | ⟨memo, hagrees, h⟩
    · exact h
    · rw [← Inquiry.remembering_fst _ hagrees]
      exact h
  have hrationalize : built.oracle.rationalize = Oracle.exactFraction := by
    rw [horacle]
    rfl
  have hsettled : equation.IsSettled := by
    rw [← hnumber]
    refine isSettled_number ?_ ?_ next
    · rw [hrationalize]
      exact hleftSide
    · rw [hrationalize]
      exact hrightSide
  have hexact : equation.oracle = .exact equation.limits := by
    rw [← hnumber]
    show built.oracle = .exact built.limits
    rw [horacle, hlimits]
  intro side hside f hvalue
  exact (hsettled.follows_replace hexact htext hanswered side hside).value_iff hvalue

/-- Both terms of `x+x=1` may be replaced by `2*x`. -/
theorem replace_keeps_value_iff_terms : ∃ built after,
    Equation.new "x+x".toList "1".toList = .ok built ∧
      ((built.number 0).1.replace [1, 2] "2*x".toList).answeredBy (built.number 0).1.oracle =
        (.ok (), after) ∧ after.toText = "2*x=1".toList ∧
          ∀ side ∈ [Equation.left, Equation.right], ∀ f, (side (built.number 0).1).value = .ok f →
            ∃ g, (side after).value = .ok g ∧ g.equals f = true := by
  have hfacts : ((Equation.new "x+x".toList "1".toList).toOption.map fun built ↦
      let outcome := ((built.number 0).1.replace [1, 2] "2*x".toList).answeredBy
        (built.number 0).1.oracle
      decide (outcome.1 = .ok () ∧ outcome.2.toText = "2*x=1".toList ∧
        (built.number 0).1.losesSelected [1, 2] "2*x".toList = false ∧
          (built.number 0).1.left.family? = some .sum ∧
            (built.number 0).1.right.family? = some .sum)) = some true := by
    decide +kernel
  cases hbuilt : Equation.new "x+x".toList "1".toList with
  | error cause =>
    rw [hbuilt] at hfacts
    cases hfacts
  | ok built =>
    rw [hbuilt] at hfacts
    have hfacts := of_decide_eq_true (Option.some.inj hfacts)
    cases hreplace : ((built.number 0).1.replace [1, 2] "2*x".toList).answeredBy
      (built.number 0).1.oracle with
    | mk result after =>
      rw [hreplace] at hfacts
      obtain ⟨rfl, htext, hloses, hleft, hright⟩ := hfacts
      have hterms : ∀ side ∈ [Equation.left, Equation.right],
          (side (built.number 0).1).family? = some .sum :=
        List.forall_mem_cons.2 ⟨hleft, List.forall_mem_singleton.2 hright⟩
      refine ⟨built, after, rfl, hreplace, htext, fun side hside f hvalue ↦ ?_⟩
      have hiff := replace_keeps_value_iff (isExpression_of_eq rfl (by decide))
        (isExpression_of_eq rfl (by decide)) (isExpression_of_eq rfl (by decide)) hbuilt rfl
        (Or.inl hreplace) side hside f hvalue
      have hsame : (built.number 0).1.counterpart [1, 2] "2*x".toList = (built.number 0).1 := by
        rw [counterpart, hloses, if_neg Bool.false_ne_true]
      rw [hsame] at hiff
      refine hiff.2 (Or.inr ⟨fun hemptied ↦ ?_, f, hvalue, ?_⟩)
      · cases (hterms side hside).symm.trans hemptied.family
      · exact (RationalFunction.equals_iff (isProper_of_value hvalue)
          (isProper_of_value hvalue)).2 rfl

/-- Replacing the factor `0` of `0*x=1` by `0` drops it, and leaves `x=1`. -/
theorem not_equals_droppedZero : IsExpression "0*x".toList ∧ IsExpression "1".toList ∧
    IsExpression "0".toList ∧ ∃ built after f, Equation.new "0*x".toList "1".toList = .ok built ∧
      ((built.number 0).1.replace [2] "0".toList).answeredBy (built.number 0).1.oracle =
        (.ok (), after) ∧ (built.number 0).1.left.value = .ok f ∧
          ¬∃ g, after.left.value = .ok g ∧ g.equals f = true := by
  refine ⟨isExpression_of_eq rfl (by decide), isExpression_of_eq rfl (by decide),
    isExpression_of_eq rfl (by decide), ?_⟩
  have hfacts : ((Equation.new "0*x".toList "1".toList).toOption.map fun built ↦
      let outcome :=
        ((built.number 0).1.replace [2] "0".toList).answeredBy (built.number 0).1.oracle
      decide (outcome.1 = .ok () ∧ (do
        let f ← (built.number 0).1.left.value
        let g ← outcome.2.left.value
        return g.equals f) = .ok false)) = some true := by
    decide +kernel
  cases hbuilt : Equation.new "0*x".toList "1".toList with
  | error cause =>
    rw [hbuilt] at hfacts
    cases hfacts
  | ok built =>
    rw [hbuilt] at hfacts
    have hfacts := of_decide_eq_true (Option.some.inj hfacts)
    cases hreplace : ((built.number 0).1.replace [2] "0".toList).answeredBy
      (built.number 0).1.oracle with
    | mk result after =>
      rw [hreplace] at hfacts
      obtain ⟨rfl, hvalues⟩ := hfacts
      obtain ⟨f, hf, hvalues⟩ := Except.ok_of_bind_eq_ok hvalues
      obtain ⟨g, hg, hdiffer⟩ := Except.ok_of_bind_eq_ok hvalues
      refine ⟨built, after, f, rfl, hreplace, hf, ?_⟩
      rintro ⟨g', hg', hequals⟩
      obtain rfl : g = g' := Except.ok.inj (hg.symm.trans hg')
      cases hequals.symm.trans (Except.ok.inj hdiffer)

end Equation

end EquationSteps
