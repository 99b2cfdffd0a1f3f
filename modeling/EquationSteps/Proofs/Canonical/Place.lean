import EquationSteps.Proofs.Canonical.Form
import EquationSteps.Proofs.Tree.Place

/-!
# Normalization at a place

What can stand in the place of a node can do so within a tree (`Node.Keeps.plug`). A pass over a
tree that was canonical before one of its nodes was changed does nothing above that node
(`Node.IsCanonical.passWithin_plug`), if the changed node still resembles the one before: the groups
above it look at no more than its sign, its family and whether it is a zero or prints as `1`.

So where examining the changed node gives something that can stand in the place of a third one, the
normalized tree can stand in the place of the tree with the third one (`Node.keeps_normalize_plug`).

This is how an edit deep in an equation is followed. The tree was settled, the edit changes one
group, and normalization then works on the whole tree. That the groups above are not touched before
the pass reaches the change matters because of pending factors: until they are examined, the changed
group may not mean what it is to mean, and a rule that fired above would have moved it as it is.

**Three nodes at one place.** The lemmas speak of

* `node`, which stood there while the tree was canonical;
* `node'`, the changed one, from which normalization starts;
* `base`, the one that is meant, in whose place `node'` can stand once its operands are examined.

The groups around the place are `frames`, from the outside inwards, and `plug frames` puts a node
into them. Most proofs are inductions on the frames with the step for one group stated first
(`Keeps.of_operand`, `Resembles.of_operand`).
-/

namespace EquationSteps.Node

variable {rationalize : Text → Except ValueError Text} {tag : Tag} {before after : List Node}
  {node node' base : Node} {frames : List Frame}

/-! ### Keeping the meaning

What a group means depends on the meanings of its operands and on the kind of their signs, so one
operand may be exchanged if these are kept. -/

/-- An operand may be exchanged for what can stand in its place. The operand need not be the one by
which the shape of the group is known. -/
theorem Keeps.of_operand (hshaped : (group tag (before ++ node :: after)).isShaped = true)
    (hmarks : (group tag (before ++ node :: after)).marksInSums = true)
    (hsign : Family.ofSign base.sign = Family.ofSign node.sign)
    (hpending : base.isPending = node.isPending) (hroot : base.isRoot = false)
    (h : base.Keeps node') :
    (group tag (before ++ base :: after)).Keeps (group tag (before ++ node' :: after)) := by
  have hregular := isRegular_of_isShaped_group hshaped
  obtain ⟨hlevel, hmarksAll⟩ := marksInSums_group_iff.1 hmarks
  have hne : ∀ other : Node, before ++ other :: after ≠ [] := fun other ↦
    List.append_ne_nil_of_right_ne_nil _ (List.cons_ne_nil _ _)
  obtain ⟨-, family, hfamily⟩ := isChain_iff.1 (isChain_of_isShaped hshaped (hne node))
  have hself : ∀ {property : Node → Prop}, (∀ child ∈ before ++ node :: after, property child) →
      property node := fun hproperty ↦ hproperty node List.mem_append_cons_self
  have hfamilyBase := forall_mem_exchange hfamily (hsign.trans (hself hfamily))
  have hfamilyNode := forall_mem_exchange hfamily (h.family.trans (hsign.trans (hself hfamily)))
  have hsome : ∀ {other : Node},
      (∀ child ∈ before ++ other :: after, Family.ofSign child.sign = family) →
        (group tag (before ++ other :: after)).family? = some family := fun hother ↦
    family?_of_forall (hne _) hother
  have hregularNode : node'.isRegular = true :=
    (isShaped_iff_isRegular (h.root.trans hroot)).1 h.shaped
  refine ⟨isShaped_group_iff.2 ⟨Or.inl (isChain_of_family (hne _) hfamilyNode),
      forall_mem_exchange hregular hregularNode, (isShaped_group_iff.1 hshaped).2.2⟩,
    marksInSums_group_iff.2 ⟨?_, forall_mem_exchange hmarksAll h.marks⟩, rfl, rfl, rfl,
    fun _ other _ hother ↦ ?_, ?_⟩
  · refine hlevel.imp (fun hsum ↦ ?_) fun hnone ↦ ?_
    · rw [hsome hfamilyNode, ← hsome hfamily, hsum]
    · exact forall_mem_exchange hnone (h.pending.trans (hpending.trans (hself hnone)))
  · rw [hsome hfamilyBase, ← hsome hfamilyNode, hother]
  · rw [Node.meaning, Node.meaning, contentMeaning_group, contentMeaning_group]
    refine congrArg (Meaning.signed tag.sign) ?_
    refine groupMeaning_congr (isChain_of_family (hne _) hfamilyBase) ?_
    refine List.rel_append (List.forall₂_same.2 fun _ _ ↦ ⟨rfl, rfl⟩) ?_
    exact List.Forall₂.cons h.agrees (List.forall₂_same.2 fun _ _ ↦ ⟨rfl, rfl⟩)

/-- A node below a root is regular. -/
theorem isRegular_of_plug {frame : Frame} (h : (plug (frame :: frames) node).isShaped = true) :
    node.isRegular = true := by
  have hregular := isRegular_of_isShaped_group h (plug frames node) List.mem_append_cons_self
  clear h
  induction frames with
  | nil => exact hregular
  | cons frame frames ih =>
    exact ih ((isRegular_group_iff.1 hregular).2.2 (plug frames node) List.mem_append_cons_self)

/-- What holds of a tree while it is normalized holds of its operands. -/
theorem of_mem_children {child : Node} (hshaped : node.isShaped = true)
    (hmarks : node.marksInSums = true) (hmem : child ∈ node.children) :
    child.isRoot = false ∧ child.isShaped = true ∧ child.marksInSums = true := by
  cases node with
  | atom tag text => exact absurd hmem List.not_mem_nil
  | group tag children =>
    have hregular := isRegular_of_isShaped_group hshaped child hmem
    have hroot := isRoot_of_isRegular hregular
    exact ⟨hroot, (isShaped_iff_isRegular hroot).2 hregular,
      (marksInSums_group_iff.1 hmarks).2 child hmem⟩

/-- What holds of a tree while it is normalized holds below the groups above a node. -/
theorem of_plug (hshaped : (plug frames node).isShaped = true)
    (hmarks : (plug frames node).marksInSums = true)
    (hcanonical : (plug frames node).IsCanonical rationalize) :
    node.isShaped = true ∧ node.marksInSums = true ∧ node.IsCanonical rationalize := by
  induction frames with
  | nil => exact ⟨hshaped, hmarks, hcanonical⟩
  | cons frame frames ih =>
    have hself : plug frames node ∈ (plug (frame :: frames) node).children :=
      List.mem_append_cons_self
    obtain ⟨-, hshaped, hmarks⟩ := of_mem_children hshaped hmarks hself
    exact ih hshaped hmarks ((isCanonical_iff.1 hcanonical).2 _ hself)

/-- What can stand in the place of a node can do so within a tree. -/
theorem Keeps.plug (hshaped : (plug frames node).isShaped = true)
    (hmarks : (Node.plug frames node).marksInSums = true)
    (hsign : Family.ofSign base.sign = Family.ofSign node.sign)
    (hpending : base.isPending = node.isPending) (hroot : base.isRoot = node.isRoot)
    (h : base.Keeps node') : (Node.plug frames base).Keeps (Node.plug frames node') := by
  induction frames with
  | nil => exact h
  | cons frame frames ih =>
    have hnode := isRoot_of_isRegular (isRegular_of_plug hshaped)
    have hregular :=
      isRegular_of_isShaped_group hshaped (Node.plug frames node) List.mem_append_cons_self
    have hinner := ih ((isShaped_iff_isRegular (isRoot_of_isRegular hregular)).2 hregular)
      ((marksInSums_group_iff.1 hmarks).2 _ List.mem_append_cons_self)
    rw [plug_cons] at hshaped hmarks ⊢
    refine Keeps.of_operand hshaped hmarks ?_ ?_ ?_ hinner
    · cases frames with
      | nil => exact hsign
      | cons => rfl
    · cases frames with
      | nil => exact hpending
      | cons => rfl
    · cases frames with
      | nil => exact hroot.trans hnode
      | cons =>
        have hmark := isRoot_of_isRegular hregular
        exact hmark

/-! ### Passing over the groups above

A canonical group stays untouched when an operand is exchanged for one that looks the same to every
rule. What rules look at in an operand is its sign and its mark, its family, whether it is the atom
`0`, and whether it prints as `1`. -/

/-- A changed node is, for the groups above it, like the one before. That it does not print as `1`
is said by a character, so that it holds of the groups around it too. -/
structure Resembles (node node' : Node) : Prop where
  sign : node'.sign = node.sign
  family : node'.family? = node.family?
  pending : node'.isPending = node.isPending
  notZero : node'.isZeroAtom = false
  notOne : ∃ c ∈ node'.contentText, c ≠ '1'

/-- What has a character other than `1` in it does not print as `1`. -/
theorem Resembles.toText_ne (h : node.Resembles node') : node'.toText ≠ ['1'] := by
  obtain ⟨c, hmem, hc⟩ := h.notOne
  intro htext
  refine hc (List.mem_singleton.1 ?_)
  rw [← htext, toText]
  exact List.mem_append_right _ hmem

/-- What is printed of an operand is part of what is printed of its group. -/
theorem mem_linksText {c : Char} (first : Bool) {nodes : List Node} (hmem : node ∈ nodes)
    (hc : c ∈ node.contentText) : c ∈ linksText first nodes := by
  induction nodes generalizing first with
  | nil => cases hmem
  | cons other nodes ih =>
    rw [linksText]
    rcases List.mem_cons.1 hmem with rfl | hmem
    · exact List.mem_append_left _ (List.mem_append_right _ hc)
    · exact List.mem_append_right _ (ih false hmem)

/-- The family of a group is that of the sign of its first operand, whichever operand that is. -/
theorem family?_append_cons (hsign : node'.sign = node.sign) :
    (group tag (before ++ node' :: after)).family? =
      (group tag (before ++ node :: after)).family? := by
  cases before with
  | nil => exact congrArg (fun sign ↦ some (Family.ofSign sign)) hsign
  | cons => rfl

/-- A group resembles itself if an operand is exchanged for one that resembles it. -/
theorem Resembles.of_operand (h : node.Resembles node') :
    (group tag (before ++ node :: after)).Resembles (group tag (before ++ node' :: after)) where
  sign := rfl
  family := family?_append_cons h.sign
  pending := rfl
  notZero := rfl
  notOne := by
    obtain ⟨c, hmem, hc⟩ := h.notOne
    refine ⟨c, ?_, hc⟩
    have hself : node' ∈ before ++ node' :: after := List.mem_append_cons_self
    have hlinks := mem_linksText true hself hmem
    rw [contentText]
    split
    · exact List.mem_cons_of_mem _ (List.mem_append_left _ hlinks)
    · exact hlinks

/-- So does a whole tree, if a node in it does. -/
theorem Resembles.plug (h : node.Resembles node') :
    (Node.plug frames node).Resembles (Node.plug frames node') := by
  induction frames with
  | nil => exact h
  | cons frame frames ih => exact ih.of_operand

/-- The rules do not tell apart what resembles each other. -/
theorem IsStable.of_resembles (h : IsStable tag (before ++ node :: after))
    (hnode : node.Resembles node') : IsStable tag (before ++ node' :: after) := by
  have hfamily : (group tag (before ++ node' :: after)).family? =
      (group tag (before ++ node :: after)).family? := family?_append_cons hnode.sign
  have hlength : (before ++ node' :: after).length = (before ++ node :: after).length := by
    rw [List.length_append, List.length_append, List.length_cons, List.length_cons]
  have hself := h.examined node List.mem_append_cons_self
  have hne : before ++ node' :: after ≠ [] := List.append_ne_nil_of_right_ne_nil _
    (List.cons_ne_nil _ _)
  refine ⟨fun _ ↦ hne, forall_mem_exchange h.examined (hnode.pending.trans hself),
    fun hquotient ↦ ?_, fun only hsingle ↦ ?_, fun hproduct ↦ ?_, fun hsum hseveral ↦ ?_⟩
  · rw [hlength]
    exact h.parts (hfamily.symm.trans hquotient)
  · have hbefore : before = [] ∧ after = [] ∧ only = node' := by
      cases before with
      | nil =>
        obtain ⟨rfl, rfl⟩ := List.cons.inj hsingle
        exact ⟨rfl, rfl, rfl⟩
      | cons first before =>
        have hlonger := congrArg List.length hsingle
        simp at hlonger
    obtain ⟨rfl, rfl, rfl⟩ := hbefore
    have hstable := h.single node rfl
    rw [hnode.sign, hnode.family]
    exact hstable
  · exact forall_mem_exchange (h.factors (hfamily.symm.trans hproduct)) hnode.toText_ne
  · exact forall_mem_exchange (h.terms (hfamily.symm.trans hsum) (hlength ▸ hseveral)) hnode.notZero

/-- A pass does nothing above a node that was changed in a canonical tree. -/
theorem IsCanonical.passWithin_plug (h : (plug frames node).IsCanonical rationalize)
    (hnode : node.Resembles node') (reach : Nat) :
    Node.passWithin rationalize (reach + frames.length) (plug frames node') =
      ((Node.passWithin rationalize reach node').1,
        plug frames (Node.passWithin rationalize reach node').2) := by
  induction frames with
  | nil => rfl
  | cons frame frames ih =>
    obtain ⟨hidle, hall⟩ := isCanonical_iff.1 h
    have hinner : (plug frames node).Resembles (plug frames node') := hnode.plug
    have hstable := (isIdle_group_iff.1 hidle).of_resembles hinner
    have hothers : ∀ others : List Node, (∀ other ∈ others, other ∈ frame.before ++ frame.after) →
        others.map (Node.passWithin rationalize (reach + frames.length)) =
          others.map fun other ↦ (false, other) := by
      intro others hmem
      refine List.map_congr_left fun other hother ↦ IsCanonical.passWithin (hall other ?_) _
      have hother := hmem other hother
      rw [List.mem_append] at hother
      exact hother.elim (fun h ↦ List.mem_append_left _ h)
        fun h ↦ List.mem_append_right _ (List.mem_cons_of_mem _ h)
    have hreshape : (plug (frame :: frames) node').reshape rationalize =
        .opened false (plug (frame :: frames) node') :=
      reshape_eq_opened_false_iff.2 ⟨rfl, isIdle_group_iff.2 hstable⟩
    rw [List.length_cons, ← Nat.add_assoc, Node.passWithin, hreshape]
    dsimp only [plug_cons, children, withChildren]
    rw [List.map_append, List.map_cons, ih (hall _ List.mem_append_cons_self),
      hothers frame.before fun _ hmem ↦ List.mem_append_left _ hmem,
      hothers frame.after fun _ hmem ↦ List.mem_append_right _ hmem]
    have hnone : ∀ others : List Node,
        (others.map fun other ↦ (false, other)).any (·.1) = false := by
      intro others
      rw [List.any_map]
      exact List.any_eq_false.2 fun _ _ ↦ Bool.false_ne_true
    rw [List.any_append, List.any_cons, hnone, hnone, Bool.false_or, Bool.false_or, Bool.or_false]
    simp [Function.comp_def]

/-! ### Normalization

The first pass reaches the changed node after as many levels as there are frames, and a tree weighs
more than that. What it leaves can stand in the place of the tree that is meant, and the passes
after it start from there. -/

/-- The reach of a pass is enough for the levels above a node. -/
theorem length_lt_weight_plug (frames : List Frame) (node : Node) :
    frames.length < (plug frames node).weight := by
  induction frames with
  | nil => exact weight_pos node
  | cons frame frames ih =>
    have hchild : plug frames node ∈ (plug (frame :: frames) node).children :=
      List.mem_append_cons_self
    have hweight := weight_lt_of_mem_children hchild
    rw [List.length_cons]
    omega

/-- Normalization of a tree that was canonical before a node was changed: the result can stand in
the place of the tree with another node there, if examining the changed node gives what can stand in
the place of that one. -/
theorem keeps_normalize_plug (hfaithful : IsFaithful rationalize) {limits : Limits} {passes : Nat}
    {result : Node} (hshaped : (plug frames node).isShaped = true)
    (hmarks : (plug frames node).marksInSums = true)
    (hcanonical : (plug frames node).IsCanonical rationalize)
    (hsign : Family.ofSign base.sign = Family.ofSign node.sign)
    (hpending : base.isPending = node.isPending) (hroot : base.isRoot = node.isRoot)
    (hresembles : frames ≠ [] → node.Resembles node') (hroot' : node'.isRoot = node.isRoot)
    (hkeeps : base.Keeps node'.examined.2) (hfill : node'.fillRoot? = none)
    (h : (plug frames node').normalize rationalize limits = (.ok passes, result)) :
    (plug frames base).Keeps result ∨ (plug frames base).IsEmptied result := by
  have hbelow : ∀ (reach : Nat) (child : Node), child.isRegular = true →
      child.marksInSums = true → child.Keeps (passWithin rationalize reach child).2 := by
    intro reach child hregular hmarks
    have hchild := isRoot_of_isRegular hregular
    rcases passed_passWithin hfaithful reach
      ((isShaped_iff_isRegular hchild).2 hregular) hmarks with
      hkeeps | ⟨hemptied, -⟩
    · exact hkeeps
    · cases hchild.symm.trans hemptied.root
  have hpassed : (plug frames base).Passed ((plug frames node').pass rationalize) := by
    have hlength := length_lt_weight_plug frames node'
    obtain ⟨reach, hreach⟩ : ∃ reach,
        (plug frames node').weight + answerReach = reach + 1 + frames.length :=
      ⟨(plug frames node').weight + answerReach - 1 - frames.length, by omega⟩
    have hnode :=
      passed_passWithin_succ hfaithful (hbelow reach) (hroot.trans hroot'.symm) hkeeps hfill
    rw [pass, hreach]
    cases frames with
    | nil => exact hnode
    | cons frame frames =>
      rw [hcanonical.passWithin_plug (hresembles (List.cons_ne_nil _ _))]
      have hmark := isRoot_of_isRegular (isRegular_of_plug hshaped)
      rcases hnode with hnode | ⟨hemptied, -⟩
      · exact Or.inl (hnode.plug hshaped hmarks hsign hpending hroot)
      · cases (hroot.trans hmark).symm.trans hemptied.root
  rw [normalize] at h
  cases hlimits : limits.passes with
  | zero =>
    rw [hlimits, normalizeFrom] at h
    cases h
  | succ left =>
    rw [hlimits] at h
    exact keeps_normalizeFrom_succ
      (fun _ _ _ hshaped hmarks hnext ↦
        keeps_normalizeFrom hfaithful hshaped hmarks hnext) hpassed h

end EquationSteps.Node
