import EquationSteps.Proofs.Equation.Rejection

/-!
# Marks of pending after an edit

An edit marks what it put in as pending, and normalization examines what is pending and clears the
mark. A node is examined by the group that it is an operand of. So when normalization settles, no
mark is left below the topmost node (`Node.everyTagBelow_of_settles`), whatever was marked before,
and the topmost node itself is pending if it was so before (`Node.isPending_of_settles`).

Multiplying and dividing mark terms only, and so no mark outlives them. A replacement marks the
selected nodes, and a whole side may be selected: then the mark is left. That is the only exception
(`Equation.marks_after_edit`).

**What the mark on a side does.** It is never looked at, since a side has no group around it, so the
equation prints, evaluates and normalizes as if it were not there. But it is part of the equation,
and comparing equations with their marks would tell the two apart.

**No shape is assumed, and nothing of the oracle.** The lemmas on passes hold of any tree, because a
pass over the whole tree that reports no change has left no group with a pending operand, and every
node but the topmost one is an operand of some group. Whether a side is a root does not enter. The
theorem on edits holds for whatever the edits are answered, by `Inquiry.MayReturn`. That no identity
occurs twice is assumed for one part of it alone, that the mark on a side *is* left: a side that
shares its identity with another node might not be the node that is marked.
-/

namespace EquationSteps

/-- Whether a node with this tag has been examined, which is to say that it is not pending. -/
def Tag.isExamined (tag : Tag) : Bool :=
  !tag.pending

namespace Node

variable {rationalize : Text → Except ValueError Text} {limits : Limits} {passes : Nat}
  {node node' : Node}

/-- A tag is examined if its node is not pending. -/
theorem isExamined_tag_iff : node.tag.isExamined = true ↔ node.isPending = false := by
  rw [Tag.isExamined, Bool.not_eq_true']
  rfl

/-! ### Passes

By induction on the reach, along the groups of the tree. -/

/-- **A pass over a whole tree that reports no change leaves no mark below the topmost node**: every
other node is an operand of a group to which no rule applies. -/
theorem everyTagBelow_of_passWithin {reach : Nat} (hreach : node.weight ≤ reach)
    (h : passWithin rationalize reach node = (false, node')) :
    node'.EveryTagBelow Tag.isExamined := by
  induction reach generalizing node node' with
  | zero =>
    have hpos := weight_pos node
    omega
  | succ reach ih =>
    rcases passWithin_succ_eq_false h with hclosed | ⟨hidle, hunchanged, rfl⟩
    · obtain ⟨-, -, hcontent⟩ := of_closed_reshape hclosed
      cases node' with
      | atom tag text => cases hcontent
      | group tag children =>
        cases hcontent
        exact List.forall_mem_singleton.2 rfl
    · cases node with
      | atom tag text => exact List.forall_mem_nil _
      | group tag children =>
        have hexamined := settle?_eq_none_iff.1 hidle.settle
        refine List.forall_mem_map.2 fun child hmem ↦ everyTag_iff.2 ⟨?_, ?_⟩
        · -- a pass keeps the mark of the node that it starts from, and this one has none
          have hmark := isPending_of_reflTransGen (reflTransGen_passWithin rationalize reach child)
          exact isExamined_tag_iff.2 (hmark.trans (hexamined child hmem))
        · have hweight :=
            weight_lt_of_mem_children (show child ∈ (group tag children).children from hmem)
          exact ih (by omega) (Prod.ext (hunchanged child hmem) rfl)

/-! ### Normalization

The last pass reports no change. -/

/-- **Normalization that settles leaves no mark below the topmost node.** -/
theorem everyTagBelow_of_settles (h : node.normalize rationalize limits = (.ok passes, node')) :
    node'.EveryTagBelow Tag.isExamined := by
  obtain ⟨last, -, hpass⟩ := exists_pass_of_normalizeFrom h
  exact everyTagBelow_of_passWithin (Nat.le_add_right _ _) hpass

/-- The mark of the topmost node is not cleared, and none is set. -/
theorem isPending_of_settles (h : node.normalize rationalize limits = (.ok passes, node')) :
    node'.isPending = node.isPending := by
  have hmark := isPending_of_reflTransGen (reflTransGen_normalize rationalize limits node)
  rwa [h] at hmark

/-- So an operation on a side leaves no mark below the topmost node, and keeps the one there. -/
theorem marks_of_transformSide {onTerm : Operand → Node → Inquiry Node} {text : Text}
    (h : (transformSide onTerm rationalize limits text node).MayReturn (.ok (), node')) :
    node'.EveryTagBelow Tag.isExamined ∧ node'.isPending = node.isPending := by
  rcases of_mayReturn_transformSide h with ⟨⟨cause, -, hcause⟩, -⟩ |
    ⟨operand, applied, -, happlied, hok, rfl⟩
  · cases hcause
  · have htag : applied.tag = node.tag := by
      rcases Operand.of_mayReturn_applyTo happlied with rfl | ⟨terms, rfl, -⟩
      · exact tag_withChildren _ _
      · exact tag_withChildren _ _
    obtain ⟨passes, hpasses⟩ : ∃ passes, (applied.normalize rationalize limits).1 = .ok passes := by
      cases hresult : (applied.normalize rationalize limits).1 with
      | ok passes => exact ⟨passes, rfl⟩
      | error cause =>
        rw [hresult] at hok
        cases hok
    have hsettles : applied.normalize rationalize limits =
        (.ok passes, (applied.normalize rationalize limits).2) := Prod.ext hpasses rfl
    refine ⟨everyTagBelow_of_settles hsettles, ?_⟩
    rw [isPending_of_settles hsettles, isPending, isPending, htag]

end Node

namespace Equation

open Node

variable {equation after : Equation} {selection ids : List NodeId} {nodes : List Node} {id : NodeId}
  {text : Text}

/-- No node of either side is pending. -/
def IsExamined (equation : Equation) : Prop :=
  ∀ side ∈ [Equation.left, Equation.right], (side equation).everyTag Tag.isExamined = true

/-- An identity is the one of a whole side. -/
def IsSideId (equation : Equation) (id : NodeId) : Prop :=
  ∃ side ∈ [Equation.left, Equation.right], (side equation).id? = some id

instance (equation : Equation) : Decidable equation.IsExamined :=
  inferInstanceAs (Decidable (∀ side ∈ [Equation.left, Equation.right],
    (side equation).everyTag Tag.isExamined = true))

instance (equation : Equation) (id : NodeId) : Decidable (equation.IsSideId id) :=
  inferInstanceAs (Decidable (∃ side ∈ [Equation.left, Equation.right],
    (side equation).id? = some id))

/-- No node is pending if none is below the sides and neither side is. -/
theorem isExamined_iff : equation.IsExamined ↔ ∀ side ∈ [Equation.left, Equation.right],
    (side equation).EveryTagBelow Tag.isExamined ∧ (side equation).isPending = false := by
  refine forall₂_congr fun side _ ↦ ?_
  rw [everyTag_iff, isExamined_tag_iff, and_comm]

/-! ### Replacements

Substituting marks the nodes with the selected identities and no others. If none of them is a side,
the tags of the sides stay what they are. -/

/-- What is resolved are nodes that are selected. -/
theorem mem_of_selectedNodes (h : equation.selectedNodes selection = .ok nodes) :
    ∀ id ∈ nodes.filterMap Node.id?, id ∈ selection := by
  intro id hmemIds
  obtain ⟨node, hnode, hid⟩ := List.mem_filterMap.1 hmemIds
  unfold selectedNodes at h
  split at h
  · cases h
  · split at h
    · cases h
    · split at h
      · cases h
        obtain ⟨id', hmem, hid'⟩ := List.any_eq_true.1 (List.mem_filter.1 hnode).2
        cases hid.symm.trans (beq_iff_eq.1 hid')
        exact hmem
      · rename_i hnone
        split at h
        · split at h
          · rename_i found hfound
            cases h
            obtain rfl := List.mem_singleton.1 hnode
            cases hid.symm.trans (of_find? hnone hfound).2
            exact List.mem_cons_self
          · cases h
        · cases h

/-- Substituting below the sides keeps their topmost tags. Each substitution changes one node, and
that is not a side. -/
theorem tag_of_substitute {f : Node → Node} (hbelow : ∀ id ∈ ids, ¬equation.IsSideId id)
    (h : substitute f ids equation = (.ok (), after)) :
    ∀ side ∈ [Equation.left, Equation.right], (side after).tag = (side equation).tag := by
  induction ids generalizing equation with
  | nil =>
    cases h
    exact fun side _ ↦ rfl
  | cons id ids ih =>
    obtain ⟨hid, hids⟩ := List.forall_mem_cons.1 hbelow
    rw [substitute] at h
    split at h
    · rename_i changed hmodify
      have htags : ∀ side ∈ [Equation.left, Equation.right],
          (side changed).tag = (side equation).tag := by
        unfold modify? at hmodify
        split at hmodify
        · rename_i left hleft
          cases hmodify
          have htag := tag_of_modify? (fun hside ↦ hid ⟨_, List.mem_cons_self, hside⟩) hleft
          exact List.forall_mem_cons.2 ⟨htag, List.forall_mem_singleton.2 rfl⟩
        · obtain ⟨right, hright, rfl⟩ := Option.map_eq_some_iff.1 hmodify
          have htag := tag_of_modify? (fun hside ↦ hid ⟨_, by simp, hside⟩) hright
          exact List.forall_mem_cons.2 ⟨rfl, List.forall_mem_singleton.2 htag⟩
      have hchanged : ∀ id ∈ ids, ¬changed.IsSideId id := by
        rintro id hmem ⟨side, hside, hsame⟩
        refine hids id hmem ⟨side, hside, ?_⟩
        rw [← hsame, id?, id?, htags side hside]
      intro side hside
      rw [ih hchanged h side hside, htags side hside]
    · cases h

/-- A replacement leaves no mark below the sides, and it marks no side that is not selected. -/
theorem marks_of_putInPlace {expression : Node}
    (h : putInPlace expression ids equation = (.ok (), after)) :
    (∀ side ∈ [Equation.left, Equation.right], (side after).EveryTagBelow Tag.isExamined) ∧
      ((∀ id ∈ ids, ¬equation.IsSideId id) → ∀ side ∈ [Equation.left, Equation.right],
        (side after).isPending = (side equation).isPending) := by
  obtain ⟨first, rest, filler, taken, filled, rfl, htaken, hfilled, hnormalize⟩ :=
    exists_substitute_of_putInPlace h
  obtain ⟨-, -, hsides⟩ := of_normalize hnormalize
  refine ⟨fun side hside ↦ ?_, fun hbelow side hside ↦ ?_⟩
  · obtain ⟨passes, hsettles⟩ := hsides side hside
    exact everyTagBelow_of_settles hsettles
  · obtain ⟨hfirst, hrest⟩ := List.forall_mem_cons.1 hbelow
    have htags := tag_of_substitute (List.forall_mem_singleton.2 hfirst) htaken
    have hbelow' : ∀ id ∈ rest, ¬taken.IsSideId id := by
      rintro id hmem ⟨other, hother, hsame⟩
      refine hrest id hmem ⟨other, hother, ?_⟩
      rw [← hsame, id?, id?, htags other hother]
    have htags' := tag_of_substitute hbelow' hfilled
    obtain ⟨passes, hsettles⟩ := hsides side hside
    rw [isPending_of_settles hsettles, isPending, isPending, htags' side hside, htags side hside]

/-- **A whole side that is replaced stays pending.** It is marked when it takes over the expression,
and normalization clears the marks of operands only. -/
theorem isPending_of_putInPlace_whole {expression side : Node} {outer : Node → Equation}
    (houter : IsReached id outer) (hid : side.id? = some id)
    (h : putInPlace expression [id] (outer side) = (.ok (), after)) {either : Equation → Node}
    (heither : either ∈ [Equation.left, Equation.right])
    (hside : ∀ node, either (outer node) = node) :
    (either after).isPending = true := by
  rw [putInPlace_whole houter hid, conclude_eq_ok_iff] at h
  obtain ⟨-, -, hsides⟩ := of_normalize h
  obtain ⟨passes, hsettles⟩ := hsides either heither
  rw [isPending_of_settles hsettles, hside, withPending, isPending, tag_mapTag]

/-- So where a whole side was selected, the equation is left with a mark. Identities must not be
repeated here, or else another node might be found for that of the side. -/
theorem not_isExamined_of_putInPlace (hnodup : (equation.left.ids ++ equation.right.ids).Nodup)
    {expression : Node} (hnodes : equation.selectedNodes selection = .ok nodes)
    (hside : ∃ id ∈ selection, equation.IsSideId id)
    (h : putInPlace expression (nodes.filterMap Node.id?) equation = (.ok (), after)) :
    ¬after.IsExamined := by
  have hpending : ∃ side ∈ [Equation.left, Equation.right], (side after).isPending = true := by
    cases selects_of_selectedNodes hnodup hnodes with
    | @whole id side hmem hid =>
      rw [List.filterMap_cons_some hid, List.filterMap_nil] at h
      rcases List.mem_pair.1 hmem with rfl | rfl
      · have hplug : equation.left = plug [] equation.left := rfl
        have hreached := (reached_left hnodup hplug).2 id (mem_ids_of_id? hid)
        exact ⟨Equation.left, List.mem_cons_self,
          isPending_of_putInPlace_whole hreached hid h List.mem_cons_self fun _ ↦ rfl⟩
      · have hplug : equation.right = plug [] equation.right := rfl
        have hreached := (reached_right hnodup hplug).2 id (mem_ids_of_id? hid)
        exact ⟨Equation.right, by simp,
          isPending_of_putInPlace_whole hreached hid h (by simp) fun _ ↦ rfl⟩
    | @operands _ parent hparent hne hchildren =>
      -- a side is not an operand
      obtain ⟨id, hmem, side, hside, hid⟩ := hside
      have hmemSide : side equation ∈ [equation.left, equation.right] :=
        List.mem_map_of_mem (f := fun side : Equation → Node ↦ side equation) hside
      have hfound := (findParent?_eq_some_iff hnodup).2 ⟨hparent, hchildren id hmem⟩
      cases hfound.symm.trans (find_root hnodup hmemSide hid).1
  obtain ⟨side, hside, hpending⟩ := hpending
  intro hexamined
  cases hpending.symm.trans (isExamined_iff.1 hexamined side hside).2

/-! ### Edits

Operations mark the terms that they changed; a replacement marks what it replaced. -/

/-- What is left of the marks by an operation on both sides. -/
theorem IsExamined.of_onSides {onTerm : Operand → Node → Inquiry Node}
    {rationalize : Text → Except ValueError Text} {limits : Limits}
    (hexamined : equation.IsExamined)
    (h : (equation.onSides (transformSide onTerm rationalize limits text)).MayReturn
      (.ok (), after)) :
    after.IsExamined := by
  obtain ⟨-, -, hsides⟩ := Equation.of_onSides h
  refine isExamined_iff.2 fun side hside ↦ ?_
  obtain ⟨hbelow, hmark⟩ := marks_of_transformSide (hsides side hside)
  exact ⟨hbelow, hmark.trans (isExamined_iff.1 hexamined side hside).2⟩

/-- **The marks that an edit leaves.** Where no node is pending, none is pending after a successful
multiplication or division. A successful replacement leaves no mark below the two sides, whatever
was selected. If no whole side was selected, it leaves no mark at all, and a whole side that was
selected stays pending. -/
theorem marks_after_edit (hexamined : equation.IsExamined) :
    (∀ text after, (equation.multiply text).MayReturn (.ok (), after) ∨
      (equation.divide text).MayReturn (.ok (), after) → after.IsExamined) ∧
    ∀ selection text after, (equation.replace selection text).MayReturn (.ok (), after) →
      (∀ side ∈ [Equation.left, Equation.right], (side after).EveryTagBelow Tag.isExamined) ∧
      ((∀ id ∈ selection, ¬equation.IsSideId id) → after.IsExamined) ∧
      ((equation.left.ids ++ equation.right.ids).Nodup → (∃ id ∈ selection, equation.IsSideId id) →
        ¬after.IsExamined) := by
  refine ⟨?_, fun selection text after h ↦ ?_⟩
  · rintro text after (h | h)
    · exact hexamined.of_onSides h
    · exact hexamined.of_onSides h
  · rcases of_mayReturn_replace h with ⟨⟨errors, herrors⟩, -⟩ | ⟨nodes, expression, hnodes, -, hput⟩
    · cases herrors
    · obtain ⟨hbelow, hmarks⟩ := marks_of_putInPlace hput
      refine ⟨hbelow, fun hselection ↦ isExamined_iff.2 fun side hside ↦ ⟨hbelow side hside, ?_⟩,
        fun hnodup hside ↦ not_isExamined_of_putInPlace hnodup hnodes hside hput⟩
      rw [hmarks (fun id hmem ↦ hselection id (mem_of_selectedNodes hnodes id hmem)) side hside]
      exact (isExamined_iff.1 hexamined side hside).2

/-- In `x+x=1`, both terms are replaced by `2*x`, and no mark is left. -/
theorem marks_after_edit_terms : ∃ built after : Equation,
    Equation.new "x+x".toList "1".toList = .ok built ∧ (built.number 0).1.IsExamined ∧
      ((built.number 0).1.replace [1, 2] "2*x".toList).answeredBy built.oracle = (.ok (), after) ∧
        after.toText = "2*x=1".toList ∧ after.IsExamined := by
  have hfacts : ((Equation.new "x+x".toList "1".toList).toOption.map fun built ↦
      decide ((built.number 0).1.IsExamined ∧
        (∀ id ∈ ([1, 2] : List NodeId), ¬(built.number 0).1.IsSideId id) ∧
        (((built.number 0).1.replace [1, 2] "2*x".toList).answeredBy built.oracle).1 = .ok () ∧
          (((built.number 0).1.replace [1, 2] "2*x".toList).answeredBy built.oracle).2.toText =
            "2*x=1".toList)) = some true := by
    decide +kernel
  obtain ⟨built, hbuilt, hexamined, hselection, hok, htext⟩ := Except.exists_ok_of_toOption hfacts
  have hmay :=
    Inquiry.mayReturn_answeredBy built.oracle ((built.number 0).1.replace [1, 2] "2*x".toList)
  generalize houtcome :
    ((built.number 0).1.replace [1, 2] "2*x".toList).answeredBy built.oracle = outcome
    at hok htext hmay
  obtain ⟨result, after⟩ := outcome
  obtain rfl : result = .ok () := hok
  exact ⟨built, after, hbuilt, hexamined, houtcome, htext,
    ((marks_after_edit hexamined).2 _ _ _ hmay).2.1 hselection⟩

/-- In `x=1`, the left side is replaced by `x`, and it stays pending. -/
theorem not_isExamined_wholeSide : ∃ built after : Equation,
    Equation.new "x".toList "1".toList = .ok built ∧ (built.number 0).1.IsExamined ∧
      ((built.number 0).1.replace [0] "x".toList).answeredBy built.oracle = (.ok (), after) ∧
        ¬after.IsExamined := by
  have hfacts : ((Equation.new "x".toList "1".toList).toOption.map fun built ↦
      decide ((built.number 0).1.IsExamined ∧
        (((built.number 0).1.replace [0] "x".toList).answeredBy built.oracle).1 = .ok () ∧
          ¬(((built.number 0).1.replace [0] "x".toList).answeredBy built.oracle).2.IsExamined)) =
            some true := by
    decide +kernel
  obtain ⟨built, hbuilt, hexamined, hok, hpending⟩ := Except.exists_ok_of_toOption hfacts
  exact ⟨built, _, hbuilt, hexamined, Prod.ext hok rfl, hpending⟩

end Equation

end EquationSteps
