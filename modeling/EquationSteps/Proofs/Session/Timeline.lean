import EquationSteps.Proofs.Equation.Form
import EquationSteps.Proofs.Equation.ReadBack

/-!
# Histories

The recorded states of an equation in order are the entries of a timeline (`Timeline.entries`), with
a cursor behind the present one (`Timeline.cursor`). Recording drops what is behind the cursor, and
undoing and redoing move the cursor by one entry and change no entry.

Only texts are recorded. What is rebuilt from the text of an equation has sides that hold terms
(`Equation.of_rebuild`), so the equation comes back as it was recorded if and only if its sides hold
terms (`Equation.Restores`).

**Two views of one history.** A timeline holds texts, on both sides of the present the nearest one
first. To say that the recorded equations come back, the equations themselves have to be remembered,
and `Timeline.Records` does that: it relates a timeline to two lists of equations, the ones up to
the present and the ones that were undone, whose texts are what the timeline holds
(`Timeline.Records.texts`). Entries and cursor are a third way to look at it, in which undoing and
redoing are seen to change nothing but the cursor.

**What is recorded** comes from two expressions by edits that succeeded
(`Equation.ComesFromExpressions`). This is needed to know that the sides are settled and can be read
back. An equation that was rebuilt comes from expressions again, since the text of a settled side is
one, so the condition is kept by going back and forth.

**What may differ.** Identities and marks are not part of a text, and an equation that comes back
has new identities. A side that held factors comes back with one term, which is their product.
Limits and oracle are those of the equation at hand. Of the oracle it is required only that it takes
literals for the fractions that they are.

**Failures are left out** of `Records`, since what a redo drops is then no more on the timeline.
They are the subject of `Proofs.Session.Loss`, and there nothing is said about equations.
-/

namespace EquationSteps

open Node

namespace Node

variable {rationalize : Text → Except ValueError Text} {tag : Tag} {children : List Node}
  {node side : Node}

/-! ### Sides without identities and marks

A recorded side is compared with the one that comes back without regard to identities and marks. A
settled side may be pending at its root, which is why `asNew` takes off that mark as well. -/

/-- A side as it would be if it was built anew: without identities, and not pending. -/
def asNew (side : Node) : Node :=
  side.anonymous.withPending false

/-- A group that is built anew has no identity and is not pending, and its operands have no
identities. -/
theorem asNew_group (tag : Tag) (children : List Node) : (group tag children).asNew =
    group { tag with id := none, pending := false } (children.map anonymous) := by
  rw [asNew, anonymous_group]
  rfl

/-- Neither identities nor marks are printed. -/
theorem toText_asNew (side : Node) : side.asNew.toText = side.toText := by
  rw [← toText_anonymous side]
  cases side <;> rfl

/-- The family of a side is that of its operands, whatever its tag. -/
theorem family?_asNew (side : Node) : side.asNew.family? = side.family? := by
  rw [← family?_anonymous side]
  cases side <;> rfl

mutual

/-- Identities do not matter for the structure of a tree. -/
theorem sameStructure_anonymous : ∀ node : Node, node.anonymous.sameStructure node = true
  | .atom tag text => by simp [anonymous, sameStructure]
  | .group tag children => by
    rw [anonymous_group, sameStructure, sameStructures_anonymous children]
    simp

/-- `sameStructure_anonymous` on a list of nodes. -/
theorem sameStructures_anonymous : ∀ nodes : List Node,
    sameStructures (nodes.map anonymous) nodes = true
  | [] => rfl
  | node :: nodes => by
    rw [List.map_cons, sameStructures, sameStructure_anonymous node, sameStructures_anonymous nodes]
    rfl

end

/-- And for that of a side the mark does not either. -/
theorem sameStructure_asNew (side : Node) : side.asNew.sameStructure side = true := by
  rw [← sameStructure_anonymous side]
  cases side <;> rfl

/-- Below the root nothing is pending in a canonical tree. -/
theorem IsCanonical.isNew_anonymous (h : node.IsCanonical rationalize)
    (hpending : node.isPending = false) :
    node.anonymous.everyTag Tag.isNew = true := by
  induction node using Node.induction with
  | atom tag text =>
    have htag : tag.pending = false := hpending
    rw [anonymous, everyTag]
    simp [Tag.isNew, htag]
  | group tag children ih =>
    have htag : tag.pending = false := hpending
    obtain ⟨hidle, hall⟩ := isCanonical_iff.1 h
    rw [anonymous_group]
    refine everyTag_group_iff.2 ⟨by simp [Tag.isNew, htag],
      List.forall_mem_map.2 fun child hmem ↦ ?_⟩
    exact ih child hmem (hall child hmem) ((isIdle_group_iff.1 hidle).examined child hmem)

/-- A settled side, built anew, is one that can be read back. -/
theorem IsSettled.isSide_asNew (h : side.IsSettled rationalize) :
    side.asNew.IsSide rationalize := by
  obtain ⟨hshaped, hroot, hcanonical⟩ := isSettled_anonymous_iff.2 h
  obtain ⟨hidle, hall⟩ := isCanonical_iff.1 h.canonical
  obtain ⟨tag, first, rest, rfl⟩ := hidle.exists_group h.root
  rw [anonymous_group] at hshaped hroot hcanonical
  rw [asNew_group]
  -- only the tag of the root differs from the one of the anonymous side, and no rule looks at that
  obtain ⟨hanonymous, hchildren⟩ := isCanonical_iff.1 hcanonical
  have hstable := isIdle_group_iff.1 hanonymous
  refine ⟨isShaped_group_iff.2 (isShaped_group_iff.1 hshaped), hroot, ?_, .group ?_ hchildren⟩
  · refine everyTag_group_iff.2 ⟨rfl, List.forall_mem_map.2 fun child hmem ↦ ?_⟩
    exact (hall child hmem).isNew_anonymous ((isIdle_group_iff.1 hidle).examined child hmem)
  · exact isIdle_group_iff.2 (hstable.of_children (hstable.nonempty hroot) hstable.single)

/-- The text of a settled side is an expression. -/
theorem IsSettled.isExpression_toText (h : side.IsSettled rationalize) :
    IsExpression side.toText := by
  obtain ⟨tag, first, rest, rfl⟩ := (isCanonical_iff.1 h.canonical).1.exists_group h.root
  have hside := h.isSide_asNew
  rw [asNew_group] at hside
  rw [← toText_asNew, asNew_group]
  exact hside.isExpression_toText.1

/-- A settled side is read back with its structure if and only if it holds terms. -/
theorem IsSettled.sameStructure_readBack_iff (h : side.IsSettled rationalize) :
    side.asNew.readBack.sameStructure side = true ↔ side.family? = some .sum := by
  constructor
  · intro hsame
    rw [← family?_of_sameStructure hsame, family?_readBack]
  · intro hsum
    rw [h.isSide_asNew.readBack_eq ((family?_asNew side).trans hsum)]
    exact sameStructure_asNew side

end Node

namespace Equation

variable {current recorded back : Equation} {rationalize : Text → Except ValueError Text}

/-! ### Where equations come from -/

/-- An equation that comes from two expressions: successful edits led to it from the one that was
built from them. -/
def ComesFromExpressions (equation : Equation) : Prop :=
  ∃ limits oracle left right built first next, IsExpression left ∧ IsExpression right ∧
    oracle.rationalize = Oracle.exactFraction ∧ ofSides limits oracle left right = .ok built ∧
      (built.number first).1.Reaches (built.number first).2 equation next

/-- The sides of such an equation are settled. -/
theorem ComesFromExpressions.isSettled {equation : Equation} (h : equation.ComesFromExpressions) :
    ∀ side ∈ [Equation.left, Equation.right], (side equation).IsSettled Oracle.exactFraction := by
  obtain ⟨limits, oracle, left, right, built, first, next, hleft, hright, horacle, hbuilt,
    hreaches⟩ := h
  obtain ⟨htracked, hequation, -⟩ := isTracked_of_reaches hleft hright horacle hbuilt hreaches
  intro side hmem
  rw [← hequation]
  exact htracked.settled.sides side hmem

/-- An equation that is built from two expressions comes from them, with no edit in between. -/
theorem comesFromExpressions_of_ofSides {limits : Limits} {oracle : Oracle} {left right : Text}
    {built : Equation} (hleft : IsExpression left) (hright : IsExpression right)
    (horacle : oracle.rationalize = Oracle.exactFraction)
    (hbuilt : ofSides limits oracle left right = .ok built) (first : NodeId) :
    (built.number first).1.ComesFromExpressions :=
  ⟨limits, oracle, left, right, built, first, _, hleft, hright, horacle, hbuilt, .start⟩

/-! ### Rebuilding a recorded equation

The text of an equation is cut at its first equals sign, of which there is only the one between the
sides, and each side is read as if it was typed. -/

/-- Rebuilding an equation is building one from the texts of its sides. -/
theorem ofSides_of_rebuild
    (hsettled : ∀ side ∈ [Equation.left, Equation.right], (side recorded).IsSettled rationalize)
    (h : Timeline.rebuild current recorded.toText = .ok back) :
    ofSides current.limits current.oracle recorded.left.toText recorded.right.toText =
      .ok back := by
  have hcut : Text.cut? '=' recorded.toText =
      some (recorded.left.toText, recorded.right.toText) := by
    refine Text.cut?_append ?_ _
    rw [← toText_asNew]
    exact (hsettled Equation.left (by simp)).isSide_asNew.not_mem_toText
  rw [Timeline.rebuild, hcut] at h
  dsimp only at h
  split at h
  · rename_i hbuilt
    cases h
    exact hbuilt
  · cases h

/-- **What is rebuilt** from the text of an equation is read back side by side. -/
theorem of_rebuild
    (hsettled : ∀ side ∈ [Equation.left, Equation.right],
      (side recorded).IsSettled current.oracle.rationalize)
    (h : Timeline.rebuild current recorded.toText = .ok back) :
    ∀ side ∈ [Equation.left, Equation.right], side back = (side recorded).asNew.readBack := by
  obtain ⟨-, -, ⟨left, passes, hleft, hleftSide⟩, right, passes', hright, hrightSide⟩ :=
    exists_of_ofSides (ofSides_of_rebuild hsettled h)
  rw [← toText_asNew] at hleft hright
  exact List.forall_mem_cons.2
    ⟨(hsettled Equation.left (by simp)).isSide_asNew.eq_readBack_of_normalize hleft hleftSide,
      List.forall_mem_singleton.2
        ((hsettled Equation.right (by simp)).isSide_asNew.eq_readBack_of_normalize
          hright hrightSide)⟩

/-- How an equation that was recorded comes back: as one that comes from expressions, too, with
sides that hold terms. It is as it was recorded if and only if its own sides hold terms. -/
structure Restores (recorded back : Equation) : Prop where
  /-- It can be edited and recorded as any other. -/
  source : ∀ first, (back.number first).1.ComesFromExpressions
  /-- Its sides hold terms, whatever was recorded. -/
  terms : back.HoldsTerms
  /-- It has the recorded structure if and only if the recorded sides held terms. -/
  sameStructure_iff : (∀ side ∈ [Equation.left, Equation.right],
    (side back).sameStructure (side recorded) = true) ↔ recorded.HoldsTerms
  /-- And then it has the recorded text. -/
  toText : recorded.HoldsTerms → back.toText = recorded.toText

/-- What is rebuilt under an oracle that is exact about literals is restored. -/
theorem ComesFromExpressions.restores (hrecorded : recorded.ComesFromExpressions)
    (horacle : current.oracle.rationalize = Oracle.exactFraction)
    (h : Timeline.rebuild current recorded.toText = .ok back) : recorded.Restores back := by
  have hleft := hrecorded.isSettled Equation.left (by simp)
  have hright := hrecorded.isSettled Equation.right (by simp)
  have hsides := of_rebuild (horacle ▸ hrecorded.isSettled) h
  have hleftBack : back.left = recorded.left.asNew.readBack := hsides Equation.left (by simp)
  have hrightBack : back.right = recorded.right.asNew.readBack := hsides Equation.right (by simp)
  refine ⟨?_, ?_, ?_, fun hterms ↦ ?_⟩
  · exact comesFromExpressions_of_ofSides hleft.isExpression_toText
      hright.isExpression_toText horacle
      (ofSides_of_rebuild hrecorded.isSettled h)
  · rw [HoldsTerms, hleftBack, hrightBack]
    exact ⟨family?_readBack _, family?_readBack _⟩
  · rw [List.forall_mem_cons, List.forall_mem_singleton, hleftBack, hrightBack,
      hleft.sameStructure_readBack_iff, hright.sameStructure_readBack_iff, HoldsTerms]
  · rw [Equation.toText, Equation.toText, hleftBack, hrightBack,
      hleft.isSide_asNew.readBack_eq ((family?_asNew _).trans hterms.1),
      hright.isSide_asNew.readBack_eq ((family?_asNew _).trans hterms.2),
      toText_asNew, toText_asNew]

end Equation

namespace Timeline

variable {timeline after : Timeline} {current back : Equation} {past ahead : List Equation}

/-! ### Entries and cursor

The view in which a timeline is a list with a cursor, and what recording, undoing and redoing do in
it. -/

/-- All recorded states, oldest first. -/
def entries (timeline : Timeline) : List Text :=
  timeline.snapshots ++ timeline.ahead

/-- How many of them are not undone. The last one of these is the present state. -/
def cursor (timeline : Timeline) : Nat :=
  timeline.snapshots.length

/-- Up to the cursor are the states that are not undone. -/
theorem take_cursor_entries (timeline : Timeline) :
    timeline.entries.take timeline.cursor = timeline.snapshots :=
  List.take_left' rfl

/-- The cursor is within the entries. -/
theorem cursor_le (timeline : Timeline) : timeline.cursor ≤ timeline.entries.length := by
  rw [cursor, entries, List.length_append]
  exact Nat.le_add_right _ _

/-- Recording drops the entries behind the cursor, and adds the text unless it is the last one that
is left. -/
theorem entries_record (text : Text) (timeline : Timeline) :
    (timeline.record text).entries = timeline.entries.take timeline.cursor ++
      if (timeline.entries.take timeline.cursor).getLast? = some text then [] else [text] := by
  rw [take_cursor_entries, snapshots, List.getLast?_reverse, record]
  split
  · rfl
  · rw [entries, snapshots, List.reverse_cons, List.append_nil]

/-- After recording nothing is undone. -/
theorem cursor_record (text : Text) (timeline : Timeline) :
    (timeline.record text).cursor = (timeline.record text).entries.length := by
  have hahead : (timeline.record text).ahead = [] := by
    rw [record]
    split <;> rfl
  rw [cursor, entries, hahead, List.append_nil]

/-- An undo that succeeds goes back by one state, which is rebuilt. -/
theorem of_undo (h : timeline.undo current = (.ok (some back), after)) :
    ∃ present previous earlier, timeline.past = present :: previous :: earlier ∧
      after = ⟨previous :: earlier, present :: timeline.ahead⟩ ∧
        rebuild current previous = .ok back := by
  unfold undo at h
  split at h
  · rename_i present previous earlier hpast
    cases hrebuild : rebuild current previous with
    | error cause =>
      rw [hrebuild] at h
      cases h
    | ok equation =>
      rw [hrebuild] at h
      cases h
      exact ⟨present, previous, earlier, hpast, rfl, hrebuild⟩
  · cases h

/-- Undoing what was recorded last goes back to the state before. -/
theorem undo_record {text previous : Text} {earlier : List Text}
    (hpast : timeline.past = previous :: earlier) (hne : previous ≠ text)
    (hback : rebuild current previous = .ok back) :
    (timeline.record text).undo current = (.ok (some back), ⟨previous :: earlier, [text]⟩) := by
  have hhead : timeline.past.head? ≠ some text := by
    rw [hpast]
    exact fun h ↦ hne (Option.some.inj h)
  rw [record, if_neg hhead, hpast, undo]
  dsimp only
  rw [hback]
  rfl

/-- A redo that succeeds goes forward by one state, which is rebuilt. -/
theorem of_redo (h : timeline.redo current = (.ok (some back), after)) :
    ∃ next later, timeline.ahead = next :: later ∧ after = ⟨next :: timeline.past, later⟩ ∧
      rebuild current next = .ok back := by
  unfold redo at h
  split at h
  · cases h
  · rename_i next later hahead
    split at h
    · rename_i hrebuild
      cases h
      exact ⟨next, later, hahead, rfl, hrebuild⟩
    · cases h

/-- The cursor counts the states that are not undone. -/
theorem cursor_eq (timeline : Timeline) : timeline.cursor = timeline.past.length :=
  List.length_reverse

/-- At the first state there is nothing to undo. -/
theorem undo_of_cursor_le (h : timeline.cursor ≤ 1) (current : Equation) :
    timeline.undo current = (.ok none, timeline) := by
  unfold undo
  split
  · rename_i hpast
    rw [cursor_eq, hpast] at h
    exact absurd h (by simp)
  · rfl

/-- Anywhere else there is. -/
theorem cursor_le_of_undo (h : timeline.undo current = (.ok none, after)) :
    timeline.cursor ≤ 1 := by
  unfold undo at h
  split at h
  · rename_i previous _ _
    cases hrebuild : rebuild current previous <;> rw [hrebuild] at h <;> cases h
  · rename_i hfew
    rw [cursor_eq]
    match hpast : timeline.past with
    | [] => exact Nat.zero_le 1
    | [_] => exact Nat.le_refl 1
    | _ :: _ :: _ => exact absurd hpast (hfew _ _ _)

/-- The cursor is at the end if nothing is undone. -/
theorem cursor_eq_length_iff : timeline.cursor = timeline.entries.length ↔ timeline.ahead = [] := by
  rw [cursor, entries, List.length_append, ← List.length_eq_zero_iff]
  omega

/-- At the last state there is nothing to redo. -/
theorem redo_of_cursor_eq (h : timeline.cursor = timeline.entries.length) (current : Equation) :
    timeline.redo current = (.ok none, timeline) := by
  rw [redo, cursor_eq_length_iff.1 h]

/-- Anywhere else there is. -/
theorem cursor_eq_of_redo (h : timeline.redo current = (.ok none, after)) :
    timeline.cursor = timeline.entries.length := by
  unfold redo at h
  split at h
  · rename_i hahead
    exact cursor_eq_length_iff.2 hahead
  · split at h <;> cases h

/-! ### Histories of equations

By induction over the calls. Each of them keeps the texts of the equations in step with the
timeline, and no two neighbours among the texts equal. -/

/-- A timeline to which recording equations, undoing and redoing lead from the empty one, with the
recorded equations themselves, in the order in which their texts are kept. Undoing at the first
state and redoing at the last one are left out, as they do nothing (`undo_of_cursor_le`,
`redo_of_cursor_eq`). -/
inductive Records : Timeline → List Equation → List Equation → Prop where
  /-- At first nothing is recorded. -/
  | empty : Records empty [] []
  /-- An equation is recorded, unless its text is the present one, and what was undone is
  dropped. -/
  | record {timeline : Timeline} {past ahead : List Equation} {equation : Equation}
    (h : Records timeline past ahead) (hequation : equation.ComesFromExpressions) :
    Records (timeline.record equation.toText)
      (if timeline.past.head? = some equation.toText then past else equation :: past) []
  /-- An undo that succeeds takes the present equation to the undone ones. -/
  | undo {timeline after : Timeline} {earlier ahead : List Equation}
    {present previous current back : Equation}
    (h : Records timeline (present :: previous :: earlier) ahead)
    (hundo : timeline.undo current = (.ok (some back), after)) :
    Records after (previous :: earlier) (present :: ahead)
  /-- A redo that succeeds takes it back. -/
  | redo {timeline after : Timeline} {past later : List Equation} {next current back : Equation}
    (h : Records timeline past (next :: later))
    (hredo : timeline.redo current = (.ok (some back), after)) :
    Records after (next :: past) later

namespace Records

/-- Recording an equation that is not the present one. -/
theorem record_new {equation : Equation} (h : Records timeline past ahead)
    (hequation : equation.ComesFromExpressions)
    (hne : timeline.past.head? ≠ some equation.toText) :
    Records (timeline.record equation.toText) (equation :: past) [] := by
  have hrecord := h.record hequation
  rwa [if_neg hne] at hrecord

/-- The timeline holds the texts of the recorded equations. -/
theorem texts (h : Records timeline past ahead) :
    timeline.past = past.map Equation.toText ∧ timeline.ahead = ahead.map Equation.toText := by
  induction h with
  | empty => exact ⟨rfl, rfl⟩
  | record h hequation ih =>
    rw [Timeline.record]
    split
    · exact ⟨ih.1, rfl⟩
    · exact ⟨congrArg _ ih.1, rfl⟩
  | undo h hundo ih =>
    obtain ⟨present, previous, earlier, hpast, rfl, -⟩ := of_undo hundo
    obtain ⟨rfl, hrest⟩ := List.cons_eq_cons.1 (hpast.symm.trans ih.1)
    exact ⟨hrest, congrArg _ ih.2⟩
  | redo h hredo ih =>
    obtain ⟨next, later, hahead, rfl, -⟩ := of_redo hredo
    obtain ⟨rfl, hrest⟩ := List.cons_eq_cons.1 (hahead.symm.trans ih.2)
    exact ⟨congrArg _ ih.1, hrest⟩

/-- All recorded equations come from expressions. -/
theorem comesFromExpressions (h : Records timeline past ahead) :
    ∀ equation ∈ past ++ ahead, equation.ComesFromExpressions := by
  induction h with
  | empty => exact List.forall_mem_nil _
  | @record timeline past ahead equation h hequation ih =>
    obtain ⟨hpast, -⟩ := List.forall_mem_append.1 ih
    rw [List.append_nil]
    split
    · exact hpast
    · exact List.forall_mem_cons.2 ⟨hequation, hpast⟩
  | undo h hundo ih =>
    obtain ⟨hpast, hahead⟩ := List.forall_mem_append.1 ih
    obtain ⟨hpresent, hrest⟩ := List.forall_mem_cons.1 hpast
    exact List.forall_mem_append.2 ⟨hrest, List.forall_mem_cons.2 ⟨hpresent, hahead⟩⟩
  | redo h hredo ih =>
    obtain ⟨hpast, hahead⟩ := List.forall_mem_append.1 ih
    obtain ⟨hnext, hrest⟩ := List.forall_mem_cons.1 hahead
    exact List.forall_mem_append.2 ⟨List.forall_mem_cons.2 ⟨hnext, hpast⟩, hrest⟩

end Records

/-- Moving the cursor over an entry changes no entry. -/
theorem entries_move (text : Text) (past ahead : List Text) :
    entries ⟨past, text :: ahead⟩ = entries ⟨text :: past, ahead⟩ := by
  simp [entries, snapshots]

/-- No two neighbours among the entries are equal. -/
theorem Records.isChain (h : Records timeline past ahead) : timeline.entries.IsChain (· ≠ ·) := by
  induction h with
  | empty => exact .nil
  | @record timeline _ _ equation h _ ih =>
    have hkept : timeline.snapshots.IsChain (· ≠ ·) := ih.left_of_append
    rw [entries_record, take_cursor_entries]
    split
    · rwa [List.append_nil]
    · rename_i hlast
      refine List.isChain_append.2 ⟨hkept, .singleton _, fun last hmem text htext ↦ ?_⟩
      obtain rfl : equation.toText = text := Option.some.inj htext
      rintro rfl
      exact hlast hmem
  | undo h hundo ih =>
    obtain ⟨present, previous, earlier, hpast, rfl, -⟩ := of_undo hundo
    rw [entries_move, ← hpast]
    exact ih
  | redo h hredo ih =>
    obtain ⟨next, later, hahead, rfl, -⟩ := of_redo hredo
    rw [← entries_move, ← hahead]
    exact ih

/-- What undoing and redoing lead to: the cursor stays within the entries, which are as before, and
the equation that was recorded at the cursor comes back. -/
structure Moves (timeline after : Timeline) (recorded : List Equation)
    (back : Equation) : Prop where
  /-- No entry is changed. -/
  entries : after.entries = timeline.entries
  /-- The cursor is behind some entry. -/
  within : 1 ≤ after.cursor ∧ after.cursor ≤ timeline.entries.length
  /-- The entry in front of the cursor is restored. -/
  restores : ∃ equation, (recorded.take after.cursor).getLast? = some equation ∧
    equation.Restores back

/-- The equation that was recorded last up to the cursor is rebuilt. -/
theorem moves_of_rebuild {equation : Equation} {earlier later : List Equation}
    (horacle : current.oracle.rationalize = Oracle.exactFraction)
    (hequation : equation.ComesFromExpressions) (hentries : after.entries = timeline.entries)
    (hpast : after.past = (equation :: earlier).map Equation.toText)
    (hback : rebuild current equation.toText = .ok back) :
    timeline.Moves after ((equation :: earlier).reverse ++ later) back := by
  have hcursor : after.cursor = (equation :: earlier).reverse.length := by
    rw [cursor_eq, hpast, List.length_map, List.length_reverse]
  refine ⟨hentries, ⟨?_, hentries ▸ after.cursor_le⟩, equation, ?_, ?_⟩
  · rw [hcursor, List.length_reverse]
    exact Nat.succ_le_succ (Nat.zero_le _)
  · rw [List.take_left' hcursor.symm, List.getLast?_reverse]
    rfl
  · exact hequation.restores horacle hback

/-- **Undoing** moves the cursor back by one entry and restores the equation there. -/
theorem Records.moves_of_undo (h : Records timeline past ahead)
    (horacle : current.oracle.rationalize = Oracle.exactFraction)
    (hundo : timeline.undo current = (.ok (some back), after)) :
    after.cursor + 1 = timeline.cursor ∧ timeline.Moves after (past.reverse ++ ahead) back := by
  obtain ⟨present, previous, earlier, hpast, rfl, hback⟩ := of_undo hundo
  obtain ⟨presentEquation, rest, rfl, rfl, hrest⟩ :=
    List.map_eq_cons_iff.1 (h.texts.1.symm.trans hpast)
  obtain ⟨equation, others, rfl, rfl, rfl⟩ := List.map_eq_cons_iff.1 hrest
  refine ⟨?_, ?_⟩
  · rw [cursor_eq, cursor_eq, hpast]
    rfl
  · rw [List.reverse_cons, List.append_assoc]
    refine moves_of_rebuild horacle (h.comesFromExpressions equation (by simp)) ?_ rfl hback
    rw [entries_move, ← hpast]

/-- **Redoing** moves it forward by one and restores the equation there. -/
theorem Records.moves_of_redo (h : Records timeline past ahead)
    (horacle : current.oracle.rationalize = Oracle.exactFraction)
    (hredo : timeline.redo current = (.ok (some back), after)) :
    after.cursor = timeline.cursor + 1 ∧ timeline.Moves after (past.reverse ++ ahead) back := by
  obtain ⟨next, later, hahead, rfl, hback⟩ := of_redo hredo
  obtain ⟨equation, others, rfl, rfl, rfl⟩ := List.map_eq_cons_iff.1 (h.texts.2.symm.trans hahead)
  refine ⟨?_, ?_⟩
  · rw [cursor_eq, cursor_eq, List.length_cons]
  · have hmoved : past.reverse ++ equation :: others = (equation :: past).reverse ++ others := by
      rw [List.reverse_cons, List.append_assoc, List.singleton_append]
    rw [hmoved]
    refine moves_of_rebuild horacle (h.comesFromExpressions equation (by simp)) ?_
      (congrArg _ h.texts.1) hback
    rw [← entries_move, ← hahead]

/-- **A history is a timeline with a cursor**, for every sequence of recording equations, undoing
and redoing in which all that is rebuilt can be read. No two neighbours among the entries are equal.
Recording drops what is behind the cursor and adds the text of the equation, unless it is the last
one that is left. Undoing and redoing move the cursor by one entry, and do nothing at the ends. They
give the equation that was recorded at the cursor, as it was if and only if its sides hold terms. -/
theorem isTimeline_of_records (h : Records timeline past ahead) :
    timeline.entries.IsChain (· ≠ ·) ∧
    (∀ equation : Equation,
      let recorded := timeline.record equation.toText
      recorded.entries = timeline.entries.take timeline.cursor ++
        (if (timeline.entries.take timeline.cursor).getLast? = some equation.toText then []
          else [equation.toText]) ∧ recorded.cursor = recorded.entries.length) ∧
    (∀ current result after, current.oracle.rationalize = Oracle.exactFraction →
      timeline.undo current = (.ok result, after) →
        if timeline.cursor ≤ 1 then result = none ∧ after = timeline
        else after.cursor + 1 = timeline.cursor ∧
          ∃ back, result = some back ∧ timeline.Moves after (past.reverse ++ ahead) back) ∧
    (∀ current result after, current.oracle.rationalize = Oracle.exactFraction →
      timeline.redo current = (.ok result, after) →
        if timeline.cursor = timeline.entries.length then result = none ∧ after = timeline
        else after.cursor = timeline.cursor + 1 ∧
          ∃ back, result = some back ∧ timeline.Moves after (past.reverse ++ ahead) back) := by
  refine ⟨h.isChain, fun equation ↦ ⟨entries_record _ _, cursor_record _ _⟩,
    fun current result after horacle hundo ↦ ?_, fun current result after horacle hredo ↦ ?_⟩
  · split
    · rename_i hfirst
      cases (undo_of_cursor_le hfirst current).symm.trans hundo
      exact ⟨rfl, rfl⟩
    · rename_i hlater
      cases result with
      | none => exact absurd (cursor_le_of_undo hundo) hlater
      | some back =>
        obtain ⟨hcursor, hmoves⟩ := h.moves_of_undo horacle hundo
        exact ⟨hcursor, back, rfl, hmoves⟩
  · split
    · rename_i hlast
      cases (redo_of_cursor_eq hlast current).symm.trans hredo
      exact ⟨rfl, rfl⟩
    · rename_i hearlier
      cases result with
      | none => exact absurd (cursor_eq_of_redo hredo) hearlier
      | some back =>
        obtain ⟨hcursor, hmoves⟩ := h.moves_of_redo horacle hredo
        exact ⟨hcursor, back, rfl, hmoves⟩

/-- Recording `1-x=2` and `x=3` and undoing gives `1-x=2`, as it was. -/
theorem isTimeline_of_records_difference : ∃ first second back after,
    Equation.new "1-x".toList "2".toList = .ok first ∧
      Equation.new "x".toList "3".toList = .ok second ∧
      ((empty.record (first.number 0).1.toText).record (second.number 0).1.toText).undo
        (second.number 0).1 = (.ok (some back), after) ∧
          after.cursor = 1 ∧ after.entries = ["1-x=2".toList, "x=3".toList] ∧
            back.toText = "1-x=2".toList ∧ ∀ side ∈ [Equation.left, Equation.right],
              (side back).sameStructure (side (first.number 0).1) = true := by
  have hfacts : ((Equation.new "1-x".toList "2".toList).toOption.map fun first ↦ decide
      (((Equation.new "x".toList "3".toList).toOption.map fun second ↦ decide
        ((first.number 0).1.toText = "1-x=2".toList ∧ (second.number 0).1.toText = "x=3".toList ∧
          (first.number 0).1.left.family? = some .sum ∧
            (first.number 0).1.right.family? = some .sum ∧
            ((rebuild (second.number 0).1 (first.number 0).1.toText).toOption.map fun _ ↦
              decide True) = some true)) = some true)) = some true := by
    decide +kernel
  obtain ⟨first, hfirst, hfacts⟩ := Except.exists_ok_of_toOption hfacts
  obtain ⟨second, hsecond, htext, hotherText, hleft, hright, hfacts⟩ :=
    Except.exists_ok_of_toOption hfacts
  obtain ⟨back, hback, -⟩ := Except.exists_ok_of_toOption hfacts
  have hne : (first.number 0).1.toText ≠ (second.number 0).1.toText := by
    rw [htext, hotherText]
    decide
  have hundo :=
    undo_record (show (empty.record (first.number 0).1.toText).past = [_] from rfl) hne hback
  have hfirstComes : (first.number 0).1.ComesFromExpressions :=
    Equation.comesFromExpressions_of_ofSides (isExpression_of_eq rfl (by decide))
      (isExpression_of_eq rfl (by decide)) rfl hfirst 0
  have hsecondComes : (second.number 0).1.ComesFromExpressions :=
    Equation.comesFromExpressions_of_ofSides (isExpression_of_eq rfl (by decide))
      (isExpression_of_eq rfl (by decide)) rfl hsecond 0
  have hrecords := (Records.empty.record_new hfirstComes nofun).record_new hsecondComes
    (fun h ↦ hne (Option.some.inj h))
  obtain ⟨-, -, hundone, -⟩ := isTimeline_of_records hrecords
  have horacle : (second.number 0).1.oracle.rationalize = Oracle.exactFraction :=
    congrArg Oracle.rationalize (Equation.exists_of_ofSides hsecond).2.1
  have hmoved := hundone _ _ _ horacle hundo
  rw [if_neg fun hcursor ↦ nomatch (undo_of_cursor_le hcursor _).symm.trans hundo] at hmoved
  obtain ⟨hcursor, other, hother, hentries, -, equation, hequation, hrestores⟩ := hmoved
  cases hother
  obtain rfl : (first.number 0).1 = equation := Option.some.inj hequation
  refine ⟨first, second, back, _, hfirst, hsecond, hundo, rfl, ?_, ?_,
    hrestores.sameStructure_iff.2 ⟨hleft, hright⟩⟩
  · rw [← htext, ← hotherText]
    rfl
  · rw [hrestores.toText ⟨hleft, hright⟩, htext]

/-- Recording `((2*x))=1` and undoing to it gives an equation with a term on its left side, where
two factors were recorded. -/
theorem not_restored_enclosed : IsExpression "((2*x))".toList ∧ IsExpression "1".toList ∧
    ∃ first second back after,
      Equation.new "((2*x))".toList "1".toList = .ok first ∧
        Equation.new "1".toList "((2*x))".toList = .ok second ∧
          ((empty.record (first.number 0).1.toText).record (second.number 0).1.toText).undo
            (second.number 0).1 = (.ok (some back), after) ∧
              (back.left.sameStructure (first.number 0).1.left = false) := by
  have hfacts : ((Equation.new "((2*x))".toList "1".toList).toOption.map fun first ↦ decide
      (((Equation.new "1".toList "((2*x))".toList).toOption.map fun second ↦ decide
        ((first.number 0).1.toText ≠ (second.number 0).1.toText ∧
          ((rebuild (second.number 0).1 (first.number 0).1.toText).toOption.map fun back ↦ decide
            (back.left.sameStructure (first.number 0).1.left = false)) = some true)) = some true)) =
              some true := by
    decide +kernel
  obtain ⟨first, hfirst, hfacts⟩ := Except.exists_ok_of_toOption hfacts
  obtain ⟨second, hsecond, hne, hfacts⟩ := Except.exists_ok_of_toOption hfacts
  obtain ⟨back, hback, hdiffers⟩ := Except.exists_ok_of_toOption hfacts
  exact ⟨isExpression_of_eq rfl (by decide), isExpression_of_eq rfl (by decide), first,
    second, back, _, hfirst, hsecond, undo_record rfl hne hback, hdiffers⟩

end Timeline

end EquationSteps
