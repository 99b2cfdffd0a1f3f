import EquationSteps.Proofs.Canonical.ReadBack
import EquationSteps.Proofs.Equation.Soundness
import EquationSteps.Session.Timeline

/-!
# Reading an equation back

A timeline keeps the recorded states of an equation as texts, so a state can be returned to only if
its text is read. The text of an equation is cut where it should be, since no side has a sign of
equality in it (`Node.IsSide.not_mem_toText`), and each side is read if it nests within the limit.
So reading an equation back succeeds if and only if both sides nest within the limit, and it then
gives the sides that `Node.readBack` says (`Equation.ofSides_toText`, `Equation.rebuild_toText`).

The limit is on texts, and normalization may make a text nest deeper: `x/x/x` becomes `(x/x)/x`. So
an equation can be built of which the text is not read again
(`Equation.not_read_back_quotientChain`).

**The condition can be computed.** `NestsWithin` is about two numbers that are read off the sides,
so for a given equation it is decided by evaluation, and it does not mention a text. The theorems
are equations whose right side asks for it, which says both when reading succeeds and what it gives.

**Two ways to read an equation**: as a text of its own, under the standard limits and with the exact
oracle, or as a recorded state, under the limits and with the oracle of the equation that is there
now. For equations that were read in the first way they are the same (`ofText_eq_rebuild`), and no
edit changes limits or oracle.
-/

namespace EquationSteps

variable {rationalize : Text → Except ValueError Text} {limits : Limits} {oracle : Oracle}
  {equation current : Equation} {text left right : Text}

/-- No side has a sign of equality in its text. -/
theorem Node.IsSide.not_mem_toText {side : Node} (h : side.IsSide rationalize) :
    '=' ∉ side.toText := by
  obtain ⟨tag, first, rest, rfl⟩ := (isCanonical_iff.1 h.canonical).1.exists_group h.root
  intro hmem
  have hgenerated := h.isExpression_toText.1
  rw [IsExpression, h.scanned_toText] at hgenerated
  rcases hgenerated.isStructural_or_of_mem _ hmem with hc | hc | hc
  · exact absurd hc (by decide)
  · exact absurd hc (by decide)
  · exact absurd hc (by decide)

namespace Equation

/-- Whether the texts of both sides nest within the limit. -/
def NestsWithin (limits : Limits) (equation : Equation) : Prop :=
  equation.left.nesting ≤ limits.depth + 1 ∧ equation.right.nesting ≤ limits.depth + 1

instance (limits : Limits) (equation : Equation) : Decidable (equation.NestsWithin limits) :=
  inferInstanceAs (Decidable (_ ∧ _))

/-- The equation that is read from the texts of both sides. -/
def readBack (limits : Limits) (oracle : Oracle) (equation : Equation) : Equation where
  left := equation.left.readBack
  right := equation.right.readBack
  limits := limits
  oracle := oracle

/-- **Reading the texts of both sides** gives the sides that are read back, if both nest within the
limit. -/
theorem ofSides_toText (hleft : equation.left.IsSide oracle.rationalize)
    (hright : equation.right.IsSide oracle.rationalize) (hpasses : 2 ≤ limits.passes) :
    ofSides limits oracle equation.left.toText equation.right.toText =
      if equation.NestsWithin limits then .ok (equation.readBack limits oracle)
      else .error (.nestingTooDeep limits.depth) := by
  by_cases hnestsLeft : equation.left.nesting ≤ limits.depth + 1
  · obtain ⟨left, passes, hreadLeft, hnormalizeLeft⟩ :=
      hleft.exists_read_normalize hnestsLeft hpasses
    by_cases hnestsRight : equation.right.nesting ≤ limits.depth + 1
    · obtain ⟨right, passes', hreadRight, hnormalizeRight⟩ :=
        hright.exists_read_normalize hnestsRight hpasses
      have hsettles : normalize { left, right, limits, oracle } =
          (.ok (), equation.readBack limits oracle) := by
        simp [normalize, normalizeSide, hnormalizeLeft, hnormalizeRight, Except.map, readBack]
      rw [if_pos ⟨hnestsLeft, hnestsRight⟩, ofSides, hreadLeft, hreadRight]
      dsimp only [bind, Except.bind]
      rw [hsettles]
    · rw [if_neg fun hnests ↦ hnestsRight hnests.2, ofSides, hreadLeft,
        hright.read_eq_error hnestsRight]
      rfl
  · rw [if_neg fun hnests ↦ hnestsLeft hnests.1, ofSides, hleft.read_eq_error hnestsLeft]
    rfl

/-- The text of an equation is cut between its sides. -/
theorem cut?_toText (hleft : equation.left.IsSide rationalize) :
    Text.cut? '=' equation.toText = some (equation.left.toText, equation.right.toText) :=
  Text.cut?_append hleft.not_mem_toText _

/-- **Returning to a recorded state** gives the sides that are read back, if both nest within the
limit. -/
theorem rebuild_toText (hleft : equation.left.IsSide current.oracle.rationalize)
    (hright : equation.right.IsSide current.oracle.rationalize)
    (hpasses : 2 ≤ current.limits.passes) :
    Timeline.rebuild current equation.toText =
      if equation.NestsWithin current.limits then
        .ok (equation.readBack current.limits current.oracle)
      else .error (.tree (.nestingTooDeep current.limits.depth)) := by
  rw [Timeline.rebuild, cut?_toText hleft]
  dsimp only [readLike]
  rw [ofSides_toText hleft hright hpasses]
  by_cases hnests : equation.NestsWithin current.limits
  · rw [if_pos hnests, if_pos hnests]
  · rw [if_neg hnests, if_neg hnests]

/-- Reading the text of an equation is returning to it, under the standard limits and with the exact
oracle. -/
theorem ofText_eq_rebuild (hlimits : current.limits = .standard)
    (horacle : current.oracle = .exact .standard) (text : Text) :
    ofText text = Timeline.rebuild current text := by
  have hread : ∀ left right, current.readLike left right = new left right := fun left right ↦ by
    rw [readLike, hlimits, horacle, new]
  rw [ofText, Timeline.rebuild]
  cases Text.cut? '=' text with
  | none => rfl
  | some sides =>
    obtain ⟨left, right⟩ := sides
    cases hnew : new left right <;> simp [hread, hnew]

/-- An equation that was read is under the standard limits and has the exact oracle, and under these
each of its states is returned to if both sides nest within the limit. -/
theorem rebuild_of_ofText (hcut : Text.cut? '=' text = some (left, right))
    (hleft : IsExpression left) (hright : IsExpression right) (h : ofText text = .ok equation) :
    equation.limits = .standard ∧ equation.oracle = .exact .standard ∧
      ∀ current : Equation, current.limits = .standard → current.oracle = .exact .standard →
        Timeline.rebuild current equation.toText =
          if equation.NestsWithin .standard then .ok
            (equation.readBack .standard (.exact .standard))
          else .error (.tree (.nestingTooDeep 64)) := by
  rw [ofText, hcut] at h
  dsimp only at h
  split at h
  · rename_i hnew
    cases h
    obtain ⟨hlimits, horacle, hleftSide, hrightSide⟩ := of_new hleft hright hnew
    refine ⟨hlimits, horacle, fun current hcurrentLimits hcurrentOracle ↦ ?_⟩
    have hrationalize : current.oracle.rationalize = Oracle.exactFraction :=
      congrArg Oracle.rationalize hcurrentOracle
    have hpasses : 2 ≤ current.limits.passes := by
      rw [hcurrentLimits]
      decide
    have hread := rebuild_toText (hrationalize ▸ hleftSide) (hrationalize ▸ hrightSide) hpasses
    rwa [hcurrentLimits, hcurrentOracle] at hread
  · cases h

/-- **An equation that was read can be read back if and only if both sides nest within the limit**,
and so it is with undoing to its state. Otherwise the text nests too deep. -/
theorem ofText_toText_iff (hcut : Text.cut? '=' text = some (left, right))
    (hleft : IsExpression left) (hright : IsExpression right) (h : ofText text = .ok equation) :
    ((∃ again, ofText equation.toText = .ok again) ↔ equation.NestsWithin .standard) ∧
      (¬equation.NestsWithin .standard →
        ofText equation.toText = .error (.tree (.nestingTooDeep 64))) ∧
      ∀ (current : Equation) (present : Text) (earlier ahead : List Text),
        current.limits = equation.limits → current.oracle = equation.oracle →
        ((∃ again, (Timeline.undo current ⟨present :: equation.toText :: earlier, ahead⟩).1 =
          .ok (some again)) ↔ equation.NestsWithin .standard) := by
  obtain ⟨hlimits, horacle, hrebuild⟩ := rebuild_of_ofText hcut hleft hright h
  have hreturns : ∀ current : Equation, current.limits = .standard →
      current.oracle = .exact .standard →
      ((∃ again, Timeline.rebuild current equation.toText = .ok again) ↔
        equation.NestsWithin .standard) := by
    intro current hcurrentLimits hcurrentOracle
    rw [hrebuild current hcurrentLimits hcurrentOracle]
    by_cases hnests : equation.NestsWithin .standard
    · exact iff_of_true ⟨_, if_pos hnests⟩ hnests
    · rw [if_neg hnests]
      exact iff_of_false (fun ⟨_, h⟩ ↦ nomatch h) hnests
  rw [ofText_eq_rebuild hlimits horacle]
  refine ⟨hreturns equation hlimits horacle, fun hnests ↦ ?_,
    fun current present earlier ahead hsameLimits hsameOracle ↦ ?_⟩
  · rw [hrebuild equation hlimits horacle, if_neg hnests]
  · rw [← hreturns current (hsameLimits.trans hlimits) (hsameOracle.trans horacle), Timeline.undo]
    cases hread : Timeline.rebuild current equation.toText <;> simp [hread, Except.map]

/-- `1-x=2` can be read back. -/
theorem ofText_toText_difference : ∃ equation, ofText "1-x=2".toList = .ok equation ∧
    (∃ again, ofText equation.toText = .ok again) ∧ ∀ present : Text,
      ∃ again, (Timeline.undo equation ⟨[present, equation.toText], []⟩).1 = .ok (some again) := by
  have hcut : Text.cut? '=' "1-x=2".toList = some ("1-x".toList, "2".toList) := rfl
  have hnests :
      (ofText "1-x=2".toList).toOption.map
        (fun equation ↦ decide (equation.NestsWithin .standard)) =
      some true := by decide +kernel
  cases h : ofText "1-x=2".toList with
  | error cause =>
    rw [h] at hnests
    cases hnests
  | ok equation =>
    rw [h] at hnests
    have hnests : equation.NestsWithin .standard := of_decide_eq_true (Option.some.inj hnests)
    obtain ⟨hread, -, hundo⟩ := ofText_toText_iff hcut (isExpression_of_eq rfl (by decide))
      (isExpression_of_eq rfl (by decide)) h
    exact ⟨equation, rfl, hread.2 hnests,
      fun present ↦ (hundo equation present [] [] rfl rfl).2 hnests⟩

/-- A letter divided by itself so many times, as a text. -/
def quotientChain (count : Nat) : Text :=
  'x' :: (List.replicate count ['/', 'x']).flatten

/-- With 65 divisions the text of the equation is refused, though the text it was read from does not
nest at all, and its state cannot be returned to. -/
theorem not_read_back_quotientChain :
    Text.cut? '=' (quotientChain 65 ++ "=1".toList) = some (quotientChain 65, "1".toList) ∧
      IsExpression (quotientChain 65) ∧ IsExpression "1".toList ∧
      ∃ equation, ofText (quotientChain 65 ++ "=1".toList) = .ok equation ∧
        ofText equation.toText = .error (.tree (.nestingTooDeep 64)) ∧
        (Timeline.undo equation.swapSides ⟨[equation.swapSides.toText, equation.toText], []⟩).1 =
          .error (.tree (.nestingTooDeep 64)) := by
  have hcut : Text.cut? '=' (quotientChain 65 ++ "=1".toList) =
      some (quotientChain 65, "1".toList) := by
    decide +kernel
  have hexpression : IsExpression (quotientChain 65) :=
    isExpression_of_eq (by decide +kernel) (by decide +kernel)
  have hone : IsExpression "1".toList := isExpression_of_eq rfl (by decide)
  have hnests : (ofText (quotientChain 65 ++ "=1".toList)).toOption.map (fun equation ↦
      decide (equation.NestsWithin .standard)) = some false := by decide +kernel
  cases h : ofText (quotientChain 65 ++ "=1".toList) with
  | error cause =>
    rw [h] at hnests
    cases hnests
  | ok equation =>
    rw [h] at hnests
    have hnests : ¬equation.NestsWithin .standard := of_decide_eq_false (Option.some.inj hnests)
    obtain ⟨hlimits, horacle, hrebuild⟩ := rebuild_of_ofText hcut hexpression hone h
    refine ⟨hcut, hexpression, hone, equation, rfl, ?_, ?_⟩
    · rw [ofText_eq_rebuild hlimits horacle, hrebuild equation hlimits horacle, if_neg hnests]
    · have hundo : (Timeline.undo equation.swapSides
          ⟨[equation.swapSides.toText, equation.toText], []⟩).1 =
            (Timeline.rebuild equation.swapSides equation.toText).map some := rfl
      rw [hundo, hrebuild equation.swapSides hlimits horacle, if_neg hnests]
      rfl

end Equation

end EquationSteps
