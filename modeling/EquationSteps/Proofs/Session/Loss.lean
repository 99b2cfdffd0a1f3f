import EquationSteps.Proofs.Session.Timeline

/-!
# What histories lose

Undoing has moved the cursor when it rebuilds the state that it goes to, so it keeps all entries,
whether that state can be rebuilt or not (`Timeline.entries_undo`). Redoing takes the state off the
timeline first and puts it back once it is rebuilt. So a redo keeps the entries exactly if it does
not fail (`Timeline.entries_redo_iff`), and a state that cannot be rebuilt at one time is gone for
good.

Undoing and redoing in a row, whatever the calls return, loses one entry with each redo that fails
and no other (`Timeline.length_entries_visit`).

**A redo does fail.** A recorded text was printed for an equation that was accepted, and still it
may not be read: settling may have made a tree deeper than the limits allow to be read, and the
limits and the oracle are those of the equation at hand, not of the one that was recorded. The first
of the two happens within one session (`Timeline.not_kept_divided`).

**Calls, not runs.** The equations at hand are given with the calls and may be any. Nothing is
assumed of the history either, so what is said holds of every timeline, not only of those that
recording leads to.
-/

namespace EquationSteps.Timeline

variable {timeline : Timeline} {current : Equation}

/-! ### One call

What each of the two calls does to the entries, by what it returns. -/

/-- Undoing keeps the entries, whatever it returns. -/
theorem entries_undo (timeline : Timeline) (current : Equation) :
    (timeline.undo current).2.entries = timeline.entries := by
  unfold undo
  split
  · rename_i present previous earlier hpast
    obtain ⟨past, ahead⟩ := timeline
    obtain rfl : past = present :: previous :: earlier := hpast
    exact entries_move present (previous :: earlier) ahead
  · rfl

/-- Redoing without a failure keeps the entries. -/
theorem entries_redo_of_ok {result : Option Equation} (h : (timeline.redo current).1 = .ok result) :
    (timeline.redo current).2.entries = timeline.entries := by
  unfold redo at h ⊢
  split
  · rfl
  · rename_i next later hahead
    rw [hahead] at h
    obtain ⟨past, ahead⟩ := timeline
    obtain rfl : ahead = next :: later := hahead
    dsimp only at h ⊢
    split
    · exact (entries_move next past later).symm
    · rename_i hrebuild
      rw [hrebuild] at h
      cases h

/-- Redoing with a failure drops the entry behind the cursor. -/
theorem of_redo_eq_error {cause : InputError} (h : (timeline.redo current).1 = .error cause) :
    timeline.cursor < timeline.entries.length ∧
      (timeline.redo current).2.entries = timeline.entries.eraseIdx timeline.cursor := by
  unfold redo at h ⊢
  split
  · rename_i hahead
    rw [hahead] at h
    cases h
  · rename_i next later hahead
    rw [hahead] at h
    obtain ⟨past, ahead⟩ := timeline
    obtain rfl : ahead = next :: later := hahead
    dsimp only at h ⊢
    split
    · rename_i hrebuild
      rw [hrebuild] at h
      cases h
    · refine ⟨?_, ?_⟩
      · rw [cursor, entries, List.length_append]
        exact Nat.lt_add_of_pos_right (Nat.succ_pos _)
      · rw [entries, entries, cursor,
          List.eraseIdx_append_of_length_le (Nat.le_refl _), Nat.sub_self]
        rfl

/-- Redoing keeps the entries exactly if it does not fail. -/
theorem entries_redo_iff : (timeline.redo current).2.entries = timeline.entries ↔
    ∃ result, (timeline.redo current).1 = .ok result := by
  constructor
  · intro hkept
    cases hresult : (timeline.redo current).1 with
    | ok result => exact ⟨result, rfl⟩
    | error cause =>
      obtain ⟨hcursor, hdropped⟩ := of_redo_eq_error hresult
      have hlength := congrArg List.length (hdropped.symm.trans hkept)
      rw [List.length_eraseIdx_of_lt hcursor] at hlength
      omega
  · rintro ⟨result, hresult⟩
    exact entries_redo_of_ok hresult

/-! ### Calls in a row

The number of entries goes down by one with each redo that fails. As entries are only dropped, they
are as before exactly if their number is. -/

/-- A call to go back or forward, with the equation at hand. -/
inductive Call where
  /-- Go back by one state. -/
  | undo (current : Equation)
  /-- Go forward by one state. -/
  | redo (current : Equation)

namespace Call

/-- What a call returns, and the timeline after it. -/
def run (timeline : Timeline) : Call → Except InputError (Option Equation) × Timeline
  | undo current => timeline.undo current
  | redo current => timeline.redo current

/-- Whether a call is a redo that fails. -/
def fails (timeline : Timeline) : Call → Bool
  | undo _ => false
  | redo current => !(timeline.redo current).1.isOk

/-- A call drops at most one entry, and it does so if it is a redo that fails. -/
theorem entries_run (timeline : Timeline) (call : Call) :
    (call.run timeline).2.entries.Sublist timeline.entries ∧
      (call.run timeline).2.entries.length + (call.fails timeline).toNat =
        timeline.entries.length := by
  cases call with
  | undo current =>
    show ((timeline.undo current).2.entries.Sublist timeline.entries) ∧ _ + 0 = _
    rw [run, entries_undo]
    exact ⟨List.Sublist.refl _, rfl⟩
  | redo current =>
    rw [run, fails]
    cases hresult : (timeline.redo current).1 with
    | ok result =>
      rw [entries_redo_of_ok hresult]
      exact ⟨List.Sublist.refl _, rfl⟩
    | error cause =>
      obtain ⟨hcursor, hdropped⟩ := of_redo_eq_error hresult
      rw [hdropped, List.length_eraseIdx_of_lt hcursor]
      refine ⟨List.eraseIdx_sublist _ _, ?_⟩
      show timeline.entries.length - 1 + 1 = timeline.entries.length
      omega

end Call

/-- The timeline after several calls, whatever they return. -/
def visit : List Call → Timeline → Timeline
  | [], timeline => timeline
  | call :: calls, timeline => visit calls (call.run timeline).2

/-- How many of several calls are redos that fail. -/
def failures : List Call → Timeline → Nat
  | [], _ => 0
  | call :: calls, timeline => (call.fails timeline).toNat + failures calls (call.run timeline).2

/-- Several calls drop one entry for each redo that fails among them. -/
theorem length_entries_visit (calls : List Call) (timeline : Timeline) :
    (visit calls timeline).entries.Sublist timeline.entries ∧
      (visit calls timeline).entries.length + failures calls timeline =
        timeline.entries.length := by
  induction calls generalizing timeline with
  | nil => exact ⟨List.Sublist.refl _, rfl⟩
  | cons call calls ih =>
    obtain ⟨hfirst, hfirstLength⟩ := call.entries_run timeline
    obtain ⟨hrest, hrestLength⟩ := ih (call.run timeline).2
    refine ⟨hrest.trans hfirst, ?_⟩
    rw [visit, failures]
    omega

/-- **What undoing and redoing keep of a history**, for every history and every equation at hand.
Undoing keeps all entries, whatever it returns. Redoing keeps them exactly if it does not fail, and
if it fails, the entry behind the cursor is dropped and cannot be redone any more. So calls in a row
keep all entries exactly if no redo among them fails. -/
theorem keeps_entries_iff (timeline : Timeline) :
    (∀ current, (timeline.undo current).2.entries = timeline.entries) ∧
    (∀ current, (timeline.redo current).2.entries = timeline.entries ↔
      ∃ result, (timeline.redo current).1 = .ok result) ∧
    (∀ current cause, (timeline.redo current).1 = .error cause →
      (timeline.redo current).2.entries = timeline.entries.eraseIdx timeline.cursor) ∧
    ∀ calls, (visit calls timeline).entries = timeline.entries ↔ failures calls timeline = 0 := by
  refine ⟨timeline.entries_undo, fun current ↦ entries_redo_iff,
    fun current cause h ↦ (of_redo_eq_error h).2, fun calls ↦ ?_⟩
  obtain ⟨hsublist, hlength⟩ := length_entries_visit calls timeline
  constructor
  · intro hkept
    rw [hkept] at hlength
    omega
  · intro hnone
    exact hsublist.eq_of_length (by omega)

/-- Under a limit of one level, `x=1` is divided by `2` and by `3`, which is recorded and undone.
The redo fails, as `x/(2*3)` nests too deeply, and the recorded state is lost. -/
theorem not_kept_divided : ∃ first once twice back after,
    Equation.ofSides ⟨1, 256⟩ (.exact ⟨1, 256⟩) "x".toList "1".toList = .ok first ∧
      (first.divide "2".toList).answeredBy first.oracle = (.ok (), once) ∧
        (once.divide "3".toList).answeredBy once.oracle = (.ok (), twice) ∧
          ((empty.record first.toText).record twice.toText).undo twice = (.ok (some back), after) ∧
            (after.redo back).1 = .error (.tree (.nestingTooDeep 1)) ∧
              (after.redo back).2.entries ≠ after.entries := by
  have hfacts : ((Equation.ofSides ⟨1, 256⟩ (.exact ⟨1, 256⟩) "x".toList "1".toList).toOption.map
      fun first ↦
        let once := (first.divide "2".toList).answeredBy first.oracle
        let twice := (once.2.divide "3".toList).answeredBy once.2.oracle
        decide (once.1 = .ok () ∧ twice.1 = .ok () ∧ first.toText ≠ twice.2.toText ∧
          ((rebuild twice.2 first.toText).toOption.map fun back ↦ decide
            ((rebuild back twice.2.toText).map (fun _ ↦ ()) =
              .error (.tree (.nestingTooDeep 1)))) = some true)) = some true := by
    decide +kernel
  obtain ⟨first, hfirst, honce, htwice, hne, hfacts⟩ := Except.exists_ok_of_toOption hfacts
  obtain ⟨back, hback, hfails⟩ := Except.exists_ok_of_toOption hfacts
  obtain ⟨once, hdivided⟩ : ∃ once,
      (first.divide "2".toList).answeredBy first.oracle = (.ok (), once) := ⟨_, Prod.ext honce rfl⟩
  rw [hdivided] at htwice hne hback hfails
  obtain ⟨twice, hdividedAgain⟩ : ∃ twice,
      (once.divide "3".toList).answeredBy once.oracle = (.ok (), twice) := ⟨_, Prod.ext htwice rfl⟩
  rw [hdividedAgain] at hne hback hfails
  have hredo : (Timeline.redo back ⟨[first.toText], [twice.toText]⟩).1 =
      .error (.tree (.nestingTooDeep 1)) := by
    have hrebuilt : rebuild back twice.toText = .error (.tree (.nestingTooDeep 1)) := by
      cases hrebuild : rebuild back twice.toText with
      | ok equation =>
        rw [hrebuild] at hfails
        cases hfails
      | error cause =>
        rw [hrebuild] at hfails
        exact congrArg _ (Except.error.inj hfails)
    simp only [redo, hrebuilt]
  refine ⟨first, once, twice, back, ⟨[first.toText], [twice.toText]⟩, hfirst, hdivided,
    hdividedAgain, undo_record rfl hne hback, hredo, fun hkept ↦ ?_⟩
  obtain ⟨result, hresult⟩ := entries_redo_iff.mp hkept
  rw [hredo] at hresult
  cases hresult

end EquationSteps.Timeline
