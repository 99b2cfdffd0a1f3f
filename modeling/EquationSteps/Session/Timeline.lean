import EquationSteps.Equation.Basic

/-!
# Undoing and redoing

The recorded states of an equation are kept as texts, never as trees, so going back means reading a
text again. A timeline has a place on it: the states recorded before lie behind, the last of them
being the present one, and the states that were undone lie ahead.

A recorded text may fail to be read. Undoing has moved by then, and the state it left lies ahead;
redoing has already taken the state off the timeline.
-/

namespace EquationSteps

/-- The recorded states around a place in time. -/
structure Timeline where
  /-- The states up to the present one, latest first. -/
  past : List Text
  /-- The states that were undone, the one undone last first. -/
  ahead : List Text
  deriving DecidableEq

namespace Timeline

/-- Nothing is recorded. -/
def empty : Timeline := ⟨[], []⟩

/-- The recorded states up to the present one, oldest first. -/
def snapshots (timeline : Timeline) : List Text :=
  timeline.past.reverse

/-- Whether there is an earlier state to go back to. -/
def canUndo (timeline : Timeline) : Bool :=
  1 < timeline.past.length

/-- Whether there is an undone state to go forward to. -/
def canRedo (timeline : Timeline) : Bool :=
  !timeline.ahead.isEmpty

/-- Records a state, unless it is the present one. What was undone cannot be redone any more. -/
def record (text : Text) (timeline : Timeline) : Timeline :=
  if timeline.past.head? = some text then ⟨timeline.past, []⟩
  else ⟨text :: timeline.past, []⟩

/-- Reads a recorded state under the limits and with the oracle of the current equation. -/
def rebuild (current : Equation) (text : Text) : Except InputError Equation :=
  match Text.cut? '=' text with
  | none => .error .incomplete
  | some (left, right) =>
    match current.readLike left right with
    | .ok equation => .ok equation
    | .error cause => .error (.tree cause)

/-- Goes back to the state before the present one; the result is `none` if there is none. -/
def undo (current : Equation) (timeline : Timeline) :
    Except InputError (Option Equation) × Timeline :=
  match timeline.past with
  | present :: previous :: earlier =>
    ((rebuild current previous).map some, ⟨previous :: earlier, present :: timeline.ahead⟩)
  | _ => (.ok none, timeline)

/-- Goes forward to the state undone last; the result is `none` if there is none. -/
def redo (current : Equation) (timeline : Timeline) :
    Except InputError (Option Equation) × Timeline :=
  match timeline.ahead with
  | [] => (.ok none, timeline)
  | next :: later =>
    match rebuild current next with
    | .ok equation => (.ok (some equation), ⟨next :: timeline.past, later⟩)
    | .error cause => (.error cause, ⟨timeline.past, later⟩)

end Timeline

end EquationSteps
