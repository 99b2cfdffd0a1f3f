import EquationSteps.Equality.Memo
import Mathlib.Data.List.Forall2

/-!
# What an inquiry may return

The results to which an inquiry can come if its questions are answered in any way, rightly or
wrongly or not at all, and one question differently each time it is asked (`Inquiry.MayReturn`).
What holds of all of them holds for every oracle (`Inquiry.mayReturn_answeredBy`) and for every
memory of its answers, true to it or not (`Inquiry.mayReturn_remembering`).

Statements that do not depend on what is true are proved of all results that an inquiry may return:
what an edit does to identities, marks or the shape of an equation. They need no assumption about
the oracle, and the proofs have no case for what it answers, only for what is done after either
answer.

An inquiry that may return something is taken apart by `mayReturn_pure_iff` and
`mayReturn_bind_iff`, one for a result that is there and one for an inquiry that goes on. For the
edits this is the counterpart of taking apart a computation that may fail.
-/

namespace EquationSteps.Inquiry

variable {α β : Type} {inquiry : Inquiry α} {result : α}

/-- An inquiry comes to a result for some answers to its questions. -/
inductive MayReturn : Inquiry α → α → Prop where
  | done (result : α) : MayReturn (done result) result
  | ask {a b : Text} {resume : Except ValueError Bool → Inquiry α} {result : α}
    (answer : Except ValueError Bool) (h : MayReturn (resume answer) result) :
    MayReturn (ask a b resume) result

/-- An oracle gives some answers. -/
theorem mayReturn_answeredBy (oracle : Oracle) (inquiry : Inquiry α) :
    inquiry.MayReturn (inquiry.answeredBy oracle) := by
  induction inquiry with
  | done result => exact .done result
  | ask a b resume ih => exact .ask _ (ih _)

/-- An oracle gives some answers, whatever is remembered of them. -/
theorem mayReturn_remembering (oracle : Oracle) (inquiry : Inquiry α) (memo : Memo) :
    inquiry.MayReturn (inquiry.remembering oracle memo).1 := by
  induction inquiry generalizing memo with
  | done result => exact .done result
  | ask a b resume ih => exact .ask _ (ih _ _)

/-- Without a question there is one result. -/
@[simp] theorem mayReturn_pure_iff {value : α} :
    (pure value : Inquiry α).MayReturn result ↔ result = value := by
  constructor
  · intro h
    cases h
    rfl
  · rintro rfl
    exact .done result

/-- An inquiry that goes on with a result returns what may come after any result that the first part
of it may return. -/
theorem mayReturn_bind_iff {next : α → Inquiry β} {final : β} :
    (inquiry >>= next).MayReturn final ↔
      ∃ value, inquiry.MayReturn value ∧ (next value).MayReturn final := by
  constructor
  · intro h
    induction inquiry with
    | done value => exact ⟨value, .done value, h⟩
    | ask a b resume ih =>
      cases h with
      | ask answer h =>
        obtain ⟨value, hvalue, hfinal⟩ := ih answer h
        exact ⟨value, .ask answer hvalue, hfinal⟩
  · rintro ⟨value, hvalue, hfinal⟩
    induction hvalue with
    | done value => exact hfinal
    | ask answer _ ih => exact .ask answer (ih hfinal)

/-- Inquiries about the elements of a list, one after the other. -/
theorem MayReturn.forall₂ {f : α → Inquiry β} {list : List α} {results : List β}
    (h : (list.mapM' f).MayReturn results) :
    List.Forall₂ (fun a result ↦ (f a).MayReturn result) list results := by
  induction list generalizing results with
  | nil =>
    cases mayReturn_pure_iff.1 h
    exact .nil
  | cons a list ih =>
    rw [List.mapM'] at h
    obtain ⟨first, hfirst, h⟩ := mayReturn_bind_iff.1 h
    obtain ⟨rest, hrest, h⟩ := mayReturn_bind_iff.1 h
    cases mayReturn_pure_iff.1 h
    exact .cons hfirst (ih hrest)

end EquationSteps.Inquiry
