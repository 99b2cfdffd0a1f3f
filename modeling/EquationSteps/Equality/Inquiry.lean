import EquationSteps.Equality.Oracle

/-!
# Inquiries

An edit has to compare expressions on its way, and which comparison comes next may depend on the
answers so far. An `Inquiry` is such a computation with its comparisons left open: it is done, or it
asks whether two texts are equal and goes on with the answer. What answers is chosen at the end, an
oracle (`Inquiry.answeredBy`) or an oracle with a memory (`Equality.Memo`), and the computation
cannot tell which.
-/

namespace EquationSteps

/-- A computation that may ask for the equality of texts. -/
inductive Inquiry (α : Type) where
  /-- The computation has its result. -/
  | done (result : α)
  /-- The computation asks whether two texts are equal, and goes on with the answer. -/
  | ask (a b : Text) (resume : Except ValueError Bool → Inquiry α)

namespace Inquiry

/-- Runs a second computation on the result of a first one. -/
def bind {α β : Type} : Inquiry α → (α → Inquiry β) → Inquiry β
  | done result, next => next result
  | ask a b resume, next => ask a b fun answer ↦ (resume answer).bind next

instance : Monad Inquiry where
  pure := done
  bind := bind

/-- Asks whether two texts are equal. -/
def equal (a b : Text) : Inquiry (Except ValueError Bool) :=
  ask a b done

/-- Asks whether the first text is the negation of the second. -/
def opposite (a b : Text) : Inquiry (Except ValueError Bool) :=
  equal a (negatedText b)

/-- The result of a computation whose questions an oracle answers. -/
def answeredBy {α : Type} (oracle : Oracle) : Inquiry α → α
  | done result => result
  | ask a b resume => (resume (oracle.exactlyEqual a b)).answeredBy oracle

variable {α β : Type}

@[simp] theorem answeredBy_pure (oracle : Oracle) (result : α) :
    (pure result : Inquiry α).answeredBy oracle = result := rfl

@[simp] theorem answeredBy_done (oracle : Oracle) (result : α) :
    (done result).answeredBy oracle = result := rfl

@[simp] theorem answeredBy_bind (oracle : Oracle) (inquiry : Inquiry α) (next : α → Inquiry β) :
    (inquiry >>= next).answeredBy oracle =
      (next (inquiry.answeredBy oracle)).answeredBy oracle := by
  induction inquiry with
  | done result => rfl
  | ask a b resume ih => exact ih _

@[simp] theorem answeredBy_map (oracle : Oracle) (f : α → β) (inquiry : Inquiry α) :
    (f <$> inquiry).answeredBy oracle = f (inquiry.answeredBy oracle) := by
  show (inquiry >>= fun a ↦ pure (f a)).answeredBy oracle = _
  simp

@[simp] theorem answeredBy_equal (oracle : Oracle) (a b : Text) :
    (equal a b).answeredBy oracle = oracle.exactlyEqual a b := rfl

@[simp] theorem answeredBy_opposite (oracle : Oracle) (a b : Text) :
    (opposite a b).answeredBy oracle = oracle.exactlyOpposite a b := rfl

end Inquiry

end EquationSteps
