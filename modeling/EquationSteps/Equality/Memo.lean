import EquationSteps.Equality.Inquiry

/-!
# Remembered answers

The comparisons of one edit repeat themselves, so the answers of an oracle are worth keeping. A
`Memo` holds the pairs of texts that were compared, each with its answer; a comparison that failed
is not kept and is asked again the next time. `Inquiry.remembering` answers a computation from the
memo where it can and from the oracle where it must, and hands on the memo.
-/

namespace EquationSteps

/-- The comparisons made so far, with their answers. -/
structure Memo where
  answers : List ((Text × Text) × Bool)

namespace Memo

/-- The memo without any comparison. -/
def empty : Memo := ⟨[]⟩

/-- The remembered answer for a pair of texts. -/
def answer? (memo : Memo) (a b : Text) : Option Bool :=
  memo.answers.lookup (a, b)

/-- The number of comparisons remembered. -/
def size (memo : Memo) : Nat :=
  memo.answers.length

/-- Compares two texts: from the memo, or else by the oracle, whose answer is then remembered. -/
def equal (oracle : Oracle) (a b : Text) (memo : Memo) : Except ValueError Bool × Memo :=
  match memo.answer? a b with
  | some answer => (.ok answer, memo)
  | none =>
    match oracle.exactlyEqual a b with
    | .ok answer => (.ok answer, ⟨((a, b), answer) :: memo.answers⟩)
    | .error cause => (.error cause, memo)

/-- Compares a text with the negation of another one. -/
def opposite (oracle : Oracle) (a b : Text) (memo : Memo) : Except ValueError Bool × Memo :=
  memo.equal oracle a (negatedText b)

/-- Everything that a memo remembers is what the oracle says. -/
def Agrees (memo : Memo) (oracle : Oracle) : Prop :=
  ∀ a b answer, memo.answer? a b = some answer → oracle.exactlyEqual a b = .ok answer

theorem agrees_empty (oracle : Oracle) : empty.Agrees oracle := by
  intro a b answer h
  simp [answer?, empty] at h

/-- A memo that agrees with the oracle answers like the oracle. -/
theorem equal_fst {memo : Memo} {oracle : Oracle} (h : memo.Agrees oracle) (a b : Text) :
    (memo.equal oracle a b).1 = oracle.exactlyEqual a b := by
  unfold equal
  split
  · rename_i answer hanswer
    exact (h a b answer hanswer).symm
  · cases oracle.exactlyEqual a b <;> rfl

/-- A memo that agrees with the oracle still does after a comparison. -/
theorem Agrees.equal_snd {memo : Memo} {oracle : Oracle} (h : memo.Agrees oracle) (a b : Text) :
    (memo.equal oracle a b).2.Agrees oracle := by
  unfold Memo.equal
  split
  · exact h
  · split
    · rename_i answer hanswer
      intro a' b' answer' h'
      simp only [answer?, List.lookup_cons] at h'
      split at h'
      · rename_i heq
        simp only [beq_iff_eq, Prod.mk.injEq] at heq
        obtain ⟨rfl, rfl⟩ := heq
        rw [hanswer, Option.some.inj h']
      · exact h a' b' answer' h'
    · exact h

end Memo

/-- Answers a computation from a memo, and from the oracle where the memo has no answer. -/
def Inquiry.remembering {α : Type} (oracle : Oracle) : Inquiry α → Memo → α × Memo
  | done result, memo => (result, memo)
  | ask a b resume, memo =>
    let (answer, memo) := memo.equal oracle a b
    (resume answer).remembering oracle memo

/-- A memory that agrees with the oracle changes no result. -/
theorem Inquiry.remembering_fst {α : Type} {oracle : Oracle} (inquiry : Inquiry α) {memo : Memo}
    (h : memo.Agrees oracle) : (inquiry.remembering oracle memo).1 = inquiry.answeredBy oracle := by
  induction inquiry generalizing memo with
  | done result => rfl
  | ask a b resume ih =>
    simp only [remembering, answeredBy]
    rw [ih _ (h.equal_snd a b), Memo.equal_fst h]

end EquationSteps
