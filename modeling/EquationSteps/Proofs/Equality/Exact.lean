import EquationSteps.Equality.Oracle
import EquationSteps.Proofs.Meaning.Read

/-!
# The exact oracle decides equality

The exact oracle evaluates two texts as rational functions and multiplies crosswise. Evaluating a
text that can be read gives the function of the formula that the text says
(`evaluate_of_isDefined`), and it fails exactly if a divisor in it is the zero function
(`evaluate_of_not_isDefined`). With what is known about formulas, the oracle is sound and complete
for ordinary arithmetic (`Oracle.exact_decides`): it calls two expressions equal exactly if they
have the same value wherever no divisor in them is zero.

**What equality of expressions is** is said without rational functions: by a formula that the
grammar gives the text, and by the value that the formula has when numbers are put in for its
letters. The divisors of a formula are its subformulas behind a `/`. The oracle never puts in a
number, and the statement never mentions a polynomial; the function field stands between the two.

The second half of the theorem would say nothing if there were expressions with no point at which
all divisors are nonzero. There are none: divisors that are not the zero function are all nonzero at
one point.
-/

namespace EquationSteps

variable {limits : Limits} {text : Text} {node : Node} {e : Formula}

/-- The tree of an expression has valid leaves. -/
theorem isValid_of_denotes (hread : Node.read limits text false = .ok node)
    (htext : Denotes .sum text.scanned e) : node.isValid = true :=
  (generates_iff_of_read hread).2 htext.generates.lenient_of_strict

/-- Evaluating a text that is read is computing the value of its tree. -/
theorem evaluate_of_read (hread : Node.read limits text false = .ok node) :
    evaluate limits text = node.value := by
  rw [evaluate, hread]

/-- An expression without a divisor that is the zero function has its function as value. -/
theorem evaluate_of_isDefined (hread : Node.read limits text false = .ok node)
    (htext : Denotes .sum text.scanned e) (h : e.IsDefined) :
    ∃ q, evaluate limits text = .ok q ∧ q.IsProper ∧ q.toField = e.toField := by
  rw [evaluate_of_read hread]
  refine Node.exists_value_of_meaning ?_
  rw [Node.meaning_of_read hread htext, Formula.meaning_of_isDefined h]

/-- With such a divisor the evaluation fails, wherever in the text it stands. -/
theorem evaluate_of_not_isDefined (hread : Node.read limits text false = .ok node)
    (htext : Denotes .sum text.scanned e) (h : ¬e.IsDefined) :
    evaluate limits text = .error .divisionByZero := by
  rw [evaluate_of_read hread,
    ← Node.meaning_eq_undefined_iff (isValid_of_denotes hread htext),
    Node.meaning_of_read hread htext, Formula.meaning_of_not_isDefined h]

/-- The value of an expression is its function. -/
theorem of_evaluate {q : RationalFunction} (htext : Denotes .sum text.scanned e)
    (h : evaluate limits text = .ok q) : q.IsProper ∧ e.meaning = .of q.toField := by
  cases hread : Node.read limits text false with
  | error cause =>
    rw [evaluate, hread] at h
    cases h
  | ok node =>
    rw [evaluate_of_read hread] at h
    refine ⟨Node.isProper_of_value h, ?_⟩
    rw [← Node.meaning_of_read hread htext, ← Node.ofValue_value, h, Meaning.ofValue_ok]

namespace Oracle

/-- The exact oracle evaluates the first text, then the second, and compares. -/
theorem exactlyEqual_exact (limits : Limits) (a b : Text) :
    (Oracle.exact limits).exactlyEqual a b =
      evaluate limits a >>= fun f ↦ evaluate limits b >>= fun g ↦ .ok (f.equals g) := rfl

/-- **The exact oracle is sound and complete.** On two expressions that it can read, it fails with a
division by zero exactly if a divisor in one of them is the zero function. Otherwise it answers, and
the answer is yes exactly if the expressions have the same value for all values of the letters under
which no divisor in them is zero. -/
theorem exact_decides {a b : Text} {e f : Formula} {left right : Node}
    (ha : Denotes .sum a.scanned e) (hb : Denotes .sum b.scanned f)
    (hleft : Node.read limits a false = .ok left) (hright : Node.read limits b false = .ok right) :
    ((Oracle.exact limits).exactlyEqual a b = .error .divisionByZero ↔
        ∃ d ∈ e.divisors ++ f.divisors, d.toField = 0) ∧
      ((∀ d ∈ e.divisors ++ f.divisors, d.toField ≠ 0) →
        ∃ answer, (Oracle.exact limits).exactlyEqual a b = .ok answer ∧
          (answer = true ↔ ∀ point : Char → ℚ,
            (∀ d ∈ e.divisors ++ f.divisors, d.evalAt point ≠ 0) →
              e.evalAt point = f.evalAt point)) := by
  have hundefined : (∃ d ∈ e.divisors ++ f.divisors, d.toField = 0) ↔
      ¬(e.IsDefined ∧ f.IsDefined) := by
    rw [Formula.IsDefined, Formula.IsDefined, ← List.forall_mem_append]
    simp
  -- a divisor that is zero on either side makes the comparison fail
  by_cases he : e.IsDefined
  case neg =>
    have hvalue := evaluate_of_not_isDefined hleft ha he
    have herror : (Oracle.exact limits).exactlyEqual a b = .error .divisionByZero := by
      rw [exactlyEqual_exact, hvalue]
      rfl
    exact ⟨iff_of_true herror (hundefined.2 fun h ↦ he h.1), fun h ↦
      absurd (List.forall_mem_append.1 h).1 he⟩
  by_cases hf : f.IsDefined
  case neg =>
    have hvalue := evaluate_of_not_isDefined hright hb hf
    obtain ⟨q, hq, -, -⟩ := evaluate_of_isDefined hleft ha he
    have herror : (Oracle.exact limits).exactlyEqual a b = .error .divisionByZero := by
      rw [exactlyEqual_exact, hq, hvalue]
      rfl
    exact ⟨iff_of_true herror (hundefined.2 fun h ↦ hf h.2), fun h ↦
      absurd (List.forall_mem_append.1 h).2 hf⟩
  obtain ⟨q, hq, hproper, hqe⟩ := evaluate_of_isDefined hleft ha he
  obtain ⟨r, hr, hproper', hrf⟩ := evaluate_of_isDefined hright hb hf
  have hanswer : (Oracle.exact limits).exactlyEqual a b = .ok (q.equals r) := by
    rw [exactlyEqual_exact, hq, hr]
    rfl
  refine ⟨?_, fun _ ↦ ⟨_, hanswer, ?_⟩⟩
  · rw [hanswer]
    exact iff_of_false (fun h ↦ by cases h) fun h ↦ hundefined.1 h ⟨he, hf⟩
  · rw [RationalFunction.equals_iff hproper hproper', hqe, hrf, Formula.toField_eq_iff he hf]
    exact forall_congr' fun point ↦
      ⟨fun h hpoint ↦ h (List.forall_mem_append.1 hpoint).1 (List.forall_mem_append.1 hpoint).2,
        fun h hepoint hfpoint ↦ h (List.forall_mem_append.2 ⟨hepoint, hfpoint⟩)⟩

/-- `x/x` and `1` have the same value wherever `x` is not zero. -/
theorem exact_decides_selfQuotient :
    (Oracle.exact .standard).exactlyEqual "x/x".toList "1".toList = .ok true := by
  have hquotient : Denotes .sum (Text.scanned "x/x".toList) (.div (.letter 'x') (.letter 'x')) :=
    .term (.unsigned (.quotient (.divided (.factor (.letter rfl)) (.unsigned (.letter rfl)))))
  have hone : Denotes .sum (Text.scanned "1".toList) (.number 1) :=
    .term (.unsigned (.quotient (.factor (.literal (by decide)))))
  have hletter : (Formula.letter 'x').toField ≠ 0 := by
    have hvalue : HasValueAt (fun _ ↦ 1) (Formula.letter 'x').toField
        ((Formula.letter 'x').evalAt fun _ ↦ 1) := Formula.hasValueAt (List.forall_mem_nil _)
    exact hvalue.ne_zero one_ne_zero
  obtain ⟨left, hleft⟩ : ∃ node, Node.read .standard "x/x".toList false = .ok node := ⟨_, rfl⟩
  obtain ⟨right, hright⟩ : ∃ node, Node.read .standard "1".toList false = .ok node := ⟨_, rfl⟩
  obtain ⟨answer, hanswer, htrue⟩ := (exact_decides hquotient hone hleft hright).2
    (List.forall_mem_singleton.2 hletter)
  have hvalues : answer = true := htrue.2 fun point hpoint ↦
    div_self (hpoint (.letter 'x') List.mem_cons_self)
  rw [hanswer, hvalues]

end Oracle

end EquationSteps
