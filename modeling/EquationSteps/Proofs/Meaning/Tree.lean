import EquationSteps.Proofs.Meaning.Basic

/-!
# The meaning of a tree

`Node.contentMeaning` is the meaning of the value of a node's content, and `Node.meaning` takes the
node's own sign in. Groups are evaluated from left to right, and the meaning of a group is the sum
of its signed operands (`contentMeaning_of_isAdditive`) or the product of its operands, of which
those behind the first one count as factors or divisors by their own signs
(`contentMeaning_of_not_isAdditive`). Both hold of every tree, well-formed or not.

What is left out of a meaning is the cause of a failure. On a tree with valid leaves there is only
one, division by zero (`contentValue_eq_error`), so the meaning and the value tell the same.

**From computations to equations.** The value of a group is computed operand by operand, and each
step may fail. The meaning of a step is an operation on meanings (`Meaning.ofValue_combine_sum`,
`Meaning.ofValue_combine_factor`), in which a failure is the undefined element, and so the meaning
of the whole computation is a sum or a product over the list (`ofValue_chainValue_sum`,
`ofValue_chainValue_factors`). From there on nothing is said about the order in which operands are
evaluated, nor about where a computation stops.

**Proper quotients all along.** That steps correspond to operations of the field needs quotients
whose denominators are not zero. Leaves have such values and each step keeps them so
(`isProper_of_contentValue`), whatever the tree.

The last lemmas go back: from an equation between meanings to values that are equal functions, or to
failures that are both divisions by zero (`meaning_eq_iff`, `meaning_eq_undefined_iff`).
-/

namespace EquationSteps

open RationalFunction

/-- Taking in an operand keeps quotients proper. The one case in which there is something to see is
a divisor, which is not zero if the step succeeds. -/
theorem RationalFunction.IsProper.combine {f g q : RationalFunction} {family : Family} {sign : Sign}
    (hf : f.IsProper) (hg : g.IsProper) (h : f.combine family sign g = .ok q) : q.IsProper := by
  have hdiv : ∀ q, f.div? g = .ok q → q.IsProper := by
    intro q hq
    by_cases hzero : g.toField = 0
    · rw [div?_eq_error hg hzero] at hq
      cases hq
    · obtain ⟨r, hr, hproper, -⟩ := div?_eq_ok hf hg hzero
      rw [hr] at hq
      cases hq
      exact hproper
  cases family with
  | sum =>
    simp only [RationalFunction.combine] at h
    split at h
    · cases h
      exact hf.sub hg
    · cases h
      exact hf.add hg
  | product =>
    cases sign with
    | divide => exact hdiv q h
    | minus => cases h; exact hf.mul hg.neg
    | plus => cases h; exact hf.mul hg
    | times => cases h; exact hf.mul hg
  | quotient =>
    cases sign with
    | divide => exact hdiv q h
    | minus => cases h; exact hf.mul hg.neg
    | plus => cases h; exact hf.mul hg
    | times => cases h; exact hf.mul hg

/-- So does a sign. -/
theorem RationalFunction.IsProper.negateIf {f : RationalFunction} (hf : f.IsProper) (sign : Sign) :
    (f.negateIf sign).IsProper := by
  unfold RationalFunction.negateIf
  split
  · exact hf.neg
  · exact hf

/-- A minus negates, and no other sign does anything. -/
@[simp] theorem RationalFunction.toField_negateIf (f : RationalFunction) (sign : Sign) :
    Meaning.of (f.negateIf sign).toField = Meaning.signed sign (.of f.toField) := by
  unfold RationalFunction.negateIf Meaning.signed
  split
  · rw [toField_neg, Meaning.neg_of]
  · rfl

/-- The meaning of one step of computing a sum, which is to add or to subtract the operand. -/
theorem Meaning.ofValue_combine_sum {f g : RationalFunction} (sign : Sign) (hf : f.IsProper)
    (hg : g.IsProper) :
    ofValue (f.combine .sum sign g) = of f.toField + signed sign (of g.toField) := by
  simp only [RationalFunction.combine, signed]
  split
  · rw [ofValue_ok, toField_sub hf hg, neg_of, of_add, sub_eq_add_neg]
  · rw [ofValue_ok, toField_add hf hg, of_add]

/-- The meaning of one step of computing a product or a quotient, which is to multiply by the
operand or by its inverse. Where the operand is zero the step fails, and the inverse is
undefined. -/
theorem Meaning.ofValue_combine_factor {f g : RationalFunction} {family : Family} (sign : Sign)
    (hf : f.IsProper) (hg : g.IsProper) (h : family ≠ .sum) :
    ofValue (f.combine family sign g) = of f.toField * asFactor sign (of g.toField) := by
  have hdiv : ofValue (f.div? g) = of f.toField * (of g.toField)⁻¹ := by
    by_cases hzero : g.toField = 0
    · rw [div?_eq_error hg hzero, hzero, of_zero, inv_zero, mul_undefined, ofValue_error]
    · obtain ⟨q, hq, -, hvalue⟩ := div?_eq_ok hf hg hzero
      rw [hq, ofValue_ok, hvalue, inv_of hzero, of_mul]
  have hmul : ofValue (.ok (f.mul g)) = of f.toField * of g.toField := by
    rw [ofValue_ok, toField_mul, of_mul]
  have hneg : ofValue (.ok (f.mul g.neg)) = of f.toField * -of g.toField := by
    rw [ofValue_ok, toField_mul, toField_neg, neg_of, of_mul]
  cases family with
  | sum => exact absurd rfl h
  | product =>
    cases sign with
    | divide => exact hdiv
    | minus => exact hneg
    | plus => exact hmul
    | times => exact hmul
  | quotient =>
    cases sign with
    | divide => exact hdiv
    | minus => exact hneg
    | plus => exact hmul
    | times => exact hmul

namespace Node

/-- The value of a leaf is a constant or a variable. -/
theorem isProper_of_atomValue {text : Text} {f : RationalFunction} (h : atomValue text = .ok f) :
    f.IsProper := by
  have hnumeral : ∀ text f, atomValue.numeralValue text = .ok f → f.IsProper := by
    intro text f h
    unfold atomValue.numeralValue at h
    split at h
    · cases h
      exact .constant _
    · split at h
      · cases h
        exact .constant _
      · cases h
  unfold atomValue at h
  split at h
  · split at h
    · cases h
      exact .ofVariable _
    · exact hnumeral _ _ h
  · exact hnumeral _ _ h

/-- If operands have proper values, so has what is computed along them, by induction on the operands
that are still to be taken in. -/
theorem isProper_of_chainValue {family : Family} {nodes : List Node}
    (hnodes : ∀ node ∈ nodes, ∀ g, contentValue node = .ok g → g.IsProper)
    {f g : RationalFunction} (hf : f.IsProper) (h : chainValue family f nodes = .ok g) :
    g.IsProper := by
  induction nodes generalizing f with
  | nil =>
    cases h
    exact hf
  | cons node nodes ih =>
    obtain ⟨hnode, hnodes⟩ := List.forall_mem_cons.1 hnodes
    rw [chainValue] at h
    cases hvalue : contentValue node with
    | error e => rw [hvalue] at h; cases h
    | ok q =>
      cases hcombine : f.combine family node.sign q with
      | error e => rw [hvalue] at h; simp only [bind, Except.bind, hcombine] at h; cases h
      | ok r =>
        rw [hvalue] at h
        simp only [bind, Except.bind, hcombine] at h
        exact ih hnodes (hf.combine (hnode q hvalue) hcombine) h

/-- The values of trees are proper quotients: leaves have denominators of one, and each step keeps
them from being zero. -/
theorem isProper_of_contentValue {node : Node} {f : RationalFunction}
    (h : node.contentValue = .ok f) : f.IsProper := by
  induction node using Node.induction generalizing f with
  | atom tag text => exact isProper_of_atomValue h
  | group tag children ih =>
    cases children with
    | nil =>
      cases h
      exact .constant 0
    | cons first rest =>
      rw [contentValue] at h
      cases hvalue : contentValue first with
      | error e => rw [hvalue] at h; cases h
      | ok q =>
        rw [hvalue] at h
        exact isProper_of_chainValue (fun node hmem g hg ↦ ih node (List.mem_cons_of_mem _ hmem) hg)
          ((ih first List.mem_cons_self hvalue).negateIf _) h

/-! ### The meanings of groups

First for the computation along a list, then for the group. The family is that of the first operand,
whose own sign a sum takes in and a product does not look at. -/

/-- The meaning of a node's content. The sign of the node is left aside, as it is for an operand of
a product. -/
noncomputable def contentMeaning (node : Node) : Meaning :=
  .ofValue node.contentValue

/-- The meaning of a node as a term, which is that of its content with the node's sign. -/
noncomputable def meaning (node : Node) : Meaning :=
  .signed node.sign node.contentMeaning

/-- The meaning of a tree is that of its value. -/
theorem ofValue_value (node : Node) : Meaning.ofValue node.value = node.meaning := by
  unfold value meaning contentMeaning
  cases h : node.contentValue with
  | error e =>
    simp only [bind, Except.bind, Meaning.ofValue_error, Meaning.signed]
    split <;> rfl
  | ok f => exact toField_negateIf f node.sign

/-- The meaning of a computation that goes on with the value of a node. The node may have no value,
and then the result has to be undefined as well. -/
theorem ofValue_bind (node : Node) (next : RationalFunction → Except ValueError RationalFunction)
    (result : Meaning → Meaning) (hundefined : result .undefined = .undefined)
    (h : ∀ f, node.contentValue = .ok f → f.IsProper →
      Meaning.ofValue (next f) = result (.of f.toField)) :
    Meaning.ofValue (node.contentValue >>= next) = result node.contentMeaning := by
  unfold contentMeaning
  cases hvalue : node.contentValue with
  | error e => exact hundefined.symm
  | ok f => exact h f hvalue (isProper_of_contentValue hvalue)

/-- Along a sum, signed operands are added. The start is any proper value, so that the induction
goes through. -/
theorem ofValue_chainValue_sum (nodes : List Node) {f : RationalFunction} (hf : f.IsProper) :
    Meaning.ofValue (chainValue .sum f nodes) = .of f.toField + (nodes.map meaning).sum := by
  induction nodes generalizing f with
  | nil => exact (add_zero _).symm
  | cons node nodes ih =>
    rw [chainValue, List.map_cons, List.sum_cons, ← add_assoc]
    refine ofValue_bind node _ (fun m ↦ .of f.toField + .signed node.sign m +
      (nodes.map meaning).sum) ?_ fun g hvalue hg ↦ ?_
    · unfold Meaning.signed
      split <;> simp
    · have hstep := Meaning.ofValue_combine_sum node.sign hf hg
      cases hcombine : f.combine .sum node.sign g with
      | error e =>
        rw [hcombine] at hstep
        rw [← hstep]
        rfl
      | ok q =>
        rw [hcombine, Meaning.ofValue_ok] at hstep
        rw [← hstep]
        exact ih (hf.combine hg hcombine)

/-- Along a product or a quotient, operands are multiplied, or their inverses. It is the sign of
each operand that decides, and not the family of the group. -/
theorem ofValue_chainValue_factors {family : Family} (hfamily : family ≠ .sum) (nodes : List Node)
    {f : RationalFunction} (hf : f.IsProper) :
    Meaning.ofValue (chainValue family f nodes) =
      .of f.toField *
        (nodes.map fun node ↦ Meaning.asFactor node.sign node.contentMeaning).prod := by
  induction nodes generalizing f with
  | nil => exact (mul_one _).symm
  | cons node nodes ih =>
    rw [chainValue, List.map_cons, List.prod_cons, ← mul_assoc]
    refine ofValue_bind node _ (fun m ↦ .of f.toField * .asFactor node.sign m *
      (nodes.map fun node ↦ Meaning.asFactor node.sign node.contentMeaning).prod) ?_
      fun g hvalue hg ↦ ?_
    · cases node.sign <;> simp [Meaning.asFactor]
    · have hstep := Meaning.ofValue_combine_factor node.sign hf hg hfamily
      cases hcombine : f.combine family node.sign g with
      | error e =>
        rw [hcombine] at hstep
        rw [← hstep]
        rfl
      | ok q =>
        rw [hcombine, Meaning.ofValue_ok] at hstep
        rw [← hstep]
        exact ih (hf.combine hg hcombine)

/-- A leaf means the value of its text. -/
@[simp] theorem contentMeaning_atom (tag : Tag) (text : Text) :
    contentMeaning (.atom tag text) = .ofValue (atomValue text) := rfl

/-- An empty group is zero. -/
@[simp] theorem contentMeaning_nil (tag : Tag) : contentMeaning (.group tag []) = 0 := by
  unfold contentMeaning
  rw [contentValue, Meaning.ofValue_ok, toField_constant, map_zero, map_zero, Meaning.of_zero]

/-- A group of terms means their sum. Only the first operand has to be known to be a term, as it is
the one that the family is taken from. -/
theorem contentMeaning_of_isAdditive {tag : Tag} {first : Node} {rest : List Node}
    (h : first.sign.isAdditive = true) :
    contentMeaning (.group tag (first :: rest)) = ((first :: rest).map meaning).sum := by
  rw [List.map_cons, List.sum_cons]
  refine ofValue_bind first _ (fun m ↦ .signed first.sign m + (rest.map meaning).sum) ?_
    fun f hvalue hf ↦ ?_
  · unfold Meaning.signed
    split <;> simp
  · rw [Family.ofSign_eq_sum_iff.2 h, ofValue_chainValue_sum rest (hf.negateIf _), toField_negateIf]

/-- A group of factors and divisors means their product. The first operand counts as a factor
whatever its sign is, so the numerator of a fraction is not divided by. -/
theorem contentMeaning_of_not_isAdditive {tag : Tag} {first : Node} {rest : List Node}
    (h : first.sign.isAdditive = false) :
    contentMeaning (.group tag (first :: rest)) = first.contentMeaning *
      (rest.map fun node ↦ Meaning.asFactor node.sign node.contentMeaning).prod := by
  have hfamily : Family.ofSign first.sign ≠ .sum := fun hsum ↦ by
    rw [Family.ofSign_eq_sum_iff, h] at hsum
    cases hsum
  have hsign : first.sign ≠ .minus := fun hminus ↦ by
    rw [hminus] at h
    cases h
  refine ofValue_bind first _ (fun m ↦ m * (rest.map fun node ↦
    Meaning.asFactor node.sign node.contentMeaning).prod) ?_ fun f hvalue hf ↦ ?_
  · simp
  · rw [ofValue_chainValue_factors hfamily rest (hf.negateIf _), toField_negateIf,
      Meaning.signed_of_ne hsign]

/-! ### Failures

Unless a leaf is malformed there is one thing that can go wrong. -/

/-- If operands fail by a division by zero only, so does what is computed along them: each step
either takes in an operand, which may fail in its own way, or divides. -/
theorem chainValue_eq_error {family : Family} {nodes : List Node}
    (hnodes : ∀ node ∈ nodes, ∀ e, contentValue node = .error e → e = .divisionByZero)
    {f : RationalFunction} {e : ValueError} (h : chainValue family f nodes = .error e) :
    e = .divisionByZero := by
  induction nodes generalizing f with
  | nil => cases h
  | cons node nodes ih =>
    obtain ⟨hnode, hnodes⟩ := List.forall_mem_cons.1 hnodes
    rw [chainValue] at h
    cases hvalue : contentValue node with
    | error e' =>
      rw [hvalue] at h
      cases h
      exact hnode _ hvalue
    | ok g =>
      rw [hvalue] at h
      cases hcombine : f.combine family node.sign g with
      | error e' =>
        simp only [bind, Except.bind, hcombine] at h
        cases h
        -- of the ways to take in an operand only division can fail
        cases family <;> cases hsign : node.sign <;>
          simp only [RationalFunction.combine, hsign] at hcombine <;>
          first
          | exact (div?_eq_error_iff.1 hcombine).2
          | cases hcombine
      | ok q =>
        simp only [bind, Except.bind, hcombine] at h
        exact ih hnodes h

/-- A leaf with an operand has a value, which is a number or a variable. -/
theorem atomValue_of_isOperandText {text : Text} (h : isOperandText text = true) :
    ∃ f, atomValue text = .ok f := by
  have hdecimal : ∀ text, Numeral.isDecimal text = true →
      ∃ f, atomValue.numeralValue text = .ok f := by
    intro text h
    unfold atomValue.numeralValue
    split
    · exact ⟨_, rfl⟩
    · simp [Numeral.decimalFraction?, h]
  rcases Bool.or_eq_true_iff.1 h with h | h
  · unfold atomValue
    split
    · split
      · exact ⟨_, rfl⟩
      · exact hdecimal _ h
    · exact hdecimal _ h
  · unfold Text.isVariable at h
    split at h
    · exact ⟨_, if_pos h⟩
    · cases h

/-- A tree with valid leaves can fail to have a value only by a division by zero. -/
theorem contentValue_eq_error {node : Node} (hvalid : node.isValid = true) {e : ValueError}
    (h : node.contentValue = .error e) : e = .divisionByZero := by
  induction node using Node.induction generalizing e with
  | atom tag text =>
    obtain ⟨f, hf⟩ := atomValue_of_isOperandText hvalid
    rw [contentValue, hf] at h
    cases h
  | group tag children ih =>
    rw [isValid, areValid_eq_all, List.all_eq_true] at hvalid
    have hchildren : ∀ child ∈ children, ∀ e, contentValue child = .error e →
        e = .divisionByZero := fun child hmem e he ↦ ih child hmem (hvalid child hmem) he
    cases children with
    | nil => cases h
    | cons first rest =>
      obtain ⟨hfirst, hrest⟩ := List.forall_mem_cons.1 hchildren
      rw [contentValue] at h
      cases hvalue : contentValue first with
      | error e' =>
        rw [hvalue] at h
        cases h
        exact hfirst _ hvalue
      | ok f =>
        rw [hvalue] at h
        exact chainValue_eq_error hrest h

/-- The same for the whole tree. -/
theorem value_eq_error {node : Node} (hvalid : node.isValid = true) {e : ValueError}
    (h : node.value = .error e) : e = .divisionByZero := by
  cases hvalue : node.contentValue with
  | error e' =>
    rw [value, hvalue] at h
    cases h
    exact contentValue_eq_error hvalid hvalue
  | ok f =>
    rw [value, hvalue] at h
    cases h

/-- A value is a proper quotient. -/
theorem isProper_of_value {node : Node} {f : RationalFunction} (h : node.value = .ok f) :
    f.IsProper := by
  cases hvalue : node.contentValue with
  | error e =>
    rw [value, hvalue] at h
    cases h
  | ok g =>
    rw [value, hvalue] at h
    cases h
    exact (isProper_of_contentValue hvalue).negateIf _

/-- A tree that means a function has that value, as a proper quotient. -/
theorem exists_value_of_meaning {node : Node} {k : FunctionField} (h : node.meaning = .of k) :
    ∃ f, node.value = .ok f ∧ f.IsProper ∧ f.toField = k := by
  rw [← ofValue_value] at h
  cases hvalue : node.value with
  | error e =>
    rw [hvalue] at h
    exact absurd h.symm (Meaning.of_ne_undefined k)
  | ok f =>
    rw [hvalue] at h
    exact ⟨f, rfl, isProper_of_value hvalue, Meaning.of_injective h⟩

/-- The meaning of a tree is undefined exactly if its value fails. -/
theorem meaning_eq_undefined_iff {node : Node} (hvalid : node.isValid = true) :
    node.meaning = .undefined ↔ node.value = .error .divisionByZero := by
  rw [← ofValue_value]
  cases h : node.value with
  | error e => simp [value_eq_error hvalid h]
  | ok f => simp [Meaning.of_ne_undefined]

/-- Two trees of which one has a value have the same function as values exactly if they have the
same meaning. This is how a statement about meanings becomes one about what is computed. -/
theorem meaning_eq_iff {node other : Node} {f : RationalFunction} (h : node.value = .ok f) :
    other.meaning = node.meaning ↔ ∃ g, other.value = .ok g ∧ g.equals f = true := by
  rw [← ofValue_value node, ← ofValue_value other, h, Meaning.ofValue_ok]
  cases hother : other.value with
  | error e => simp [(Meaning.of_ne_undefined _).symm]
  | ok g =>
    have hequals := equals_iff (isProper_of_value hother) (isProper_of_value h)
    rw [Meaning.ofValue_ok]
    constructor
    · intro hmeaning
      exact ⟨g, rfl, hequals.2 (Meaning.of_injective hmeaning)⟩
    · rintro ⟨g', hg', heq⟩
      cases hg'
      exact congrArg Meaning.of (hequals.1 heq)

end Node

end EquationSteps
