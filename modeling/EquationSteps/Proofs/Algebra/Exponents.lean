import EquationSteps.Proofs.Algebra.FieldLaws

/-!
# Powers within a bound

Exponents are numbers without a bound in a `Monomial`, but a machine keeps them in words. Here the
arithmetic is done once more with a bound on all powers (`Monomial.raiseWithin` up to
`RationalFunction.combineWithin`): each addition of two powers is checked, and so is each monomial
that is put into a polynomial, that of a result or of a sum that is still being added up. A check
that fails ends the computation (`BoundedError.exceeded`). A word of `n` bits can hold all powers if
nothing fails at the bound `2 ^ n - 1`.

Nothing does as long as the bound is at least the sum of what bounds the two operands
(`RationalFunction.IsWithin`). This is a bound on the numerator and the denominator together:
addition and division multiply crosswise, so neither of them can be bounded on its own. It needs the
canonical form, as in a monomial that has a variable twice the powers of one variable would add up.

For each type there are the same three kinds of lemma:

* what bounds the operands bounds the result of the arithmetic without a bound (`IsWithin.add`,
  `IsWithin.mul`, `IsWithin.div?`);
* under that bound the checked operation returns what the one without a bound does
  (`addWithin_eq_ok`, `mulWithin_eq_ok`, `divWithin_eq`);
* a bound may be replaced by a larger one (`IsWithin.mono`).

The two kinds come together in `combineWithin_eq`, one step of computing a group, which is all that
the evaluation of texts uses of this module.

**Intermediate results count.** It would not do to bound the powers of a result: terms of high
degree may cancel, and they were held in words before they did. So the checks are on every monomial
that is ever made, and `mulWithin_eq_ok` has to bound all of them, not those that are left.
-/

namespace EquationSteps

/-- Why a computation with a bound on powers has no result. -/
inductive BoundedError where
  /-- A power exceeds the bound. -/
  | exceeded
  /-- There is no result without a bound either. -/
  | value (cause : ValueError)
  deriving DecidableEq

namespace Monomial

variable {bound i j : ℕ} {m n : Monomial}

/-- All powers of a monomial are within a bound. -/
def IsWithin (bound : ℕ) (m : Monomial) : Prop :=
  ∀ factor ∈ m, factor.2 ≤ bound

instance (bound : ℕ) (m : Monomial) : Decidable (m.IsWithin bound) :=
  inferInstanceAs (Decidable (∀ factor ∈ m, factor.2 ≤ bound))

/-- The sum of two powers, if it is within the bound. -/
def addPower (bound i j : ℕ) : Except BoundedError ℕ :=
  if i + j ≤ bound then .ok (i + j) else .error .exceeded

/-- Multiplies by a power of one variable, with checked additions. A variable that does not occur
has the power zero. -/
def raiseWithin (bound : ℕ) (name : Char) (power : ℕ) : Monomial → Except BoundedError Monomial
  | [] => do
    let power ← addPower bound 0 power
    .ok [(name, power)]
  | (other, exponent) :: rest =>
    if name = other then do
      let exponent ← addPower bound exponent power
      .ok ((other, exponent) :: rest)
    else if name < other then do
      let power ← addPower bound 0 power
      .ok ((name, power) :: (other, exponent) :: rest)
    else do
      let rest ← raiseWithin bound name power rest
      .ok ((other, exponent) :: rest)

/-- The product of two monomials, with checked additions of powers. -/
def mulWithin (bound : ℕ) (m n : Monomial) : Except BoundedError Monomial :=
  n.foldlM (fun product factor ↦ raiseWithin bound factor.1 factor.2 product) m

/-- A sum within the bound passes the check. -/
theorem addPower_eq_ok (h : i + j ≤ bound) : addPower bound i j = .ok (i + j) :=
  if_pos h

/-! ### Monomials within a bound -/

/-- A larger bound holds as well. -/
theorem IsWithin.mono (h : m.IsWithin i) (hle : i ≤ j) : m.IsWithin j :=
  fun factor hmem ↦ (h factor hmem).trans hle

/-- A monomial in canonical form is within the bounds of its exponents. -/
theorem isWithin_iff (hm : m.IsCanonical) :
    m.IsWithin bound ↔ ∀ name, m.exponents name ≤ bound := by
  induction m with
  | nil => exact iff_of_true (List.forall_mem_nil _) fun name ↦ Nat.zero_le bound
  | cons factor m ih =>
    rw [IsWithin, List.forall_mem_cons]
    change factor.2 ≤ bound ∧ IsWithin bound m ↔ _
    rw [ih hm.tail]
    constructor
    · rintro ⟨hfactor, hrest⟩ name
      by_cases hname : factor.1 = name
      · rw [← hname, exponents_head hm]
        exact hfactor
      · rw [exponents, Finsupp.add_apply, Finsupp.single_eq_of_ne' hname, zero_add]
        exact hrest name
    · refine fun h ↦ ⟨exponents_head hm ▸ h factor.1, fun name ↦ le_trans ?_ (h name)⟩
      rw [exponents, Finsupp.add_apply]
      exact Nat.le_add_left _ _

/-- The additions in a product by a power are those of the powers that it has. -/
theorem raiseWithin_eq_ok {name : Char} {power : ℕ} (h : (raise name power m).IsWithin bound) :
    raiseWithin bound name power m = .ok (raise name power m) := by
  induction m with
  | nil =>
    have hpower : 0 + power ≤ bound := (Nat.zero_add power).symm ▸ h _ List.mem_cons_self
    rw [raiseWithin, addPower_eq_ok hpower, Nat.zero_add]
    rfl
  | cons factor m ih =>
    obtain ⟨other, exponent⟩ := factor
    rw [raise] at h ⊢
    rw [raiseWithin]
    split_ifs at h ⊢
    · rw [addPower_eq_ok (h _ List.mem_cons_self)]
      rfl
    · have hpower : 0 + power ≤ bound := (Nat.zero_add power).symm ▸ h _ List.mem_cons_self
      rw [addPower_eq_ok hpower, Nat.zero_add]
      rfl
    · rw [ih fun factor hmem ↦ h factor (List.mem_cons_of_mem _ hmem)]
      rfl

/-- No addition exceeds the bound while two monomials are multiplied, if no sum of their exponents
does. On the way to the product the exponents only grow, so what bounds the product bounds each
monomial that is met. -/
theorem mulWithin_eq_ok (hm : m.IsCanonical) (hn : ∀ factor ∈ n, 0 < factor.2)
    (h : ∀ name, m.exponents name + n.exponents name ≤ bound) :
    m.mulWithin bound n = .ok (m.mul n) := by
  induction n generalizing m with
  | nil => rfl
  | cons factor n ih =>
    obtain ⟨hfactor, hn⟩ := List.forall_mem_cons.1 hn
    -- one power goes over to the product so far, so the exponents of both together stay the same
    have hraised : (raise factor.1 factor.2 m).IsCanonical := hm.raise hfactor
    have hsum : ∀ name, exponents (raise factor.1 factor.2 m) name + exponents n name ≤ bound :=
      fun name ↦ by
      refine le_trans (le_of_eq ?_) (h name)
      rw [exponents_raise, exponents, Finsupp.add_apply, Finsupp.add_apply]
      ring
    have hwithin := (isWithin_iff hraised).2 fun name ↦ (Nat.le_add_right _ _).trans (hsum name)
    rw [mulWithin, List.foldlM_cons, raiseWithin_eq_ok hwithin]
    exact ih hraised hn hsum

/-- The exponents of two monomials add up to no more than their bounds do. -/
theorem exponents_add_le (hm : m.IsCanonical) (hn : n.IsCanonical) (hi : m.IsWithin i)
    (hj : n.IsWithin j) (name : Char) : m.exponents name + n.exponents name ≤ i + j :=
  Nat.add_le_add ((isWithin_iff hm).1 hi name) ((isWithin_iff hn).1 hj name)

/-- The bounds of two monomials add up to a bound of their product. -/
theorem IsWithin.mul (hi : m.IsWithin i) (hj : n.IsWithin j) (hm : m.IsCanonical)
    (hn : n.IsCanonical) :
    (m.mul n).IsWithin (i + j) := by
  refine (isWithin_iff (hm.mul hn)).2 fun name ↦ ?_
  rw [exponents_mul, Finsupp.add_apply]
  exact exponents_add_le hm hn hi hj name

end Monomial

namespace Polynomial

variable {bound i j : ℕ} {p q : Polynomial}

/-- All powers in a polynomial are within a bound. -/
def IsWithin (bound : ℕ) (p : Polynomial) : Prop :=
  ∀ term ∈ p.terms, term.1.IsWithin bound

instance (bound : ℕ) (p : Polynomial) : Decidable (p.IsWithin bound) :=
  inferInstanceAs (Decidable (∀ term ∈ p.terms, term.1.IsWithin bound))

/-- Adds a multiple of a monomial, if its powers are within the bound. -/
def addTermWithin (bound : ℕ) (p : Polynomial) (monomial : Monomial) (coefficient : ℚ) :
    Except BoundedError Polynomial :=
  if monomial.IsWithin bound then .ok (p.addTerm monomial coefficient) else .error .exceeded

/-- The sum of two polynomials, each term of it checked. -/
def addWithin (bound : ℕ) (p q : Polynomial) : Except BoundedError Polynomial :=
  q.terms.foldlM (fun sum term ↦ sum.addTermWithin bound term.1 term.2) p

/-- The product of two polynomials, with checked additions of powers and each term checked. -/
def mulWithin (bound : ℕ) (p q : Polynomial) : Except BoundedError Polynomial :=
  p.terms.foldlM
    (fun product left ↦
      q.terms.foldlM
        (fun product right ↦ do
          let monomial ← left.1.mulWithin bound right.1
          product.addTermWithin bound monomial (left.2 * right.2)) product)
    zero

/-! ### Polynomials within a bound -/

theorem IsWithin.mono (h : p.IsWithin i) (hle : i ≤ j) : p.IsWithin j :=
  fun term hmem ↦ (h term hmem).mono hle

/-- There are no powers in the polynomial without terms. -/
theorem isWithin_zero : IsWithin bound 0 :=
  List.forall_mem_nil _

/-- A term that is added brings no powers but its own. -/
theorem IsWithin.addTerm (hp : p.IsWithin bound) {m : Monomial} (hm : m.IsWithin bound) (c : ℚ) :
    (p.addTerm m c).IsWithin bound := by
  unfold Polynomial.addTerm
  split
  · exact hp
  · intro term hmem
    rcases mem_insertTerm hmem with heq | ⟨other, hother, heq⟩
    · exact heq ▸ hm
    · exact heq ▸ hp other hother

theorem isWithin_constant (c : ℚ) : (constant c).IsWithin bound :=
  isWithin_zero.addTerm (List.forall_mem_nil _) c

/-- A variable has the power one, which even a bound as small as that holds. -/
theorem isWithin_ofVariable (name : Char) (h : 1 ≤ bound) : (ofVariable name).IsWithin bound :=
  isWithin_zero.addTerm (List.forall_mem_singleton.2 h) 1

theorem IsWithin.neg (hp : p.IsWithin bound) : (-p).IsWithin bound := by
  intro term hmem
  obtain ⟨other, hother, rfl⟩ := List.mem_map.1 hmem
  exact hp other hother

/-- Sums have the powers of their operands, and none that are larger. -/
theorem IsWithin.add (hp : p.IsWithin bound) (hq : q.IsWithin bound) : (p + q).IsWithin bound :=
  List.foldlRecOn q.terms _ hp fun _ hsum term hmem ↦ hsum.addTerm (hq term hmem) term.2

/-- In a product, powers of one operand are added to powers of the other. -/
theorem IsWithin.mul (hi : p.IsWithin i) (hj : q.IsWithin j) (hp : p.IsCanonical)
    (hq : q.IsCanonical) :
    (p * q).IsWithin (i + j) := by
  refine List.foldlRecOn p.terms _ isWithin_zero fun _ hproduct left hleft ↦ ?_
  refine List.foldlRecOn q.terms _ hproduct fun _ hproduct right hright ↦ ?_
  exact hproduct.addTerm
    ((hi left hleft).mul (hj right hright) (hp.term left hleft).1 (hq.term right hright).1) _

theorem addTermWithin_eq_ok {m : Monomial} (h : m.IsWithin bound) (p : Polynomial) (c : ℚ) :
    p.addTermWithin bound m c = .ok (p.addTerm m c) :=
  if_pos h

/-- Adding checks the terms of the second operand alone, as those of the first are there already. -/
theorem addWithin_eq_ok (hq : q.IsWithin bound) : p.addWithin bound q = .ok (p + q) :=
  foldlM_eq_ok (fun sum term hmem ↦ addTermWithin_eq_ok (hq term hmem) sum term.2) p

/-- **No power exceeds the bound** while two polynomials are multiplied, if the bound is at least
the sum of what bounds the powers in each of them. -/
theorem mulWithin_eq_ok (hp : p.IsCanonical) (hq : q.IsCanonical) (hi : p.IsWithin i)
    (hj : q.IsWithin j) (h : i + j ≤ bound) : p.mulWithin bound q = .ok (p * q) := by
  refine foldlM_eq_ok (fun product left hleft ↦ ?_) zero
  refine foldlM_eq_ok (fun product right hright ↦ ?_) product
  obtain ⟨hm, hn⟩ := And.intro (hp.term left hleft).1 (hq.term right hright).1
  have hmonomial : left.1.mulWithin bound right.1 = .ok (left.1.mul right.1) :=
    Monomial.mulWithin_eq_ok hm hn.2 fun name ↦
      (Monomial.exponents_add_le hm hn (hi left hleft) (hj right hright) name).trans h
  have hwithin := ((hi left hleft).mul (hj right hright) hm hn).mono h
  rw [hmonomial]
  exact addTermWithin_eq_ok hwithin product _

end Polynomial

namespace RationalFunction

variable {bound i j : ℕ} {f g q : RationalFunction}

/-- All powers in a quotient are within a bound, those above and those below. -/
structure IsWithin (bound : ℕ) (f : RationalFunction) : Prop where
  numerator : f.numerator.IsWithin bound
  denominator : f.denominator.IsWithin bound

instance (bound : ℕ) (f : RationalFunction) : Decidable (f.IsWithin bound) :=
  decidable_of_iff (f.numerator.IsWithin bound ∧ f.denominator.IsWithin bound)
    ⟨fun h ↦ ⟨h.1, h.2⟩, fun h ↦ ⟨h.numerator, h.denominator⟩⟩

/-- The sum of two quotients, within a bound. -/
def addWithin (bound : ℕ) (f g : RationalFunction) : Except BoundedError RationalFunction := do
  let left ← f.numerator.mulWithin bound g.denominator
  let right ← g.numerator.mulWithin bound f.denominator
  let numerator ← left.addWithin bound right
  let denominator ← f.denominator.mulWithin bound g.denominator
  .ok ⟨numerator, denominator⟩

/-- The product of two quotients, within a bound. -/
def mulWithin (bound : ℕ) (f g : RationalFunction) : Except BoundedError RationalFunction := do
  let numerator ← f.numerator.mulWithin bound g.numerator
  let denominator ← f.denominator.mulWithin bound g.denominator
  .ok ⟨numerator, denominator⟩

/-- The quotient of two quotients, within a bound. -/
def divWithin (bound : ℕ) (f g : RationalFunction) : Except BoundedError RationalFunction :=
  if g.isZero then .error (.value .divisionByZero)
  else do
    let numerator ← f.numerator.mulWithin bound g.denominator
    let denominator ← f.denominator.mulWithin bound g.numerator
    .ok ⟨numerator, denominator⟩

/-- One step of computing a group, within a bound. -/
def combineWithin (bound : ℕ) (family : Family) (f : RationalFunction) (sign : Sign)
    (g : RationalFunction) : Except BoundedError RationalFunction :=
  match family with
  | .sum => if sign = .minus then f.addWithin bound g.neg else f.addWithin bound g
  | .product | .quotient =>
    match sign with
    | .divide => f.divWithin bound g
    | .minus => f.mulWithin bound g.neg
    | .plus | .times => f.mulWithin bound g

/-- Whether two quotients are the same function. The products and their difference are within a
bound. -/
def equalsWithin (bound : ℕ) (f g : RationalFunction) : Except BoundedError Bool := do
  let left ← f.numerator.mulWithin bound g.denominator
  let right ← g.numerator.mulWithin bound f.denominator
  let difference ← left.addWithin bound (-right)
  .ok difference.isZero

/-! ### Quotients within a bound -/

theorem IsWithin.mono (h : f.IsWithin i) (hle : i ≤ j) : f.IsWithin j :=
  ⟨h.numerator.mono hle, h.denominator.mono hle⟩

theorem isWithin_constant (c : ℚ) : (constant c).IsWithin bound :=
  ⟨Polynomial.isWithin_constant c, Polynomial.isWithin_constant 1⟩

theorem isWithin_ofVariable (name : Char) (h : 1 ≤ bound) : (ofVariable name).IsWithin bound :=
  ⟨Polynomial.isWithin_ofVariable name h, Polynomial.isWithin_constant 1⟩

theorem IsWithin.neg (hf : f.IsWithin bound) : f.neg.IsWithin bound :=
  ⟨hf.numerator.neg, hf.denominator⟩

/-- A sign changes coefficients, not powers. -/
theorem IsWithin.negateIf (hf : f.IsWithin bound) (sign : Sign) :
    (f.negateIf sign).IsWithin bound := by
  unfold RationalFunction.negateIf
  split
  · exact hf.neg
  · exact hf

section Arithmetic

variable (hf : f.IsProper) (hg : g.IsProper) (hi : f.IsWithin i) (hj : g.IsWithin j)

include hf hg hi hj

/-- The products by which two quotients are brought to the same denominator. -/
theorem IsWithin.crosswise : (f.numerator * g.denominator).IsWithin (i + j) ∧
    (g.numerator * f.denominator).IsWithin (i + j) := by
  refine ⟨hi.numerator.mul hj.denominator hf.numerator hg.denominator, ?_⟩
  rw [Nat.add_comm]
  exact hj.numerator.mul hi.denominator hg.numerator hf.denominator

theorem IsWithin.add : (f.add g).IsWithin (i + j) := by
  obtain ⟨hleft, hright⟩ := hi.crosswise hf hg hj
  exact ⟨hleft.add hright, hi.denominator.mul hj.denominator hf.denominator hg.denominator⟩

theorem IsWithin.mul : (f.mul g).IsWithin (i + j) :=
  ⟨hi.numerator.mul hj.numerator hf.numerator hg.numerator,
    hi.denominator.mul hj.denominator hf.denominator hg.denominator⟩

/-- A quotient by a function multiplies crosswise, so the bounds add up as in a product. -/
theorem IsWithin.div? (h : f.div? g = .ok q) : q.IsWithin (i + j) := by
  unfold RationalFunction.div? at h
  split at h
  · cases h
  · cases h
    exact ⟨hi.numerator.mul hj.denominator hf.numerator hg.denominator,
      hi.denominator.mul hj.numerator hf.denominator hg.numerator⟩

/-- One step of computing a group adds the bounds of what it combines, whatever the operation. -/
theorem IsWithin.combine {family : Family} {sign : Sign} (h : f.combine family sign g = .ok q) :
    q.IsWithin (i + j) := by
  cases family with
  | sum =>
    simp only [RationalFunction.combine] at h
    split at h
    · cases h
      exact hi.add hf hg.neg hj.neg
    · cases h
      exact hi.add hf hg hj
  | product | quotient =>
    cases sign with
    | divide => exact hi.div? hf hg hj h
    | minus => cases h; exact hi.mul hf hg.neg hj.neg
    | plus | times => cases h; exact hi.mul hf hg hj

variable (hbound : i + j ≤ bound)

include hbound

/-- Neither of the two products exceeds the bound. -/
theorem crosswise_eq_ok :
    f.numerator.mulWithin bound g.denominator = .ok (f.numerator * g.denominator) ∧
    g.numerator.mulWithin bound f.denominator = .ok (g.numerator * f.denominator) :=
  ⟨Polynomial.mulWithin_eq_ok hf.numerator hg.denominator hi.numerator hj.denominator hbound,
    Polynomial.mulWithin_eq_ok hg.numerator hf.denominator hj.numerator hi.denominator
      (Nat.add_comm i j ▸ hbound)⟩

theorem addWithin_eq_ok : f.addWithin bound g = .ok (f.add g) := by
  obtain ⟨hleft, hright⟩ := crosswise_eq_ok hf hg hi hj hbound
  rw [addWithin, hleft, hright,
    Polynomial.mulWithin_eq_ok hf.denominator hg.denominator hi.denominator
    hj.denominator hbound]
  simp only [bind, Except.bind]
  rw [Polynomial.addWithin_eq_ok ((hi.crosswise hf hg hj).2.mono hbound)]
  rfl

theorem mulWithin_eq_ok : f.mulWithin bound g = .ok (f.mul g) := by
  rw [mulWithin,
    Polynomial.mulWithin_eq_ok hf.numerator hg.numerator hi.numerator hj.numerator hbound,
    Polynomial.mulWithin_eq_ok hf.denominator hg.denominator hi.denominator hj.denominator hbound]
  rfl

/-- A division within the bound has the result or the failure of the one without it: the divisor is
tested for zero in both before anything is multiplied. -/
theorem divWithin_eq : f.divWithin bound g = (f.div? g).mapError .value := by
  unfold divWithin RationalFunction.div?
  split
  · rfl
  · rw [Polynomial.mulWithin_eq_ok hf.numerator hg.denominator hi.numerator hj.denominator hbound,
      Polynomial.mulWithin_eq_ok hf.denominator hg.numerator hi.denominator hj.numerator hbound]
    rfl

/-- **One step within a bound** is the step without it, if the bound is at least the sum of what
bounds the two quotients. -/
theorem combineWithin_eq (family : Family) (sign : Sign) :
    f.combineWithin bound family sign g = (f.combine family sign g).mapError .value := by
  cases family with
  | sum =>
    unfold combineWithin RationalFunction.combine
    split_ifs
    · exact addWithin_eq_ok hf hg.neg hi hj.neg hbound
    · exact addWithin_eq_ok hf hg hi hj hbound
  | product | quotient =>
    cases sign with
    | divide => exact divWithin_eq hf hg hi hj hbound
    | minus => exact mulWithin_eq_ok hf hg.neg hi hj.neg hbound
    | plus | times => exact mulWithin_eq_ok hf hg hi hj hbound

/-- A comparison within the bound has the same answer as the one without it. What it multiplies and
subtracts is bounded by the sum of the two bounds. -/
theorem equalsWithin_eq_ok : f.equalsWithin bound g = .ok (f.equals g) := by
  obtain ⟨hleft, hright⟩ := crosswise_eq_ok hf hg hi hj hbound
  rw [equalsWithin, hleft, hright]
  simp only [bind, Except.bind]
  rw [Polynomial.addWithin_eq_ok ((hi.crosswise hf hg hj).2.mono hbound).neg]
  rfl

end Arithmetic

end RationalFunction

end EquationSteps
