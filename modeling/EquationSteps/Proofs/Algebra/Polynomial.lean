import EquationSteps.Algebra.Polynomial
import Mathlib.Algebra.MvPolynomial.Basic
import Mathlib.Algebra.MvPolynomial.CommRing
import Mathlib.Data.Char

/-!
# Polynomials as elements of the polynomial ring

The lists of terms that are computed with stand for elements of `MvPolynomial Char ℚ`, by
`Polynomial.toRing`. Two kinds of facts are kept apart:

* `toRing` turns the operations on lists into those of the ring. This needs no care about how the
  lists are kept: it holds of any lists of terms.
* On lists that are kept as they should be (`Polynomial.IsCanonical`: monomials in increasing order,
  no coefficient zero, and the variables of a monomial in increasing order with positive exponents)
  `toRing` is injective, `toRing_injective`. So comparing lists is comparing polynomials, and
  testing for the empty list is testing for zero. All operations keep their lists so.

The same two layers stand one level down, for monomials: `Monomial.exponents` turns multiplication
into addition of exponents for any list of factors (`exponents_mul`), and it tells monomials apart
that are kept in order (`exponents_injective`).

**Where the order comes in.** A term is inserted at the place that a comparison of monomials finds
for it, and it is added to the term that is there if the two monomials compare as equal. That equal
means the same is only known of monomials in canonical form. The order itself need not be a familiar
one. All that is used is that it is transitive, so that what comes after the first term of a list is
larger than everything the first term is larger than (`IsCanonical.beyond`), and it is transitive
because it is the lexicographic order on lists of factors (`Monomial.order_eq_compareLex`).

**How injectivity is seen.** Of two lists with the same sum, take the smaller one of the two first
monomials. Its coefficient is the one that stands there in its own list (`coeff_head`), and zero in
the other list if that begins with a larger one (`coeff_termsToRing_eq_zero`). No coefficient is
zero, so the first terms agree, and the rest follows by induction on the lists.
-/

namespace EquationSteps

namespace Monomial

/-! ### Exponents

A monomial is a list of variables with powers. What it stands for is the function that gives each
variable its exponent; a variable that comes twice in a list would have its powers added up. -/

/-- The exponents of a monomial as a function of the variables. -/
noncomputable def exponents : Monomial → Char →₀ ℕ
  | [] => 0
  | factor :: rest => Finsupp.single factor.1 factor.2 + exponents rest

@[simp] theorem exponents_one : exponents one = 0 := rfl

@[simp] theorem exponents_ofVariable (name : Char) :
    exponents (ofVariable name) = Finsupp.single name 1 := by
  simp [ofVariable, exponents]

/-- Multiplying by a power of one variable adds to the exponent of that variable, wherever in the
list the variable is put. -/
@[simp] theorem exponents_raise (name : Char) (power : ℕ) (m : Monomial) :
    exponents (raise name power m) = Finsupp.single name power + exponents m := by
  induction m with
  | nil => rfl
  | cons factor rest ih =>
    obtain ⟨other, exponent⟩ := factor
    simp only [raise]
    split
    · next h =>
      subst h
      simp only [exponents, Finsupp.single_add]
      abel
    split
    · rfl
    · simp only [exponents, ih]
      abel

/-- Multiplying by the factors of a monomial one by one adds all of its exponents. -/
theorem exponents_foldl_raise (m n : Monomial) :
    exponents (n.foldl (fun product factor ↦ raise factor.1 factor.2 product) m) =
      exponents m + exponents n := by
  induction n generalizing m with
  | nil => simp [exponents]
  | cons factor n ih =>
    rw [List.foldl_cons, ih, exponents_raise, exponents]
    abel

/-- **The exponents of a product are the sums of the exponents**, for any two lists of factors. -/
@[simp] theorem exponents_mul (m n : Monomial) :
    exponents (m.mul n) = exponents m + exponents n :=
  exponents_foldl_raise m n

/-! ### Monomials in order -/

/-- A monomial as it is kept: its variables in increasing order, each with a positive exponent. -/
def IsCanonical (m : Monomial) : Prop :=
  m.Pairwise (fun a b ↦ a.1 < b.1) ∧ ∀ factor ∈ m, 0 < factor.2

/-- The monomial without variables. -/
theorem isCanonical_one : IsCanonical one :=
  ⟨List.Pairwise.nil, by simp [one]⟩

theorem isCanonical_ofVariable (name : Char) : IsCanonical (ofVariable name) :=
  ⟨List.pairwise_singleton _ _, by simp [ofVariable]⟩

/-- Raising a variable brings no other variable in. -/
theorem mem_raise {name : Char} {power : ℕ} {m : Monomial} {factor : Char × ℕ}
    (h : factor ∈ raise name power m) : factor.1 = name ∨ factor ∈ m := by
  induction m with
  | nil => simp_all [raise]
  | cons head rest ih =>
    obtain ⟨other, exponent⟩ := head
    simp only [raise] at h
    split at h
    · next heq =>
      rcases List.mem_cons.1 h with rfl | h
      · exact Or.inl heq.symm
      · exact Or.inr (List.mem_cons_of_mem _ h)
    split at h
    · rcases List.mem_cons.1 h with rfl | h
      · exact Or.inl rfl
      · exact Or.inr h
    · rcases List.mem_cons.1 h with rfl | h
      · exact Or.inr List.mem_cons_self
      · exact (ih h).imp_right (List.mem_cons_of_mem _)

/-- Raising keeps the order: the variable is put where it belongs, or its power grows where it
is. -/
theorem IsCanonical.raise {name : Char} {power : ℕ} {m : Monomial} (h : m.IsCanonical)
    (hpower : 0 < power) : (m.raise name power).IsCanonical := by
  induction m with
  | nil => exact ⟨List.pairwise_singleton _ _, by simpa [Monomial.raise] using hpower⟩
  | cons head rest ih =>
    obtain ⟨other, exponent⟩ := head
    obtain ⟨hlt, hrest⟩ := List.pairwise_cons.1 h.1
    have hpos := h.2
    simp only [List.mem_cons, forall_eq_or_imp] at hpos
    have hcanon : IsCanonical rest := ⟨hrest, hpos.2⟩
    simp only [Monomial.raise]
    split
    · exact ⟨List.pairwise_cons.2 ⟨hlt, hrest⟩, List.forall_mem_cons.2 ⟨by omega, hpos.2⟩⟩
    split
    · next hne hname =>
      refine ⟨List.pairwise_cons.2 ⟨?_, h.1⟩, List.forall_mem_cons.2 ⟨hpower, h.2⟩⟩
      intro factor hmem
      rcases List.mem_cons.1 hmem with rfl | hmem
      · exact hname
      · exact lt_trans hname (hlt factor hmem)
    · next hne hname =>
      have hother : other < name := lt_of_le_of_ne (not_lt.1 hname) (Ne.symm hne)
      refine ⟨List.pairwise_cons.2 ⟨?_, (ih hcanon).1⟩,
        List.forall_mem_cons.2 ⟨hpos.1, (ih hcanon).2⟩⟩
      intro factor hmem
      rcases mem_raise hmem with heq | hmem
      · rw [heq]; exact hother
      · exact hlt factor hmem

/-- A product of monomials in canonical form is in canonical form, as it is reached by raising one
variable after another. -/
theorem IsCanonical.mul {m n : Monomial} (hm : m.IsCanonical) (hn : n.IsCanonical) :
    (m.mul n).IsCanonical := by
  have hpos := hn.2
  clear hn
  unfold Monomial.mul
  induction n generalizing m with
  | nil => exact hm
  | cons factor n ih =>
    simp only [List.mem_cons, forall_eq_or_imp] at hpos
    exact ih (hm.raise hpos.1) hpos.2

/-- A variable beyond those of a monomial has exponent zero in it. -/
theorem exponents_eq_zero {name : Char} {m : Monomial} (h : ∀ factor ∈ m, name < factor.1) :
    exponents m name = 0 := by
  induction m with
  | nil => rfl
  | cons factor m ih =>
    simp only [List.mem_cons, forall_eq_or_imp] at h
    rw [exponents, Finsupp.add_apply, Finsupp.single_eq_of_ne h.1.ne, ih h.2, add_zero]

/-- The exponent of the first variable of a monomial is the one that stands beside it, as the
variable does not come again. -/
theorem exponents_head {factor : Char × ℕ} {rest : Monomial}
    (h : IsCanonical (factor :: rest)) : exponents (factor :: rest) factor.1 = factor.2 := by
  rw [exponents, Finsupp.add_apply, Finsupp.single_eq_same,
    exponents_eq_zero (List.pairwise_cons.1 h.1).1, add_zero]

theorem IsCanonical.tail {factor : Char × ℕ} {rest : Monomial}
    (h : IsCanonical (factor :: rest)) : IsCanonical rest :=
  ⟨(List.pairwise_cons.1 h.1).2, fun other hmem ↦ h.2 other (List.mem_cons_of_mem _ hmem)⟩

/-- Monomials that are kept in order are told apart by their exponents: the first variable of each
is the smallest one with an exponent other than zero. -/
theorem exponents_injective {m n : Monomial} (hm : m.IsCanonical) (hn : n.IsCanonical)
    (h : exponents m = exponents n) : m = n := by
  induction m generalizing n with
  | nil =>
    cases n with
    | nil => rfl
    | cons factor n =>
      have hzero := exponents_head hn
      rw [← h] at hzero
      exact absurd hzero.symm (hn.2 factor List.mem_cons_self).ne'
  | cons factor m ih =>
    cases n with
    | nil =>
      have hzero := exponents_head hm
      rw [h] at hzero
      exact absurd hzero.symm (hm.2 factor List.mem_cons_self).ne'
    | cons factor' n =>
      have hname : factor.1 = factor'.1 := by
        rcases lt_trichotomy factor.1 factor'.1 with hlt | heq | hgt
        · -- the smaller of the two first variables does not occur in the other monomial
          have hzero : exponents (factor' :: n) factor.1 = 0 :=
            exponents_eq_zero fun other hmem ↦ by
            rcases List.mem_cons.1 hmem with rfl | hmem
            · exact hlt
            · exact lt_trans hlt ((List.pairwise_cons.1 hn.1).1 other hmem)
          rw [← h, exponents_head hm] at hzero
          exact absurd hzero (hm.2 factor List.mem_cons_self).ne'
        · exact heq
        · have hzero : exponents (factor :: m) factor'.1 = 0 :=
            exponents_eq_zero fun other hmem ↦ by
            rcases List.mem_cons.1 hmem with rfl | hmem
            · exact hgt
            · exact lt_trans hgt ((List.pairwise_cons.1 hm.1).1 other hmem)
          rw [h, exponents_head hn] at hzero
          exact absurd hzero (hn.2 factor' List.mem_cons_self).ne'
      have hexponent : factor.2 = factor'.2 := by
        rw [← exponents_head hm, ← exponents_head hn, h, hname]
      have hfactor : factor = factor' := Prod.ext hname hexponent
      subst hfactor
      rw [exponents, exponents, add_right_inj] at h
      rw [ih hm.tail hn.tail h]

/-! ### The order of monomials

Terms are put in order by comparing the lists of factors of their monomials, variable before power.
Only that the comparison is transitive matters below. -/

/-- The order of monomials is the lexicographic one on their lists of factors, where a factor is
compared by its variable first and then by its exponent. -/
theorem order_eq_compareLex (m n : Monomial) :
    order m n = List.compareLex (compareLex (compareOn Prod.fst) (compareOn Prod.snd)) m n := by
  induction m generalizing n with
  | nil => cases n <;> rfl
  | cons factor m ih =>
    cases n with
    | nil => rfl
    | cons factor' n =>
      rw [order, List.compareLex_cons_cons, ih, compareLex, compareOn, compareOn]
      cases compare factor.1 factor'.1 <;> cases compare factor.2 factor'.2 <;> rfl

instance : Std.TransCmp order := by
  have h : order = List.compareLex (compareLex (compareOn Prod.fst) (compareOn Prod.snd)) :=
    funext fun m ↦ funext fun n ↦ order_eq_compareLex m n
  rw [h]
  infer_instance

end Monomial

namespace Polynomial

/-! ### Polynomials in the polynomial ring

Nothing here looks at whether terms are in order, come once, or have coefficients other than zero:
the sum of a list of terms does not depend on any of it. -/

/-- A term as an element of the polynomial ring. -/
noncomputable def termToRing (term : Monomial × ℚ) : MvPolynomial Char ℚ :=
  MvPolynomial.monomial term.1.exponents term.2

/-- A list of terms as an element of the polynomial ring. -/
noncomputable def termsToRing (terms : List (Monomial × ℚ)) : MvPolynomial Char ℚ :=
  (terms.map termToRing).sum

/-- A polynomial as an element of the polynomial ring. -/
noncomputable def toRing (p : Polynomial) : MvPolynomial Char ℚ :=
  termsToRing p.terms

@[simp] theorem termsToRing_nil : termsToRing [] = 0 := rfl

@[simp] theorem termsToRing_cons (term : Monomial × ℚ) (terms : List (Monomial × ℚ)) :
    termsToRing (term :: terms) = termToRing term + termsToRing terms := by
  simp [termsToRing]

/-- Terms are multiplied by their coefficients and their monomials. -/
theorem termToRing_mul (s t : Monomial × ℚ) :
    termToRing (s.1.mul t.1, s.2 * t.2) = termToRing s * termToRing t := by
  simp [termToRing, MvPolynomial.monomial_mul]

/-- **Inserting a term adds it**, wherever in the list it is put and whether or not it is added up
with a term that is there, or cancels it. -/
theorem termsToRing_insertTerm (m : Monomial) (c : ℚ) (terms : List (Monomial × ℚ)) :
    termsToRing (insertTerm m c terms) = termToRing (m, c) + termsToRing terms := by
  induction terms with
  | nil => simp [insertTerm]
  | cons head rest ih =>
    obtain ⟨other, present⟩ := head
    simp only [insertTerm]
    split
    · simp
    · next horder =>
      have hm : m = other := Monomial.order_eq_iff.1 horder
      subst hm
      have hadd : termToRing (m, c) + (termToRing (m, present) + termsToRing rest) =
          termToRing (m, present + c) + termsToRing rest := by
        simp only [termToRing, map_add]
        abel
      split
      · next hzero => rw [termsToRing_cons, hadd, hzero]; simp [termToRing]
      · rw [termsToRing_cons, termsToRing_cons, hadd]
    · rw [termsToRing_cons, termsToRing_cons, ih]
      abel

/-- A term with coefficient zero is left out, and nothing is added in the ring either. -/
@[simp] theorem toRing_addTerm (p : Polynomial) (m : Monomial) (c : ℚ) :
    (p.addTerm m c).toRing = p.toRing + termToRing (m, c) := by
  unfold addTerm
  split
  · next h => simp [h, termToRing]
  · rw [toRing, termsToRing_insertTerm, add_comm, toRing]

@[simp] theorem toRing_zero : (0 : Polynomial).toRing = 0 := rfl

@[simp] theorem toRing_constant (c : ℚ) : (constant c).toRing = MvPolynomial.C c := by
  rw [constant, toRing_addTerm, show zero.toRing = 0 from rfl, zero_add]
  rfl

@[simp] theorem toRing_one : (1 : Polynomial).toRing = 1 := by
  rw [show (1 : Polynomial) = constant 1 from rfl, toRing_constant, map_one]

@[simp] theorem toRing_ofVariable (name : Char) :
    (ofVariable name).toRing = MvPolynomial.X name := by
  rw [ofVariable, toRing_addTerm, show zero.toRing = 0 from rfl, zero_add, termToRing,
    Monomial.exponents_ofVariable]
  rfl

/-- Adding the terms that a list gives, one by one, adds their sum. Addition goes through the terms
of the second polynomial in this way, and multiplication through all pairs of terms. -/
theorem toRing_foldl_addTerm {α : Type} (term : α → Monomial × ℚ) (list : List α)
    (p : Polynomial) :
    (list.foldl (fun sum a ↦ sum.addTerm (term a).1 (term a).2) p).toRing =
      p.toRing + (list.map fun a ↦ termToRing (term a)).sum := by
  induction list generalizing p with
  | nil => simp
  | cons a list ih =>
    rw [List.foldl_cons, ih, toRing_addTerm, List.map_cons, List.sum_cons, add_assoc]

@[simp] theorem toRing_add (p q : Polynomial) : (p + q).toRing = p.toRing + q.toRing :=
  toRing_foldl_addTerm id q.terms p

@[simp] theorem toRing_neg (p : Polynomial) : (-p).toRing = -p.toRing := by
  have key : ∀ terms : List (Monomial × ℚ),
      termsToRing (terms.map fun term ↦ (term.1, -term.2)) = -termsToRing terms := by
    intro terms
    induction terms with
    | nil => simp
    | cons term terms ih =>
      rw [List.map_cons, termsToRing_cons, ih, termsToRing_cons, neg_add, termToRing, termToRing,
        map_neg]
  exact key p.terms

@[simp] theorem toRing_sub (p q : Polynomial) : (p - q).toRing = p.toRing - q.toRing := by
  rw [Polynomial.sub_eq_add_neg, toRing_add, toRing_neg]
  ring

/-- The product of two lists of terms collects the products of all pairs, and that is the product of
their sums. -/
@[simp] theorem toRing_mul (p q : Polynomial) : (p * q).toRing = p.toRing * q.toRing := by
  have key : ∀ (terms : List (Monomial × ℚ)) (acc : Polynomial),
      (terms.foldl (fun product left ↦ q.terms.foldl (fun product right ↦
        product.addTerm (left.1.mul right.1) (left.2 * right.2)) product) acc).toRing =
      acc.toRing + termsToRing terms * q.toRing := by
    intro terms
    induction terms with
    | nil => simp
    | cons left terms ih =>
      intro acc
      rw [List.foldl_cons, ih, termsToRing_cons, add_mul, ← add_assoc,
        toRing_foldl_addTerm (fun right : Monomial × ℚ ↦ (left.1.mul right.1, left.2 * right.2))]
      simp only [termToRing_mul, List.sum_map_mul_left]
      rfl
  have h := key p.terms zero
  rwa [show zero.toRing = 0 from rfl, zero_add] at h

/-! ### Lists of terms in order

The invariant of the lists, and the operations that keep it. Everything is built from the empty list
by adding single terms, so one lemma on inserting a term carries the rest. -/

/-- A polynomial as it is kept: its monomials in increasing order, and no coefficient zero. -/
structure IsCanonical (p : Polynomial) : Prop where
  /-- The monomials are in increasing order. -/
  increasing : p.terms.Pairwise fun s t ↦ Monomial.order s.1 t.1 = .lt
  /-- Each term is a nonzero multiple of a monomial in order. -/
  term : ∀ t ∈ p.terms, t.1.IsCanonical ∧ t.2 ≠ 0

/-- The empty list is in order. -/
theorem isCanonical_zero : IsCanonical 0 :=
  ⟨List.Pairwise.nil, by simp⟩

/-- Inserting a term brings no other monomial in. -/
theorem mem_insertTerm {m : Monomial} {c : ℚ} {terms : List (Monomial × ℚ)} {t : Monomial × ℚ}
    (h : t ∈ insertTerm m c terms) : t.1 = m ∨ ∃ s ∈ terms, s.1 = t.1 := by
  induction terms with
  | nil => simp_all [insertTerm]
  | cons head rest ih =>
    obtain ⟨other, present⟩ := head
    simp only [insertTerm] at h
    split at h
    · rcases List.mem_cons.1 h with rfl | h
      · exact Or.inl rfl
      · exact Or.inr ⟨t, h, rfl⟩
    · split at h
      · exact Or.inr ⟨t, List.mem_cons_of_mem _ h, rfl⟩
      · rcases List.mem_cons.1 h with rfl | h
        · exact Or.inr ⟨_, List.mem_cons_self, rfl⟩
        · exact Or.inr ⟨t, List.mem_cons_of_mem _ h, rfl⟩
    · rcases List.mem_cons.1 h with rfl | h
      · exact Or.inr ⟨_, List.mem_cons_self, rfl⟩
      · obtain heq | ⟨s, hs, hst⟩ := ih h
        · exact Or.inl heq
        · exact Or.inr ⟨s, List.mem_cons_of_mem _ hs, hst⟩

/-- Inserting a term other than zero keeps a list in order. If the coefficients at the place of the
monomial cancel, the term goes, and what is left is still in order. -/
theorem isCanonical_insertTerm {m : Monomial} {c : ℚ} {terms : List (Monomial × ℚ)}
    (hm : m.IsCanonical) (hc : c ≠ 0) (h : IsCanonical ⟨terms⟩) :
    IsCanonical ⟨insertTerm m c terms⟩ := by
  induction terms with
  | nil => exact ⟨List.pairwise_singleton _ _, by simpa [insertTerm] using ⟨hm, hc⟩⟩
  | cons head rest ih =>
    obtain ⟨other, present⟩ := head
    obtain ⟨hlt, hrest⟩ := List.pairwise_cons.1 h.increasing
    obtain ⟨hhead, hterms⟩ := List.forall_mem_cons.1 h.term
    simp only [insertTerm]
    split
    · next horder =>
      refine ⟨List.pairwise_cons.2 ⟨?_, h.increasing⟩, List.forall_mem_cons.2 ⟨⟨hm, hc⟩, h.term⟩⟩
      intro t ht
      rcases List.mem_cons.1 ht with rfl | ht
      · exact horder
      · exact Std.TransCmp.lt_trans horder (hlt t ht)
    · split
      · exact ⟨hrest, hterms⟩
      · next hsum =>
        exact ⟨List.pairwise_cons.2 ⟨hlt, hrest⟩,
          List.forall_mem_cons.2 ⟨⟨hhead.1, hsum⟩, hterms⟩⟩
    · next horder =>
      have hcanon := ih ⟨hrest, hterms⟩
      refine ⟨List.pairwise_cons.2 ⟨?_, hcanon.increasing⟩,
        List.forall_mem_cons.2 ⟨hhead, hcanon.term⟩⟩
      intro t ht
      obtain heq | ⟨s, hs, hst⟩ := mem_insertTerm ht
      · rw [heq]
        exact Std.OrientedCmp.lt_of_gt horder
      · rw [← hst]
        exact hlt s hs

/-- Adding a term keeps a list in order, for any coefficient: one that is zero is not inserted at
all. -/
theorem IsCanonical.addTerm {p : Polynomial} (h : p.IsCanonical) {m : Monomial}
    (hm : m.IsCanonical) (c : ℚ) : (p.addTerm m c).IsCanonical := by
  unfold Polynomial.addTerm
  split
  · exact h
  · next hc => exact isCanonical_insertTerm hm hc h

/-- A constant is a single term, and the constant zero is the empty list. -/
theorem isCanonical_constant (c : ℚ) : (constant c).IsCanonical :=
  isCanonical_zero.addTerm Monomial.isCanonical_one c

theorem isCanonical_one : IsCanonical 1 :=
  isCanonical_constant 1

theorem isCanonical_ofVariable (name : Char) : (ofVariable name).IsCanonical :=
  isCanonical_zero.addTerm (Monomial.isCanonical_ofVariable name) 1

/-- A loop over a list keeps a polynomial in order if each step does. -/
theorem isCanonical_foldl {α : Type} {step : Polynomial → α → Polynomial} {list : List α}
    (hstep : ∀ p : Polynomial, p.IsCanonical → ∀ a ∈ list, (step p a).IsCanonical)
    {p : Polynomial} (hp : p.IsCanonical) : (list.foldl step p).IsCanonical := by
  induction list generalizing p with
  | nil => exact hp
  | cons a list ih =>
    exact ih (fun q hq b hb ↦ hstep q hq b (List.mem_cons_of_mem _ hb))
      (hstep p hp a List.mem_cons_self)

theorem IsCanonical.add {p q : Polynomial} (hp : p.IsCanonical) (hq : q.IsCanonical) :
    (p + q).IsCanonical :=
  isCanonical_foldl (fun _ hr t ht ↦ hr.addTerm (hq.term t ht).1 t.2) hp

/-- Negating changes coefficients alone, and none of them to zero. -/
theorem IsCanonical.neg {p : Polynomial} (hp : p.IsCanonical) : (-p).IsCanonical := by
  constructor
  · rw [terms_neg, List.pairwise_map]
    exact hp.increasing
  · intro t ht
    obtain ⟨s, hs, rfl⟩ := List.mem_map.1 ht
    exact ⟨(hp.term s hs).1, neg_ne_zero.2 (hp.term s hs).2⟩

theorem IsCanonical.sub {p q : Polynomial} (hp : p.IsCanonical) (hq : q.IsCanonical) :
    (p - q).IsCanonical :=
  hp.add hq.neg

/-- The terms of a product are added one by one, each with the product of two canonical
monomials. -/
theorem IsCanonical.mul {p q : Polynomial} (hp : p.IsCanonical) (hq : q.IsCanonical) :
    (p * q).IsCanonical :=
  isCanonical_foldl (fun _ hr s hs ↦ isCanonical_foldl
    (fun _ hr t ht ↦ hr.addTerm ((hp.term s hs).1.mul (hq.term t ht).1) _) hr) isCanonical_zero

/-! ### Canonical lists are told apart -/

/-- The coefficient of a monomial that is smaller than all of a polynomial is zero. -/
theorem coeff_termsToRing_eq_zero {m : Monomial} {terms : List (Monomial × ℚ)}
    (hm : m.IsCanonical) (h : ∀ t ∈ terms, t.1.IsCanonical ∧ Monomial.order m t.1 = .lt) :
    (termsToRing terms).coeff m.exponents = 0 := by
  induction terms with
  | nil => simp
  | cons t terms ih =>
    obtain ⟨⟨ht, horder⟩, hterms⟩ := List.forall_mem_cons.1 h
    have hne : t.1.exponents ≠ m.exponents := fun heq ↦ by
      have := Monomial.order_eq_iff.2 (Monomial.exponents_injective hm ht heq.symm)
      rw [horder] at this
      cases this
    rw [termsToRing_cons, MvPolynomial.coeff_add, ih hterms, termToRing,
      MvPolynomial.coeff_monomial, if_neg hne, zero_add]

/-- The coefficient of the first monomial of a polynomial that is kept in order is the one that
stands beside it: all monomials after it are larger. -/
theorem coeff_head {t : Monomial × ℚ} {terms : List (Monomial × ℚ)} (h : IsCanonical ⟨t :: terms⟩) :
    (termsToRing (t :: terms)).coeff t.1.exponents = t.2 := by
  obtain ⟨hlt, -⟩ := List.pairwise_cons.1 h.increasing
  obtain ⟨ht, hterms⟩ := List.forall_mem_cons.1 h.term
  have hzero := coeff_termsToRing_eq_zero ht.1 fun s hs ↦ ⟨(hterms s hs).1, hlt s hs⟩
  rw [termsToRing_cons, MvPolynomial.coeff_add, hzero, add_comm, zero_add, termToRing,
    MvPolynomial.coeff_monomial, if_pos rfl]

theorem IsCanonical.tail {t : Monomial × ℚ} {terms : List (Monomial × ℚ)}
    (h : IsCanonical ⟨t :: terms⟩) : IsCanonical ⟨terms⟩ :=
  ⟨(List.pairwise_cons.1 h.increasing).2, (List.forall_mem_cons.1 h.term).2⟩

/-- All monomials of a polynomial that is kept in order are beyond those before its first one. -/
theorem IsCanonical.beyond {m : Monomial} {t : Monomial × ℚ} {terms : List (Monomial × ℚ)}
    (h : IsCanonical ⟨t :: terms⟩) (hm : Monomial.order m t.1 = .lt) :
    ∀ s ∈ t :: terms, s.1.IsCanonical ∧ Monomial.order m s.1 = .lt := by
  intro s hs
  refine ⟨(h.term s hs).1, ?_⟩
  rcases List.mem_cons.1 hs with rfl | hs
  · exact hm
  · exact Std.TransCmp.lt_trans hm ((List.pairwise_cons.1 h.increasing).1 s hs)

/-- The first term is not made up for by terms of larger monomials. -/
theorem termsToRing_ne {t : Monomial × ℚ} {terms others : List (Monomial × ℚ)}
    (h : IsCanonical ⟨t :: terms⟩)
    (hothers : ∀ s ∈ others, s.1.IsCanonical ∧ Monomial.order t.1 s.1 = .lt) :
    termsToRing (t :: terms) ≠ termsToRing others := by
  obtain ⟨ht, -⟩ := List.forall_mem_cons.1 h.term
  intro heq
  have hcoeff := coeff_head h
  rw [heq, coeff_termsToRing_eq_zero ht.1 hothers] at hcoeff
  exact ht.2 hcoeff.symm

/-- **Polynomials that are kept in order are told apart** by the elements of the ring that they
stand for. So comparing two lists of terms decides whether they are the same polynomial. -/
theorem toRing_injective {p q : Polynomial} (hp : p.IsCanonical) (hq : q.IsCanonical)
    (h : p.toRing = q.toRing) : p = q := by
  obtain ⟨terms⟩ := p
  obtain ⟨others⟩ := q
  induction terms generalizing others with
  | nil =>
    cases others with
    | nil => rfl
    | cons s others => exact absurd h.symm (termsToRing_ne hq (List.forall_mem_nil _))
  | cons t terms ih =>
    cases others with
    | nil => exact absurd h (termsToRing_ne hp (List.forall_mem_nil _))
    | cons s others =>
      cases horder : Monomial.order t.1 s.1 with
      | lt => exact absurd h (termsToRing_ne hp (hq.beyond horder))
      | gt => exact absurd h.symm (termsToRing_ne hq (hp.beyond (Std.OrientedCmp.lt_of_gt horder)))
      | eq =>
        have hmonomial : t.1 = s.1 := Monomial.order_eq_iff.1 horder
        have hcoefficient : t.2 = s.2 := by
          rw [← coeff_head hp, ← coeff_head hq, hmonomial]
          exact congrArg (MvPolynomial.coeff s.1.exponents) h
        obtain rfl : t = s := Prod.ext hmonomial hcoefficient
        rw [toRing, toRing, termsToRing_cons, termsToRing_cons, add_right_inj] at h
        rw [Polynomial.mk.injEq, List.cons.injEq]
        exact ⟨rfl, congrArg Polynomial.terms (ih hp.tail others hq.tail h)⟩

/-- A polynomial that is kept in order is zero only if it has no terms. -/
theorem toRing_eq_zero_iff {p : Polynomial} (hp : p.IsCanonical) : p.toRing = 0 ↔ p = 0 := by
  rw [← toRing_zero]
  exact ⟨toRing_injective hp isCanonical_zero, congrArg toRing⟩

end Polynomial

end EquationSteps
