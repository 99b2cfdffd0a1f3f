import EquationSteps.Proofs.Algebra.FunctionField
import EquationSteps.Tree.Value

/-!
# Meanings

The meaning of an expression is its value in the function field, or nothing where a divisor is zero
or a leaf is no operand. `Meaning` is the function field with that one further element, which
absorbs everything: a sum, a product or a negation with an undefined part is undefined, and so is
the inverse of zero. Sums and products of meanings are commutative monoids, so statements about
groups of operands are statements about sums and products of lists, whatever may be undefined in
them.

The meaning of a tree's content is that of its value (`Node.contentMeaning`), and it is computed
from the meanings of the operands: `Node.groupMeaning_of_terms` for terms,
`Node.groupMeaning_of_factors` for factors and divisors.

**What is lost against a field.** Two laws of a field fail at the undefined element, and both would
be wrong of expressions as well. An undefined meaning minus itself is undefined and not zero, so
there are no additive inverses; negation is only an involution that distributes over sums. And
multiplication distributes over a sum of two (`add_product`) but not over the empty sum, since zero
times something undefined is undefined.

What does hold is collected as instances of the library's classes, so that its lemmas on sums and
products of lists apply: `SubtractionCommMonoid`, `CommMonoid` and `HasDistribNeg`. Inverses are not
part of these. The inverse of a product is the product of the inverses without any condition
(`inv_product`), because both are undefined if a factor is zero or undefined.

**The laws for cancelling** have a condition that something is defined, and that is where it has to
be seen that a divisor is not zero (`mul_inv_of_ne_undefined`, `inv_product_mul`).
-/

namespace EquationSteps

/-- An element of the function field, or undefined. -/
def Meaning : Type := Option FunctionField

namespace Meaning

/-- The meaning of what has no value. -/
def undefined : Meaning := none

/-- The meaning of what has a value. -/
def of (k : FunctionField) : Meaning := some k

/-- Different functions are different meanings. -/
theorem of_injective {k l : FunctionField} (h : of k = of l) : k = l :=
  Option.some.inj h

/-- What has a value is defined. -/
theorem of_ne_undefined (k : FunctionField) : of k ≠ undefined :=
  Option.some_ne_none k

noncomputable instance : Add Meaning := ⟨Option.map₂ (· + ·)⟩
noncomputable instance : Mul Meaning := ⟨Option.map₂ (· * ·)⟩
noncomputable instance : Zero Meaning := ⟨of 0⟩
noncomputable instance : One Meaning := ⟨of 1⟩
noncomputable instance : Neg Meaning := ⟨Option.map (- ·)⟩

open Classical in
/-- The inverse is undefined at zero. -/
noncomputable instance : Inv Meaning :=
  ⟨fun m ↦ Option.bind m fun k ↦ if k = 0 then none else some k⁻¹⟩

@[simp] theorem of_add (k l : FunctionField) : of k + of l = of (k + l) := rfl

@[simp] theorem of_mul (k l : FunctionField) : of k * of l = of (k * l) := rfl

@[simp] theorem neg_of (k : FunctionField) : -of k = of (-k) := rfl

/-- Zero is a meaning with a value. -/
theorem of_zero : of 0 = 0 := rfl

/-- And so is one. -/
theorem of_one : of 1 = 1 := rfl

/-- The inverse of a function other than zero is the one of the field. -/
theorem inv_of {k : FunctionField} (h : k ≠ 0) : (of k)⁻¹ = of k⁻¹ :=
  if_neg h

/-- Dividing by zero is undefined. -/
@[simp] theorem inv_zero : (0 : Meaning)⁻¹ = undefined :=
  if_pos rfl

@[simp] theorem undefined_add (m : Meaning) : undefined + m = undefined := rfl

@[simp] theorem add_undefined (m : Meaning) : m + undefined = undefined := by
  cases m <;> rfl

@[simp] theorem undefined_mul (m : Meaning) : undefined * m = undefined := rfl

@[simp] theorem mul_undefined (m : Meaning) : m * undefined = undefined := by
  cases m <;> rfl

@[simp] theorem neg_undefined : -undefined = undefined := rfl

@[simp] theorem inv_undefined : undefined⁻¹ = undefined := rfl

/-- A meaning is undefined or an element of the field. -/
theorem eq_undefined_or_of (m : Meaning) : m = undefined ∨ ∃ k, m = of k := by
  cases m with
  | none => exact Or.inl rfl
  | some k => exact Or.inr ⟨k, rfl⟩

noncomputable instance : SubtractionCommMonoid Meaning where
  add_assoc _ _ _ := Option.map₂_assoc add_assoc
  add_comm _ _ := Option.map₂_comm add_comm
  zero_add m := by
    rcases eq_undefined_or_of m with rfl | ⟨k, rfl⟩
    · rfl
    · exact congrArg of (zero_add k)
  add_zero m := by
    rcases eq_undefined_or_of m with rfl | ⟨k, rfl⟩
    · rfl
    · exact congrArg of (add_zero k)
  nsmul := nsmulRec
  zsmul := zsmulRec
  neg_neg m := by
    rcases eq_undefined_or_of m with rfl | ⟨k, rfl⟩
    · rfl
    · exact congrArg of (neg_neg k)
  neg_add_rev m n := by
    rcases eq_undefined_or_of m with rfl | ⟨k, rfl⟩
    · simp
    rcases eq_undefined_or_of n with rfl | ⟨l, rfl⟩
    · simp
    · exact congrArg of (neg_add_rev k l)
  neg_eq_of_add m n h := by
    rcases eq_undefined_or_of m with rfl | ⟨k, rfl⟩
    · exact absurd h.symm (of_ne_undefined 0)
    rcases eq_undefined_or_of n with rfl | ⟨l, rfl⟩
    · exact absurd h.symm (of_ne_undefined 0)
    · exact congrArg of (neg_eq_of_add_eq_zero_right (of_injective h))

noncomputable instance : CommMonoid Meaning where
  mul_assoc _ _ _ := Option.map₂_assoc mul_assoc
  mul_comm _ _ := Option.map₂_comm mul_comm
  one_mul m := by
    rcases eq_undefined_or_of m with rfl | ⟨k, rfl⟩
    · rfl
    · exact congrArg of (one_mul k)
  mul_one m := by
    rcases eq_undefined_or_of m with rfl | ⟨k, rfl⟩
    · rfl
    · exact congrArg of (mul_one k)
  npow := npowRec

noncomputable instance : HasDistribNeg Meaning where
  neg_mul m n := by
    rcases eq_undefined_or_of m with rfl | ⟨k, rfl⟩
    · rfl
    rcases eq_undefined_or_of n with rfl | ⟨l, rfl⟩
    · simp
    · exact congrArg of (neg_mul k l)
  mul_neg m n := by
    rcases eq_undefined_or_of m with rfl | ⟨k, rfl⟩
    · rfl
    rcases eq_undefined_or_of n with rfl | ⟨l, rfl⟩
    · simp
    · exact congrArg of (mul_neg k l)

/-- The inverse of a product is that of its factors, also where one of them is zero. -/
theorem inv_product (m n : Meaning) : (m * n)⁻¹ = m⁻¹ * n⁻¹ := by
  rcases eq_undefined_or_of m with rfl | ⟨k, rfl⟩
  · simp
  rcases eq_undefined_or_of n with rfl | ⟨l, rfl⟩
  · simp
  by_cases hk : k = 0
  · rw [hk, of_mul, zero_mul, of_zero, inv_zero, undefined_mul]
  by_cases hl : l = 0
  · rw [hl, of_mul, mul_zero, of_zero, inv_zero, mul_undefined]
  · rw [of_mul, inv_of (mul_ne_zero hk hl), inv_of hk, inv_of hl, of_mul, mul_inv]

/-- Dividing by one changes nothing. -/
@[simp] theorem one_inv : (1 : Meaning)⁻¹ = 1 := by
  rw [← of_one, inv_of one_ne_zero, inv_one]

/-- The inverse of a negation is the negation of the inverse, also at zero. -/
theorem inv_negation (m : Meaning) : (-m)⁻¹ = -m⁻¹ := by
  rcases eq_undefined_or_of m with rfl | ⟨k, rfl⟩
  · rfl
  by_cases hk : k = 0
  · rw [hk, of_zero, neg_zero, inv_zero, neg_undefined]
  · rw [neg_of, inv_of (neg_ne_zero.2 hk), inv_of hk, neg_of, inv_neg]

/-- Where the inverse is defined, it is one. -/
theorem mul_inv_of_ne_undefined {m : Meaning} (h : m⁻¹ ≠ undefined) : m * m⁻¹ = 1 := by
  rcases eq_undefined_or_of m with rfl | ⟨k, rfl⟩
  · exact absurd rfl h
  by_cases hk : k = 0
  · rw [hk, of_zero, inv_zero] at h
    exact absurd rfl h
  · rw [inv_of hk, of_mul, mul_inv_cancel₀ hk, of_one]

/-- A product is defined exactly if both factors are. -/
theorem mul_ne_undefined_iff {m n : Meaning} :
    m * n ≠ undefined ↔ m ≠ undefined ∧ n ≠ undefined := by
  rcases eq_undefined_or_of m with rfl | ⟨k, rfl⟩
  · simp
  rcases eq_undefined_or_of n with rfl | ⟨l, rfl⟩
  · simp
  · simp [of_ne_undefined]

/-- A sum is defined exactly if both terms are. -/
theorem add_ne_undefined_iff {m n : Meaning} :
    m + n ≠ undefined ↔ m ≠ undefined ∧ n ≠ undefined := by
  rcases eq_undefined_or_of m with rfl | ⟨k, rfl⟩
  · simp
  rcases eq_undefined_or_of n with rfl | ⟨l, rfl⟩
  · simp
  · simp [of_ne_undefined]

/-- A factor of a denominator cancels. -/
theorem inv_product_mul {m n : Meaning} (h : (m * n)⁻¹ ≠ undefined) : (m * n)⁻¹ * m = n⁻¹ := by
  rw [inv_product] at h ⊢
  rw [mul_right_comm, mul_comm m⁻¹, mul_inv_of_ne_undefined (mul_ne_undefined_iff.1 h).1, one_mul]

/-- Multiplication distributes over sums, except over the empty one. -/
theorem add_product (m n p : Meaning) : (m + n) * p = m * p + n * p := by
  rcases eq_undefined_or_of m with rfl | ⟨k, rfl⟩
  · simp
  rcases eq_undefined_or_of n with rfl | ⟨l, rfl⟩
  · simp
  rcases eq_undefined_or_of p with rfl | ⟨j, rfl⟩
  · simp
  · simp [add_mul]

/-- A sum of negations is the negation of the sum. -/
theorem sum_map_neg {α : Type} (list : List α) (f : α → Meaning) :
    (list.map fun a ↦ -f a).sum = -(list.map f).sum := by
  induction list with
  | nil => exact neg_zero.symm
  | cons a list ih => rw [List.map_cons, List.sum_cons, ih, List.map_cons, List.sum_cons, neg_add]

/-- A sum of products with one factor in common, unless it is empty. -/
theorem sum_map_mul {α : Type} {list : List α} (hne : list ≠ []) (f : α → Meaning) (m : Meaning) :
    (list.map fun a ↦ f a * m).sum = (list.map f).sum * m := by
  induction list with
  | nil => exact absurd rfl hne
  | cons a rest ih =>
    cases rest with
    | nil => simp
    | cons b rest =>
      have hrest := ih (List.cons_ne_nil b rest)
      rw [List.map_cons, List.sum_cons, hrest, ← add_product]
      rfl

/-! ### Values and signs

How a computed value becomes a meaning, and what the sign in front of an operand does to it: as a
term it may negate, as a factor or divisor it may invert. -/

/-- The meaning of a value, if there is one. -/
noncomputable def ofValue : Except ValueError RationalFunction → Meaning
  | .ok f => of f.toField
  | .error _ => undefined

@[simp] theorem ofValue_ok (f : RationalFunction) : ofValue (.ok f) = of f.toField := rfl

@[simp] theorem ofValue_error (e : ValueError) : ofValue (.error e) = undefined := rfl

/-- The meaning, or its negation in front of which a minus stands. -/
noncomputable def signed (sign : Sign) (m : Meaning) : Meaning :=
  if sign = .minus then -m else m

/-- What an operand with the given sign brings into a product or quotient behind its first
operand. -/
noncomputable def asFactor (sign : Sign) (m : Meaning) : Meaning :=
  match sign with
  | .divide => m⁻¹
  | .minus => -m
  | .plus | .times => m

@[simp] theorem signed_minus (m : Meaning) : signed .minus m = -m := rfl

/-- Any other sign than a minus leaves the meaning as it is. -/
theorem signed_of_ne {sign : Sign} (h : sign ≠ .minus) (m : Meaning) : signed sign m = m :=
  if_neg h

@[simp] theorem signed_plus (m : Meaning) : signed .plus m = m := rfl

@[simp] theorem asFactor_times (m : Meaning) : asFactor .times m = m := rfl

@[simp] theorem asFactor_divide (m : Meaning) : asFactor .divide m = m⁻¹ := rfl

/-- Turning an additive sign negates. -/
theorem signed_flipped {sign : Sign} (h : sign.isAdditive = true) (m : Meaning) :
    signed sign.flipped m = -signed sign m := by
  cases sign with
  | plus => rfl
  | minus => exact (neg_neg m).symm
  | times => cases h
  | divide => cases h

/-- Negating commutes with a sign. -/
theorem signed_neg (sign : Sign) (m : Meaning) : signed sign (-m) = -signed sign m := by
  unfold signed
  split <;> rfl

/-- The sign of a product may be taken from its first factor. -/
theorem signed_mul (sign : Sign) (m n : Meaning) : signed sign (m * n) = signed sign m * n := by
  unfold signed
  split
  · exact (neg_mul m n).symm
  · rfl

/-- A sign does not matter for whether something is defined. -/
theorem signed_ne_undefined_iff (sign : Sign) {m : Meaning} :
    signed sign m ≠ undefined ↔ m ≠ undefined := by
  unfold signed
  split
  · exact not_congr (neg_eq_iff_eq_neg.trans (by rw [neg_undefined]))
  · rfl

/-- Zero has no sign. -/
theorem signed_zero (sign : Sign) : signed sign 0 = 0 := by
  unfold signed
  split
  · exact neg_zero
  · rfl

end Meaning

end EquationSteps
