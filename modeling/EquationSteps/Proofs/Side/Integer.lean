import EquationSteps.Proofs.Canonical.Normal
import EquationSteps.Proofs.Canonical.Termination
import EquationSteps.Proofs.Side.Terms

/-!
# Operations by integers

Where a term and an operand are integers, they are reduced by their greatest common divisor, however
long they are. A sound oracle is asked first whether they cancel as expressions, and it says so
exactly if they are the same number (`Cancellation.compare_digits`). What is left of a term is then
the fraction in lowest terms (`Node.divideTerm_digits`, `Node.multiplyTerm_fraction`), without
divisors and factors of one. No rule applies to it, so normalization has nothing to do but to
examine a fraction of which only the numerator is left (`Node.IsSole.normalize`).

A number has one way of being written without leading zeros (`Numeral.digits_value`), so all of this
is about literals of any length, and about numbers.

**Why a sound oracle answers.** Elsewhere nothing is known about what an oracle denies or leaves
without an answer. Here the texts are numbers. If they are equal, then they are the same text, and
equal texts are never asked about; if they are not, then a sound oracle cannot confirm that they are
equal or opposite, and a missing answer counts as a denial. So the outcome is the same for all sound
oracles, and it can be stated as an equation.

**Four ways through a fraction.** A fraction over `b` that is multiplied by `d` is told apart by
whether `b` divides `d` and whether `d` divides `b`: if both, the fraction gives way to its
numerator; if only the first, a factor is left; if only the second, a smaller denominator; if
neither, both remain and have no common factor. `Node.fractionContent` has the four in two cases,
and the main result spells them out.

**What is left is settled.** No rule may apply to the new term, or normalizing would go on. The term
is a number, a letter, a product of both, or a fraction of these, and for each of them it is checked
that it is canonical and can stand alone on a side (`Node.IsSole`). It must not be a sum, which
would join the side; with a numerator that is a letter it is none.
-/

namespace EquationSteps

/-! ### Literals

How literals are read, and what becomes of them as leaves. -/

namespace Numeral

/-- Every digit is the digit of a number. -/
theorem exists_digitChar {c : Char} (h : c.isDigit = true) : ∃ k < 10, c = k.digitChar := by
  have hbounds : 48 ≤ c.toNat ∧ c.toNat ≤ 57 := Char.isDigit_iff_toNat.1 h
  have hlt : c.toNat - 48 < 10 := by omega
  refine ⟨c.toNat - 48, hlt, Char.toNat_inj.1 ?_⟩
  rw [Nat.toNat_digitChar_of_lt_ten hlt]
  omega

/-- The number of a literal with one more digit. -/
theorem value_append_digitChar (init : Text) {k : Nat} (hk : k < 10) :
    value (init ++ [k.digitChar]) = 10 * value init + k := by
  have hdigit : k.digitChar.toNat - '0'.toNat = k := Nat.toNat_digitChar_sub_48_of_lt_ten hk
  rw [value, Nat.ofDigitChars_append, Nat.ofDigitChars_cons, hdigit]
  rfl

/-- **A number is written in one way**: without leading zeros, a literal is the digits of its
number. -/
theorem digits_value {text : Text} (h : isInteger text = true)
    (hcanonical : canonicalInteger text = text) :
    digits (value text) = text := by
  rw [canonicalInteger_eq_self_iff h] at hcanonical
  induction text using List.reverseRecOn with
  | nil => cases h
  | append_singleton init c ih =>
    obtain ⟨-, hdigits⟩ := isInteger_iff.1 h
    obtain ⟨hinit, hc⟩ := List.forall_mem_append.1 hdigits
    obtain ⟨k, hk, rfl⟩ := exists_digitChar (hc c (List.mem_singleton_self c))
    rw [value_append_digitChar init hk]
    cases init with
    | nil =>
      show Nat.toDigits 10 (10 * 0 + k) = [k.digitChar]
      rw [Nat.mul_zero, Nat.zero_add, Nat.toDigits_of_lt_base hk]
    | cons first rest =>
      have hfirst : first ≠ '0' := by
        rintro rfl
        have hsame := congrArg List.length (hcanonical rfl)
        simp at hsame
      have hrest : digits (value (first :: rest)) = first :: rest :=
        ih (isInteger_iff.2 ⟨List.cons_ne_nil _ _, hinit⟩) fun hzero ↦
          absurd (Option.some.inj hzero) hfirst
      have hpos : 0 < value (first :: rest) := by
        refine Nat.pos_of_ne_zero fun hzero ↦ hfirst ?_
        rw [hzero] at hrest
        exact (List.cons.inj hrest).1.symm
      rw [digits, ← Nat.toDigits_append_toDigits (by decide) hpos hk, ← digits, hrest,
        Nat.toDigits_of_lt_base hk]

/-- Without its leading zeros, a literal is the digits of its number. -/
theorem canonicalInteger_eq_digits {text : Text} {n : Nat} (h : integer? text = some n) :
    canonicalInteger text = digits n := by
  obtain ⟨hinteger, rfl⟩ := integer?_eq_some_iff.1 h
  rw [← value_canonicalInteger text,
    digits_value (isInteger_canonicalInteger hinteger) (canonicalInteger_canonicalInteger text)]

/-- Different numbers have different digits. -/
theorem digits_inj {m n : Nat} : digits m = digits n ↔ m = n := by
  refine ⟨fun h ↦ ?_, congrArg digits⟩
  rw [← value_digits m, h, value_digits]

/-- The digits of a number are a literal of that number. -/
theorem integer?_digits (n : Nat) : integer? (digits n) = some n :=
  integer?_eq_some_iff.2 ⟨isInteger_digits n, value_digits n⟩

/-- A literal with a minus in front, or without. -/
def signed (negative : Bool) (literal : Text) : Text :=
  if negative then '-' :: literal else literal

end Numeral

namespace Node

variable {rationalize : Text → Except ValueError Text} {limits : Limits} {literal : Text}
  {d : Nat} {tag : Tag} {node' : Node}

/-- An operand is built as a leaf, whatever levels are left. -/
theorem build_operand (hoperand : isOperandText literal = true) (limit levels : Nat) :
    build limit (levels + 1) none literal false = .ok (leaf .plus literal) := by
  rw [build, if_pos ⟨rfl, any_isStructural_of_operand hoperand⟩, Option.getD_none]

/-- An operand is read as a leaf, within any limits. -/
theorem read_operand (hoperand : isOperandText literal = true) :
    read limits literal false = .ok (leaf .plus literal) := by
  have hfactor : Generates false .factor literal := .operand hoperand
  have hbuild := build_operand hoperand limits.depth limits.depth
  rw [← hfactor.scanned_eq] at hbuild
  rw [read_of_build hbuild, hfactor.scanned_eq]
  rfl

/-- A literal with a sign is read as a leaf with that sign. -/
theorem read_signed (hliteral : Numeral.isInteger literal = true) (hdepth : 0 < limits.depth)
    (negative : Bool) : read limits (Numeral.signed negative literal) false =
      .ok (leaf (if negative then .minus else .plus) literal) := by
  have hoperand : isOperandText literal = true := isOperandText_of_isInteger hliteral
  cases negative with
  | false => exact read_operand hoperand
  | true =>
    have hsigned : Generates false (.signed .factor) ('-' :: literal) :=
      .sign (show Sign.minus.isAdditive = true from rfl) (.unsigned (.operand hoperand))
    have hscanned : (Numeral.signed true literal).scanned = '-' :: literal := hsigned.scanned_eq
    obtain ⟨levels, hlevels⟩ := Nat.exists_eq_add_one_of_ne_zero hdepth.ne'
    have hbelow := build_operand hoperand limits.depth levels
    rw [← hlevels] at hbelow
    have hbuild :
        build limits.depth (limits.depth + 1) none (Numeral.signed true literal).scanned false =
        .ok (leaf .minus literal) := by
      have hstructural : ('-' :: literal).any isStructural = true := rfl
      rw [hscanned, build, if_neg (by rw [hstructural]; exact fun h ↦ by cases h.2),
        negated?_of_isOperandText hoperand]
      dsimp only
      rw [hbelow]
      rfl
    exact read_of_build hbuild

/-- A digit string without leading zeros is canonical as a leaf below a root. -/
theorem isCanonical_digits (n : Nat) (hroot : tag.root = false) :
    (atom tag (Numeral.digits n)).IsCanonical rationalize := by
  obtain ⟨hinteger, hcanonical⟩ := Numeral.isCanonical_iff.1 (Numeral.isCanonical_digits n)
  refine .atom (isIdle_atom_iff.2 ⟨hroot, ?_⟩)
  rw [canonicalNumber?, leaf, content]
  dsimp only
  rw [if_pos hinteger, if_pos hcanonical]

/-- So is a letter. -/
theorem isCanonical_letter {x : Char} (hx : x.isAlpha = true) (hroot : tag.root = false) :
    (atom tag [x]).IsCanonical rationalize := by
  have hdigit : x.isDigit = false := Bool.eq_false_iff.2 fun h ↦ by
    cases hx.symm.trans (isAlpha_of_isDigit h)
  refine .atom (isIdle_atom_iff.2 ⟨hroot, ?_⟩)
  simp [canonicalNumber?, leaf, content, Numeral.isInteger, Numeral.isDecimal, hdigit]

/-- What the rule for numbers makes of a leaf is all that becomes of it, if no rule applies to
that. -/
theorem reshape_of_canonicalNumber? (hroot : tag.root = false)
    (hnumber : (atom tag literal).canonicalNumber? rationalize = some node')
    (hcanonical : node'.IsCanonical rationalize) :
    (atom tag literal).reshape rationalize = .opened true node' := by
  have hidle := (isCanonical_iff.1 hcanonical).1
  have hfill : (atom tag literal).fillRoot? = none := by rw [fillRoot?, isRoot, tag_atom, hroot]
  have hwrap : (atom tag literal).wrapRoot? = none := by rw [wrapRoot?, isRoot, tag_atom, hroot]
  exact reshape_eq_opened_true hfill (rewritten_of_canonicalNumber? hwrap rfl hnumber hidle) hidle

/-- A literal becomes the digits of its number. -/
theorem reshape_literal (hliteral : Numeral.integer? literal = some d) (hroot : tag.root = false) :
    ∃ changed, (atom tag literal).reshape rationalize =
      .opened changed (atom tag (Numeral.digits d)) := by
  have hdigits := Numeral.canonicalInteger_eq_digits hliteral
  have hcanonical : (atom tag (Numeral.digits d)).IsCanonical rationalize :=
    isCanonical_digits d hroot
  by_cases hsame : literal = Numeral.digits d
  · rw [hsame]
    exact ⟨false, reshape_eq_opened_false_iff.2 ⟨rfl, (isCanonical_iff.1 hcanonical).1⟩⟩
  · have hnumber : (atom tag literal).canonicalNumber? rationalize =
        some (atom tag (Numeral.digits d)) := by
      rw [canonicalNumber?, content]
      dsimp only
      rw [if_pos (Numeral.integer?_eq_some_iff.1 hliteral).1, hdigits, if_neg (Ne.symm hsame)]
      rfl
    exact ⟨true, reshape_of_canonicalNumber? hroot hnumber hcanonical⟩

/-- A literal is normalized to the digits of its number. -/
theorem normalize_literal (hliteral : Numeral.integer? literal = some d) (hroot : tag.root = false)
    (hlimits : 2 ≤ limits.passes) : ∃ passes, (atom tag literal).normalize rationalize limits =
      (.ok passes, atom tag (Numeral.digits d)) := by
  obtain ⟨changed, hreshape⟩ := @reshape_literal rationalize literal d tag hliteral hroot
  exact exists_normalize_of_reshape hreshape (isCanonical_digits d hroot) hlimits

end Node

namespace Operand

/-- The operand that is an integer, with a minus or without. -/
def ofInteger (negative : Bool) (d : Nat) : Operand :=
  ⟨.atom (Numeral.digits d), Numeral.digits d, negative⟩

/-- The text of an integer as an operand has no sign. -/
@[simp] theorem text_ofInteger (negative : Bool) (d : Nat) :
    (ofInteger negative d).text = Numeral.digits d := rfl

/-- The number that such an operand is. -/
theorem integer?_ofInteger (negative : Bool) (d : Nat) : (ofInteger negative d).integer? = some d :=
  Numeral.integer?_digits d

/-- An integer of two or more is no unit. -/
theorem isUnit_ofInteger (negative : Bool) {d : Nat} (hd : 2 ≤ d) :
    (ofInteger negative d).isUnit = false := by
  refine beq_eq_false_iff_ne.2 fun hone ↦ ?_
  have hone' : d = 1 := Numeral.digits_inj.1 (show Numeral.digits d = Numeral.digits 1 from hone)
  omega

/-- An integer literal with a sign is read as the operand that is its number, whatever zeros it
starts with. -/
theorem read_signed {rationalize : Text → Except ValueError Text} {limits : Limits} {literal : Text}
    {d : Nat} (hliteral : Numeral.integer? literal = some d) (hdepth : 0 < limits.depth)
    (hpasses : 2 ≤ limits.passes) (negative : Bool) :
    read rationalize limits (Numeral.signed negative literal) = .ok (ofInteger negative d) := by
  have hread := Node.read_signed (Numeral.integer?_eq_some_iff.1 hliteral).1 hdepth negative
  obtain ⟨passes, hnormalize⟩ := @Node.normalize_literal rationalize limits literal d
    (.fresh (if negative then .minus else .plus)) hliteral rfl hpasses
  refine (read_of_normalize hread hnormalize).trans ?_
  cases negative <;> rfl

end Operand

/-! ### Numbers that cancel -/

/-- The digits of a number express the number. -/
theorem expresses_digits (n : Nat) :
    Expresses (Numeral.digits n) (RationalFunction.constant (n : Rat)).toField :=
  Node.expresses_contentText (Node.isRegular_atom_iff.2
    ⟨rfl, Node.isOperandText_of_isInteger (Numeral.isInteger_digits n)⟩) rfl
    (Node.contentMeaning_digits .plus n)

/-- A positive number is no other number, and no negation of one. -/
theorem Cancellation.eq_of_number {a b : Nat} (hb : b ≠ 0) {cancellation : Cancellation}
    (h : Meaning.number a = cancellation.apply (Meaning.number b)) :
    cancellation = .equal ∧ a = b := by
  -- constants make up a field within the function field
  let constants : Rat →+* FunctionField :=
    (algebraMap (MvPolynomial Char Rat) FunctionField).comp MvPolynomial.C
  have hnumber : ∀ n : Nat, Meaning.number n = .of (constants n) := fun n ↦
    congrArg Meaning.of (RationalFunction.toField_constant (n : Rat))
  rw [hnumber, hnumber] at h
  cases cancellation with
  | equal =>
    have hsame : (a : Rat) = b := constants.injective (Meaning.of_injective h)
    exact ⟨rfl, Nat.cast_injective hsame⟩
  | opposite =>
    have hopposite : constants a = -constants b := Meaning.of_injective h
    rw [← map_neg] at hopposite
    have hnegative : (a : Rat) = -b := constants.injective hopposite
    have hsum : (a : Rat) + b = 0 := by rw [hnegative, neg_add_cancel]
    have hzero : a + b = 0 := by exact_mod_cast hsum
    omega

/-- **Numbers cancel exactly if they are equal.** -/
theorem Cancellation.compare_digits {oracle : Oracle} (hsound : oracle.IsSound) (a : Nat) {b : Nat}
    (hb : b ≠ 0) : (Cancellation.compare (Numeral.digits a) (Numeral.digits b)).answeredBy oracle =
      if a = b then some .equal else none := by
  by_cases hsame : a = b
  · subst hsame
    rw [if_pos rfl, compare, isEqual, if_pos rfl]
    rfl
  · rw [if_neg hsame]
    cases hcompare :
      (Cancellation.compare (Numeral.digits a) (Numeral.digits b)).answeredBy oracle with
    | none => rfl
    | some cancellation =>
      exact absurd (eq_of_number hb
        (of_compare hsound (expresses_digits b) (expresses_digits a) hcompare)).2 hsame

/-! ### Numbers that share a factor

The content of a term after it was divided or multiplied by a number, and that the operations come
to that content. The contents are definitions, so that it can be shown of them separately that no
rule applies. -/

/-- Two natural numbers are reduced by their greatest common divisor, if that is more than one. -/
theorem Reduction.of?_natCast (a b : Nat) : Reduction.of? a b =
    if 1 < Nat.gcd a b then
      some ⟨Nat.gcd a b, (a / Nat.gcd a b : Nat), (b / Nat.gcd a b : Nat)⟩
    else none := by
  unfold of?
  dsimp only
  rw [Int.gcd_natCast_natCast]
  split
  · rw [Int.natCast_ediv, Int.natCast_ediv]
  · rfl

namespace Node

variable {rationalize : Text → Except ValueError Text} {limits : Limits} {oracle : Oracle}
  {term numerator denominator : Node} {tag : Tag} {negative : Bool} {n d b c : Nat}

/-- A node with the content of a leaf is a leaf. -/
theorem exists_atom_of_content {text : Text} (h : term.content = .atom text) :
    ∃ tag, term = atom tag text :=
  ⟨term.tag, by rw [← ofContent_tag_content term, h]; rfl⟩

/-- A node with the content of a group is a group. -/
theorem exists_group_of_content {children : List Node} (h : term.content = .group children) :
    ∃ tag, term = group tag children :=
  ⟨term.tag, by rw [← ofContent_tag_content term, h]; rfl⟩

/-- A mark that is there already changes nothing. -/
theorem withPending_eq_self {pending : Bool} (h : term.isPending = pending) :
    term.withPending pending = term := by
  subst h
  cases term <;> rfl

/-- Nor does it do so after the content was exchanged. -/
theorem withPending_withContent {pending : Bool} (h : term.isPending = pending)
    (content : Content) :
    (term.withContent content).withPending pending = term.withContent content := by
  refine withPending_eq_self ?_
  rw [isPending, tag_withContent]
  exact h

/-- A leaf with a number is divided by what the number shares with another one. -/
theorem reduce?_digits (h : term.content = .atom (Numeral.digits n)) (d : Nat) :
    term.reduce? d =
      if 1 < Nat.gcd n d then
        some (term.withContent (.atom (Numeral.digits (n / Nat.gcd n d))), d / Nat.gcd n d)
      else none := by
  obtain ⟨tag, rfl⟩ := exists_atom_of_content h
  have hfamily : (atom tag (Numeral.digits n)).family? ≠ some .product := fun h ↦ by cases h
  have hinteger : (atom tag (Numeral.digits n)).integer? = some n := Numeral.integer?_digits n
  have htext : Numeral.integerText ((n / Nat.gcd n d : Nat) : Int) =
      Numeral.digits (n / Nat.gcd n d) :=
    Numeral.integerText_of_nonneg (Int.natCast_nonneg _)
  rw [reduce?, if_neg hfamily, reduceAtom?, hinteger, Option.bind_eq_bind, Option.bind_some,
    Reduction.of?_natCast]
  by_cases hgcd : 1 < Nat.gcd n d
  · rw [if_pos hgcd, if_pos hgcd, Option.bind_eq_bind, Option.bind_some]
    dsimp only
    rw [htext, Int.toNat_natCast]
    rfl
  · rw [if_neg hgcd, if_neg hgcd]
    rfl

/-- The number that is left of a divisor is one exactly if the divisor divides. -/
theorem div_gcd_eq_one_iff (hd : d ≠ 0) : d / Nat.gcd n d = 1 ↔ d ∣ n := by
  rw [← Nat.gcd_eq_right_iff_dvd]
  constructor
  · intro h
    have hmul := Nat.div_mul_cancel (Nat.gcd_dvd_right n d)
    rwa [h, Nat.one_mul] at hmul
  · intro h
    rw [h, Nat.div_self (Nat.pos_of_ne_zero hd)]

/-- A divisor that shares no factor with a number does not divide it. -/
theorem of_gcd_le_one (hd : 2 ≤ d) (h : ¬1 < Nat.gcd n d) : Nat.gcd n d = 1 ∧ ¬d ∣ n := by
  have hpos : 0 < Nat.gcd n d := Nat.gcd_pos_of_pos_right n (by omega)
  refine ⟨by omega, fun hdvd ↦ ?_⟩
  rw [Nat.gcd_eq_right hdvd] at h
  omega

/-- The content of a fraction of two numbers, in lowest terms. -/
def quotientContent (n d : Nat) : Content :=
  if d ∣ n then .atom (Numeral.digits (n / d))
  else .group [leaf .divide (Numeral.digits (n / Nat.gcd n d)),
    leaf .divide (Numeral.digits (d / Nat.gcd n d))]

/-- A number other than zero is not the leaf `0`. -/
theorem isZeroAtom_digits (tag : Tag) (hn : n ≠ 0) :
    (atom tag (Numeral.digits n)).isZeroAtom = false := by
  refine beq_eq_false_iff_ne.2 fun h ↦ hn ?_
  exact Numeral.digits_inj.1 (Option.some.inj h)

/-- What two numbers share is divided out, whether they are the same or not. -/
theorem reduceOrDivide_digits (hd : 2 ≤ d) (h : term.content = .atom (Numeral.digits n)) :
    term.reduceOrDivide (.ofInteger negative d) = term.withContent (quotientContent n d) := by
  obtain ⟨tag, rfl⟩ := exists_atom_of_content h
  have hone := @div_gcd_eq_one_iff n d (by omega)
  rw [reduceOrDivide, Operand.integer?_ofInteger, Option.bind_some, reduce?_digits rfl,
    quotientContent]
  by_cases hgcd : 1 < Nat.gcd n d
  · rw [if_pos hgcd]
    dsimp only
    by_cases hdvd : d ∣ n
    · rw [if_pos (hone.2 hdvd), if_pos hdvd, Nat.gcd_eq_right hdvd]
    · rw [if_neg fun h ↦ hdvd (hone.1 h), if_neg hdvd]
      rfl
  · obtain ⟨hcoprime, hdvd⟩ := of_gcd_le_one hd hgcd
    rw [if_neg hgcd, if_neg hdvd, hcoprime, Nat.div_one, Nat.div_one]
    rfl

/-- **A number that is divided by a number** becomes their fraction in lowest terms. -/
theorem divideTerm_digits (hsound : oracle.IsSound) (hn : n ≠ 0) (hd : 2 ≤ d)
    (h : term.content = .atom (Numeral.digits n)) :
    (term.divideTerm (.ofInteger negative d)).answeredBy oracle =
      term.withContent (quotientContent n d) := by
  obtain ⟨tag, rfl⟩ := exists_atom_of_content h
  rw [divideTerm, if_neg (by rw [isZeroAtom_digits tag hn]; exact Bool.false_ne_true),
    Inquiry.answeredBy_bind]
  dsimp only [contentText, Operand.text_ofInteger]
  rw [Cancellation.compare_digits hsound n (by omega)]
  by_cases hsame : n = d
  · subst hsame
    rw [if_pos rfl, quotientContent, if_pos (Nat.dvd_refl n), Nat.div_self (Nat.pos_of_ne_zero hn)]
    rfl
  · rw [if_neg hsame]
    exact reduceOrDivide_digits hd h

/-- The content of a product of an operand and a number, which is left out if it is one. -/
def multipleContent (text : Text) (m : Nat) : Content :=
  if m = 1 then .atom text else .group [leaf .times text, leaf .times (Numeral.digits m)]

/-- A number is appended to a single operand. -/
theorem appendNumber_atom (tag : Tag) (text : Text) (m : Nat) :
    (atom tag text).appendNumber m = ofContent tag (multipleContent text m) := by
  rw [appendNumber, multipleContent]
  split
  · rfl
  · rfl

/-- The content of a fraction of an operand and a number that is multiplied by another number, in
lowest terms. If the first number divides the other one, there is nothing left to divide by. -/
def fractionContent (numerator denominator : Node) (text : Text) (b c : Nat) : Content :=
  if b ∣ c then multipleContent text (c / b)
  else .group [numerator.withContent (multipleContent text (c / Nat.gcd b c)),
    denominator.withContent (.atom (Numeral.digits (b / Nat.gcd b c)))]

/-- If the numbers are the same, the numerator is left. -/
theorem fractionContent_self (text : Text) (hb : b ≠ 0) :
    fractionContent numerator denominator text b b = .atom text := by
  rw [fractionContent, if_pos (Nat.dvd_refl b), Nat.div_self (Nat.pos_of_ne_zero hb),
    multipleContent, if_pos rfl]

/-- If the number below divides the other one, a factor is left. -/
theorem fractionContent_of_dvd (text : Text) (hdvd : b ∣ c) (hne : b ≠ c) :
    fractionContent numerator denominator text b c =
      .group [leaf .times text, leaf .times (Numeral.digits (c / Nat.gcd b c))] := by
  have hrest : c / b ≠ 1 := fun hone ↦ hne (Nat.eq_of_dvd_of_div_eq_one hdvd hone)
  rw [fractionContent, if_pos hdvd, multipleContent, if_neg hrest, Nat.gcd_eq_left hdvd]

/-- If it does not, a denominator is left, and a factor unless the other number divides it. -/
theorem fractionContent_of_not_dvd {text : Text}
    (hnumerator : numerator.content = .atom text) (hc : c ≠ 0) (hdvd : ¬b ∣ c) :
    fractionContent numerator denominator text b c =
      .group [if c ∣ b then numerator else
          numerator.withContent (.group [leaf .times text,
            leaf .times (Numeral.digits (c / Nat.gcd b c))]),
        denominator.withContent (.atom (Numeral.digits (b / Nat.gcd b c)))] := by
  have hone := @div_gcd_eq_one_iff b c hc
  rw [fractionContent, if_neg hdvd, multipleContent]
  by_cases hdvd' : c ∣ b
  · rw [if_pos hdvd', if_pos (hone.2 hdvd'), ← hnumerator, withContent, ofContent_tag_content]
  · rw [if_neg hdvd', if_neg fun h ↦ hdvd' (hone.1 h)]

section Fraction

variable {text : Text} (hterm : term.content = .group [numerator, denominator])
  (hnumerator : numerator.content = .atom text)
  (hdenominator : denominator.content = .atom (Numeral.digits b))
  (hexamined : term.isPending = false) (hb : 2 ≤ b) (hc : 2 ≤ c)

include hterm hnumerator hdenominator hexamined hb hc

/-- What the number below and the factor share is divided out, whether they are the same or not. -/
theorem multiplyNumerator_fraction :
    term.multiplyNumerator (.ofInteger negative c) numerator denominator =
    (term.withContent (fractionContent numerator denominator text b c)).withPending
      (decide (b ∣ c)) := by
  have hone : b / Nat.gcd b c = 1 ↔ b ∣ c := by
    rw [Nat.gcd_comm]
    exact div_gcd_eq_one_iff (by omega)
  have hunmarked := withPending_withContent hexamined
  have hleft :
      (denominator.withContent (.atom (Numeral.digits (b / Nat.gcd b c)))).atomText? = some ['1'] ↔
      b ∣ c := by
    rw [← hone]
    show some (Numeral.digits (b / Nat.gcd b c)) = some (Numeral.digits 1) ↔ _
    rw [Option.some.injEq, Numeral.digits_inj]
  obtain ⟨tag, rfl⟩ := exists_group_of_content hterm
  obtain ⟨numTag, rfl⟩ := exists_atom_of_content hnumerator
  rw [multiplyNumerator, Operand.integer?_ofInteger, Option.bind_some, reduce?_digits hdenominator,
    fractionContent]
  by_cases hgcd : 1 < Nat.gcd b c
  · rw [if_pos hgcd]
    dsimp only
    by_cases hdvd : b ∣ c
    · rw [if_pos (hleft.2 hdvd), if_pos hdvd, decide_eq_true hdvd, Nat.gcd_eq_left hdvd]
      show (atom { tag with pending := true } text).appendNumber (c / b) = _
      rw [appendNumber_atom, withContent, tag_group, withPending, mapTag_ofContent]
    · rw [if_neg fun h ↦ hdvd (hleft.1 h), if_neg hdvd, decide_eq_false hdvd, hunmarked,
        appendNumber_atom]
      rfl
  · obtain ⟨hcoprime, hdvd⟩ := of_gcd_le_one hb (by rwa [Nat.gcd_comm])
    rw [Nat.gcd_comm] at hcoprime
    have hkept : denominator.withContent (.atom (Numeral.digits b)) = denominator := by
      rw [← hdenominator, withContent, ofContent_tag_content]
    have hgrown : appendNumber (atom numTag text) c =
        appendFactor (atom numTag text) (leaf .times (Numeral.digits c)) := by
      rw [appendNumber, if_neg (by omega)]
    rw [if_neg hgcd, if_neg hdvd, decide_eq_false hdvd, hunmarked, hcoprime, Nat.div_one,
      Nat.div_one, hkept]
    show group tag [appendFactor (atom numTag text) (leaf .times (Numeral.digits c)),
      denominator] = _
    rw [← hgrown, appendNumber_atom]
    rfl

/-- **A fraction of an operand and a number that is multiplied by a number** is in lowest terms
again. It is marked where it gives way to its numerator. -/
theorem multiplyTerm_fraction (hsound : oracle.IsSound) (hfamily : term.family? = some .quotient) :
    (term.multiplyTerm (.ofInteger negative c)).answeredBy oracle =
      (term.withContent (fractionContent numerator denominator text b c)).withPending
        (decide (b ∣ c)) := by
  have hreduced :=
    @multiplyNumerator_fraction term numerator denominator negative b c text hterm hnumerator
    hdenominator hexamined hb hc
  obtain ⟨tag, rfl⟩ := exists_group_of_content hterm
  obtain ⟨numTag, rfl⟩ := exists_atom_of_content hnumerator
  obtain ⟨denTag, rfl⟩ := exists_atom_of_content hdenominator
  have hproduct : (atom denTag (Numeral.digits b)).family? ≠ some .product := fun h ↦ by cases h
  rw [multiplyTerm, if_neg (show ¬isZeroAtom _ = true from fun h ↦ by cases h), if_pos hfamily]
  show (multiplyFraction _ _ (atom numTag text)
    (atom denTag (Numeral.digits b))).answeredBy oracle = _
  rw [multiplyFraction, if_neg hproduct, Inquiry.answeredBy_bind, Inquiry.answeredBy_pure]
  dsimp only
  rw [Inquiry.answeredBy_bind]
  dsimp only [contentText, Operand.text_ofInteger]
  rw [Cancellation.compare_digits hsound b (by omega)]
  by_cases hsame : b = c
  · subst hsame
    rw [if_pos rfl, fractionContent_self text (by omega), decide_eq_true (Nat.dvd_refl b)]
    rfl
  · rw [if_neg hsame]
    exact hreduced

end Fraction

end Node

/-! ### What is left is settled -/

/-- The tag of a term that was examined. -/
structure Tag.IsTerm (tag : Tag) : Prop where
  /-- It is below the root. -/
  root : tag.root = false
  /-- It is not pending. -/
  examined : tag.pending = false
  /-- It has a plus or a minus. -/
  sign : tag.sign.isAdditive = true

namespace Node

variable {rationalize : Text → Except ValueError Text} {limits : Limits}
  {term numerator denominator : Node} {tag : Tag} {n d b c : Nat}

/-- To two factors or two parts of a fraction no rule applies, if no factor is one. -/
theorem isCanonical_pair {first second : Node} (hroot : tag.root = false)
    (hsign : first.sign.isAdditive = false)
    (hexamined : first.isPending = false ∧ second.isPending = false)
    (hfactors : first.sign = .times → first.toText ≠ ['1'] ∧ second.toText ≠ ['1'])
    (hfirst : first.IsCanonical rationalize) (hsecond : second.IsCanonical rationalize) :
    (group tag [first, second]).IsCanonical rationalize := by
  refine .group (isIdle_group_iff.2 ⟨fun h ↦ (by cases hroot.symm.trans h),
      List.forall_mem_cons.2 ⟨hexamined.1, List.forall_mem_singleton.2 hexamined.2⟩,
      fun _ ↦ Nat.le_refl 2, fun only honly ↦ (by cases honly), fun hproduct ↦ ?_, fun hsum ↦ ?_⟩)
    (List.forall_mem_cons.2 ⟨hfirst, List.forall_mem_singleton.2 hsecond⟩)
  · obtain ⟨hone, hone'⟩ := hfactors (Family.ofSign_eq_product_iff.1 (Option.some.inj hproduct))
    exact List.forall_mem_cons.2 ⟨hone, List.forall_mem_singleton.2 hone'⟩
  · cases hsign.symm.trans (Family.ofSign_eq_sum_iff.1 (Option.some.inj hsum))

/-- A letter times a number is canonical. -/
theorem isCanonical_multipleContent {x : Char} (hx : x.isAlpha = true) (m : Nat)
    (hroot : tag.root = false) :
    (ofContent tag (multipleContent [x] m)).IsCanonical rationalize := by
  by_cases hone : m = 1
  · rw [multipleContent, if_pos hone]
    exact isCanonical_letter hx hroot
  · have hletter : (leaf .times [x]).toText ≠ ['1'] := by
      rintro ⟨⟩
      cases hx
    have hnumber : (leaf .times (Numeral.digits m)).toText ≠ ['1'] := fun h ↦
      hone (Numeral.digits_inj.1 (show Numeral.digits m = Numeral.digits 1 from h))
    rw [multipleContent, if_neg hone]
    exact isCanonical_pair hroot rfl ⟨rfl, rfl⟩ (fun _ ↦ ⟨hletter, hnumber⟩)
      (isCanonical_letter hx rfl)
      (isCanonical_digits m rfl)

/-- A term that can be all that is left of a side: it is neither zero nor a sum, and no rule applies
to it. -/
structure IsSole (rationalize : Text → Except ValueError Text) (term : Node) : Prop where
  /-- It has the tag of a term. -/
  isTerm : term.tag.IsTerm
  /-- It is no sum, which would join the side. -/
  family : term.family? ≠ some .sum
  /-- It is not the leaf `0`, which a sum drops once it is examined. -/
  nonzero : term.isZeroAtom = false
  /-- No rule applies to it or below it. -/
  canonical : term.IsCanonical rationalize

namespace IsSole

/-- A side with such a term is canonical. -/
theorem isCanonical_side (h : term.IsSole rationalize) (hroot : tag.root = true) :
    (group tag [term]).IsCanonical rationalize := by
  refine .group (isIdle_group_iff.2 ⟨fun _ ↦ List.cons_ne_nil _ _,
      List.forall_mem_singleton.2 h.isTerm.examined, fun _ ↦ Nat.le_succ 1, fun only honly ↦ ?_,
      fun hproduct ↦ ?_, fun _ hseveral ↦ ?_⟩) (List.forall_mem_singleton.2 h.canonical)
  · obtain ⟨rfl, -⟩ := List.cons.inj honly
    rw [if_pos hroot]
    exact fun hsum ↦ h.family hsum.2
  · have hadditive : term.sign.isAdditive = true := h.isTerm.sign
    rw [Family.ofSign_eq_product_iff.1 (Option.some.inj hproduct)] at hadditive
    cases hadditive
  · exact absurd hseveral (Nat.lt_irrefl 1)

/-- Once it is examined, a marked term has lost its mark and nothing else. -/
theorem settle?_marked (h : term.IsSole rationalize) (tag : Tag) :
    (group tag [term.withPending true]).settle? = some (group tag [term]) := by
  have hcleared : (term.withPending true).withPending false = term.withPending false := by
    cases term <;> rfl
  have hunmarked := hcleared.trans (withPending_eq_self h.isTerm.examined)
  have hsum : (group tag [term.withPending true]).family? = some .sum := by
    refine congrArg some (Family.ofSign_eq_sum_iff.2 ?_)
    rw [withPending, sign, tag_mapTag]
    exact h.isTerm.sign
  have hpending : (term.withPending true).isPending = true := by
    rw [withPending, isPending, tag_mapTag]
  have hsettled : settled (some .sum) (term.withPending true) = [term] := by
    rw [settled, if_pos hpending, hunmarked]
    dsimp only
    rw [if_neg (by rw [h.nonzero]; exact Bool.false_ne_true),
      if_neg fun hlifted ↦ h.family hlifted.2.1, if_neg fun hone ↦ by cases hone.1]
  rw [settle?, Node.children, if_pos (List.any_eq_true.2 ⟨_, List.mem_cons_self, hpending⟩), hsum,
    List.flatMap_singleton, hsettled]
  rfl

/-- **A term that can be all that is left** stays as it is on a side of its own, whether it is
marked or not. -/
theorem normalize (h : term.IsSole rationalize) (hroot : tag.root = true)
    (hlimits : 2 ≤ limits.passes) (pending : Bool) :
    ∃ passes, (group tag [term.withPending pending]).normalize rationalize limits =
      (.ok passes, group tag [term]) := by
  have hside := h.isCanonical_side hroot
  cases pending with
  | false =>
    rw [withPending_eq_self h.isTerm.examined]
    exact ⟨0, hside.normalize (Nat.lt_of_lt_of_le Nat.zero_lt_two hlimits)⟩
  | true =>
    have hidle := (isCanonical_iff.1 hside).1
    have hfill : (group tag [term.withPending true]).fillRoot? = none :=
      fillRoot?_eq_none_iff.2 fun _ ↦ List.cons_ne_nil _ _
    have hwrap : (group tag [term.withPending true]).wrapRoot? = none := by
      rw [wrapRoot?, isRoot, tag_group, hroot]
      rfl
    have hrewritten := rewritten_of_settle? hwrap (h.settle?_marked tag) hidle
    exact ⟨1, normalize_of_reshape (reshape_eq_opened_true hfill hrewritten hidle) hside hlimits⟩

end IsSole

/-- Two factors or two parts of a fraction are neither zero nor a sum. -/
theorem isSole_pair {first second : Node} (htag : tag.IsTerm)
    (hsign : first.sign.isAdditive = false)
    (hcanonical : (group tag [first, second]).IsCanonical rationalize) :
    (group tag [first, second]).IsSole rationalize := by
  refine ⟨htag, fun hsum ↦ ?_, rfl, hcanonical⟩
  cases hsign.symm.trans (Family.ofSign_eq_sum_iff.1 (Option.some.inj hsum))

/-- A letter times a number can be all that is left, -/
theorem isSole_multipleContent {x : Char} (hx : x.isAlpha = true) (m : Nat) (htag : tag.IsTerm) :
    (ofContent tag (multipleContent [x] m)).IsSole rationalize := by
  have hcanonical := @isCanonical_multipleContent rationalize tag x hx m htag.root
  by_cases hone : m = 1
  · have hzero : (atom tag [x]).isZeroAtom = false := beq_eq_false_iff_ne.2 fun h ↦ by
      cases h
      cases hx
    rw [multipleContent, if_pos hone] at hcanonical ⊢
    exact ⟨htag, fun h ↦ (by cases h), hzero, hcanonical⟩
  · rw [multipleContent, if_neg hone] at hcanonical ⊢
    exact isSole_pair htag rfl hcanonical

/-- and so can a fraction of two numbers, -/
theorem isSole_quotientContent (htag : tag.IsTerm) (hn : n ≠ 0) (hd : d ≠ 0) :
    (ofContent tag (quotientContent n d)).IsSole rationalize := by
  by_cases hdvd : d ∣ n
  · have hleft : n / d ≠ 0 :=
      (Nat.div_pos (Nat.le_of_dvd (Nat.pos_of_ne_zero hn) hdvd) (Nat.pos_of_ne_zero hd)).ne'
    rw [quotientContent, if_pos hdvd]
    exact ⟨htag, fun h ↦ (by cases h), isZeroAtom_digits tag hleft, isCanonical_digits _ htag.root⟩
  · rw [quotientContent, if_neg hdvd]
    exact isSole_pair htag rfl (isCanonical_pair htag.root rfl ⟨rfl, rfl⟩ (fun h ↦ by cases h)
      (isCanonical_digits _ rfl) (isCanonical_digits _ rfl))

/-- and a fraction of a letter and a number that was multiplied by a number. -/
theorem isSole_fractionContent {x : Char} (hx : x.isAlpha = true) (htag : tag.IsTerm)
    (hroot : numerator.isRoot = false ∧ denominator.isRoot = false)
    (hexamined : numerator.isPending = false ∧ denominator.isPending = false)
    (hsign : numerator.sign = .divide) :
    (ofContent tag (fractionContent numerator denominator [x] b c)).IsSole rationalize := by
  by_cases hdvd : b ∣ c
  · rw [fractionContent, if_pos hdvd]
    exact isSole_multipleContent hx _ htag
  · -- a node keeps its sign and its marks with another content
    have hkept : ∀ (node : Node) (content : Content), (node.withContent content).tag = node.tag :=
      fun node content ↦ tag_withContent content node
    have hdivide : ∀ content, (numerator.withContent content).sign = .divide := fun content ↦ by
      rw [sign, hkept]
      exact hsign
    have hexamined' : ∀ content content', (numerator.withContent content).isPending = false ∧
        (denominator.withContent content').isPending = false := fun content content' ↦ by
      rw [isPending, hkept, isPending, hkept]
      exact hexamined
    have hadditive : ∀ content, (numerator.withContent content).sign.isAdditive = false :=
      fun content ↦ by
      rw [hdivide]
      rfl
    rw [fractionContent, if_neg hdvd]
    exact isSole_pair htag (hadditive _) (isCanonical_pair htag.root (hadditive _) (hexamined' _ _)
      (fun h ↦ by cases (hdivide _).symm.trans h) (isCanonical_multipleContent hx _ hroot.1)
      (isCanonical_digits _ hroot.2))

end Node

/-! ### Sides of one term

The operations on a side with a single term, of which the new content is known. -/

section Sides

variable {oracle : Oracle} {rationalize : Text → Except ValueError Text} {limits : Limits}
  {text literal : Text} {side term term' : Node} {operand : Operand} {negative : Bool} {d : Nat}

/-- The only term of a settled side is below the root, and it is not pending. -/
theorem Node.IsSettled.of_single (h : side.IsSettled rationalize)
    (hchildren : side.children = [term]) :
    side.tag.root = true ∧ term.isRegular = true ∧ term.IsCanonical rationalize ∧
      term.isPending = false := by
  obtain ⟨tag, first, rest, rfl⟩ := (isCanonical_iff.1 h.canonical).1.exists_group h.root
  obtain ⟨rfl, rfl⟩ := List.cons.inj hchildren
  obtain ⟨hidle, hall⟩ := isCanonical_iff.1 h.canonical
  exact ⟨h.root, (isShaped_group_iff.1 h.shaped).2.1 _ List.mem_cons_self,
    hall _ List.mem_cons_self, (isIdle_group_iff.1 hidle).examined _ List.mem_cons_self⟩

/-- An operation on a side of one term is the operation on that term, if all that is left is one
term. -/
theorem transformSide_single {onTerm : Operand → Node → Inquiry Node} (pending : Bool)
    (hside : side.IsSettled rationalize) (hchildren : side.children = [term])
    (hlimits : 2 ≤ limits.passes) (hread : Operand.read rationalize limits text = .ok operand)
    (hunit : operand.isUnit = false)
    (hterm : (onTerm operand (operand.applySign term)).answeredBy oracle =
      term'.withPending pending) (hsole : term'.IsSole rationalize) :
    (transformSide onTerm rationalize limits text side).answeredBy oracle =
      (.ok (), side.withChildren [term']) := by
  obtain ⟨hroot, -⟩ := hside.of_single hchildren
  have happlied : (operand.applyTo onTerm side).answeredBy oracle =
      side.withChildren [term'.withPending pending] := by
    rw [Operand.applyTo, hunit, hchildren, if_neg Bool.false_ne_true, Inquiry.answeredBy_bind,
      answeredBy_mapM', List.map_singleton, List.map_singleton, hterm]
    rfl
  obtain ⟨passes, hnormalize⟩ := hsole.normalize hroot hlimits pending
  have hgroup : ∀ child : Node, side.withChildren [child] = .group side.tag [child] :=
    fun child ↦ by
    obtain ⟨tag, first, rest, rfl⟩ :=
      (Node.isCanonical_iff.1 hside.canonical).1.exists_group hside.root
    rfl
  rw [transformSide, hread]
  dsimp only
  rw [Inquiry.answeredBy_bind, happlied, hgroup, hnormalize, hgroup]
  rfl

/-- The operand's sign leaves the content and the marks of a term as they are. -/
theorem Operand.of_applySign (operand : Operand) (hroot : term.isRoot = false)
    (hexamined : term.isPending = false) (hsign : term.sign.isAdditive = true) :
    (operand.applySign term).content = term.content ∧
      (operand.applySign term).family? = term.family? ∧
      (operand.applySign term).tag.IsTerm := by
  rw [applySign]
  split
  · have htag : term.flipSign.tag = { term.tag with sign := term.sign.flipped } :=
      Node.tag_mapTag _ _
    rw [htag]
    exact ⟨Node.content_mapTag _ _, Node.family?_flipSign term,
      hroot, hexamined, (Sign.isAdditive_flipped _).trans hsign⟩
  · exact ⟨rfl, rfl, hroot, hexamined, hsign⟩

section Single

variable (hsound : oracle.IsSound) (hlimits : 2 ≤ limits.passes)
  (hside : side.IsSettled oracle.rationalize)
  (hchildren : side.children = [term]) (hsign : term.sign.isAdditive = true) (hd : 2 ≤ d)
  (hread : Operand.read oracle.rationalize limits text = .ok (.ofInteger negative d))

include hsound hlimits hside hchildren hsign hd hread

/-- Dividing a side that is a number by a number. -/
theorem divideSide_digits {n : Nat} (hn : n ≠ 0) (hterm : term.content = .atom (Numeral.digits n)) :
    (divideSide oracle.rationalize limits text side).answeredBy oracle = (.ok (), side.withChildren
      [(Operand.applySign (.ofInteger negative d) term).withContent
        (Node.quotientContent n d)]) := by
  obtain ⟨-, hregular, -, hexamined⟩ := hside.of_single hchildren
  obtain ⟨hcontent, -, htag⟩ :=
    Operand.of_applySign (.ofInteger negative d) (Node.isRoot_of_isRegular hregular) hexamined hsign
  refine transformSide_single false hside hchildren hlimits hread
    (Operand.isUnit_ofInteger negative hd) ?_
    (Node.isSole_quotientContent htag hn (by omega))
  rw [Node.divideTerm_digits hsound hn hd (hcontent.trans hterm)]
  exact (Node.withPending_withContent htag.examined _).symm

/-- Multiplying a side that is a fraction of a letter and a number by a number. -/
theorem multiplySide_fraction {x : Char} {b : Nat} {numerator denominator : Node}
    (hx : x.isAlpha = true) (hb : 2 ≤ b) (hfamily : term.family? = some .quotient)
    (hterm : term.content = .group [numerator, denominator])
    (hnumerator : numerator.content = .atom [x])
    (hdenominator : denominator.content = .atom (Numeral.digits b)) :
    (multiplySide oracle.rationalize limits text side).answeredBy oracle =
      (.ok (), side.withChildren
      [(Operand.applySign (.ofInteger negative d) term).withContent
        (Node.fractionContent numerator denominator [x] b d)]) := by
  obtain ⟨-, hregular, hcanonical, hexamined⟩ := hside.of_single hchildren
  obtain ⟨hcontent, hfamily', htag⟩ :=
    Operand.of_applySign (.ofInteger negative d) (Node.isRoot_of_isRegular hregular) hexamined hsign
  have hdivide : numerator.sign = .divide := by
    obtain ⟨tag, rfl⟩ := Node.exists_group_of_content hterm
    exact Family.ofSign_eq_quotient_iff.1 (Option.some.inj hfamily)
  have hparts : ∀ child ∈ [numerator, denominator], child.isRoot = false ∧
      child.isPending = false := by
    obtain ⟨tag, rfl⟩ := Node.exists_group_of_content hterm
    have hbelow := (Node.isRegular_group_iff.1 hregular).2.2
    have hunmarked := (Node.isIdle_group_iff.1 (Node.isCanonical_iff.1 hcanonical).1).examined
    exact fun child hmem ↦ ⟨Node.isRoot_of_isRegular (hbelow child hmem), hunmarked child hmem⟩
  obtain ⟨⟨hnumRoot, hnumExamined⟩, hrest⟩ := List.forall_mem_cons.1 hparts
  obtain ⟨hdenRoot, hdenExamined⟩ := List.forall_mem_singleton.1 hrest
  exact transformSide_single _ hside hchildren hlimits hread (Operand.isUnit_ofInteger negative hd)
    (Node.multiplyTerm_fraction (hcontent.trans hterm) hnumerator hdenominator
      htag.examined hb hd hsound
      (hfamily'.trans hfamily))
    (Node.isSole_fractionContent hx htag ⟨hnumRoot, hdenRoot⟩ ⟨hnumExamined, hdenExamined⟩ hdivide)

end Single

/-- **Integers reduce exactly.** Let `d` be an integer of two or more, written in any way, with a
minus or without. If a settled side is a single integer, dividing it by `d` reduces both by what
they share, and leaves no divisor of one. If it is a fraction of a letter and an integer of two or
more, so does multiplying it by `d`, and it leaves no factor of one either. -/
theorem operations_by_integer (hsound : oracle.IsSound) (hdepth : 0 < limits.depth)
    (hlimits : 2 ≤ limits.passes) (hside : side.IsSettled oracle.rationalize)
    (hchildren : side.children = [term]) (hsign : term.sign.isAdditive = true)
    (hliteral : Numeral.integer? literal = some d) (hd : 2 ≤ d) (negative : Bool) :
    (∀ n, 1 ≤ n → term.content = .atom (Numeral.digits n) → ∃ content,
      (divideSide oracle.rationalize limits (Numeral.signed negative literal)
        side).answeredBy oracle =
          (.ok (),
            side.withChildren [(if negative then term.flipSign else term).withContent content]) ∧
        (d ∣ n → content = .atom (Numeral.digits (n / Nat.gcd n d))) ∧
          (¬d ∣ n → content = .group [.leaf .divide (Numeral.digits (n / Nat.gcd n d)),
              .leaf .divide (Numeral.digits (d / Nat.gcd n d))] ∧
            Nat.Coprime (n / Nat.gcd n d) (d / Nat.gcd n d))) ∧
    ∀ x b numerator denominator, x.isAlpha = true → 2 ≤ b → term.family? = some .quotient →
      term.content = .group [numerator, denominator] → numerator.content = .atom [x] →
        denominator.content = .atom (Numeral.digits b) → ∃ content,
      (multiplySide oracle.rationalize limits (Numeral.signed negative literal)
        side).answeredBy oracle =
          (.ok (),
            side.withChildren [(if negative then term.flipSign else term).withContent content]) ∧
        (b = d → content = .atom [x]) ∧
          (b ∣ d → b ≠ d → content = .group [.leaf .times [x],
            .leaf .times (Numeral.digits (d / Nat.gcd b d))]) ∧
            (d ∣ b → b ≠ d → content = .group [numerator,
              denominator.withContent (.atom (Numeral.digits (b / Nat.gcd b d)))]) ∧
              (¬b ∣ d → ¬d ∣ b → content = .group [
                numerator.withContent (.group [.leaf .times [x],
                  .leaf .times (Numeral.digits (d / Nat.gcd b d))]),
                denominator.withContent (.atom (Numeral.digits (b / Nat.gcd b d)))] ∧
                  Nat.Coprime (d / Nat.gcd b d) (b / Nat.gcd b d)) := by
  have hread :=
    @Operand.read_signed oracle.rationalize limits literal d hliteral hdepth hlimits negative
  constructor
  · intro n hn hterm
    refine ⟨_, divideSide_digits hsound hlimits hside hchildren hsign hd hread (by omega) hterm,
      fun hdvd ↦ ?_, fun hdvd ↦ ⟨?_, Nat.coprime_div_gcd_div_gcd (Nat.gcd_pos_of_pos_left d hn)⟩⟩
    · rw [Node.quotientContent, if_pos hdvd, Nat.gcd_eq_right hdvd]
    · rw [Node.quotientContent, if_neg hdvd]
  · intro x b numerator denominator hx hb hfamily hterm hnumerator hdenominator
    have hd0 : d ≠ 0 := by omega
    refine ⟨_,
      multiplySide_fraction hsound hlimits hside hchildren hsign hd hread hx hb hfamily
        hterm hnumerator
      hdenominator, fun hsame ↦ ?_, fun hdvd hne ↦ ?_, fun hdvd hne ↦ ?_, fun hdvd hdvd' ↦ ⟨?_, ?_⟩⟩
    · rw [hsame, Node.fractionContent_self [x] hd0]
    · exact Node.fractionContent_of_dvd [x] hdvd hne
    · have hdvd' : ¬b ∣ d := fun hdvd' ↦ hne (Nat.dvd_antisymm hdvd' hdvd)
      rw [Node.fractionContent_of_not_dvd hnumerator hd0 hdvd', if_pos hdvd]
    · rw [Node.fractionContent_of_not_dvd hnumerator hd0 hdvd, if_neg hdvd']
    · rw [Nat.gcd_comm]
      exact Nat.coprime_div_gcd_div_gcd (Nat.gcd_pos_of_pos_left b (by omega))

/-- The side `6` divided by `-4` is `-3/2`, and the side `x/6` multiplied by `04` is `(x*2)/3`. -/
theorem operations_by_integer_four : ∃ six fraction : Node,
    (six.IsSettled Oracle.exactFraction ∧ six.toText = ['6']) ∧
      (fraction.IsSettled Oracle.exactFraction ∧ fraction.toText = "x/6".toList) ∧
        (∃ divided,
          (divideSide Oracle.exactFraction .standard "-4".toList six).answeredBy
            (.exact .standard) = (.ok (), divided) ∧ divided.toText = "-3/2".toList) ∧
          ∃ multiplied,
            (multiplySide Oracle.exactFraction .standard "04".toList fraction).answeredBy
            (.exact .standard) = (.ok (), multiplied) ∧ multiplied.toText = "(x*2)/3".toList := by
  have hsix : ∀ sign, (Node.leaf sign ['6']).IsCanonical Oracle.exactFraction := fun _ ↦
    .atom ⟨rfl, rfl, rfl, rfl, rfl, rfl, rfl⟩
  have hletter : (Node.leaf .divide ['x']).IsCanonical Oracle.exactFraction :=
    .atom ⟨rfl, rfl, rfl, rfl, rfl, rfl, rfl⟩
  have hside :
      (Node.group ⟨none, .plus, true, false⟩ [.leaf .plus ['6']]).IsSettled Oracle.exactFraction :=
    ⟨by decide, rfl,
      .group ⟨rfl, rfl, rfl, rfl, rfl, rfl, rfl⟩ (List.forall_mem_singleton.2 (hsix _))⟩
  have hfraction : (Node.group ⟨none, .plus, true, false⟩
      [.branch .plus [.leaf .divide ['x'], .leaf .divide ['6']]]).IsSettled
        Oracle.exactFraction := by
    refine ⟨by decide, rfl,
      .group ⟨rfl, rfl, rfl, rfl, rfl, rfl, rfl⟩ (List.forall_mem_singleton.2 ?_)⟩
    exact .group ⟨rfl, rfl, rfl, rfl, rfl, rfl, rfl⟩
      (List.forall_mem_cons.2 ⟨hletter, List.forall_mem_singleton.2 (hsix _)⟩)
  have hsound := Oracle.isSound_exact .standard
  have hdepth : 0 < Limits.standard.depth := by decide
  have hpasses : 2 ≤ Limits.standard.passes := by decide
  have hfour : Numeral.integer? ['4'] = some 4 ∧ Numeral.integer? ['0', '4'] = some 4 := by decide
  obtain ⟨content, hdivided, -, hquotient⟩ :=
    (operations_by_integer hsound hdepth hpasses hside rfl rfl
    hfour.1 (by decide) true).1 6 (by decide) rfl
  obtain ⟨content', hmultiplied, -, -, -, hproduct⟩ := (operations_by_integer hsound hdepth hpasses
    hfraction rfl rfl hfour.2 (by decide) false).2 'x' 6 _ _ (by decide) (by decide) rfl rfl rfl rfl
  refine ⟨_, _, ⟨hside, by decide⟩, ⟨hfraction, by decide⟩, ⟨_, hdivided, ?_⟩, ⟨_, hmultiplied, ?_⟩⟩
  · rw [(hquotient (by decide)).1]
    decide
  · rw [(hproduct (by decide) (by decide)).1]
    decide

end Sides

end EquationSteps
