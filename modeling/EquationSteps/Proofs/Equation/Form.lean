import EquationSteps.Proofs.Canonical.Potential
import EquationSteps.Proofs.Equation.Run
import EquationSteps.Proofs.Reading.Levels

/-!
# The form of equations

What a canonical tree looks like: its leaves are integers without leading zeros and letters, and
below the root a group has at least two operands of one family, a quotient exactly two, with the one
exception of a factor or divisor with a minus (`Node.IsReduced`).

Every equation that is reached by successful edits has sides of that form, whatever the answers to
the questions that the edits ask (`Equation.isReducedSide_of_reaches`). That the operands of a side
are terms is not part of it: both sides of all the equations that are reached hold terms if and only
if both sides of the first one do.

**The form is described without the rules**, by the constructors of `IsReduced`, one for each kind
of node that may be met. A predicate that said that no rule applies would have to be believed; this
one can be read. That canonical trees have the form is then one proof by cases
(`IsCanonical.isReduced`).

**What depends on the oracle** is only which leaves are left. With the exact oracle every decimal
literal has an answer that can be read (`exists_fraction?_exactFraction`), so none stays as a leaf,
and a leaf to which no rule applies is an integer or a letter. What the oracle says about equality
does not matter: an oracle that calls everything equal leads to wrong equations in canonical form.

**What is kept along a run** is that the sides are settled and their identities are all different
(`isTracked_of_reaches`); the form follows at each equation.
-/

namespace EquationSteps

open Node

namespace Node

variable {tag : Tag} {text : Text} {children : List Node} {node side : Node} {limits : Limits}

/-! ### Canonical leaves

A decimal literal has a fraction, and the text of a fraction is read as a leaf or as a quotient of
two. -/

/-- The tree of a fraction has at most two levels. -/
theorem depth_ofFraction_le (q : Rat) : (ofFraction q).depth ≤ 2 := by
  unfold ofFraction
  split
  · exact Nat.le_succ 1
  · exact Nat.le_refl 2

/-- What is written for a fraction is read as its tree. -/
theorem read_ofFraction {q : Rat} (h : 0 ≤ q) (hdepth : 1 ≤ limits.depth) :
    read limits (Numeral.fractionText q) false = .ok (ofFraction q) := by
  have hregular := isRegular_ofFraction q
  have hcompact := isCompact_ofFraction q
  have hlevels : (ofFraction q).depth ≤ limits.depth + 1 :=
    (depth_ofFraction_le q).trans (Nat.add_le_add_right hdepth 1)
  obtain ⟨node, hnode⟩ :=
    (@exists_build_contentText_iff limits.depth _ none _ hregular hcompact).2 hlevels
  have hback := (Reads.of_build hnode).eq_remade hregular hcompact
  rw [Option.getD_none, remade_ofFraction] at hback
  rw [hback, ← (generates_contentText hregular).scanned_eq, contentText_ofFraction h] at hnode
  rw [read_of_build hnode, ofFraction]
  split <;> rfl

/-- What stands for a decimal literal is the tree of its fraction. -/
theorem fraction?_exactFraction {literal : Text} {q : Rat}
    (h : Numeral.decimalFraction? literal = some q) :
    fraction? Oracle.exactFraction literal = some (ofFraction q).content := by
  have hread : read .standard (Numeral.fractionText q) false = .ok (ofFraction q) :=
    read_ofFraction (Numeral.decimalFraction?_nonneg h) (by decide)
  rw [fraction?, Oracle.exactFraction, h]
  dsimp only
  rw [hread]

/-- The fraction of a decimal literal can be read. -/
theorem exists_fraction?_exactFraction {literal : Text} (h : Numeral.isDecimal literal = true) :
    ∃ content, fraction? Oracle.exactFraction literal = some content := by
  obtain ⟨q, hq⟩ : ∃ q, Numeral.decimalFraction? literal = some q := by
    rw [Numeral.decimalFraction?, if_pos h]
    exact ⟨_, rfl⟩
  exact ⟨_, fraction?_exactFraction hq⟩

/-- A leaf to which no rule applies is a canonical integer or a letter. -/
theorem isCanonical_of_canonicalNumber? (htext : isOperandText text = true)
    (h : (atom tag text).canonicalNumber? Oracle.exactFraction = none) :
    Numeral.isCanonical text = true ∨ Text.isVariable text = true := by
  rw [canonicalNumber?, content] at h
  dsimp only at h
  split at h
  · rename_i hinteger
    split at h
    · exact Or.inl (Numeral.isCanonical_iff.2 ⟨hinteger, ‹_›⟩)
    · cases h
  · split at h
    · rename_i hdecimal
      obtain ⟨content, hcontent⟩ := exists_fraction?_exactFraction hdecimal
      rw [hcontent] at h
      cases h
    · rename_i hdecimal
      exact Or.inr ((Bool.or_eq_true_iff.1 htext).resolve_left hdecimal)

/-! ### Canonical groups

The kinds of nodes that are left when no rule applies. -/

/-- The form of a canonical tree below the root: a canonical integer or a letter, a quotient of two
parts, a sum or product of at least two operands, or a factor or divisor that holds one operand with
a minus. -/
inductive IsReduced : Node → Prop where
  /-- Without leading zeros. Decimal points are gone. -/
  | integer {tag : Tag} {text : Text} (hroot : tag.root = false)
    (htext : Numeral.isCanonical text = true) : IsReduced (atom tag text)
  | letter {tag : Tag} {text : Text} (hroot : tag.root = false)
    (htext : Text.isVariable text = true) : IsReduced (atom tag text)
  /-- The only groups that hold parts, and they hold two. -/
  | quotient {tag : Tag} {dividend divisor : Node} (hroot : tag.root = false)
    (hdividend : dividend.sign = .divide) (hdivisor : divisor.sign = .divide)
    (h : dividend.IsReduced) (h' : divisor.IsReduced) : IsReduced (group tag [dividend, divisor])
  /-- Terms or factors. A group with one operand gives way to the operand. -/
  | several {tag : Tag} {children : List Node} (hroot : tag.root = false)
    (hchain : isChain children = true) (hfamily : (group tag children).family? ≠ some .quotient)
    (hseveral : 2 ≤ children.length) (h : ∀ child ∈ children, child.IsReduced) :
    IsReduced (group tag children)
  /-- The exception: a factor or divisor cannot take over a minus, so that the group stays. -/
  | negated {tag : Tag} {only : Node} (hroot : tag.root = false)
    (hsign : tag.sign.isAdditive = false)
    (honly : only.sign = .minus) (h : only.IsReduced) : IsReduced (group tag [only])

/-- The form of a side: a root with a plus, which holds operands of one family. -/
inductive IsReducedSide : Node → Prop where
  | root {tag : Tag} {children : List Node} (hroot : tag.root = true) (hsign : tag.sign = .plus)
    (hchain : isChain children = true) (h : ∀ child ∈ children, child.IsReduced) :
    IsReducedSide (group tag children)

/-- A regular tree to which no rule applies has the form. -/
theorem IsCanonical.isReduced (h : node.IsCanonical Oracle.exactFraction)
    (hregular : node.isRegular = true) : node.IsReduced := by
  induction node using Node.induction with
  | atom tag text =>
    obtain ⟨hroot, htext⟩ := isRegular_atom_iff.1 hregular
    rcases isCanonical_of_canonicalNumber? htext (isCanonical_iff.1 h).1.canonicalNumber with
      hinteger | hletter
    · exact .integer hroot hinteger
    · exact .letter hroot hletter
  | group tag children ih =>
    obtain ⟨hidle, hall⟩ := isCanonical_iff.1 h
    have hstable := isIdle_group_iff.1 hidle
    obtain ⟨hroot, hchain, hchildren⟩ := isRegular_group_iff.1 hregular
    have hreduced : ∀ child ∈ children, child.IsReduced := fun child hmem ↦
      ih child hmem (hall child hmem) (hchildren child hmem)
    match children with
    | [] => exact absurd rfl (isChain_iff.1 hchain).1
    | [only] =>
      have hsingle := hstable.single only rfl
      rw [if_neg (by rw [hroot]; exact Bool.false_ne_true)] at hsingle
      exact .negated hroot hsingle.2 hsingle.1 (hreduced only List.mem_cons_self)
    | first :: second :: rest =>
      by_cases hfamily : (Node.group tag (first :: second :: rest)).family? = some Family.quotient
      · have hlength := hstable.parts hfamily
        obtain rfl : rest = [] := List.length_eq_zero_iff.1 (by simpa using hlength)
        have hsigns := ofSign_of_isChain hchain hfamily
        exact .quotient hroot (Family.ofSign_eq_quotient_iff.1 (hsigns first (by simp)))
          (Family.ofSign_eq_quotient_iff.1 (hsigns second (by simp))) (hreduced first (by simp))
          (hreduced second (by simp))
      · exact .several hroot hchain hfamily (by simp) hreduced

/-- So has a settled side. -/
theorem IsSettled.isReducedSide (h : side.IsSettled Oracle.exactFraction) : side.IsReducedSide := by
  obtain ⟨hidle, hall⟩ := isCanonical_iff.1 h.canonical
  obtain ⟨tag, first, rest, rfl⟩ := hidle.exists_group h.root
  obtain ⟨hchain, hregular, hsign⟩ := isShaped_group_iff.1 h.shaped
  exact .root h.root (hsign h.root) (hchain.resolve_right fun hnil ↦ nomatch hnil.2)
    fun child hmem ↦
    (hall child hmem).isReduced (hregular child hmem)

end Node

namespace Equation

variable {limits : Limits} {oracle : Oracle} {left right : Text} {built : Equation}

/-- An equation that was built and numbered is as it is between edits, whatever the oracle answers
for decimal literals, as long as that is read as a regular tree. -/
theorem isTracked_of_answersRegular (first : NodeId) (hleft : IsExpression left)
    (hright : IsExpression right) (hanswers : AnswersRegular oracle.rationalize)
    (hbuilt : ofSides limits oracle left right = .ok built) :
    (built.number first).1.IsTracked (built.number first).2 := by
  obtain ⟨-, hsame, ⟨leftRead, passes, hleftRead, hleftSide⟩, rightRead, passes', hrightRead,
    hrightSide⟩ :=
    exists_of_ofSides hbuilt
  have hside : ∀ {text : Text} {read side : Node} {passes : Nat}, IsExpression text →
      Node.read limits text true = .ok read →
        read.normalize oracle.rationalize limits = (.ok passes, side) →
          side.IsSettled oracle.rationalize ∧ side.issued = [] := by
    intro text read side passes htext hread hnormalize
    obtain ⟨hshaped, hroot, hnew⟩ := of_read_root htext hread
    have hremains := remains_normalize hanswers hshaped hnormalize
    refine ⟨⟨hremains.shaped, hremains.root.trans hroot,
      isCanonical_of_settles (everyTagBelow_of_isShaped hshaped) hnormalize⟩, ?_⟩
    exact List.sublist_nil.1 (issued_eq_nil_of_isNew hnew ▸ hremains.issued)
  obtain ⟨hleftSettled, hleftIssued⟩ := hside hleft hleftRead hleftSide
  obtain ⟨hrightSettled, hrightIssued⟩ := hside hright hrightRead hrightSide
  have hissued : built.issued = [] := by
    rw [issued, hleftIssued, hrightIssued, List.append_nil]
  refine isTracked_number ?_ ?_ ?_
  · rw [hsame]
    exact List.forall_mem_cons.2 ⟨hleftSettled, List.forall_mem_singleton.2 hrightSettled⟩
  · rw [hissued]
    exact List.nodup_nil
  · rw [hissued]
    exact List.forall_mem_nil _

/-- With the exact fractions this is so for every equation that is built from expressions. -/
theorem isTracked_of_ofSides (first : NodeId) (hleft : IsExpression left)
    (hright : IsExpression right) (horacle : oracle.rationalize = Oracle.exactFraction)
    (hbuilt : ofSides limits oracle left right = .ok built) :
    (built.number first).1.IsTracked (built.number first).2 :=
  isTracked_of_answersRegular first hleft hright
    (horacle ▸ isFaithful_exactFraction.answersRegular) hbuilt

/-- What is reached from there. -/
theorem isTracked_of_reaches {first next : NodeId} {equation : Equation} (hleft : IsExpression left)
    (hright : IsExpression right) (horacle : oracle.rationalize = Oracle.exactFraction)
    (hbuilt : ofSides limits oracle left right = .ok built)
    (h : (built.number first).1.Reaches (built.number first).2 equation next) :
    equation.IsTracked next ∧ equation.oracle.rationalize = Oracle.exactFraction ∧
      (built.HoldsTerms → equation.HoldsTerms) := by
  obtain ⟨-, hsame, -⟩ := of_ofSides hleft hright horacle hbuilt
  have hrationalize : (built.number first).1.oracle.rationalize = Oracle.exactFraction :=
    (congrArg Oracle.rationalize hsame).trans horacle
  obtain ⟨htracked, hequation, hterms⟩ := h.isTracked
    (isTracked_of_ofSides first hleft hright horacle hbuilt)
    (hrationalize ▸ isFaithful_exactFraction.answersRegular)
  exact ⟨htracked, hequation ▸ hrationalize,
    fun hbuiltTerms ↦ hterms (holdsTerms_number_iff.2 hbuiltTerms)⟩

/-- A side without terms was typed in two pairs of parentheses. -/
theorem exists_enclosed_of_ofSides (hleft : IsExpression left) (hright : IsExpression right)
    (horacle : oracle.rationalize = Oracle.exactFraction)
    (hbuilt : ofSides limits oracle left right = .ok built) (h : ¬built.HoldsTerms) :
    ∃ text ∈ [left, right], ∃ inside, text.scanned = '(' :: '(' :: (inside ++ [')', ')']) := by
  obtain ⟨-, -, ⟨leftRead, passes, hleftRead, hleftSide⟩, rightRead, passes', hrightRead,
    hrightSide⟩ :=
    exists_of_ofSides hbuilt
  rw [horacle] at hleftSide hrightSide
  by_cases hterms : built.left.family? = some .sum
  · exact ⟨right, by simp, exists_enclosed_of_normalize hright hrightRead hrightSide
      fun hright ↦ h ⟨hterms, hright⟩⟩
  · exact ⟨left, by simp, exists_enclosed_of_normalize hleft hleftRead hleftSide hterms⟩

/-- **The form of the equations that are reached** by successful edits with expressions, from an
equation that was built from two expressions, whatever the answers to the questions of the edits.
Each side is a root with a plus, with operands of one family in canonical form, and one more pass
changes nothing. All of these equations hold terms on both sides if and only if the first one does;
if it does not, one of its sides was typed in two pairs of parentheses. -/
theorem isReducedSide_of_reaches (first : NodeId) (hleft : IsExpression left)
    (hright : IsExpression right) (horacle : oracle.rationalize = Oracle.exactFraction)
    (hbuilt : ofSides limits oracle left right = .ok built) :
    (∀ equation next, (built.number first).1.Reaches (built.number first).2 equation next →
      ∀ side ∈ [Equation.left, Equation.right], (side equation).IsReducedSide ∧
        (side equation).pass oracle.rationalize = (false, side equation)) ∧
    ((∀ equation next, (built.number first).1.Reaches (built.number first).2 equation next →
      equation.HoldsTerms) ↔ built.HoldsTerms) ∧
    (¬built.HoldsTerms →
      ∃ text ∈ [left, right], ∃ inside, text.scanned = '(' :: '(' :: (inside ++ [')', ')'])) := by
  refine ⟨fun equation next hreaches side hmem ↦ ?_,
    ⟨fun hall ↦ ?_, fun hterms equation next hreaches ↦ ?_⟩,
    exists_enclosed_of_ofSides hleft hright horacle hbuilt⟩
  · obtain ⟨htracked, hequation, -⟩ := isTracked_of_reaches hleft hright horacle hbuilt hreaches
    have hside := htracked.settled.sides side hmem
    rw [hequation] at hside
    rw [horacle]
    exact ⟨hside.isReducedSide, hside.canonical.passWithin _⟩
  · exact holdsTerms_number_iff.1 (hall _ _ .start)
  · exact (isTracked_of_reaches hleft hright horacle hbuilt hreaches).2.2 hterms

/-- If any two texts count as equal, multiplying `x/2+1=1` by `3` and dividing by `x+1` leads to
`1+1=1`, which is wrong, and of canonical form. -/
theorem isReducedSide_of_reaches_equalTexts : ∃ built equation next,
    ofSides .standard ⟨fun _ _ ↦ .ok true,
      Oracle.exactFraction⟩ "x/2+1".toList "1".toList = .ok built ∧
      (built.number 0).1.Reaches (built.number 0).2 equation next ∧
        equation.toText = "1+1=1".toList ∧ equation.HoldsTerms ∧
          ∀ side ∈ [Equation.left, Equation.right], (side equation).IsReducedSide ∧
            (side equation).pass Oracle.exactFraction = (false, side equation) := by
  let oracle : Oracle := ⟨fun _ _ ↦ .ok true, Oracle.exactFraction⟩
  have hfacts : ((ofSides .standard oracle "x/2+1".toList "1".toList).toOption.map fun built ↦
      let multiplied :=
        (Edit.run (built.number 0).2 (built.number 0).1 (.multiply "3".toList)).answeredBy oracle
      let divided :=
        (Edit.run multiplied.2.2 multiplied.2.1 (.divide "x+1".toList)).answeredBy oracle
      decide (multiplied.1 = .ok () ∧ divided.1 = .ok () ∧ divided.2.1.toText = "1+1=1".toList ∧
        built.left.family? = some .sum ∧ built.right.family? = some .sum)) = some true := by
    decide +kernel
  obtain ⟨built, hbuilt, hmultiplied, hdivided, htext, hterms⟩ :=
    Except.exists_ok_of_toOption hfacts
  have hfactor : IsExpression "3".toList := isExpression_of_eq rfl (by decide)
  have hdivisor : IsExpression "x+1".toList := isExpression_of_eq rfl (by decide)
  have hreaches := (@Reaches.start (built.number 0).1 (built.number 0).2).edit_of_answeredBy
    (show Edit.HasExpression (.multiply _) from hfactor) oracle hmultiplied
  have hreaches := hreaches.edit_of_answeredBy
    (show Edit.HasExpression (.divide _) from hdivisor) oracle hdivided
  obtain ⟨hreduced, hholds, -⟩ := isReducedSide_of_reaches 0 (isExpression_of_eq rfl (by decide))
    (isExpression_of_eq rfl (by decide)) rfl hbuilt
  exact ⟨built, _, _, hbuilt, hreaches, htext, hholds.2 hterms _ _ hreaches, hreduced _ _ hreaches⟩

/-- The equation `((2*x))=1` does not hold terms on its left side as it is built. -/
theorem not_holdsTerms_enclosed : IsExpression "((2*x))".toList ∧ IsExpression "1".toList ∧
    ∃ built, ofSides .standard (.exact .standard) "((2*x))".toList "1".toList = .ok built ∧
      (built.number 0).1.Reaches (built.number 0).2 (built.number 0).1 (built.number 0).2 ∧
        ∀ child ∈ (built.number 0).1.left.children, child.sign = .times := by
  have hfacts : ((ofSides .standard (.exact .standard) "((2*x))".toList "1".toList).toOption.map
      fun built ↦ decide (∀ child ∈ (built.number 0).1.left.children, child.sign = .times)) =
        some true := by
    decide +kernel
  obtain ⟨built, hbuilt, hsigns⟩ := Except.exists_ok_of_toOption hfacts
  exact ⟨isExpression_of_eq rfl (by decide), isExpression_of_eq rfl (by decide), built,
    hbuilt, .start, hsigns⟩

end Equation

end EquationSteps
