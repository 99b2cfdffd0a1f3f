import EquationSteps.Proofs.Equation.Form
import EquationSteps.Proofs.Equation.Selection
import EquationSteps.Proofs.Equation.Typed
import EquationSteps.Proofs.Meaning.Constant

/-!
# Which input is accepted

An operand is accepted exactly if it is a number other than zero, and a replacement exactly if its
letters occur in the equation and its value is that of the selected nodes
(`Equation.checkInput_eq_ok_iff`). The check sees less than this says: the characters of a text, the
letters in the leaves of the tree that is read, lists of identities, and the answers of an oracle
about texts.

What connects the two is proved elsewhere and put together here. An expression has no illegal
character and valid leaves, and the tree has the letters of the text (`Node.letters_of_read`). The
exact oracle answers by the meanings of the trees that are read (`Oracle.exactlyEqual_eq_ok_iff`),
and these are the meanings of the formulas that the texts say from left to right. A formula without
letters is a number (`Formula.exists_number`). The identities are resolved to a whole side or to
operands of one node (`Equation.selectedNodes_eq_ok_iff`), and what is printed for these is read
back with the meaning of a group of them (`Equation.Selects.meaning_of_read`).

**Both directions.** That accepted input is right is what keeps an equation equivalent under edits.
That right input is accepted is what a user relies on, and it takes more: the oracle has to answer,
and to say yes, whenever the values agree. This is why the theorem is about the exact oracle.

**Each part of the check is an equivalence of its own:**

* of the errors that a text may have, an expression that is read has none but foreign letters and
  those of its purpose (`inputErrors_of_isExpression`);
* an operand is wrong if it has letters, no value, or the value zero (`operandErrors_eq_nil_iff`);
* a replacement is wrong if nothing can be selected or the values differ
  (`checkReplacement_exact_eq_ok_iff`).

**The one assumption** besides the text being read is that the oracle can read what is printed for
the selected nodes. Canonical text may nest more deeply than the limit, and then the comparison
fails although the values agree.
-/

namespace EquationSteps

open Node

variable {limits : Limits} {text : Text} {node expression : Node} {e : Formula} {k : FunctionField}

/-! ### The characters of an expression

The grammar has no other characters than digits, letters, points, blanks, operators and
parentheses. -/

namespace IsExpression

/-- An expression is not blank. -/
theorem isBlank_eq_false (h : IsExpression text) : text.isBlank = false := by
  rw [Bool.eq_false_iff]
  intro hblank
  have hnil : text.scanned = [] := by
    rw [Text.scanned, Text.withoutBlanks, List.filter_eq_nil_iff.2 fun c hmem ↦ by
      rw [List.all_eq_true.1 hblank c hmem]; exact Bool.false_ne_true]
    rfl
  exact stripParentheses_ne_nil h (by rw [hnil]; rfl)

/-- Each character of an expression may stand in one. -/
theorem isLegal_of_mem (h : IsExpression text) {c : Char} (hmem : c ∈ text) : isLegal c = true := by
  rw [isLegal]
  cases hblank : isBlank c with
  | true => rw [Bool.or_true, Bool.true_or, Bool.true_or]
  | false =>
    have hkept : c ∈ text.withoutBlanks := List.mem_filter.2 ⟨hmem, by rw [hblank]; rfl⟩
    rcases h.isStructural_or_of_mem c ((sublist_explicitProducts _).subset hkept) with hc | hc | hc
    · simp [hc]
    · simp [hc]
    · simp [hc]

/-- So none is reported. -/
theorem illegalCharacters_eq_nil (h : IsExpression text) : illegalCharacters text false = [] := by
  have hnone : text.filter (fun c ↦ !(isLegal c || (false && c == '='))) = [] := by
    refine List.filter_eq_nil_iff.2 fun c hmem ↦ ?_
    rw [h.isLegal_of_mem hmem]
    exact Bool.false_ne_true
  rw [illegalCharacters, hnone]
  rfl

end IsExpression

/-! ### Meanings

The meaning is the one thing that trees, texts and formulas have in common. -/

namespace Node

/-- A tree means a function if that is its value. -/
theorem meaning_eq_of_iff : node.meaning = .of k ↔ ∃ f, node.value = .ok f ∧ f.toField = k := by
  constructor
  · intro h
    obtain ⟨f, hf, -, hk⟩ := exists_value_of_meaning h
    exact ⟨f, hf, hk⟩
  · rintro ⟨f, hf, rfl⟩
    rw [← ofValue_value, hf, Meaning.ofValue_ok]

/-- A tree means what its text says from left to right. -/
theorem meaning_of_leftToRight (hread : Node.read limits text false = .ok node)
    (h : LeftToRight .expression text.scanned e) : node.meaning = e.meaning := by
  obtain ⟨f, htext, hmeaning⟩ := h.exists_denotes
  exact (meaning_of_read hread htext).trans hmeaning

end Node

/-- A formula means a function if none of its divisors is zero. -/
theorem Formula.meaning_eq_of_iff : e.meaning = .of k ↔ e.IsDefined ∧ e.toField = k := by
  constructor
  · intro h
    have hdefined : e.IsDefined := by
      by_contra hnot
      rw [meaning_of_not_isDefined hnot] at h
      exact Meaning.of_ne_undefined k h.symm
    exact ⟨hdefined, Meaning.of_injective ((meaning_of_isDefined hdefined).symm.trans h)⟩
  · rintro ⟨hdefined, rfl⟩
    exact meaning_of_isDefined hdefined

/-- **The answers of the exact oracle** about texts that are read: it answers if both trees have a
value, and then it says whether the values are the same. -/
theorem Oracle.exactlyEqual_eq_ok_iff {other : Text} {node' : Node} {answer : Bool}
    (hread : Node.read limits text false = .ok node)
    (hread' : Node.read limits other false = .ok node') :
    (Oracle.exact limits).exactlyEqual text other = .ok answer ↔
      ∃ k l, node.meaning = .of k ∧ node'.meaning = .of l ∧ (answer = true ↔ k = l) := by
  rw [exactlyEqual_exact, evaluate_of_read hread, evaluate_of_read hread']
  constructor
  · intro h
    obtain ⟨f, hf, h⟩ := Except.ok_of_bind_eq_ok h
    obtain ⟨g, hg, h⟩ := Except.ok_of_bind_eq_ok h
    rw [← Except.ok.inj h]
    exact ⟨f.toField, g.toField, meaning_eq_of_iff.2 ⟨f, hf, rfl⟩, meaning_eq_of_iff.2 ⟨g, hg, rfl⟩,
      RationalFunction.equals_iff (isProper_of_value hf) (isProper_of_value hg)⟩
  · rintro ⟨k, l, hk, hl, hanswer⟩
    obtain ⟨f, hf, hproper, rfl⟩ := exists_value_of_meaning hk
    obtain ⟨g, hg, hproper', rfl⟩ := exists_value_of_meaning hl
    have hsame : f.equals g = answer :=
      Bool.eq_iff_iff.2 ((RationalFunction.equals_iff hproper hproper').trans hanswer.symm)
    rw [hf, hg, ← hsame]
    rfl

/-- It tells a text from zero if the text has another value than zero. -/
theorem Oracle.exactlyEqual_zero_iff (hread : Node.read limits text false = .ok node) :
    (Oracle.exact limits).exactlyEqual text ['0'] = .ok false ↔
      ∃ k, node.meaning = .of k ∧ k ≠ 0 := by
  have hzero : (Node.leaf .plus ['0']).meaning = .of 0 := by
    rw [Node.meaning, contentMeaning_of_isZeroAtom rfl]
    rfl
  rw [exactlyEqual_eq_ok_iff hread (show Node.read limits ['0'] false = .ok _ from rfl)]
  constructor
  · rintro ⟨k, l, hk, hl, hne⟩
    obtain rfl := Meaning.of_injective (hl.symm.trans hzero)
    exact ⟨k, hk, fun hsame ↦ Bool.false_ne_true (hne.2 hsame)⟩
  · rintro ⟨k, hk, hne⟩
    exact ⟨k, 0, hk, hzero, iff_of_false Bool.false_ne_true hne⟩

namespace Equation

variable {equation : Equation} {selection : List NodeId} {nodes : List Node} {purpose : Purpose}
  {oracle : Oracle}

/-! ### The errors of an expression

An error ends the check or is put in a list, and the input is accepted if the list stays empty. -/

/-- Input is accepted if no error is found. -/
theorem checkInput_eq_ok_iff_inputErrors :
    (equation.checkInput purpose text).answeredBy oracle = .ok () ↔
      (equation.inputErrors purpose text).answeredBy oracle = [] := by
  rw [checkInput, Inquiry.answeredBy_bind]
  cases (equation.inputErrors purpose text).answeredBy oracle with
  | nil => exact iff_of_true rfl rfl
  | cons error errors => exact iff_of_false (fun h ↦ nomatch h) (fun h ↦ nomatch h)

/-- Only the letters and the value of an expression can be wrong. -/
theorem inputErrors_of_isExpression (htext : IsExpression text)
    (hread : Node.read equation.limits text false = .ok expression) :
    (equation.inputErrors purpose text).answeredBy oracle = equation.foreignErrors expression ++
      (equation.purposeErrors purpose text expression).answeredBy oracle := by
  obtain ⟨e, hdenotes⟩ := isExpression_iff_exists_denotes.1 htext
  rw [inputErrors, if_neg (Bool.eq_false_iff.1 htext.isBlank_eq_false),
    htext.illegalCharacters_eq_nil]
  dsimp only
  rw [hread]
  dsimp only
  rw [if_pos (isValid_of_denotes hread hdenotes), Inquiry.answeredBy_bind, Inquiry.answeredBy_pure]

/-- The variables of an equation are the letters of its text. -/
theorem mem_variableNames_iff {c : Char} :
    c ∈ equation.variableNames ↔ c ∈ equation.toText ∧ c.isAlpha = true := by
  have hletters : Text.letters equation.toText = equation.left.letters ++
      equation.right.letters := by
    rw [toText, Text.letters_append, Text.letters_cons_of_not_isAlpha (by decide), letters_toText,
      letters_toText]
  rw [variableNames, List.mem_eraseDups, ← hletters, Text.letters, List.mem_filter]

/-- No letter is foreign if all letters of the text occur in the text of the equation. -/
theorem foreignErrors_eq_nil_iff (hread : Node.read limits text false = .ok expression) :
    equation.foreignErrors expression = [] ↔
      ∀ c ∈ text, c.isAlpha = true → c ∈ equation.toText := by
  have hforeign : equation.foreignErrors expression = [] ↔
      expression.variableNames.filter (fun c ↦ !equation.variableNames.contains c) = [] := by
    unfold foreignErrors
    split
    · rename_i hnone
      exact iff_of_true rfl hnone
    · rename_i hfound
      rw [hfound]
      exact iff_of_false (List.cons_ne_nil _ _) (List.cons_ne_nil _ _)
  rw [hforeign, List.filter_eq_nil_iff, Node.variableNames, letters_of_read hread]
  refine ⟨fun h c hmem halpha ↦ ?_, fun h c hmem ↦ ?_⟩
  · have hc := h c (List.mem_eraseDups.2 (List.mem_filter.2 ⟨hmem, halpha⟩))
    exact (mem_variableNames_iff.1 (by simpa using hc)).1
  · obtain ⟨hmem, halpha⟩ := List.mem_filter.1 (List.mem_eraseDups.1 hmem)
    simpa using mem_variableNames_iff.2 ⟨h c hmem halpha, halpha⟩

/-- **An expression is accepted** if its letters occur in the equation and nothing is wrong with it
for its purpose. -/
theorem checkInput_eq_ok_iff_purposeErrors (htext : IsExpression text)
    (hread : Node.read equation.limits text false = .ok expression) :
    (equation.checkInput purpose text).answeredBy oracle = .ok () ↔
      (∀ c ∈ text, c.isAlpha = true → c ∈ equation.toText) ∧
        (equation.purposeErrors purpose text expression).answeredBy oracle = [] := by
  rw [checkInput_eq_ok_iff_inputErrors, inputErrors_of_isExpression htext hread,
    List.append_eq_nil_iff, foreignErrors_eq_nil_iff hread]

/-! ### Operands

The check looks for letters in the text and asks the oracle whether the text is zero. -/

/-- **What is wrong with an operand** is that it has letters, or no value, or the value zero. -/
theorem operandErrors_eq_nil_iff (hread : Node.read limits text false = .ok expression) :
    (operandErrors text expression).answeredBy (.exact limits) = [] ↔
      Text.letters text = [] ∧ ∃ k, expression.meaning = .of k ∧ k ≠ 0 := by
  have hletters : expression.variableNames = [] ↔ Text.letters text = [] := by
    rw [Node.variableNames, letters_of_read hread, List.eq_nil_iff_forall_not_mem,
      List.eq_nil_iff_forall_not_mem]
    exact forall_congr' fun c ↦ not_congr List.mem_eraseDups
  rw [operandErrors, Inquiry.answeredBy_bind, Inquiry.answeredBy_equal, Inquiry.answeredBy_pure,
    List.append_eq_nil_iff, and_comm, ← Oracle.exactlyEqual_zero_iff hread, ← hletters]
  refine and_congr ?_ ?_
  · cases expression.variableNames with
    | nil => exact iff_of_true rfl rfl
    | cons c rest => exact iff_of_false (List.cons_ne_nil _ _) (List.cons_ne_nil _ _)
  · cases (Oracle.exact limits).exactlyEqual text ['0'] with
    | ok isZero =>
      cases isZero with
      | true => exact iff_of_false (List.cons_ne_nil _ _) (by simp)
      | false => exact iff_of_true rfl rfl
    | error cause => exact iff_of_false (List.cons_ne_nil _ _) (by simp)

/-- Texts without letters that have a value other than zero are the numbers other than zero. -/
theorem exists_meaning_ne_zero_iff (htext : IsExpression text)
    (hread : Node.read limits text false = .ok expression) (hletters : Text.letters text = []) :
    (∃ k, expression.meaning = .of k ∧ k ≠ 0) ↔
      ∃ e q, LeftToRight .expression text.scanned e ∧ q ≠ 0 ∧
      ∀ point, e.IsDefinedAt point ∧ e.evalAt point = q := by
  constructor
  · rintro ⟨k, hk, hne⟩
    obtain ⟨e, he⟩ := LeftToRight.exists_of_isExpression htext
    rw [meaning_of_leftToRight hread he] at hk
    obtain ⟨hdefined, rfl⟩ := Formula.meaning_eq_of_iff.1 hk
    obtain ⟨q, hq⟩ :=
      Formula.exists_number ((he.letters.trans (Text.letters_scanned text)).trans hletters) hdefined
    exact ⟨e, q, he, fun hzero ↦ hne ((Formula.toField_eq_zero_iff hq).2 hzero), hq⟩
  · rintro ⟨e, q, he, hne, hq⟩
    rw [meaning_of_leftToRight hread he]
    exact ⟨e.toField, Formula.meaning_of_isDefined (Formula.isDefined_of_isDefinedAt (hq 0).1),
      fun hzero ↦ hne ((Formula.toField_eq_zero_iff hq).1 hzero)⟩

/-! ### Replacements

The check asks the oracle whether what is printed for the selection equals the text. -/

/-- Each side of a settled equation is settled. -/
theorem IsSettled.of_mem {side : Node} (h : equation.IsSettled)
    (hside : side ∈ [equation.left, equation.right]) :
    side.IsSettled equation.oracle.rationalize := by
  rcases List.mem_pair.1 hside with rfl | rfl
  · exact h.sides Equation.left (by simp)
  · exact h.sides Equation.right (by simp)

/-- **What is printed for selected nodes** is read back with the value of these nodes as one
group. -/
theorem Selects.meaning_of_read (h : equation.Selects selection nodes)
    (hequation : equation.IsSettled)
    (hread : Node.read limits (selectionText nodes) false = .ok node) :
    node.meaning = (branch .plus nodes).meaning := by
  have hne := h.ne_nil
  cases h with
  | whole hside hid =>
    rw [ReadsRoot.meaning_branch_singleton]
    exact meaning_of_selectionText_whole (hequation.of_mem hside) hread
  | @operands _ parent hparent =>
    obtain ⟨side, hside, frames, rfl⟩ := hparent
    have hsettled := hequation.of_mem hside
    obtain ⟨hshaped, -, hcanonical⟩ :=
      of_plug hsettled.shaped hsettled.canonical.marksInSums hsettled.canonical
    cases parent with
    | atom tag text => exact absurd rfl hne
    | group tag children =>
      rw [meaning_of_selectionText hshaped hcanonical hne
        (fun _ hmem ↦ (List.mem_filter.1 hmem).1) hread, Node.meaning, branch, contentMeaning_group]
      exact (Meaning.signed_plus _).symm

/-- The check of a replacement is passed if there are selected nodes and the oracle says yes. -/
theorem checkReplacement_eq_ok_iff :
    (equation.checkReplacement selection text).answeredBy oracle = .ok () ↔
      ∃ nodes, equation.selectedNodes selection = .ok nodes ∧ nodes ≠ [] ∧
        oracle.exactlyEqual (selectionText nodes) text = .ok true := by
  refine ⟨of_checkReplacement, ?_⟩
  rintro ⟨nodes, hnodes, hne, hequal⟩
  obtain ⟨node, rest, rfl⟩ := List.exists_cons_of_ne_nil hne
  rw [checkReplacement, hnodes]
  dsimp only
  rw [Inquiry.answeredBy_bind, Inquiry.answeredBy_equal, hequal]
  rfl

/-- For a replacement there is no other error than that of this check. -/
theorem purposeErrors_replace_eq_nil_iff :
    (equation.purposeErrors (.replace selection) text expression).answeredBy oracle = [] ↔
      (equation.checkReplacement selection text).answeredBy oracle = .ok () := by
  rw [purposeErrors, Inquiry.answeredBy_bind]
  match (equation.checkReplacement selection text).answeredBy oracle with
  | .ok () => exact iff_of_true rfl rfl
  | .error cause => exact iff_of_false (fun h ↦ nomatch h) (fun h ↦ nomatch h)

/-- A tree and a text have the same value if they mean the same and it is not undefined. -/
theorem exists_meaning_eq_iff (htext : IsExpression text)
    (hread : Node.read limits text false = .ok expression) :
    (∃ k, node.meaning = .of k ∧ expression.meaning = .of k) ↔
      ∃ e f, LeftToRight .expression text.scanned e ∧ e.IsDefined ∧ node.value = .ok f ∧
        f.toField = e.toField := by
  constructor
  · rintro ⟨k, hnode, hvalue⟩
    obtain ⟨e, he⟩ := LeftToRight.exists_of_isExpression htext
    rw [meaning_of_leftToRight hread he] at hvalue
    obtain ⟨hdefined, rfl⟩ := Formula.meaning_eq_of_iff.1 hvalue
    obtain ⟨f, hf, hsame⟩ := Node.meaning_eq_of_iff.1 hnode
    exact ⟨e, f, he, hdefined, hf, hsame⟩
  · rintro ⟨e, f, he, hdefined, hf, hsame⟩
    refine ⟨e.toField, Node.meaning_eq_of_iff.2 ⟨f, hf, hsame⟩, ?_⟩
    rw [meaning_of_leftToRight hread he]
    exact Formula.meaning_of_isDefined hdefined

/-- **What is wrong with a replacement** is that nothing can be selected, or that the value is
another one. -/
theorem checkReplacement_exact_eq_ok_iff (hequation : equation.IsSettled)
    (hread : Node.read limits text false = .ok expression)
    (hchain : ∀ nodes, equation.Selects selection nodes →
      ∃ node, Node.read limits (selectionText nodes) false = .ok node) :
    (equation.checkReplacement selection text).answeredBy (.exact limits) = .ok () ↔
      ∃ nodes k, equation.Selects selection nodes ∧ (branch .plus nodes).meaning = .of k ∧
        expression.meaning = .of k := by
  rw [checkReplacement_eq_ok_iff]
  refine exists_congr fun nodes ↦ ?_
  rw [selectedNodes_eq_ok_iff hequation.nodup]
  constructor
  · rintro ⟨hselects, -, hequal⟩
    obtain ⟨node, hnode⟩ := hchain nodes hselects
    obtain ⟨k, l, hk, hl, hsame⟩ := (Oracle.exactlyEqual_eq_ok_iff hnode hread).1 hequal
    obtain rfl := hsame.1 rfl
    exact ⟨k, hselects, (hselects.meaning_of_read hequation hnode).symm.trans hk, hl⟩
  · rintro ⟨k, hselects, hk, hl⟩
    obtain ⟨node, hnode⟩ := hchain nodes hselects
    exact ⟨hselects, hselects.ne_nil, (Oracle.exactlyEqual_eq_ok_iff hnode hread).2
      ⟨k, k, (hselects.meaning_of_read hequation hnode).trans hk, hl, iff_of_true rfl rfl⟩⟩

/-! ### The check

For the equations to which edits lead from one that was built. -/

section Built

variable {left right : Text} {built : Equation} {first next : NodeId}

/-- What many edits of an equation that was built lead to has the limits and the oracle it was built
with. -/
theorem settings_of_reaches {oracle : Oracle} (hleft : IsExpression left)
    (hright : IsExpression right) (horacle : oracle.rationalize = Oracle.exactFraction)
    (hbuilt : ofSides limits oracle left right = .ok built)
    (h : (built.number first).1.Reaches (built.number first).2 equation next) :
    equation.limits = limits ∧ equation.oracle = oracle := by
  obtain ⟨hlimits, hsame, -⟩ := of_ofSides hleft hright horacle hbuilt
  have htracked := isTracked_of_ofSides first hleft hright horacle hbuilt
  have hanswers : AnswersRegular (built.number first).1.oracle.rationalize := by
    show AnswersRegular built.oracle.rationalize
    rw [hsame, horacle]
    exact isFaithful_exactFraction.answersRegular
  exact ⟨(h.limits_eq htracked hanswers).trans hlimits,
    (h.isTracked htracked hanswers).2.1.trans hsame⟩

/-- **What is accepted as input**, for every expression that can be read, and every equation to
which edits lead from one that was built of expressions and that has the exact oracle.

As a factor or divisor of both sides a text is accepted exactly if it has no letters and denotes a
number other than zero. As a replacement it is accepted exactly if all of its letters occur in the
equation, the selection names one whole side once or operands of one node, and the group of these,
in the order of the tree, has a value, which is that of the text; provided that what is printed for
them can be read. -/
theorem checkInput_eq_ok_iff (hleft : IsExpression left) (hright : IsExpression right)
    (hbuilt : ofSides limits (.exact limits) left right = .ok built)
    (hreaches : (built.number first).1.Reaches (built.number first).2 equation next)
    (htext : IsExpression text) (hread : Node.read limits text false = .ok expression) :
    (∀ purpose ∈ [Purpose.multiply, .divide],
      ((equation.checkInput purpose text).answeredBy equation.oracle = .ok () ↔
        (∀ c ∈ text, c.isAlpha = false) ∧ ∃ e q, LeftToRight .expression text.scanned e ∧ q ≠ 0 ∧
          ∀ point, e.IsDefinedAt point ∧ e.evalAt point = q)) ∧
    ∀ selection, (∀ nodes, equation.Selects selection nodes →
        ∃ node, Node.read limits (selectionText nodes) false = .ok node) →
      ((equation.checkInput (.replace selection) text).answeredBy equation.oracle = .ok () ↔
        (∀ c ∈ text, c.isAlpha = true → c ∈ equation.toText) ∧
          ∃ nodes e f, equation.Selects selection nodes ∧ LeftToRight .expression text.scanned e ∧
            e.IsDefined ∧ (branch .plus nodes).value = .ok f ∧ f.toField = e.toField) := by
  obtain ⟨hlimits, horacle⟩ := settings_of_reaches hleft hright rfl hbuilt hreaches
  obtain ⟨htracked, -, -⟩ := isTracked_of_reaches hleft hright rfl hbuilt hreaches
  have haccepted :
      ∀ purpose, (equation.checkInput purpose text).answeredBy equation.oracle = .ok () ↔
      (∀ c ∈ text, c.isAlpha = true → c ∈ equation.toText) ∧
        (equation.purposeErrors purpose text expression).answeredBy (.exact limits) = [] :=
          fun purpose ↦ by
    rw [horacle, checkInput_eq_ok_iff_purposeErrors htext (hlimits ▸ hread)]
  refine ⟨fun purpose hpurpose ↦ ?_, fun selection hchain ↦ ?_⟩
  · have hoperand : equation.purposeErrors purpose text expression =
        operandErrors text expression := by
      rcases List.mem_pair.1 hpurpose with rfl | rfl <;> rfl
    rw [haccepted, hoperand, operandErrors_eq_nil_iff hread, ← Text.letters_eq_nil_iff]
    constructor
    · rintro ⟨-, hletters, hvalue⟩
      exact ⟨hletters, (exists_meaning_ne_zero_iff htext hread hletters).1 hvalue⟩
    · rintro ⟨hletters, hvalue⟩
      -- without letters there is none that is missing in the equation
      refine ⟨fun c hmem halpha ↦ ?_, hletters,
        (exists_meaning_ne_zero_iff htext hread hletters).2 hvalue⟩
      cases halpha.symm.trans (Text.letters_eq_nil_iff.1 hletters c hmem)
  · rw [haccepted, purposeErrors_replace_eq_nil_iff,
      checkReplacement_exact_eq_ok_iff htracked.settled hread hchain]
    refine and_congr_right fun _ ↦ exists_congr fun nodes ↦ ?_
    rw [exists_and_left, exists_meaning_eq_iff htext hread]
    simp only [exists_and_left]

/-- In `x+x=1` the terms may be replaced by `2x`, in any order and named twice, and the equation may
be multiplied by `1/2`. -/
theorem checkInput_eq_ok_iff_sum : ∃ built equation,
    ofSides .standard (.exact .standard) "x+x".toList "1".toList = .ok built ∧
      equation = (built.number 0).1 ∧
        (equation.checkInput .multiply "1/2".toList).answeredBy equation.oracle = .ok () ∧
          (equation.checkInput (.replace [2, 1, 2]) "2x".toList).answeredBy
              equation.oracle = .ok () ∧
            ∃ nodes e f, equation.Selects [2, 1, 2] nodes ∧
              LeftToRight .expression (Text.scanned "2x".toList) e ∧ e.IsDefined ∧
                (branch .plus nodes).value = .ok f ∧ f.toField = e.toField := by
  have hfacts :
      (ofSides .standard (.exact .standard) "x+x".toList "1".toList).toOption.map (fun built ↦
      decide ((((built.number 0).1.selectedNodes [2, 1, 2]).toOption.map fun nodes ↦ decide
          ((Node.read .standard (selectionText nodes) false).toOption.map (fun _ ↦ decide True) =
            some true)) = some true ∧
        (((built.number 0).1.checkInput (.replace [2, 1, 2]) "2x".toList).answeredBy
          (built.number 0).1.oracle).toOption.map (fun _ ↦ decide True) = some true)) =
            some true := by
    decide +kernel
  obtain ⟨built, hbuilt, hnodes, haccepted⟩ := Except.exists_ok_of_toOption hfacts
  obtain ⟨chain, hselected, hprinted⟩ := Except.exists_ok_of_toOption hnodes
  obtain ⟨_, haccepted, -⟩ := Except.exists_ok_of_toOption haccepted
  have hsum : IsExpression "x+x".toList := isExpression_of_eq rfl (by decide)
  have hone : IsExpression "1".toList := isExpression_of_eq rfl (by decide)
  have hsettled := (isTracked_of_ofSides 0 hsum hone rfl hbuilt).settled
  refine ⟨built, _, hbuilt, rfl, ?_, ?_⟩
  · obtain ⟨expression, hread⟩ : ∃ node, Node.read .standard "1/2".toList false = .ok node :=
      ⟨_, rfl⟩
    refine ((checkInput_eq_ok_iff hsum hone hbuilt .start
      (isExpression_of_eq rfl (by decide)) hread).1
      .multiply (by simp)).2 ⟨Text.letters_eq_nil_iff.1 rfl, .div (.number 1) (.number 2), 1 / 2,
      ?_, by norm_num,
        fun point ↦ ?_⟩
    · have hdividend : LeftToRight .factor ['1'] (.number 1) := .literal (by decide)
      have hdivisor : LeftToRight .factor ['2'] (.number 2) := .literal (by decide)
      exact .term (.run (.divided (.first hdividend) (.factor hdivisor)))
    · exact ⟨List.forall_mem_singleton.2 (two_ne_zero (α := ℚ)), rfl⟩
  · obtain ⟨expression, hread⟩ : ∃ node, Node.read .standard "2x".toList false = .ok node :=
      ⟨_, rfl⟩
    have hchain : ∀ nodes, (built.number 0).1.Selects [2, 1, 2] nodes →
        ∃ node, Node.read .standard (selectionText nodes) false = .ok node := by
      intro nodes hselects
      rw [(selectedNodes_eq_ok_iff hsettled.nodup).2 hselects] at hselected
      obtain rfl := Except.ok.inj hselected
      obtain ⟨node, hnode, -⟩ := Except.exists_ok_of_toOption hprinted
      exact ⟨node, hnode⟩
    exact ⟨haccepted,
      (((checkInput_eq_ok_iff hsum hone hbuilt .start (isExpression_of_eq rfl (by decide))
      hread).2 _ hchain).1 haccepted).2⟩

end Built

end Equation

end EquationSteps
