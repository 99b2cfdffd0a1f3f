import EquationSteps.Tree.Reader

/-!
# Scanning a text

The reader looks at a text only through the characters that stand outside all parentheses, each
together with the character before it. `outside` lists these *marks*, and what the scanning
functions do is said in terms of them.

* `classify` is decided by which marks there are (`classify_eq`).
* `segments` cuts a text in front of some of its marks (`segmentsFrom_append`,
  `forall_mem_segmentsFrom`).
* `stripParentheses` takes off parentheses only if there is no mark but the first of them
  (`of_stripParentheses_ne`).

**Why marks.** The scanning functions go over a text from the left with a level and a previous
character, and each has its own state besides. A statement about a text that is put together from
others would have to be proved for each of them by its own induction. The marks of a concatenation
are those of its parts (`outside_append_of_isBalanced`), so once a function is described by the
marks, there is nothing left to do.

A text is *balanced* if its parentheses match. Within balanced texts the level of parentheses comes
back to where it was. Nothing is assumed about the texts that the reader is given; a text that is
not balanced has its marks as well, and what is said about all texts (`exists_links`) holds of it.

**Two ways of counting levels.** The reader's level is an integer that goes below zero if too many
parentheses are closed. That suits a function that has to go on with any text. `nest` fails in this
case, and is the better notion for texts that are known to be balanced; where it does not fail the
two agree (`levelOf_of_nest`).
-/

namespace EquationSteps

/-- A text as the reader scans it: blanks are dropped, and products are written out. -/
def Text.scanned (text : Text) : Text :=
  explicitProducts (Text.withoutBlanks text)

/-! ### Levels

How the level changes along a text. Parentheses are the only characters that change it. -/

/-- The level of parentheses after a text, or nothing if the text closes more of them than were open
before. -/
def nest (level : Nat) : Text → Option Nat
  | [] => some level
  | c :: rest =>
    if c = '(' then nest (level + 1) rest
    else if c = ')' then if level = 0 then none else nest (level - 1) rest
    else nest level rest

/-- Whether the parentheses of a text match. -/
def IsBalanced (text : Text) : Prop :=
  nest 0 text = some 0

/-- The level of parentheses after a text, which goes below zero where too many are closed. -/
def levelOf (level : Int) (text : Text) : Int :=
  text.foldl levelAfter level

/-- The level after a text, by its first character. -/
theorem levelOf_cons (level : Int) (c : Char) (rest : Text) :
    levelOf level (c :: rest) = levelOf (levelAfter level c) rest := rfl

/-- Signs do not change the level. -/
theorem levelAfter_symbol (level : Int) (sign : Sign) : levelAfter level sign.symbol = level := by
  cases sign <;> rfl

/-- Each character changes the level by the same amount wherever it stands. -/
theorem levelAfter_add (level k : Int) (c : Char) :
    levelAfter (level + k) c = levelAfter level c + k := by
  unfold levelAfter
  split
  · omega
  · split <;> omega

/-- As long as no level is below zero, `nest` counts the levels of the reader. -/
theorem nest_cons {level next : Nat} {c : Char} (h : levelAfter level c = next) (rest : Text) :
    nest level (c :: rest) = nest next rest := by
  rw [nest]
  unfold levelAfter at h
  split at h
  · rename_i hopen
    rw [if_pos hopen]
    congr 1
    omega
  · rename_i hopen
    rw [if_neg hopen]
    split at h
    · rename_i hclose
      rw [if_pos hclose, if_neg (by omega)]
      congr 1
      omega
    · rename_i hclose
      rw [if_neg hclose]
      congr 1
      omega

/-- If a text does not close more than is open, then its first character does not. -/
theorem exists_of_nest_cons {level after : Nat} {c : Char} {rest : Text}
    (h : nest level (c :: rest) = some after) :
    ∃ next : Nat, levelAfter level c = next ∧ nest next rest = some after := by
  rw [nest] at h
  by_cases hopen : c = '('
  · rw [if_pos hopen] at h
    exact ⟨level + 1, if_pos hopen, h⟩
  · rw [if_neg hopen] at h
    by_cases hclose : c = ')'
    · rw [if_pos hclose] at h
      split at h
      · cases h
      · refine ⟨level - 1, ?_, h⟩
        rw [levelAfter, if_neg hopen, if_pos hclose]
        omega
    · rw [if_neg hclose] at h
      exact ⟨level, by rw [levelAfter, if_neg hopen, if_neg hclose], h⟩

/-- The levels of a text of two parts are counted one part after the other. -/
theorem nest_append (level : Nat) (a b : Text) :
    nest level (a ++ b) = (nest level a).bind fun level ↦ nest level b := by
  induction a generalizing level with
  | nil => rfl
  | cons c a ih =>
    rw [List.cons_append, nest, nest]
    split
    · exact ih _
    · split
      · split
        · rfl
        · exact ih _
      · exact ih _

/-- Parentheses that were open before do no harm. -/
theorem nest_add {level after : Nat} {text : Text} (h : nest level text = some after) (k : Nat) :
    nest (level + k) text = some (after + k) := by
  induction text generalizing level with
  | nil =>
    cases h
    rfl
  | cons c text ih =>
    obtain ⟨next, hnext, htext⟩ := exists_of_nest_cons h
    have hlevel : levelAfter ((level + k : Nat) : Int) c = ((next + k : Nat) : Int) := by
      rw [Int.natCast_add, levelAfter_add, hnext, Int.natCast_add]
    rw [nest_cons hlevel]
    exact ih htext

/-- Where the text closes no more than is open, both ways of counting agree. -/
theorem levelOf_of_nest {level after : Nat} {text : Text} (h : nest level text = some after) :
    levelOf level text = after := by
  induction text generalizing level with
  | nil =>
    cases h
    rfl
  | cons c text ih =>
    obtain ⟨next, hnext, htext⟩ := exists_of_nest_cons h
    rw [levelOf_cons, hnext]
    exact ih htext

/-- The empty text is balanced. -/
theorem isBalanced_nil : IsBalanced [] := rfl

/-- Balanced texts one after the other are balanced. -/
theorem IsBalanced.append {a b : Text} (ha : IsBalanced a) (hb : IsBalanced b) :
    IsBalanced (a ++ b) := by
  rw [IsBalanced, nest_append, ha]
  exact hb

/-- A character that is no parenthesis may stand in front. -/
theorem IsBalanced.cons {c : Char} {text : Text} (h : IsBalanced text) (hopen : c ≠ '(')
    (hclose : c ≠ ')') : IsBalanced (c :: text) := by
  rw [IsBalanced, nest, if_neg hopen, if_neg hclose]
  exact h

/-- A pair of parentheses may be put around a balanced text. -/
theorem IsBalanced.parenthesized {text : Text} (h : IsBalanced text) :
    IsBalanced ('(' :: (text ++ [')'])) := by
  rw [IsBalanced, nest, if_pos rfl, nest_append, nest_add h 1]
  rfl

/-- A text without parentheses is balanced. -/
theorem isBalanced_of_forall {text : Text} (h : ∀ c ∈ text, c ≠ '(' ∧ c ≠ ')') :
    IsBalanced text := by
  induction text with
  | nil => exact isBalanced_nil
  | cons c text ih =>
    obtain ⟨hc, htext⟩ := List.forall_mem_cons.1 h
    exact (ih htext).cons hc.1 hc.2

/-- A balanced text comes back to the level where it started. -/
theorem levelOf_of_isBalanced {text : Text} (h : IsBalanced text) : levelOf 0 text = 0 :=
  levelOf_of_nest h

/-! ### Marks

A mark has the character before it because a sign is unary if it stands behind another operator, and
because a sign at the very front has nothing before it. -/

/-- The characters of a text outside all parentheses, each with the character before it. -/
def outside : Int → Option Char → Text → List (Option Char × Char)
  | _, _, [] => []
  | level, previous, c :: rest =>
    if level = 0 then (previous, c) :: outside (levelAfter level c) (some c) rest
    else outside (levelAfter level c) (some c) rest

/-- The last character of a text that is not empty is that of its tail, or the first one if there is
no other. -/
theorem getLast?_cons_or (c : Char) (text : Text) (previous : Option Char) :
    (c :: text).getLast?.or previous = text.getLast?.or (some c) := by
  cases text with
  | nil => rfl
  | cons d text =>
    rw [List.getLast?_cons_cons, List.getLast?_eq_some_getLast (List.cons_ne_nil d text)]
    rfl

/-- The marks of a text of two parts. The second part starts at the level at which the first one
ends, and behind its last character. -/
theorem outside_append (level : Int) (previous : Option Char) (a b : Text) :
    outside level previous (a ++ b) =
      outside level previous a ++ outside (levelOf level a) (a.getLast?.or previous) b := by
  induction a generalizing level previous with
  | nil => rfl
  | cons c a ih =>
    rw [List.cons_append, outside, outside, getLast?_cons_or, levelOf_cons]
    split
    · rw [ih, List.cons_append]
    · rw [ih]

/-- The marks of a text behind a balanced one. -/
theorem outside_append_of_isBalanced {a : Text} (h : IsBalanced a) (previous : Option Char)
    (b : Text) : outside 0 previous (a ++ b) =
      outside 0 previous a ++ outside 0 (a.getLast?.or previous) b := by
  rw [outside_append, levelOf_of_isBalanced h]

/-- A character that is no parenthesis is a mark, and leaves what follows it outside. -/
theorem outside_cons {c : Char} (hopen : c ≠ '(') (hclose : c ≠ ')') (previous : Option Char)
    (rest : Text) : outside 0 previous (c :: rest) = (previous, c) :: outside 0 (some c) rest := by
  rw [outside, if_pos rfl, levelAfter, if_neg hopen, if_neg hclose]

/-- Inside of parentheses there are no marks. -/
theorem outside_of_nest {level after : Nat} {text : Text} (h : nest level text = some after)
    (previous : Option Char) : outside (level + 1) previous text = [] := by
  induction text generalizing level previous with
  | nil => rfl
  | cons c text ih =>
    obtain ⟨next, hnext, htext⟩ := exists_of_nest_cons h
    rw [outside, if_neg (by omega), levelAfter_add, hnext]
    exact ih htext _

/-- Of a text in parentheses only the first one is a mark. -/
theorem outside_parenthesized {text : Text} (h : IsBalanced text) (previous : Option Char) :
    outside 0 previous ('(' :: (text ++ [')'])) = [(previous, '(')] := by
  have hlevel : levelOf 1 text = 1 := levelOf_of_nest (nest_add h 1)
  have hinside : outside 1 (some '(') text = [] := outside_of_nest h _
  rw [outside, if_pos rfl, levelAfter, if_pos rfl, Int.zero_add, outside_append, hlevel, hinside]
  rfl

/-- The marks of a text without parentheses are its characters. -/
theorem mem_of_mem_outside {level : Int} {previous : Option Char} {text : Text}
    {mark : Option Char × Char} (h : mark ∈ outside level previous text) : mark.2 ∈ text := by
  induction text generalizing level previous with
  | nil => cases h
  | cons c text ih =>
    rw [outside] at h
    split at h
    · rcases List.mem_cons.1 h with rfl | h
      · exact List.mem_cons_self
      · exact List.mem_cons_of_mem _ (ih h)
    · exact List.mem_cons_of_mem _ (ih h)

/-! ### Classification

The family of a text depends on its marks only, and not on their order. -/

/-- Whether a mark is a sign that is not unary. -/
def isBinarySign (mark : Option Char × Char) : Bool :=
  (mark.2 == '+' || mark.2 == '-') && !follows mark.1

/-- The family from within a text, where a family has been found already. -/
theorem classifyFrom_eq (found : Option Family) (level : Int) (previous : Option Char)
    (text : Text) : classifyFrom found level previous text =
      if (outside level previous text).any isBinarySign then some .sum
      else if (outside level previous text).any (·.2 == '*') then some .product
      else if (outside level previous text).any (·.2 == '/') then found.or (some .quotient)
      else found := by
  induction text generalizing found level previous with
  | nil => rfl
  | cons c rest ih =>
    rw [classifyFrom, outside]
    by_cases hlevel : level = 0
    · by_cases hbinary : (c = '+' ∨ c = '-') ∧ follows previous = false
      · rw [if_pos ⟨hlevel, hbinary⟩, if_pos hlevel, if_pos]
        simpa [isBinarySign] using Or.inl hbinary
      · have hsign : isBinarySign (previous, c) = false := by
          simpa [isBinarySign] using hbinary
        rw [if_neg (fun h ↦ hbinary h.2), ih, if_pos hlevel]
        simp only [List.any_cons, hsign, Bool.false_or, hlevel, true_and]
        by_cases htimes : c = '*'
        · simp [htimes]
        · rw [if_neg htimes, beq_false_of_ne htimes, Bool.false_or]
          by_cases hdivide : c = '/'
          · cases found <;> simp [hdivide]
          · rw [if_neg hdivide, beq_false_of_ne hdivide, Bool.false_or]
    · simp only [hlevel, false_and, if_false, ih]

/-- The family of a text by its marks: a sum if there is a binary sign, else a product if there is a
`*`, else a quotient if there is a `/`. -/
theorem classify_eq (text : Text) : classify text =
    if (outside 0 none text).any isBinarySign then some .sum
    else if (outside 0 none text).any (·.2 == '*') then some .product
    else if (outside 0 none text).any (·.2 == '/') then some .quotient
    else none :=
  classifyFrom_eq none 0 none text

/-- A text is a sum exactly if it has a binary sign. -/
theorem classify_eq_sum_iff {text : Text} :
    classify text = some .sum ↔ ∃ mark ∈ outside 0 none text, isBinarySign mark = true := by
  grind [classify_eq, List.any_eq_true]

/-- It is a product if it has none, and a `*`. -/
theorem classify_eq_product_iff {text : Text} :
    classify text = some .product ↔ (∀ mark ∈ outside 0 none text, isBinarySign mark = false) ∧
      ∃ mark ∈ outside 0 none text, mark.2 = '*' := by
  grind [classify_eq, List.any_eq_true]

/-- It is a quotient if it has neither, and a `/`. -/
theorem classify_eq_quotient_iff {text : Text} :
    classify text = some .quotient ↔ (∀ mark ∈ outside 0 none text, isBinarySign mark = false) ∧
      (∀ mark ∈ outside 0 none text, mark.2 ≠ '*') ∧
        ∃ mark ∈ outside 0 none text, mark.2 = '/' := by
  grind [classify_eq, List.any_eq_true]

/-- It has no family if there is none of the three. -/
theorem classify_eq_none_iff {text : Text} :
    classify text = none ↔ (∀ mark ∈ outside 0 none text, isBinarySign mark = false) ∧
      (∀ mark ∈ outside 0 none text, mark.2 ≠ '*') ∧
        ∀ mark ∈ outside 0 none text, mark.2 ≠ '/' := by
  grind [classify_eq, List.any_eq_true]

/-! ### Cutting

Where a family cuts a text and where it does not. A text of two parts of which the first is not cut
is cut as the second is, and the first stays with what is in front of the first cut. -/

/-- Whether a text has no mark in front of which the family cuts it. -/
def IsUncut (family : Family) (level : Int) (previous : Option Char) (text : Text) : Prop :=
  ∀ mark ∈ outside level previous text, family.cutsBefore 0 mark.1 mark.2 = false

/-- The empty text is not cut. -/
theorem isUncut_nil (family : Family) (level : Int) (previous : Option Char) :
    IsUncut family level previous [] :=
  fun _ h ↦ absurd h List.not_mem_nil

/-- Whether a text is cut, by its first character. -/
theorem isUncut_cons_iff {family : Family} {level : Int} {previous : Option Char} {c : Char}
    {rest : Text} : IsUncut family level previous (c :: rest) ↔
      family.cutsBefore level previous c = false ∧
        IsUncut family (levelAfter level c) (some c) rest := by
  unfold IsUncut
  rw [outside]
  by_cases hlevel : level = 0
  · rw [if_pos hlevel, List.forall_mem_cons, hlevel]
  · have hcuts : family.cutsBefore level previous c = false := by
      simp [Family.cutsBefore, hlevel]
    rw [if_neg hlevel, hcuts]
    simp

/-- A family cuts in front of its own signs. -/
theorem Family.operatorMatches_eq_true_iff {family : Family} {c : Char} :
    family.operatorMatches c = true ↔ ∃ sign, Family.ofSign sign = family ∧ c = sign.symbol := by
  constructor
  · intro h
    cases family with
    | sum =>
      rcases Bool.or_eq_true_iff.1 h with h | h
      · exact ⟨.plus, rfl, beq_iff_eq.1 h⟩
      · exact ⟨.minus, rfl, beq_iff_eq.1 h⟩
    | product => exact ⟨.times, rfl, beq_iff_eq.1 h⟩
    | quotient => exact ⟨.divide, rfl, beq_iff_eq.1 h⟩
  · rintro ⟨sign, rfl, rfl⟩
    cases sign <;> rfl

/-- A text is cut only outside of parentheses, and in front of a sign of the family. -/
theorem Family.exists_sign_of_cutsBefore {family : Family} {level : Int} {previous : Option Char}
    {c : Char} (h : family.cutsBefore level previous c = true) :
    level = 0 ∧ ∃ sign, Family.ofSign sign = family ∧ c = sign.symbol := by
  unfold cutsBefore at h
  obtain ⟨⟨hlevel, hmatches⟩, -⟩ := by simpa only [Bool.and_eq_true] using h
  exact ⟨beq_iff_eq.1 hlevel, operatorMatches_eq_true_iff.1 hmatches⟩

/-- Without binary signs a sum is not cut. -/
theorem isUncut_sum {level : Int} {previous : Option Char} {text : Text}
    (h : ∀ mark ∈ outside level previous text, isBinarySign mark = false) :
    IsUncut .sum level previous text := by
  intro mark hmem
  have hmark := h mark hmem
  simp only [isBinarySign, Bool.and_eq_false_iff, Bool.or_eq_false_iff] at hmark
  simp only [Family.cutsBefore, Family.operatorMatches, Bool.and_eq_false_iff, Bool.or_eq_false_iff]
  exact hmark.imp Or.inr Or.inr

/-- What is not cut stays in the running segment. -/
theorem segmentsFrom_append {family : Family} {level : Int} {previous : Option Char} {a : Text}
    (h : IsUncut family level previous a) (b : Text) :
    segmentsFrom family level previous (a ++ b) =
      (a ++ (segmentsFrom family (levelOf level a) (a.getLast?.or previous) b).1,
        (segmentsFrom family (levelOf level a) (a.getLast?.or previous) b).2) := by
  induction a generalizing level previous with
  | nil => rfl
  | cons c a ih =>
    obtain ⟨hcuts, ha⟩ := isUncut_cons_iff.1 h
    rw [List.cons_append, segmentsFrom, ih ha, hcuts, getLast?_cons_or, levelOf_cons]
    rfl

/-- The segments of any text: the running one is not cut, and each other one starts with the sign in
front of which it was cut and is not cut again. -/
theorem forall_mem_segmentsFrom (family : Family) (level : Int) (previous : Option Char)
    (text : Text) : IsUncut family level previous (segmentsFrom family level previous text).1 ∧
      ∀ segment ∈ (segmentsFrom family level previous text).2, ∃ sign operand,
        segment = sign.symbol :: operand ∧ Family.ofSign sign = family ∧
          IsUncut family 0 (some sign.symbol) operand := by
  induction text generalizing level previous with
  | nil => exact ⟨isUncut_nil _ _ _, fun _ h ↦ absurd h List.not_mem_nil⟩
  | cons c rest ih =>
    obtain ⟨hrunning, hothers⟩ := ih (levelAfter level c) (some c)
    simp only [segmentsFrom]
    split
    · rename_i hcuts
      obtain ⟨rfl, sign, hsign, rfl⟩ := Family.exists_sign_of_cutsBefore hcuts
      refine ⟨isUncut_nil _ _ _, fun segment hmem ↦ ?_⟩
      rcases List.mem_cons.1 hmem with rfl | hmem
      · rw [levelAfter_symbol] at hrunning ⊢
        exact ⟨sign, _, rfl, hsign, hrunning⟩
      · exact hothers segment hmem
    · rename_i hcuts
      exact ⟨isUncut_cons_iff.2 ⟨by simpa using hcuts, hrunning⟩, hothers⟩

/-! ### Chains

Operands with signs between them. Every text is such a chain for each family, namely that of its
segments (`exists_links`), and a chain is cut into its links if the operands are not cut themselves
(`segments_chainText`). -/

/-- The text of operands one after the other, with the sign of each but the first written out. -/
def chainText (first : Text) (links : List (Sign × Text)) : Text :=
  first ++ links.flatMap fun link ↦ link.1.symbol :: link.2

/-- A chain of which the first link counts to the text in front. -/
theorem chainText_link (first : Text) (link : Sign × Text) (links : List (Sign × Text)) :
    chainText first (link :: links) = chainText (first ++ link.1.symbol :: link.2) links := by
  rw [chainText, chainText, List.flatMap_cons, List.append_assoc]

/-- Whether a text ends with something that any sign can follow. -/
def EndsInOperand (text : Text) : Prop :=
  ∃ c, text.getLast? = some c ∧ isOperator c = false ∧ c ≠ '('

/-- Behind an operand a family cuts in front of each of its signs. -/
theorem Family.cutsBefore_symbol {family : Family} {sign : Sign} {previous : Option Char} {c : Char}
    (hprevious : previous = some c) (hc : isOperator c = false)
    (hsign : Family.ofSign sign = family) : family.cutsBefore 0 previous sign.symbol = true := by
  subst hprevious
  subst hsign
  cases sign <;> simp [cutsBefore, operatorMatches, ofSign, Sign.symbol, follows, hc]

/-- How a text ends is decided by its last part. -/
theorem EndsInOperand.append (a : Text) {b : Text} (h : EndsInOperand b) :
    EndsInOperand (a ++ b) := by
  obtain ⟨c, hlast, hc⟩ := h
  exact ⟨c, by rw [List.getLast?_append, hlast]; rfl, hc⟩

/-- Behind an operand, links are cut in front of each of their signs. -/
theorem segmentsFrom_links {family : Family} {links : List (Sign × Text)} {previous : Option Char}
    {c : Char} (hprevious : previous = some c) (hc : isOperator c = false)
    (hsign : ∀ link ∈ links, Family.ofSign link.1 = family)
    (hbalanced : ∀ link ∈ links, IsBalanced link.2)
    (huncut : ∀ link ∈ links, IsUncut family 0 (some link.1.symbol) link.2)
    (hends : ∀ link ∈ links, EndsInOperand link.2) :
    segmentsFrom family 0 previous (links.flatMap fun link ↦ link.1.symbol :: link.2) =
      ([], links.map fun link ↦ link.1.symbol :: link.2) := by
  induction links generalizing previous c with
  | nil => rfl
  | cons link links ih =>
    obtain ⟨hsign, hsigns⟩ := List.forall_mem_cons.1 hsign
    obtain ⟨hlink, hlinks⟩ := List.forall_mem_cons.1 hbalanced
    obtain ⟨huncut, huncuts⟩ := List.forall_mem_cons.1 huncut
    obtain ⟨⟨d, hlast, hd, -⟩, hends⟩ := List.forall_mem_cons.1 hends
    have hprevious' : link.2.getLast?.or (some link.1.symbol) = some d := by rw [hlast]; rfl
    rw [List.flatMap_cons, List.cons_append, segmentsFrom, levelAfter_symbol,
      segmentsFrom_append huncut, levelOf_of_isBalanced hlink,
      ih hprevious' hd hsigns hlinks huncuts hends,
      Family.cutsBefore_symbol hprevious hc hsign]
    simp

/-- The segments of a chain are its links. -/
theorem segments_chainText {family : Family} {first : Text} {links : List (Sign × Text)}
    (hfirst : IsBalanced first) (hends : EndsInOperand first) (huncut : IsUncut family 0 none first)
    (hsign : ∀ link ∈ links, Family.ofSign link.1 = family)
    (hbalanced : ∀ link ∈ links, IsBalanced link.2)
    (huncuts : ∀ link ∈ links, IsUncut family 0 (some link.1.symbol) link.2)
    (hendsAll : ∀ link ∈ links, EndsInOperand link.2) :
    segments family (chainText first links) =
      first :: links.map fun link ↦ link.1.symbol :: link.2 := by
  obtain ⟨c, hlast, hc, -⟩ := hends
  have hprevious : first.getLast?.or none = some c := by rw [hlast]; rfl
  rw [segments, chainText, segmentsFrom_append huncut, levelOf_of_isBalanced hfirst,
    segmentsFrom_links hprevious hc hsign hbalanced huncuts hendsAll]
  simp

/-- Any text is the chain of its segments. -/
theorem exists_links (family : Family) (text : Text) : ∃ first links,
    segments family text = first :: links.map (fun link ↦ link.1.symbol :: link.2) ∧
      text = chainText first links ∧ IsUncut family 0 none first ∧
        ∀ link ∈ links, Family.ofSign link.1 = family ∧
          IsUncut family 0 (some link.1.symbol) link.2 := by
  obtain ⟨hfirst, hothers⟩ := forall_mem_segmentsFrom family 0 none text
  have hflatten := flatten_segments family text
  unfold segments at hflatten ⊢
  generalize segmentsFrom family 0 none text = parts at hfirst hothers hflatten
  obtain ⟨first, others⟩ := parts
  dsimp only at hfirst hothers hflatten ⊢
  subst hflatten
  have hlinks :
      ∃ links : List (Sign × Text), others = links.map (fun link ↦ link.1.symbol :: link.2) ∧
      ∀ link ∈ links, Family.ofSign link.1 = family ∧
        IsUncut family 0 (some link.1.symbol) link.2 := by
    clear hfirst
    induction others with
    | nil => exact ⟨[], rfl, fun _ h ↦ absurd h List.not_mem_nil⟩
    | cons segment others ih =>
      obtain ⟨⟨sign, operand, hsegment, hsign, huncut⟩, hrest⟩ := List.forall_mem_cons.1 hothers
      obtain ⟨links, rfl, hlinks⟩ := ih hrest
      subst hsegment
      exact ⟨(sign, operand) :: links, rfl, List.forall_mem_cons.2 ⟨⟨hsign, huncut⟩, hlinks⟩⟩
  obtain ⟨links, rfl, hlinks⟩ := hlinks
  refine ⟨first, links, rfl, ?_, hfirst, hlinks⟩
  rw [List.flatten_cons, chainText, List.flatMap_def]

/-! ### Parentheses around a text

Whether the first parenthesis of a text is closed by its last character. The reader finds out by
counting, in `enclosed?`, and stops at the parenthesis that closes the first one. -/

/-- A parenthesis that opens is one more to be closed. -/
theorem enclosed?_open (level : Nat) (rest : Text) :
    enclosed? level ('(' :: rest) = (enclosed? (level + 1) rest).map ('(' :: ·) := by
  simp [enclosed?]

/-- A parenthesis that closes another one than the first. -/
theorem enclosed?_close (level : Nat) (rest : Text) :
    enclosed? (level + 1) (')' :: rest) = (enclosed? level rest).map (')' :: ·) := by
  simp [enclosed?]

/-- The parenthesis that closes the first one has to be the last character. -/
theorem enclosed?_last (rest : Text) :
    enclosed? 0 (')' :: rest) = if rest.isEmpty then some [] else none := by
  simp [enclosed?]

/-- Any other character is passed over. -/
theorem enclosed?_other {c : Char} (hopen : c ≠ '(') (hclose : c ≠ ')') (level : Nat)
    (rest : Text) : enclosed? level (c :: rest) = (enclosed? level rest).map (c :: ·) := by
  simp [enclosed?, hopen, hclose]

/-- A text that closes no more than is open is passed over as a whole. -/
theorem enclosed?_append {level after : Nat} {a : Text} (h : nest level a = some after) (b : Text) :
    enclosed? level (a ++ b) = (enclosed? after b).map (a ++ ·) := by
  induction a generalizing level with
  | nil =>
    cases h
    simp
  | cons c a ih =>
    rw [List.cons_append]
    by_cases hopen : c = '('
    · subst hopen
      rw [enclosed?_open, ih (by simpa [nest] using h)]
      simp [Function.comp_def]
    · by_cases hclose : c = ')'
      · subst hclose
        cases level with
        | zero => simp [nest] at h
        | succ level =>
          rw [enclosed?_close, ih (by simpa [nest] using h)]
          simp [Function.comp_def]
      · rw [enclosed?_other hopen hclose, ih (by simpa [nest, hopen, hclose] using h)]
        simp [Function.comp_def]

/-- What is found in front of the closing parenthesis is the rest of the text, and it has no
mark. -/
theorem of_enclosed?_eq_some {level : Nat} {text inside : Text}
    (h : enclosed? level text = some inside) (previous : Option Char) :
    text = inside ++ [')'] ∧ outside (level + 1) previous text = [] := by
  induction text generalizing level inside previous with
  | nil => cases h
  | cons c text ih =>
    rw [outside, if_neg (by omega), levelAfter]
    by_cases hopen : c = '('
    · subst hopen
      rw [enclosed?_open, Option.map_eq_some_iff] at h
      obtain ⟨inside, hinside, rfl⟩ := h
      obtain ⟨rfl, hmarks⟩ := ih hinside (some '(')
      exact ⟨rfl, hmarks⟩
    rw [if_neg hopen]
    by_cases hclose : c = ')'
    · subst hclose
      rw [if_pos rfl]
      -- this closes the first parenthesis, or one within it
      cases level with
      | zero =>
        rw [enclosed?_last] at h
        split at h
        · rename_i hempty
          cases h
          rw [List.isEmpty_iff.1 hempty]
          exact ⟨rfl, rfl⟩
        · cases h
      | succ level =>
        rw [enclosed?_close, Option.map_eq_some_iff] at h
        obtain ⟨inside, hinside, rfl⟩ := h
        obtain ⟨rfl, hmarks⟩ := ih hinside (some ')')
        rw [show ((level + 1 : Nat) : Int) + 1 - 1 = level + 1 by omega]
        exact ⟨rfl, hmarks⟩
    · rw [if_neg hclose]
      rw [enclosed?_other hopen hclose, Option.map_eq_some_iff] at h
      obtain ⟨inside, hinside, rfl⟩ := h
      obtain ⟨rfl, hmarks⟩ := ih hinside (some c)
      exact ⟨rfl, hmarks⟩

/-- Parentheses around a balanced text are taken off. -/
theorem stripParentheses_parenthesized {text : Text} (h : IsBalanced text) :
    stripParentheses ('(' :: (text ++ [')'])) = text := by
  simp [stripParentheses, enclosed?_append h, enclosed?]

/-- A text is stripped only of a pair of parentheses around all of it, and then it has no mark but
the first of the two. -/
theorem of_stripParentheses_ne {text : Text} (h : stripParentheses text ≠ text) :
    text = '(' :: (stripParentheses text ++ [')']) ∧ outside 0 none text = [(none, '(')] := by
  unfold stripParentheses at h ⊢
  split
  · rename_i rest
    cases hinside : enclosed? 0 rest with
    | none => simp [hinside] at h
    | some inside =>
      obtain ⟨hrest, hmarks⟩ := of_enclosed?_eq_some hinside (some '(')
      refine ⟨congrArg _ hrest, ?_⟩
      rw [outside, if_pos rfl, levelAfter, if_pos rfl]
      exact congrArg _ hmarks
  · rename_i hopen
    split at h
    · exact absurd rfl (hopen _)
    · exact absurd rfl h

/-- A text that has a family is not stripped. -/
theorem stripParentheses_of_classify {text : Text} {family : Family}
    (h : classify text = some family) : stripParentheses text = text := by
  refine Decidable.byContradiction fun hne ↦ ?_
  have hnone : classify text = none := by
    rw [classify_eq, (of_stripParentheses_ne hne).2]
    rfl
  rw [hnone] at h
  cases h

/-! ### Texts without structure

What scanning does to a text in which there is nothing to cut. -/

/-- A text that is not cut is one segment. -/
theorem segments_of_isUncut {family : Family} {text : Text} (h : IsUncut family 0 none text) :
    segments family text = [text] := by
  have hfrom := segmentsFrom_append h []
  rw [List.append_nil] at hfrom
  rw [segments, hfrom, segmentsFrom, List.append_nil]

/-- A text without operators is not cut. -/
theorem isUncut_of_not_isOperator {family : Family} {level : Int} {previous : Option Char}
    {text : Text} (h : ∀ c ∈ text, isOperator c = false) : IsUncut family level previous text := by
  intro mark hmem
  refine Bool.eq_false_iff.2 fun hcuts ↦ ?_
  obtain ⟨-, sign, -, hsign⟩ := Family.exists_sign_of_cutsBefore hcuts
  have hoperator := h mark.2 (mem_of_mem_outside hmem)
  rw [hsign] at hoperator
  cases sign <;> cases hoperator

/-- A text without operators has no family. -/
theorem classify_of_not_isOperator {text : Text} (h : ∀ c ∈ text, isOperator c = false) :
    classify text = none := by
  have hne : ∀ mark ∈ outside 0 none text, ∀ sign : Sign, mark.2 ≠ sign.symbol := by
    intro mark hmem sign hsign
    have hoperator := h mark.2 (mem_of_mem_outside hmem)
    rw [hsign] at hoperator
    cases sign <;> cases hoperator
  refine classify_eq_none_iff.2 ⟨fun mark hmem ↦ ?_, fun mark hmem ↦ hne mark hmem .times,
    fun mark hmem ↦ hne mark hmem .divide⟩
  have hplus : (mark.2 == '+') = false := beq_false_of_ne (hne mark hmem .plus)
  have hminus : (mark.2 == '-') = false := beq_false_of_ne (hne mark hmem .minus)
  rw [isBinarySign, hplus, hminus]
  rfl

/-- Behind a character each mark has a character before it. -/
theorem isSome_of_mem_outside {level : Int} {c : Char} {text : Text} {mark : Option Char × Char}
    (h : mark ∈ outside level (some c) text) : mark.1.isSome = true := by
  induction text generalizing level c with
  | nil => cases h
  | cons d text ih =>
    rw [outside] at h
    split at h
    · rcases List.mem_cons.1 h with rfl | h
      · rfl
      · exact ih h
    · exact ih h

/-- A minus is taken off in front exactly if no operator follows it. -/
theorem negated?_eq_some_iff {text operand : Text} :
    negated? text = some operand ↔
      text = '-' :: operand ∧ ∀ c ∈ operand, isOperator c = false := by
  unfold negated?
  split
  · rename_i rest
    split
    · rename_i hany
      simp only [reduceCtorEq, List.cons.injEq, true_and, false_iff, not_and]
      rintro rfl hall
      obtain ⟨c, hmem, hc⟩ := List.any_eq_true.1 hany
      rw [hall c hmem] at hc
      cases hc
    · rename_i hany
      simp only [Option.some.injEq, List.cons.injEq, true_and]
      refine ⟨?_, fun h ↦ h.1⟩
      rintro rfl
      exact ⟨rfl, fun c hmem ↦ by simpa using fun hc ↦ hany (List.any_eq_true.2 ⟨c, hmem, hc⟩)⟩
  · rename_i hminus
    simp only [reduceCtorEq, false_iff, not_and]
    exact fun h ↦ absurd h (hminus _)

end EquationSteps
