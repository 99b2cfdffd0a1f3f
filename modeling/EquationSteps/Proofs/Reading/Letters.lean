import EquationSteps.Proofs.Reading.Juxtaposition
import EquationSteps.Proofs.Reading.Root

/-!
# The letters of a text

Reading drops blanks, operators and parentheses, and it writes out products, but it neither drops a
letter nor adds one: whatever the text, the letters in the leaves of the tree are those of the text,
in their order (`Node.letters_of_read`), and so are those of the text that is printed for the tree
(`Node.letters_toText`). So which variables a text has can be seen in either.

**Whatever the text** means that it need not be an expression, and that its parentheses need not
match. A leaf may hold any text that the reader could not cut, and its letters are counted as they
are. This is why the letters are the thing to look at: the operands of such a text are not defined,
but its letters are.

**How the proofs go.** The letters of a text are a filter, so they are those of its parts one after
the other. What the reader takes off a text has no letters in it: the sign of a segment, a minus in
front, a pair of parentheses. Each step of reading therefore keeps them, and the result is an
induction over `Reads`. Printing puts in signs and parentheses and nothing else.

The letters are what a tree keeps of its text in any case. What it keeps of the structure depends on
whether the text is generated; the root of a text is made of valid leaves only if it is, or if the
text has nothing in it (`ReadsRoot.generates`).
-/

namespace EquationSteps

/-- The letters of a text, in order and with repetitions. -/
def Text.letters (text : Text) : Text :=
  text.filter Char.isAlpha

namespace Text

/-- The letters of a text that is put together are those of its parts. -/
@[simp] theorem letters_append (a b : Text) : letters (a ++ b) = letters a ++ letters b :=
  List.filter_append _ _

/-- A character that is no letter adds nothing. -/
theorem letters_cons_of_not_isAlpha {c : Char} (h : c.isAlpha = false) (text : Text) :
    letters (c :: text) = letters text :=
  List.filter_cons_of_neg (Bool.eq_false_iff.1 h)

/-- A text has no letters exactly if none of its characters is one. -/
theorem letters_eq_nil_iff {text : Text} : letters text = [] ↔ ∀ c ∈ text, c.isAlpha = false := by
  simp [letters, List.filter_eq_nil_iff]

/-- A number has no letters. -/
theorem letters_of_isDecimal {text : Text} (h : Numeral.isDecimal text = true) :
    letters text = [] := by
  unfold Numeral.isDecimal at h
  obtain ⟨⟨hall, -⟩, -⟩ := by simpa only [Bool.and_eq_true] using h
  refine letters_eq_nil_iff.2 fun c hmem ↦ ?_
  rcases Bool.or_eq_true_iff.1 (List.all_eq_true.1 hall c hmem) with hdigit | hpoint
  · exact isAlpha_of_isDigit hdigit
  · rw [beq_iff_eq.1 hpoint]
    rfl

/-! ### Scanning -/

/-- A blank is no letter. -/
theorem isAlpha_of_isBlank {c : Char} (h : EquationSteps.isBlank c = true) : c.isAlpha = false := by
  refine Bool.eq_false_iff.2 fun halpha ↦ ?_
  have hkept := isBlank_of_isAlphanum (Bool.or_eq_true_iff.2 (Or.inl halpha))
  rw [h] at hkept
  cases hkept

/-- Dropping the blanks drops no letters. -/
theorem letters_withoutBlanks (text : Text) : letters text.withoutBlanks = letters text := by
  rw [letters, withoutBlanks, List.filter_filter]
  refine List.filter_congr fun c _ ↦ ?_
  cases hblank : EquationSteps.isBlank c with
  | false => simp
  | true => simp [isAlpha_of_isBlank hblank]

/-- Putting in one `*` adds no letter, and by induction no number of them does. -/
theorem letters_of_writesProduct {text next : Text} (h : WritesProduct text next) :
    letters next = letters text := by
  cases h with
  | @between before c d after h =>
    have htimes : '*'.isAlpha = false := rfl
    simp [letters, List.filter_cons, htimes]

/-- Writing out products keeps the letters. -/
theorem letters_explicitProducts (text : Text) : letters (explicitProducts text) = letters text :=
  explicitProducts_induction (motive := fun text result ↦ letters result = letters text)
    (fun _ ↦ rfl) (fun hfirst hrest ↦ hrest.trans hfirst) letters_of_writesProduct text

/-- Scanning keeps the letters. -/
theorem letters_scanned (text : Text) : letters text.scanned = letters text := by
  rw [scanned, letters_explicitProducts, letters_withoutBlanks]

/-! ### Taking a text apart

None of the three things that the reader takes off a text has a letter in it. -/

/-- A sign is no letter. -/
theorem letters_symbol_cons (sign : Sign) (text : Text) :
    letters (sign.symbol :: text) = letters text := by
  refine letters_cons_of_not_isAlpha ?_ text
  cases sign <;> decide

/-- Nor are parentheses. -/
theorem letters_stripParentheses (text : Text) :
    letters (stripParentheses text) = letters text := by
  by_cases hne : stripParentheses text = text
  · rw [hne]
  · rw [congrArg letters (of_stripParentheses_ne hne).1, letters_cons_of_not_isAlpha (by decide),
      letters_append, letters_cons_of_not_isAlpha (by decide)]
    exact (List.append_nil _).symm

/-- A minus that is taken off is no letter. -/
theorem letters_of_negated? {text operand : Text} (h : negated? text = some operand) :
    letters operand = letters text := by
  rw [(negated?_eq_some_iff.1 h).1, letters_cons_of_not_isAlpha (by decide)]

/-- The operand of a segment has the letters of the segment. -/
theorem letters_signedOperand (family : Family) (segment : Text) :
    letters (family.signedOperand segment).2 = letters segment := by
  rcases signedOperand_cases family segment with ⟨hfull, -⟩ | ⟨sign, hsign⟩
  · rw [hfull]
  · rw [congrArg letters hsign, letters_symbol_cons]

end Text

/-! ### Reading -/

namespace Node

/-- The letters of a group are those of its operands, one after the other. -/
@[simp] theorem letters_group (tag : Tag) (children : List Node) :
    (group tag children).letters = children.flatMap letters := by
  rw [letters, lettersOfAll_eq_flatMap]

/-- The letters are part of the content of a node. -/
@[simp] theorem letters_ofContent (tag : Tag) (node : Node) :
    (ofContent tag node.content).letters = node.letters := by
  cases node <;> rfl

/-- Tags have no letters. -/
theorem letters_mapTag (f : Tag → Tag) (node : Node) : (node.mapTag f).letters = node.letters := by
  cases node <;> rfl

end Node

variable {text : Text} {node : Node}

/-- The operands of a text have the letters of the text. -/
theorem letters_of_segments {family : Family} {parts : List (Text × Node)}
    (hsegments : segments family text = parts.map Prod.fst)
    (hparts : ∀ part ∈ parts, part.2.letters = Text.letters (family.signedOperand part.1).2) :
    (parts.map Prod.snd).flatMap Node.letters = Text.letters text := by
  have hletters : ∀ part ∈ parts, part.2.letters = Text.letters part.1 := fun part hmem ↦
    (hparts part hmem).trans (Text.letters_signedOperand family part.1)
  rw [← flatten_segments family text, hsegments]
  clear hsegments hparts
  induction parts with
  | nil => rfl
  | cons part parts ih =>
    obtain ⟨hpart, hrest⟩ := List.forall_mem_cons.1 hletters
    rw [List.map_cons, List.flatMap_cons, hpart, ih hrest, List.map_cons, List.flatten_cons,
      Text.letters_append]

/-- What is read below a root has the letters of its text. -/
theorem Reads.letters {sign? : Option Sign} (h : Reads sign? text node) :
    node.letters = Text.letters text := by
  induction h with
  | leaf => rfl
  | negated hnegated _ ih =>
    rw [Node.fresh, Node.letters_ofContent, ih, Text.letters_of_negated? hnegated]
  | negatedBehind hnegated _ ih =>
    rw [Node.branch, Node.letters_group, List.flatMap_singleton, Node.fresh,
      Node.letters_ofContent, ih, Text.letters_of_negated? hnegated]
  | group _ _ hsegments _ ih =>
    rw [Node.branch, Node.letters_group, letters_of_segments hsegments ih,
      Text.letters_stripParentheses]
  | nested _ _ _ _ ih => rw [Node.fresh, Node.letters_ofContent, ih, Text.letters_stripParentheses]
  | operand => exact Text.letters_stripParentheses _

/-- What is read as a root has the letters of its text. -/
theorem ReadsRoot.letters (h : ReadsRoot text node) : node.letters = Text.letters text := by
  have hparts : ∀ {family : Family} {parts : List (Text × Node)},
      (∀ part ∈ parts, Reads (some (family.signedOperand part.1).1)
        (family.signedOperand part.1).2 part.2) →
      ∀ part ∈ parts, part.2.letters = Text.letters (family.signedOperand part.1).2 :=
    fun hparts part hmem ↦ (hparts part hmem).letters
  rw [← Text.letters_stripParentheses text]
  cases h with
  | negated hnegated hinner =>
    rw [Node.fresh, Node.letters_ofContent, hinner.letters, Text.letters_of_negated? hnegated,
      Text.letters_stripParentheses]
  | product _ _ hinner =>
    rw [Node.branch, Node.letters_group, List.flatMap_singleton, hinner.letters]
  | quotient _ _ hsegments hall =>
    rw [Node.branch, Node.letters_group, List.flatMap_singleton, Node.branch, Node.letters_group,
      letters_of_segments hsegments (hparts hall)]
  | sum _ _ hsegments hall =>
    rw [Node.branch, Node.letters_group, letters_of_segments hsegments (hparts hall)]
  | nested _ _ _ hinner => rw [Node.fresh, Node.letters_ofContent, hinner.letters]
  | empty _ hempty =>
    rw [hempty]
    rfl
  | operand => rw [Node.branch, Node.letters_group, List.flatMap_singleton]; rfl
  | leftover => rfl

/-- **The letters of a tree are those of the text that it is read from**, whatever the text. -/
theorem Node.letters_of_read {limits : Limits} {root : Bool}
    (h : Node.read limits text root = .ok node) :
    node.letters = Text.letters text := by
  obtain ⟨inner, rfl, hbuild⟩ := exists_of_read h
  rw [withRoot, letters_mapTag, ← Text.letters_scanned text]
  cases root with
  | false => exact (Reads.of_build hbuild).letters
  | true => exact (ReadsRoot.of_build hbuild).letters

/-! ### Printing -/

namespace Node

/-- The sign that is printed in front of an operand has no letters. -/
theorem letters_linkSign (first : Bool) (sign : Sign) :
    Text.letters (linkSign first sign) = [] := by
  rw [linkSign]
  split
  · rfl
  · exact Text.letters_symbol_cons sign []

/-- Printed operands have the letters of the operands. -/
theorem letters_linksText {nodes : List Node}
    (h : ∀ node ∈ nodes, Text.letters node.contentText = node.letters) (first : Bool) :
    Text.letters (linksText first nodes) = nodes.flatMap letters := by
  induction nodes generalizing first with
  | nil => rfl
  | cons node nodes ih =>
    obtain ⟨hnode, hnodes⟩ := List.forall_mem_cons.1 h
    rw [linksText, Text.letters_append, Text.letters_append, letters_linkSign, hnode, ih hnodes,
      List.flatMap_cons]
    rfl

/-- The text of a content has the letters of the content, with or without parentheses around it. -/
theorem letters_contentText (node : Node) : Text.letters node.contentText = node.letters := by
  induction node using Node.induction with
  | atom tag text => rfl
  | group tag children ih =>
    rw [contentText, letters_group]
    split
    · rw [List.cons_append, Text.letters_cons_of_not_isAlpha (by decide), Text.letters_append,
        letters_linksText ih, Text.letters_cons_of_not_isAlpha (by decide)]
      exact List.append_nil _
    · exact letters_linksText ih true

/-- **The letters of a tree are those of the text that is printed.** -/
theorem letters_toText (node : Node) : Text.letters node.toText = node.letters := by
  rw [toText, Text.letters_append, letters_linkSign, letters_contentText]
  rfl

end Node

/-! ### Valid roots

Below a root the text of a valid tree is generated. A root adds one case, the empty group that is
read from a text with nothing in it. -/

/-- **The text of a valid root** is generated, unless there is nothing in it. -/
theorem ReadsRoot.generates (h : ReadsRoot text node) (hvalid : node.isValid = true) :
    stripParentheses text = [] ∨ Generates true .sum text := by
  have hparts : ∀ {family : Family} {parts : List (Text × Node)},
      classify (stripParentheses text) = some family →
        segments family (stripParentheses text) = parts.map Prod.fst →
          (∀ part ∈ parts, Reads (some (family.signedOperand part.1).1)
            (family.signedOperand part.1).2 part.2) →
              (parts.map Prod.snd).all Node.isValid = true → Generates true .sum text := by
    intro family parts hfamily hsegments hall hvalid
    refine generates_of_stripParentheses (generates_of_segments hfamily fun segment hmem ↦ ?_)
    rw [hsegments] at hmem
    obtain ⟨part, hpart, rfl⟩ := List.mem_map.1 hmem
    exact (hall part hpart).generates (List.all_eq_true.1 hvalid part.2 (List.mem_map_of_mem hpart))
  cases h with
  | negated hnegated hinner =>
    rw [Node.fresh, Node.isValid_ofContent] at hvalid
    exact Or.inr ((hinner.generates hvalid).negation hnegated)
  | product _ _ hinner =>
    rw [Node.branch, Node.isValid, Node.areValid, Node.areValid, Bool.and_true] at hvalid
    exact Or.inr (generates_of_stripParentheses (hinner.generates hvalid))
  | quotient _ hfamily hsegments hall =>
    rw [Node.branch, Node.isValid, Node.areValid, Node.areValid, Bool.and_true, Node.branch,
      Node.isValid, Node.areValid_eq_all] at hvalid
    exact Or.inr (hparts hfamily hsegments hall hvalid)
  | sum _ hfamily hsegments hall =>
    rw [Node.branch, Node.isValid, Node.areValid_eq_all] at hvalid
    exact Or.inr (hparts hfamily hsegments hall hvalid)
  | nested _ _ _ hinner =>
    rw [Node.fresh, Node.isValid_ofContent] at hvalid
    exact Or.inr (generates_of_stripParentheses (hinner.generates hvalid))
  -- the one valid root that has no leaf
  | empty _ hempty => exact Or.inl hempty
  | operand =>
    rw [Node.branch, Node.isValid, Node.areValid, Node.areValid, Bool.and_true] at hvalid
    exact Or.inr (generates_of_stripParentheses (Generates.sum_of_factor (.operand hvalid)))
  | leftover =>
    exact Or.inr (generates_of_stripParentheses (Generates.sum_of_factor (.operand hvalid)))

end EquationSteps
