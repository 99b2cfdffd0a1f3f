import EquationSteps.Proofs.Canonical.Rewriting
import EquationSteps.Proofs.Reading.Letters

/-!
# Normalization and symbols

The leaves of a tree that are no decimal literals are its symbols: the letters, and whatever the
reader could make no sense of. Which numbers stand in a tree changes when it is normalized, but its
symbols do not (`Node.symbols_normalize`), neither in number nor in order, if only the oracle
answers for a literal with numbers (`Node.IsNumeric`). The operands that the rules drop are numbers:
a term `0` is a leaf, and an operand that is printed as `1` has nothing in it but this number
(`Node.symbols_of_contentText`).

So normalization keeps the letters of a tree, and it cannot turn an invalid tree into a valid one
(`Node.letters_normalize`, `Node.isValid_normalize`). Nothing is assumed of the tree for this, so it
holds of what is read from a malformed text as well (`Node.symbols_kept_of_read`).

**Why malformed texts matter.** A text is checked after it was read, and some checks look at a side
that was normalized. If a rule could drop a leaf that is not a number, a defect would be gone by the
time at which it is looked for; if one could make a leaf, a valid text might be refused.

**The text of an operand is enough.** An operand is dropped from a product if the whole of it prints
as `1`. That it is a single number cannot be read off its shape, as nothing is known of the shape.
But each leaf contributes its text to what is printed, operators and parentheses are structural
characters, and `1` is not, so a tree that prints as `1` has one leaf with that text, within however
many groups of a single operand.
-/

namespace EquationSteps.Node

variable {rationalize : Text → Except ValueError Text} {node node' : Node}

mutual

/-- The texts in the leaves of a tree that are no decimal literals, in order. -/
def symbols : Node → List Text
  | .atom _ text => if Numeral.isDecimal text then [] else [text]
  | .group _ children => symbolsOfAll children

/-- `symbols` on a list of nodes. -/
def symbolsOfAll : List Node → List Text
  | [] => []
  | node :: nodes => symbols node ++ symbolsOfAll nodes

end

/-- The symbols of a group are those of its operands, in order. -/
theorem symbols_group (tag : Tag) (children : List Node) :
    (group tag children).symbols = children.flatMap symbols := by
  rw [symbols]
  induction children with
  | nil => rfl
  | cons child children ih => rw [symbolsOfAll, ih, List.flatMap_cons]

/-- Decimal literals are no symbols. -/
theorem symbols_atom_of_isDecimal {text : Text} (h : Numeral.isDecimal text = true) (tag : Tag) :
    (atom tag text).symbols = [] := by
  rw [symbols, if_pos h]

/-- A content has the same symbols behind any tag. -/
theorem symbols_ofContent (tag : Tag) (node : Node) :
    (ofContent tag node.content).symbols = node.symbols := by
  cases node <;> rfl

/-- The symbols of a node are in its content. -/
theorem symbols_withContent (content : Content) (node : Node) :
    (node.withContent content).symbols = (fresh .plus content).symbols := by
  rw [← symbols_ofContent (.fresh .plus) (node.withContent content), content_withContent, fresh]

/-- Tags have no part in them. -/
theorem symbols_mapTag (f : Tag → Tag) (node : Node) : (node.mapTag f).symbols = node.symbols := by
  cases node <;> rfl

/-- A node that is not a leaf has the symbols of its operands. -/
theorem symbols_children (h : node.atomText? = none) :
    node.children.flatMap symbols = node.symbols := by
  cases node with
  | atom tag text => cases h
  | group tag children => exact (symbols_group tag children).symm

/-- A node with a family is a group. -/
theorem atomText?_of_family? {family : Family} (h : node.family? = some family) :
    node.atomText? = none := by
  cases node with
  | atom tag text => cases h
  | group tag children => rfl

/-! ### What symbols tell

Validity and letters are read off the leaves that are no numbers. -/

/-- A tree is valid exactly if all of its symbols are letters. -/
theorem isValid_iff_symbols :
    node.isValid = true ↔ ∀ text ∈ node.symbols, Text.isVariable text = true := by
  induction node using Node.induction with
  | atom tag text =>
    rw [isValid, isOperandText, symbols]
    cases Numeral.isDecimal text <;> simp
  | group tag children ih =>
    rw [isValid, areValid_eq_all, List.all_eq_true, symbols_group, List.forall_mem_flatMap]
    exact forall₂_congr ih

/-- The letters of a tree are those of its symbols. -/
theorem letters_eq_flatMap_symbols (node : Node) :
    node.letters = node.symbols.flatMap Text.letters := by
  induction node using Node.induction with
  | atom tag text =>
    rw [symbols]
    split
    · rename_i hdecimal
      exact Text.letters_of_isDecimal hdecimal
    · exact (List.append_nil _).symm
  | group tag children ih =>
    rw [letters_group, symbols_group, List.flatMap_assoc]
    exact List.flatMap_congr ih

/-! ### What is dropped

Zeros, ones and groups that are dissolved. -/

/-- The leaf `0` is a number. -/
theorem symbols_of_isZeroAtom (h : node.isZeroAtom = true) : node.symbols = [] := by
  cases node with
  | atom tag text =>
    obtain rfl : text = ['0'] := Option.some.inj (beq_iff_eq.1 h)
    rfl
  | group tag children => cases h

/-- A tree that is printed as one operand has no other leaf. -/
theorem symbols_of_contentText (hne : node.contentText ≠ [])
    (hleaf : ∀ c ∈ node.contentText, isStructural c = false) :
    node.symbols = (atom node.tag node.contentText).symbols := by
  induction node using Node.induction with
  | atom tag text => rfl
  | group tag children ih =>
    rw [contentText] at hne hleaf ⊢
    split at hleaf
    · cases hleaf '(' List.mem_cons_self
    · rename_i hopen
      rw [if_neg hopen] at hne ⊢
      cases children with
      | nil => exact absurd rfl hne
      | cons only others =>
        rw [linksText] at hne hleaf ⊢
        have hsymbol : ∀ {sign : Sign}, isStructural sign.symbol = true := fun {sign} ↦
          isStructural_iff.2 (Or.inl ⟨sign, rfl⟩)
        obtain ⟨hfirst, hothers⟩ := List.forall_mem_append.1 hleaf
        obtain ⟨hsign, honly⟩ := List.forall_mem_append.1 hfirst
        -- any other operand shows its sign, and so does the first one if that is a minus
        have hnone : linkSign true only.sign = [] := by
          rw [linkSign] at hsign ⊢
          split
          · rfl
          · rename_i hminus
            rw [if_neg hminus] at hsign
            cases hsymbol.symm.trans (hsign _ List.mem_cons_self)
        cases others with
        | cons other others =>
          cases hsymbol.symm.trans (hothers other.sign.symbol (by simp [linksText, linkSign]))
        | nil =>
          rw [hnone, List.nil_append, linksText, List.append_nil] at hne ⊢
          rw [symbols_group, List.flatMap_singleton, ih only List.mem_cons_self hne honly]
          rfl

/-- What prints as `1` has no symbols. -/
theorem symbols_of_toText_eq_one (h : node.toText = ['1']) : node.symbols = [] := by
  have hcontent : node.contentText = ['1'] := by
    rw [toText, linkSign] at h
    split at h
    · exact h
    · have hsymbol := (List.cons.inj h).1
      cases hsign : node.sign <;> rw [hsign] at hsymbol <;> cases hsymbol
  have hne : node.contentText ≠ [] := by
    rw [hcontent]
    exact List.cons_ne_nil _ _
  have hleaf : ∀ c ∈ node.contentText, isStructural c = false := by
    rw [hcontent]
    exact List.forall_mem_singleton.2 rfl
  rw [symbols_of_contentText hne hleaf, hcontent]
  exact symbols_atom_of_isDecimal rfl _

/-- What is not dropped has all the symbols. -/
theorem symbols_filter {nodes : List Node} {keep : Node → Bool}
    (hdropped : ∀ node ∈ nodes, keep node = false → node.symbols = []) :
    (nodes.filter keep).flatMap symbols = nodes.flatMap symbols := by
  induction nodes with
  | nil => rfl
  | cons node nodes ih =>
    obtain ⟨hnode, hnodes⟩ := List.forall_mem_cons.1 hdropped
    cases hkeep : keep node with
    | true => rw [List.filter_cons_of_pos hkeep, List.flatMap_cons, List.flatMap_cons, ih hnodes]
    | false =>
      rw [List.filter_cons_of_neg (Bool.eq_false_iff.1 hkeep), ih hnodes,
        List.flatMap_cons, hnode hkeep, List.nil_append]

/-- What an operand leaves once it is examined has all of its symbols. -/
theorem symbols_settled (family : Option Family) (child : Node) :
    (settled family child).flatMap symbols = child.symbols := by
  unfold settled
  split
  · have hexamined : (child.withPending false).symbols = child.symbols := symbols_mapTag _ _
    rw [← hexamined]
    generalize child.withPending false = examined
    have hchildren : ∀ {family : Family}, examined.family? = some family →
        examined.children.flatMap symbols = examined.symbols := fun hfamily ↦
      symbols_children (atomText?_of_family? hfamily)
    have hflipped : (examined.children.map flipSign).flatMap symbols =
        examined.children.flatMap symbols := by
      rw [List.flatMap_map]
      exact List.flatMap_congr fun operand _ ↦ symbols_mapTag _ operand
    dsimp only
    split
    · rename_i hzero
      exact (symbols_of_isZeroAtom hzero).symm
    · split
      · rename_i hsum
        split
        · exact hflipped.trans (hchildren hsum.2.1)
        · exact hchildren hsum.2.1
      · split
        · rename_i hproduct
          exact hchildren hproduct.2.1
        · exact List.flatMap_singleton _ _
  · exact List.flatMap_singleton _ _

/-! ### The rules

Each rule by its cases; only the rule for numbers asks anything of the oracle. -/

/-- An oracle answers for decimal literals with numbers only: no symbol is in what is read from its
answers. This is all that is asked of an oracle in this module. -/
def IsNumeric (rationalize : Text → Except ValueError Text) : Prop :=
  ∀ literal content, fraction? rationalize literal = some content →
    (fresh .plus content).symbols = []

/-- The exact fraction of a literal is an integer, or a quotient of two. -/
theorem isNumeric_exactFraction : IsNumeric Oracle.exactFraction := by
  intro literal content h
  obtain ⟨q, -, hfresh⟩ := exists_ofFraction h
  have hdigits : ∀ sign n, (leaf sign (Numeral.digits n)).symbols = [] := fun sign n ↦
    symbols_atom_of_isDecimal (Numeral.isDecimal_of_isInteger (Numeral.isInteger_digits n)) _
  rw [hfresh]
  unfold ofFraction
  split
  · exact hdigits _ _
  · rw [branch, symbols_group, List.flatMap_cons, List.flatMap_singleton, hdigits, hdigits]
    rfl

/-- Pruning a group drops no symbols, if what is dropped has none. -/
theorem symbols_pruneBy {keep : Node → Bool} {identity : Text}
    (hdropped : ∀ child ∈ node.children, keep child = false → child.symbols = [])
    (hgroup : node.atomText? = none) (hidentity : Numeral.isDecimal identity = true)
    (h : node.pruneBy keep identity = .changed node' ∨
      node.pruneBy keep identity = .emptiedRoot node') :
    node'.symbols = node.symbols := by
  have hkept := (symbols_filter hdropped).trans (symbols_children hgroup)
  rcases h with h | h
  · rcases of_pruneBy_eq_changed h with ⟨-, hempty, rfl⟩ | ⟨-, rfl⟩
    · rw [hempty] at hkept
      rw [symbols_withContent, ← hkept]
      exact symbols_atom_of_isDecimal hidentity _
    · rw [symbols_withContent, ← hkept]
      exact symbols_group _ _
  · obtain ⟨-, hempty, rfl⟩ := of_pruneBy_eq_emptiedRoot h
    rw [hempty] at hkept
    rw [symbols_withContent, ← hkept]
    rfl

/-- Neither ones nor zeros have symbols. -/
theorem symbols_prune (h : node.prune = .changed node' ∨ node.prune = .emptiedRoot node') :
    node'.symbols = node.symbols := by
  rcases prune_cases node with hnone | ⟨hfamily, hprune⟩ | ⟨hfamily, hprune⟩
  · rw [hnone] at h
    rcases h with h | h <;> cases h
  · refine symbols_pruneBy (fun child _ hdropped ↦ symbols_of_toText_eq_one ?_)
      (atomText?_of_family? hfamily) rfl
      (hprune ▸ h)
    simpa using hdropped
  · refine symbols_pruneBy (fun child _ hdropped ↦ symbols_of_isZeroAtom ?_)
      (atomText?_of_family? hfamily) rfl
      (hprune ▸ h)
    simpa using hdropped

/-- Examining operands drops zeros and dissolves groups. -/
theorem symbols_settle? (h : node.settle? = some node') : node'.symbols = node.symbols := by
  obtain ⟨tag, operands, rfl, -, hcases⟩ := of_settle? h
  have hsettled : (operands.flatMap (settled (group tag operands).family?)).flatMap Node.symbols =
      (group tag operands).symbols := by
    rw [List.flatMap_assoc, symbols_group]
    exact List.flatMap_congr fun child _ ↦ symbols_settled _ child
  rcases hcases with ⟨hempty, -, rfl⟩ | ⟨-, rfl⟩
  · rw [← hsettled, hempty]
    rfl
  · rw [← hsettled, symbols_group]

/-- A number is replaced by numbers. -/
theorem symbols_canonicalNumber? (hnumeric : IsNumeric rationalize)
    (h : node.canonicalNumber? rationalize = some node') : node'.symbols = node.symbols := by
  obtain ⟨tag, text, rfl, ⟨hinteger, -, rfl⟩ | ⟨-, hdecimal, content, hcontent, rfl⟩⟩ :=
    of_canonicalNumber? h
  · rw [symbols_atom_of_isDecimal (Numeral.isDecimal_of_isInteger hinteger),
      symbols_atom_of_isDecimal
        (Numeral.isDecimal_of_isInteger (Numeral.isInteger_canonicalInteger hinteger))]
  · rw [symbols_atom_of_isDecimal hdecimal, ← hnumeric text content hcontent, fresh]
    cases content <;> rfl

/-- **No rule drops or adds a symbol.** -/
theorem Fires.symbols (hnumeric : IsNumeric rationalize) (h : Fires rationalize node node') :
    node'.symbols = node.symbols := by
  cases h with
  | fillRoot h =>
    obtain ⟨tag, rfl, -, rfl⟩ := of_fillRoot? h
    rfl
  | wrapRoot h =>
    obtain ⟨tag, text, rfl, -, rfl⟩ := of_wrapRoot? h
    rw [symbols_group, List.flatMap_singleton]
    rfl
  | settle h => exact symbols_settle? h
  | canonicalNumber h => exact symbols_canonicalNumber? hnumeric h
  | regroup h =>
    obtain ⟨tag, first, middle, last, rfl, -, -, rfl⟩ := of_regroup? h
    rw [symbols_group, symbols_group, List.flatMap_cons, List.flatMap_singleton, branch,
      symbols_group, ← List.cons_append, List.flatMap_append, List.flatMap_singleton]
  | collapse h =>
    rcases of_collapse? h with ⟨-, hlift⟩ | ⟨tag, only, rfl, -, hcases⟩
    · obtain ⟨tag, onlyTag, terms, rfl, -, -, rfl⟩ := of_lift? hlift
      rw [symbols_group, symbols_group, List.flatMap_singleton, symbols_group]
    · rw [symbols_group, List.flatMap_singleton]
      rcases hcases with ⟨-, -, rfl⟩ | ⟨-, rfl⟩ <;> exact symbols_ofContent _ only
  | prune h => exact symbols_prune (Or.inl h)
  | emptyRoot h => exact symbols_prune (Or.inr h)

/-! ### Normalization

By the induction along the rules: a group has the symbols of its operands in order, so rewriting one
of them in its place changes nothing for the others. -/

section Normalize

variable (hnumeric : IsNumeric rationalize) (limits : Limits) (node : Node)

include hnumeric

/-- **Normalization keeps the symbols of a tree**, whatever the tree looks like. -/
theorem symbols_normalize : (node.normalize rationalize limits).2.symbols = node.symbols :=
  normalize_induction (motive := fun node node' ↦ node'.symbols = node.symbols) (fun _ ↦ rfl)
    (fun hab hbc ↦ hbc.trans hab) (fun h ↦ h.symbols hnumeric)
    (fun tag before after h ↦ by
      rw [symbols_group, symbols_group, List.flatMap_append, List.flatMap_cons, h,
        List.flatMap_append, List.flatMap_cons]) limits node

/-- Normalization keeps the letters of a tree. -/
theorem letters_normalize : (node.normalize rationalize limits).2.letters = node.letters := by
  rw [letters_eq_flatMap_symbols, symbols_normalize hnumeric, ← letters_eq_flatMap_symbols]

/-- Normalization makes no invalid tree valid, and no valid tree invalid. -/
theorem isValid_normalize : (node.normalize rationalize limits).2.isValid = node.isValid := by
  rw [Bool.eq_iff_iff, isValid_iff_symbols, isValid_iff_symbols, symbols_normalize hnumeric]

end Normalize

/-- **Normalization neither hides nor introduces defects**, whichever text a tree was read from. The
leaves that are no numbers stay the same ones in the same order; so the tree stays valid or stays
invalid, and it keeps its variables, which are the distinct letters of the text. -/
theorem symbols_kept_of_read {limits limits' : Limits} {text : Text} {root : Bool} {passes : Nat}
    (hread : Node.read limits text root = .ok node)
    (h : node.normalize Oracle.exactFraction limits' = (.ok passes, node')) :
    node'.symbols = node.symbols ∧ node'.isValid = node.isValid ∧
      node'.variableNames = node.variableNames ∧
        node.variableNames = (Text.letters text).eraseDups := by
  obtain rfl : (node.normalize Oracle.exactFraction limits').2 = node' := congrArg Prod.snd h
  refine ⟨symbols_normalize isNumeric_exactFraction limits' node,
    isValid_normalize isNumeric_exactFraction limits' node, ?_, ?_⟩
  · rw [variableNames, letters_normalize isNumeric_exactFraction, ← variableNames]
  · rw [variableNames, letters_of_read hread]

/-- A factor `1` and a term `0` are dropped around the bad leaf `?`, and the group closes up around
it. The tree stays invalid, with the variables `y` and `x`. -/
theorem symbols_kept_of_read_badFactor : ∃ node passes node',
    Node.read .standard "1*(y*?)+0-x".toList true = .ok node ∧
      node.normalize Oracle.exactFraction .standard = (.ok passes, node') ∧
        node'.toText = "y*?-x".toList ∧ node'.isValid = false ∧
          node'.variableNames = ['y', 'x'] := by
  have hfacts : ((Node.read .standard "1*(y*?)+0-x".toList true).toOption.map fun node ↦ decide
      (node.isValid = false ∧
        (node.normalize Oracle.exactFraction .standard).2.toText = "y*?-x".toList ∧
          ((node.normalize Oracle.exactFraction .standard).1.toOption.map fun passes ↦
            decide (passes = 2)) = some true)) = some true := by
    decide +kernel
  obtain ⟨node, hread, hinvalid, htext, hsettled⟩ := Except.exists_ok_of_toOption hfacts
  obtain ⟨passes, hpasses, -⟩ := Except.exists_ok_of_toOption hsettled
  obtain ⟨-, hvalid, hnames, hletters⟩ := symbols_kept_of_read hread (Prod.ext hpasses rfl)
  exact ⟨node, passes, _, hread, Prod.ext hpasses rfl, htext, hvalid.trans hinvalid,
    (hnames.trans hletters).trans (by decide +kernel)⟩

end EquationSteps.Node
