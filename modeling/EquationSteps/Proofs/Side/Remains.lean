import EquationSteps.Proofs.Canonical.Remains
import EquationSteps.Proofs.Equation.Admission
import EquationSteps.Proofs.Equation.Side
import EquationSteps.Proofs.Side.Identity
import EquationSteps.Proofs.Side.Parts

/-!
# What an operation leaves of a side

Whatever the answers to their questions are, right or wrong, multiplying and dividing leave the
shape of a side (`Node.remains_multiplyTerm`, `Node.remains_divideTerm`): a term stays a regular
tree behind a sign of its family, so the side is still shaped once all of its terms are changed, and
after normalization it is settled again (`remains_transformSide`).

**Shape and identities together.** `Node.Remains` says of what a node has become that it is as
regular as the node, has a sign of the same family, and no identities but the node's. The three go
together, because they are what allows one operand of a group to be exchanged for another, and an
operation does nothing but that, on one level or on two. What is said about identities alone is in
`Proofs.Side.Identity`, under weaker conditions, and is taken from there.

**What an operand has to be.** A copy of the operand stands next to parts of the term, so it has to
be a regular tree itself, without identities (`Node.IsAddition`). It is one if its text is an
expression and if the answers about literals are (`Operand.isReplacement_operand`).

**Whether an operation succeeds** is not the subject. If normalization does not come to an end
within the passes that it has, the side is left as it was then; that it does come to an end in time
is the subject of `Proofs.Canonical.Termination`.
-/

namespace EquationSteps

open Node

namespace Node

variable {node node' term term' numerator numerator' denominator denominator' factor : Node}
  {family : Family} {operand : Operand} {parts : List Node}

/-- Below a root the operands of a node may be exchanged for operands of one family. The new ones
have to be regular and to bring in no identity. -/
theorem Remains.of_parts (hregular : node.isRegular = true) (hne : parts ≠ [])
    (hparts : ∀ part ∈ parts, part.isRegular = true ∧ Family.ofSign part.sign = family)
    (hissued : (node.withContent (.group parts)).issued.Sublist node.issued) :
    node.Remains (node.withContent (.group parts)) :=
  .of_content (isRoot_of_isRegular hregular) (isRegular_group_iff.2 ⟨rfl, isChain_of_family hne
    fun part hmem ↦ (hparts part hmem).2, fun part hmem ↦ (hparts part hmem).1⟩) hissued

/-! ### Changing one part of a term

There is a lemma for each change of a part, and it asks for no more than that the part is
regular. -/

/-- What is made to stand next to the content of a node: a regular tree without identities. -/
structure IsAddition (sign : Sign) (node : Node) : Prop where
  /-- It has the shape of a tree below a root. -/
  regular : node.isRegular = true
  /-- Its sign is that of the operands that it stands next to. -/
  sign_eq : node.sign = sign
  /-- All of its nodes are new. -/
  issued_eq : node.issued = []

/-- A new leaf with a number. -/
theorem isAddition_digits (sign : Sign) (n : Nat) :
    (leaf sign (Numeral.digits n)).IsAddition sign :=
  ⟨isRegular_atom_iff.2 ⟨rfl, isOperandText_of_isInteger (Numeral.isInteger_digits n)⟩, rfl, rfl⟩

/-- The magnitude of an operand can stand next to the parts of a term, behind any sign. -/
theorem IsReplacement.isAddition (h : (operand.node .plus).IsReplacement) (sign : Sign) :
    (operand.node sign).IsAddition sign := by
  have hcontent : (operand.node .plus).content = operand.magnitude := content_ofContent _ _
  have hnode : operand.node sign = fresh sign (operand.node .plus).content := by rw [hcontent]; rfl
  rw [hnode]
  refine ⟨isRegular_ofContent rfl h.regular, ?_, ?_⟩
  · rw [fresh, Node.sign, tag_ofContent]
    rfl
  · rw [issued_fresh]
    exact issued_eq_nil_of_isNew (everyTag_ofContent rfl h.new)

/-- A factor is appended to a product, or makes one of any other part. -/
theorem remains_appendFactor (hregular : node.isRegular = true)
    (hfactor : factor.IsAddition .times) :
    node.Remains (node.appendFactor factor) := by
  have htimes : Family.ofSign factor.sign = .product := by rw [hfactor.sign_eq]; rfl
  have hissued := @issued_appendFactor_sublist node factor hfactor.issued_eq
  by_cases hproduct : node.family? = some .product
  · rw [appendFactor, if_pos hproduct, withChildren_of_family? hproduct] at hissued ⊢
    exact .of_parts hregular (List.append_ne_nil_of_right_ne_nil _ (List.cons_ne_nil _ _))
      (List.forall_mem_append.2 ⟨of_mem_children_of_isRegular hregular hproduct,
        List.forall_mem_singleton.2 ⟨hfactor.regular, htimes⟩⟩) hissued
  · rw [appendFactor, if_neg hproduct] at hissued ⊢
    refine .of_parts hregular (List.cons_ne_nil _ _) (List.forall_mem_cons.2
      ⟨⟨isRegular_ofContent rfl hregular, ?_⟩,
        List.forall_mem_singleton.2 ⟨hfactor.regular, htimes⟩⟩) hissued
    rw [fresh, Node.sign, tag_ofContent]
    rfl

/-- A number is appended, unless it is one. -/
theorem remains_appendNumber (hregular : node.isRegular = true) (n : Nat) :
    node.Remains (node.appendNumber n) := by
  unfold appendNumber
  split
  · exact .refl (isShaped_of_isRegular hregular)
  · exact remains_appendFactor hregular (isAddition_digits .times n)

/-- A part goes over a denominator. -/
theorem remains_intoQuotient (hregular : node.isRegular = true)
    (hdenominator : denominator.IsAddition .divide) :
    node.Remains (node.intoQuotient denominator) := by
  have hdivide : Family.ofSign denominator.sign = .quotient := by rw [hdenominator.sign_eq]; rfl
  refine .of_parts hregular (List.cons_ne_nil _ _) (List.forall_mem_cons.2
    ⟨⟨isRegular_ofContent rfl hregular, ?_⟩,
      List.forall_mem_singleton.2 ⟨hdenominator.regular, hdivide⟩⟩)
    (issued_intoQuotient_sublist hdenominator.issued_eq)
  rw [fresh, Node.sign, tag_ofContent]
  rfl

/-- A part that cancels becomes a leaf. -/
theorem remains_cancelled (hregular : node.isRegular = true) : node.Remains node.cancelled :=
  .of_atom (isRoot_of_isRegular hregular) rfl

/-- A group loses one of several operands. -/
theorem remains_eraseIdx (hregular : node.isRegular = true) (hfamily : node.family? = some family)
    {place : Nat} (hne : node.children.eraseIdx place ≠ []) :
    node.Remains (node.withChildren (node.children.eraseIdx place)) := by
  have hissued := issued_eraseIdx_sublist node place
  rw [withChildren_of_family? hfamily] at hissued ⊢
  exact .of_parts hregular hne (fun child hmem ↦
    of_mem_children_of_isRegular hregular hfamily child (List.mem_of_mem_eraseIdx hmem)) hissued

/-- A product loses a factor, or becomes a leaf if that was the only one. -/
theorem remains_withoutFactor (hregular : node.isRegular = true)
    (hproduct : node.family? = some .product) (place : Nat) :
    node.Remains (node.withoutFactor place) := by
  unfold withoutFactor
  dsimp only
  split
  · exact remains_cancelled hregular
  · rename_i hnonempty
    exact remains_eraseIdx hregular hproduct fun hnil ↦ hnonempty (List.isEmpty_iff.2 hnil)

/-- A sign that turns stays in its family. -/
theorem remains_applySign (cancellation : Cancellation) (hregular : term.isRegular = true) :
    term.Remains (cancellation.applySign term) := by
  cases cancellation with
  | equal => exact .refl (isShaped_of_isRegular hregular)
  | opposite => exact .flipSign (isRoot_of_isRegular hregular) (isShaped_of_isRegular hregular)

/-- A fraction gives way to one of its parts. -/
theorem remains_adoptNumerator (hregular : term.isRegular = true) (hmem : numerator ∈ term.children)
    (hnumerator : numerator.isRegular = true) : term.Remains (term.adoptNumerator numerator) := by
  have hroot := isRoot_of_isRegular hregular
  have htaken : term.Remains (term.withContent numerator.content) :=
    .of_content hroot (isRegular_ofContent rfl hnumerator) (issued_withContent_of_mem hmem)
  exact htaken.trans (.of_tag rfl rfl rfl (htaken.root.trans hroot) htaken.shaped)

/-! ### Common factors of integers -/

/-- A leaf with a number gets another number. -/
theorem remains_reduceAtom? {d rest : Nat} (hregular : node.isRegular = true)
    (h : node.reduceAtom? d = some (node', rest)) : node.Remains node' := by
  unfold reduceAtom? at h
  obtain ⟨n, hn, h⟩ := Option.bind_eq_some_iff.1 h
  obtain ⟨r, hr, h⟩ := Option.bind_eq_some_iff.1 h
  obtain ⟨-, hleft, -, -⟩ := of_reduction hr
  cases h
  have htext := @Numeral.integerText_of_nonneg r.left (by omega)
  refine .of_atom (isRoot_of_isRegular hregular) ?_
  rw [htext]
  exact isOperandText_of_isInteger (Numeral.isInteger_digits _)

/-- One of several factors gets another number. -/
theorem remains_reduceFirst? {d rest : Nat} {nodes nodes' : List Node}
    (hregular : ∀ node ∈ nodes, node.isRegular = true)
    (h : reduceFirst? d nodes = some (nodes', rest)) : List.Forall₂ Remains nodes nodes' := by
  induction nodes generalizing nodes' with
  | nil => cases h
  | cons node nodes ih =>
    obtain ⟨hnode, hnodes⟩ := List.forall_mem_cons.1 hregular
    rw [reduceFirst?] at h
    split at h
    · rename_i reduced left hatom
      cases h
      exact .cons (remains_reduceAtom? hnode hatom) (forall₂_remains_of_regular hnodes)
    · obtain ⟨found, hfound, hpair⟩ := Option.map_eq_some_iff.1 h
      cases hpair
      exact .cons (.refl (isShaped_of_isRegular hnode)) (ih hnodes hfound)

/-- A part in which a number is reduced. -/
theorem remains_reduce? {d rest : Nat} (hregular : node.isRegular = true)
    (h : node.reduce? d = some (node', rest)) : node.Remains node' := by
  unfold reduce? at h
  split at h
  · obtain ⟨⟨factors, left⟩, hfactors, hpair⟩ := Option.map_eq_some_iff.1 h
    cases hpair
    cases node with
    | atom tag text => cases hfactors
    | group tag children =>
      have hshaped := isShaped_of_isRegular hregular
      exact .of_forall₂ hshaped
        (remains_reduceFirst? (isRegular_of_isShaped_group hshaped) hfactors)
  · exact remains_reduceAtom? hregular h

/-! ### Fractions -/

/-- The parts of a fraction are regular. -/
theorem isRegular_of_parts? (hregular : node.isRegular = true)
    (hparts : node.parts? = some (numerator, denominator)) :
    numerator.isRegular = true ∧ denominator.isRegular = true := by
  have hchildren := children_of_parts? hparts
  cases node with
  | atom tag text => cases hchildren
  | group tag children =>
    obtain rfl : children = [numerator, denominator] := hchildren
    have hall := (isRegular_group_iff.1 hregular).2.2
    exact ⟨hall _ List.mem_cons_self, hall _ (List.mem_cons_of_mem _ List.mem_cons_self)⟩

/-- The parts of a fraction may be exchanged for what remains of them, since that has the same kind
of sign and is as regular. -/
theorem remains_fraction (hregular : node.isRegular = true)
    (hparts : node.parts? = some (numerator, denominator))
    (hnumerator : numerator.Remains numerator') (hdenominator : denominator.Remains denominator') :
    node.Remains (node.withContent (.group [numerator', denominator'])) := by
  have hchildren := children_of_parts? hparts
  cases node with
  | atom tag text => cases hchildren
  | group tag children =>
    obtain rfl : children = [numerator, denominator] := hchildren
    exact .of_forall₂ (isShaped_of_isRegular hregular) (.cons hnumerator (.cons hdenominator .nil))

/-! ### Multiplying -/

section Multiply

variable (hoperand : (operand.node .plus).IsReplacement) (hregular : term.isRegular = true)
  (hparts : term.parts? = some (numerator, denominator))

include hregular hparts

/-- The denominator cancels, and the numerator is left. -/
theorem remains_applySign_adoptNumerator (cancellation : Cancellation) :
    term.Remains ((cancellation.applySign term).adoptNumerator numerator) := by
  have hsigned := remains_applySign cancellation hregular
  refine hsigned.trans (remains_adoptNumerator (hsigned.regular hregular) ?_
    (isRegular_of_parts? hregular hparts).1)
  rw [children_of_parts? ((parts?_applySign cancellation).trans hparts)]
  exact List.mem_cons_self

include hoperand

/-- The numerator grows, or the two are reduced. -/
theorem remains_multiplyNumerator :
    term.Remains (term.multiplyNumerator operand numerator denominator) := by
  obtain ⟨hnumerator, hdenominator⟩ := isRegular_of_parts? hregular hparts
  unfold multiplyNumerator
  split
  · rename_i reduced rest hreduce
    obtain ⟨n, -, hreduce⟩ := Option.bind_eq_some_iff.1 hreduce
    have hreduced := remains_reduce? hdenominator hreduce
    split
    · have hadopted := remains_applySign_adoptNumerator hregular hparts .equal
      exact hadopted.trans (remains_appendNumber (hadopted.regular hregular) rest)
    · exact remains_fraction hregular hparts (remains_appendNumber hnumerator rest) hreduced
  · exact remains_fraction hregular hparts
      (remains_appendFactor hnumerator (hoperand.isAddition .times))
      (.refl (isShaped_of_isRegular hdenominator))

/-- Multiplying leaves the shape of a fraction. -/
theorem remains_multiplyFraction
    (h : (term.multiplyFraction operand numerator denominator).MayReturn term') :
    term.Remains term' := by
  obtain ⟨hnumerator, hdenominator⟩ := isRegular_of_parts? hregular hparts
  rcases of_mayReturn_multiplyFraction h with
    ⟨cancellation, rfl⟩ | ⟨hproduct, place, cancellation, hne, rfl⟩ | rfl
  · exact remains_applySign_adoptNumerator hregular hparts cancellation
  · have hsigned := remains_applySign cancellation hregular
    exact hsigned.trans (remains_fraction (hsigned.regular hregular)
      ((parts?_applySign cancellation).trans hparts) (.refl (isShaped_of_isRegular hnumerator))
      (remains_eraseIdx hdenominator hproduct hne))
  · exact remains_multiplyNumerator hoperand hregular hparts

end Multiply

/-- **Multiplying leaves the shape of a term**, whatever the answers are. -/
theorem remains_multiplyTerm (hoperand : (operand.node .plus).IsReplacement)
    (hregular : term.isRegular = true) (h : (term.multiplyTerm operand).MayReturn term') :
    term.Remains term' := by
  rcases of_mayReturn_multiplyTerm h with ⟨-, rfl⟩ |
    ⟨-, numerator, denominator, hparts, hfraction⟩ | rfl
  · exact .refl (isShaped_of_isRegular hregular)
  · exact remains_multiplyFraction hoperand hregular hparts hfraction
  · exact remains_appendFactor hregular (hoperand.isAddition .times)

/-! ### Dividing -/

section Divide

variable (hoperand : (operand.node .plus).IsReplacement) (hregular : term.isRegular = true)

include hoperand hregular

/-- A divisor that does not cancel becomes a denominator, or is reduced. -/
theorem remains_reduceOrDivide : term.Remains (term.reduceOrDivide operand) := by
  unfold reduceOrDivide
  split
  · rename_i reduced rest hreduce
    obtain ⟨n, -, hreduce⟩ := Option.bind_eq_some_iff.1 hreduce
    have hreduced := remains_reduce? hregular hreduce
    split
    · exact hreduced
    · exact hreduced.trans
        (remains_intoQuotient (hreduced.regular hregular) (isAddition_digits .divide rest))
  · exact remains_intoQuotient hregular (hoperand.isAddition .divide)

/-- Dividing leaves the shape of a product. -/
theorem remains_divideProduct (hproduct : term.family? = some .product)
    (h : (term.divideProduct operand).MayReturn term') : term.Remains term' := by
  rcases of_mayReturn_divideProduct h with ⟨place, cancellation, rfl⟩ | rfl
  · have hless := remains_withoutFactor hregular hproduct place
    exact hless.trans (remains_applySign cancellation (hless.regular hregular))
  · exact remains_reduceOrDivide hoperand hregular

variable (hparts : term.parts? = some (numerator, denominator))

include hparts

/-- The denominator grows, or a number in the numerator is reduced. -/
theorem remains_divideDenominator :
    term.Remains (term.divideDenominator operand numerator denominator) := by
  obtain ⟨hnumerator, hdenominator⟩ := isRegular_of_parts? hregular hparts
  unfold divideDenominator
  split
  · rename_i reduced rest hreduce
    obtain ⟨n, -, hreduce⟩ := Option.bind_eq_some_iff.1 hreduce
    exact remains_fraction hregular hparts (remains_reduce? hnumerator hreduce)
      (remains_appendNumber hdenominator rest)
  · exact remains_fraction hregular hparts (.refl (isShaped_of_isRegular hnumerator))
      (remains_appendFactor hdenominator (hoperand.isAddition .times))

/-- Dividing leaves the shape of a fraction. -/
theorem remains_divideFraction
    (h : (term.divideFraction operand numerator denominator).MayReturn term') :
    term.Remains term' := by
  obtain ⟨hnumerator, hdenominator⟩ := isRegular_of_parts? hregular hparts
  have hwith : ∀ {numerator' : Node} (cancellation : Cancellation), numerator.Remains numerator' →
      term.Remains
        (cancellation.applySign (term.withContent (.group [numerator', denominator]))) := by
    intro numerator' cancellation hremains
    have hfraction :=
      remains_fraction hregular hparts hremains (.refl (isShaped_of_isRegular hdenominator))
    exact hfraction.trans (remains_applySign cancellation (hfraction.regular hregular))
  rcases of_mayReturn_divideFraction h with
    ⟨cancellation, rfl⟩ | ⟨hproduct, place, cancellation, rfl⟩ | rfl
  · exact hwith cancellation (remains_cancelled hnumerator)
  · exact hwith cancellation (remains_withoutFactor hnumerator hproduct place)
  · exact remains_divideDenominator hoperand hregular hparts

end Divide

/-- **Dividing leaves the shape of a term**, whatever the answers are. -/
theorem remains_divideTerm (hoperand : (operand.node .plus).IsReplacement)
    (hregular : term.isRegular = true) (h : (term.divideTerm operand).MayReturn term') :
    term.Remains term' := by
  rcases of_mayReturn_divideTerm h with ⟨-, rfl⟩ | ⟨cancellation, rfl⟩ | ⟨hproduct, hdivided⟩ |
    ⟨-, numerator, denominator, hparts, hdivided⟩ | rfl | rfl
  · exact .refl (isShaped_of_isRegular hregular)
  · have hcancelled := remains_cancelled hregular
    exact hcancelled.trans (remains_applySign cancellation (hcancelled.regular hregular))
  · exact remains_divideProduct hoperand hregular hproduct hdivided
  · exact remains_divideFraction hoperand hregular hparts hdivided
  · exact remains_intoQuotient hregular (hoperand.isAddition .divide)
  · exact remains_reduceOrDivide hoperand hregular

end Node

/-! ### The side

An operand acts on each term, and the side is normalized. The terms change one by one, and each
stays what a term has to be. -/

variable {rationalize : Text → Except ValueError Text} {limits : Limits} {text : Text}
  {onTerm : Operand → Node → Inquiry Node} {side side' : Node} {operand : Operand}

/-- An operand that is read is a regular tree of new nodes, its sign apart. Being read from an
expression makes it regular, and normalizing keeps it so if the answers about literals are. -/
theorem Operand.isReplacement_operand (hanswers : AnswersRegular rationalize)
    (htext : IsExpression text) (h : Operand.read rationalize limits text = .ok operand) :
    (operand.node .plus).IsReplacement := by
  obtain ⟨read, hread, h⟩ := Except.ok_of_bind_eq_ok h
  split at h
  · rename_i normalized hnormalize
    cases h
    have hreplacement := (isReplacement_of_read htext hread).of_normalize hanswers hnormalize
    have hnode : (Operand.ofNode normalized).node .plus = fresh .plus normalized.content := rfl
    rw [hnode]
    refine ⟨isRegular_ofContent rfl hreplacement.regular,
      everyTag_ofContent rfl hreplacement.new, ?_⟩
    rw [fresh, Node.sign, tag_ofContent]
    rfl
  · cases h

/-- Whether an operation leaves the shape of terms, whatever the answers to its questions are. -/
def LeavesTerms (onTerm : Operand → Node → Inquiry Node) : Prop :=
  ∀ {operand : Operand} {term term' : Node}, (operand.node .plus).IsReplacement →
    term.isRegular = true → (onTerm operand term).MayReturn term' → term.Remains term'

/-- What applying an operand leaves of a side. Its terms turn their signs, and then the operation
acts on each of them. -/
theorem remains_applyTo (honTerm : LeavesTerms onTerm)
    (hoperand : (operand.node .plus).IsReplacement) (hshaped : side.isShaped = true)
    (h : (operand.applyTo onTerm side).MayReturn side') :
    side.Remains side' := by
  cases side with
  | atom tag text =>
    have hside' : side' = atom tag text := by
      rcases Operand.of_mayReturn_applyTo h with hsigned | ⟨terms, hterms, -⟩
      · exact hsigned
      · exact hterms
    rw [hside']
    exact .refl hshaped
  | group tag children =>
    have hregular := isRegular_of_isShaped_group hshaped
    have hsigned : List.Forall₂ Remains children (children.map operand.applySign) := by
      refine forall₂_map_of_forall_mem fun child hmem ↦ ?_
      have hchild := hregular child hmem
      unfold Operand.applySign
      split
      · exact .flipSign (isRoot_of_isRegular hchild) (isShaped_of_isRegular hchild)
      · exact .refl (isShaped_of_isRegular hchild)
    have hsignedSide := Remains.of_forall₂ hshaped hsigned
    rcases Operand.of_mayReturn_applyTo h with rfl | ⟨terms, rfl, hterms⟩
    · exact hsignedSide
    · have hregularSigned := isRegular_of_isShaped_group hsignedSide.shaped
      have hall := (List.forall₂_and_left _ _).2 ⟨hregularSigned, hterms⟩
      exact hsignedSide.trans (.of_forall₂ hsignedSide.shaped
        (hall.imp fun _ _ hterm ↦ honTerm hoperand hterm.1 hterm.2))

/-- **An operation leaves a settled side settled**, whatever the answers to its questions are. -/
theorem remains_transformSide (honTerm : LeavesTerms onTerm) (hanswers : AnswersRegular rationalize)
    (htext : IsExpression text) (hside : side.IsSettled rationalize)
    (h : (transformSide onTerm rationalize limits text side).MayReturn (.ok (), side')) :
    side.Remains side' ∧ side'.IsSettled rationalize := by
  rcases of_mayReturn_transformSide h with ⟨⟨cause, -, hfails⟩, -⟩ |
    ⟨operand, applied, hread, happlied, hresult, rfl⟩
  · cases hfails
  · have hoperand := Operand.isReplacement_operand hanswers htext hread
    have hremains := remains_applyTo honTerm hoperand hside.shaped happlied
    cases hnormalize : applied.normalize rationalize limits with
    | mk result normalized =>
      rw [hnormalize] at hresult
      cases result with
      | error cause => cases hresult
      | ok passes =>
        have hall := hremains.trans (remains_normalize hanswers hremains.shaped hnormalize)
        exact ⟨hall, hall.shaped, hall.root.trans hside.root,
          isCanonical_of_settles (everyTagBelow_of_isShaped hremains.shaped) hnormalize⟩

/-- Multiplying is such an operation. -/
theorem leavesTerms_multiplyTerm : LeavesTerms fun factor term ↦ term.multiplyTerm factor :=
  fun hoperand hregular h ↦ remains_multiplyTerm hoperand hregular h

/-- So is dividing. -/
theorem leavesTerms_divideTerm : LeavesTerms fun divisor term ↦ term.divideTerm divisor :=
  fun hoperand hregular h ↦ remains_divideTerm hoperand hregular h

end EquationSteps
