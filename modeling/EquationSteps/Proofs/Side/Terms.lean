import EquationSteps.Proofs.Equation.Side
import EquationSteps.Proofs.Side.Cancellation
import EquationSteps.Proofs.Side.Parts
import EquationSteps.Proofs.Side.Unit

/-!
# All terms of a side

Multiplying and dividing a side act on each term and then normalize. What they share is proved once:
an operand that was read means the value of its text, up to its sign
(`Operand.exists_means_of_read`), and if an operation multiplies each term by something that depends
on the operand alone, it multiplies a side of terms by it (`meaning_of_transformSide`).

The terms have to be such that a sound oracle can be asked about them (`Node.IsAskable`): their
texts say what they mean. This is so for the terms of a side between edits that has a value, and for
the operands in them.

**Three things come together** in `meaning_of_transformSide`. The operand is read and normalized, so
its magnitude and its sign together mean the value of its text. Each term is multiplied by what the
operand's magnitude means, or by the inverse of that, and the sign is on the term. And normalizing
the side with the new terms keeps the sum of them. The operation enters by one hypothesis on a
single term, and a function from the operand's meaning to the factor, which is the identity for
multiplying and the inverse for dividing.

**Units.** An operand whose magnitude is one acts by its sign alone, and the operation is not
applied. So the function has to keep one, and it has to commute with negation, because of which the
sign may be taken off the operand beforehand.

**Sides that hold no terms** are excluded, as their children are not summed up. That they have to be
excluded is seen from `answeredBy_transformSide_negativeOne`.
-/

namespace EquationSteps

open Node

variable {oracle : Oracle} {limits valueLimits : Limits} {text : Text} {node term : Node}
  {operand : Operand} {k : FunctionField}

namespace Node

/-! ### What an oracle can be asked about -/

/-- Whether a tree is compact does not depend on its tag. -/
theorem isCompact_mapTag (f : Tag → Tag) (node : Node) :
    (node.mapTag f).isCompact = node.isCompact := by
  cases node <;> rfl

/-- A part whose text says what it means: no group in it is superfluous, and its meaning is
defined. -/
structure IsAskable (node : Node) : Prop extends IsPart node where
  /-- No group in it is printed as its only operand. -/
  compact : node.isCompact = true
  /-- It has a meaning. -/
  defined : node.contentMeaning ≠ .undefined

/-- The text of such a part expresses what the part means. -/
theorem IsAskable.exists_expresses (h : node.IsAskable) :
    ∃ k, node.contentMeaning = .of k ∧ Expresses node.contentText k := by
  obtain ⟨k, hk⟩ := (Meaning.eq_undefined_or_of node.contentMeaning).resolve_left h.defined
  exact ⟨k, hk, expresses_contentText h.regular h.compact hk⟩

/-- Turning its sign changes neither its text nor its content. -/
theorem IsAskable.flipSign (h : node.IsAskable) : node.flipSign.IsAskable where
  toIsPart := h.toIsPart.mapTag rfl
  compact := by rw [Node.flipSign, withSign, isCompact_mapTag]; exact h.compact
  defined := by rw [Node.flipSign, withSign, contentMeaning_mapTag]; exact h.defined

/-- Some factors have a meaning only if each of them has. -/
theorem contentMeaning_ne_undefined_of_mem {nodes : List Node}
    (h : (nodes.map contentMeaning).prod ≠ .undefined) :
    ∀ node ∈ nodes, node.contentMeaning ≠ .undefined := by
  induction nodes with
  | nil => exact List.forall_mem_nil _
  | cons node nodes ih =>
    rw [List.map_cons, List.prod_cons, Meaning.mul_ne_undefined_iff] at h
    exact List.forall_mem_cons.2 ⟨h.1, ih h.2⟩

/-- The operands of a group are without superfluous groups if the group is. -/
theorem isCompact_of_mem_children (h : node.isCompact = true) {child : Node}
    (hmem : child ∈ node.children) : child.isCompact = true := by
  cases node with
  | atom tag text => exact absurd hmem List.not_mem_nil
  | group tag children => exact (isCompact_group_iff.1 h).2 child hmem

/-- The factors of a product can be asked about. -/
theorem IsAskable.factor (h : node.IsAskable) (hproduct : node.family? = some .product)
    {child : Node} (hmem : child ∈ node.children) : child.IsAskable where
  toIsPart := (h.toIsPart.isLink_of_mem hproduct (by decide) hmem).toIsPart
  compact := isCompact_of_mem_children h.compact hmem
  defined := by
    have hdefined := h.defined
    rw [contentMeaning_of_product h.regular hproduct] at hdefined
    exact contentMeaning_ne_undefined_of_mem hdefined child hmem

/-- And so can the parts of a fraction, of which the denominator is not zero. -/
theorem IsAskable.parts {numerator denominator : Node} (h : node.IsAskable)
    (hquotient : node.family? = some .quotient)
    (hparts : node.parts? = some (numerator, denominator)) :
    numerator.IsAskable ∧ denominator.IsAskable ∧ denominator.contentMeaning⁻¹ ≠ .undefined := by
  obtain ⟨hnumerator, hdenominator, hmeaning⟩ := of_parts? h.toIsPart hquotient hparts
  have hchildren : ∀ child ∈ [numerator, denominator], child.isCompact = true := by
    intro child hmem
    refine isCompact_of_mem_children h.compact ?_
    unfold parts? at hparts
    split at hparts
    · rename_i heq
      cases hparts
      rwa [heq]
    · cases hparts
  have hdefined := h.defined
  rw [hmeaning, Meaning.mul_ne_undefined_iff] at hdefined
  refine ⟨⟨hnumerator.toIsPart, hchildren _ List.mem_cons_self, hdefined.1⟩,
    ⟨hdenominator.toIsPart, hchildren _ (List.mem_cons_of_mem _ (List.mem_singleton_self _)), ?_⟩,
    hdefined.2⟩
  intro hundefined
  rw [hundefined] at hdefined
  exact hdefined.2 rfl

end Node

/-! ### Operands

What is known of an operand once it is read, and all that is used of it later. -/

/-- The text of the number one expresses it. -/
theorem expresses_one : Expresses ['1'] 1 :=
  ⟨.number 1, .term (.unsigned (.quotient (.factor (.literal (by decide))))), by
    rw [Formula.meaning, map_one, map_one]⟩

/-- So does the text of its negation, by which sides of factors are told from sides of terms. -/
theorem expresses_negativeOne : Expresses ['-', '1'] (-1) :=
  ⟨.neg (.number 1), .term (.minus (.unsigned (.quotient (.factor (.literal (by decide)))))), by
    rw [Formula.meaning, Formula.meaning, map_one, map_one, Meaning.neg_of]⟩

/-- The magnitude of the operand means the function, and its text expresses it. -/
structure Operand.Means (operand : Operand) (k : FunctionField) : Prop where
  /-- The magnitude is a part, as a new node. -/
  part : (fresh .plus operand.magnitude).IsPart
  /-- It means the function. -/
  meaning : (fresh .plus operand.magnitude).contentMeaning = .of k
  /-- So does its text, which is what is asked about. -/
  expresses : Expresses operand.text k

namespace Operand

/-- The magnitude as a factor or divisor. -/
theorem Means.isLink (h : operand.Means k) (sign : Sign) :
    (operand.node sign).IsLink sign ∧ (operand.node sign).contentMeaning = .of k := by
  have hcontent : (fresh .plus operand.magnitude).content = operand.magnitude :=
    content_ofContent _ _
  have hlink := isLink_fresh h.part sign
  have hmeaning := contentMeaning_ofContent (.fresh sign) (fresh .plus operand.magnitude)
  rw [hcontent] at hlink hmeaning
  exact ⟨hlink, hmeaning.trans h.meaning⟩

/-- The number that the magnitude is. -/
theorem Means.of_integer? (h : operand.Means k) {n : Nat} (hn : operand.integer? = some n) :
    Meaning.of k = .number n := by
  unfold integer? at hn
  split at hn
  · rename_i text hmagnitude
    obtain ⟨hinteger, rfl⟩ := Numeral.integer?_eq_some_iff.1 hn
    rw [← h.meaning, hmagnitude, fresh, ofContent, contentMeaning_atom,
      atomValue_of_isInteger hinteger, Meaning.ofValue_ok, Meaning.number]
  · cases hn

/-- A unit means one. -/
theorem Means.of_isUnit (h : operand.Means k) (hunit : operand.isUnit = true) :
    Meaning.of k = 1 := by
  have htext := h.expresses
  rw [beq_iff_eq.1 hunit] at htext
  rw [htext.unique expresses_one, Meaning.of_one]

/-- **An operand that was read** means the value of its text, up to its sign. -/
theorem exists_means_of_read {f : RationalFunction} (htext : IsExpression text)
    (hf : evaluate valueLimits text = .ok f)
    (hread : Operand.read Oracle.exactFraction limits text = .ok operand) :
    ∃ k, operand.Means k ∧ f.toField = if operand.negative then -k else k := by
  obtain ⟨node, hnode, hread⟩ := Except.ok_of_bind_eq_ok hread
  split at hread
  case h_2 => cases hread
  rename_i passes result hnormalize
  cases hread
  have hreplacement := isReplacement_of_read htext hnode
  obtain ⟨hresult, hmeaning⟩ := hreplacement.normalize isFaithful_exactFraction hnormalize
  have hcanonical := isCanonical_of_settles (everyTagBelow_of_isShaped
    ((isShaped_iff_isRegular (isRoot_of_isRegular hreplacement.regular)).2 hreplacement.regular))
      hnormalize
  obtain ⟨e, hsays⟩ := isExpression_iff_exists_denotes.1 htext
  have hvalue : result.meaning = .of f.toField := by
    rw [hmeaning, meaning_of_read hnode hsays, (of_evaluate hsays hf).2]
  -- the sign is taken off, so it is the content that has to be defined
  have hdefined : result.contentMeaning ≠ .undefined := by
    rw [← Meaning.signed_ne_undefined_iff result.sign, ← meaning, hvalue]
    exact Meaning.of_ne_undefined _
  obtain ⟨k, hk⟩ := (Meaning.eq_undefined_or_of result.contentMeaning).resolve_left hdefined
  have hpart : result.IsPart := ⟨hresult.regular, marksInSums_of_isNew hresult.new⟩
  refine ⟨k, ⟨?_, ?_, ?_⟩, ?_⟩
  · exact (isLink_fresh hpart .plus).toIsPart
  · rw [ofNode, fresh, contentMeaning_ofContent, hk]
  · refine expresses_contentText ?_ ?_ ?_
    · rw [withSign, isRegular_mapTag rfl]
      exact hresult.regular
    · rw [withSign, isCompact_mapTag]
      exact hcanonical.isCompact hresult.regular
    · rw [withSign, contentMeaning_mapTag, hk]
  · refine Meaning.of_injective (hvalue.symm.trans ?_)
    show Meaning.signed result.sign result.contentMeaning =
      .of (if result.sign == .minus then -k else k)
    rw [hk, Meaning.signed]
    by_cases hminus : result.sign = .minus
    · rw [if_pos hminus, if_pos (beq_iff_eq.2 hminus), Meaning.neg_of]
    · rw [if_neg hminus, if_neg fun h ↦ hminus (beq_iff_eq.1 h)]

end Operand

/-! ### What cancels, and what is reduced

The results on cancellations and on common factors, for a part and the operand of an operation. -/

section Cancel

variable {cancellation : Cancellation}

/-- A part whose text cancels means the operand, up to the sign. -/
theorem Node.IsAskable.of_compare (h : node.IsAskable) (hsound : oracle.IsSound)
    (hmeans : operand.Means k)
    (hfound : (Cancellation.compare node.contentText operand.text).answeredBy oracle =
      some cancellation) : node.contentMeaning = cancellation.apply (.of k) := by
  obtain ⟨l, hl, htext⟩ := h.exists_expresses
  rw [hl]
  exact Cancellation.of_compare hsound hmeans.expresses htext hfound

/-- A product in which a factor is found is the operand, up to the sign, times the other factors. -/
theorem Node.IsAskable.of_find? {place : Nat} (h : node.IsAskable) (hsound : oracle.IsSound)
    (hmeans : operand.Means k) (hproduct : node.family? = some .product)
    (hfound : (Cancellation.find? node.children operand.text).answeredBy oracle =
      some (place, cancellation)) :
    node.contentMeaning = cancellation.apply (.of k) *
      ((node.children.eraseIdx place).map contentMeaning).prod := by
  obtain ⟨factor, hplace, hcancels⟩ := Cancellation.of_find? hsound hmeans.expresses hfound
  obtain ⟨l, hl, htext⟩ := (h.factor hproduct (List.mem_of_getElem? hplace)).exists_expresses
  rw [contentMeaning_eq_mul_prod h.toIsPart hproduct hplace, hl, hcancels l htext]

/-- A part and an operand that are reduced lose a common factor. -/
theorem Operand.Means.of_reduce? {node' : Node} {rest : Nat} (h : operand.Means k)
    (hnode : node.IsPart)
    (hreduce : (operand.integer?.bind fun n ↦ node.reduce? n) = some (node', rest)) :
    ∃ g m, g ≠ 0 ∧ Meaning.of k = .number rest * .number g ∧ node.Becomes node' m ∧
      node.contentMeaning = m * .number g := by
  obtain ⟨n, hn, hreduce⟩ := Option.bind_eq_some_iff.1 hreduce
  obtain ⟨g, m, hg, hrest, hbecomes, hmeaning⟩ := Node.of_reduce? hnode hreduce
  exact ⟨g, m, hg, by rw [h.of_integer? hn, hrest, Meaning.number_mul], hbecomes, hmeaning⟩

end Cancel

/-! ### Terms

What it means for a term to be multiplied by something. Signs may be moved between the term, the
result and the factor. -/

/-- The second tree is a term and means the first one times the given meaning. -/
structure Node.IsMultiple (term result : Node) (m : Meaning) : Prop where
  /-- The result is a term. -/
  isTerm : result.IsTerm
  /-- It means the term times the factor. -/
  meaning_eq : result.meaning = term.meaning * m

namespace Node

variable {result : Node} {m n : Meaning}

/-- A term is a part. -/
theorem IsTerm.isPart (h : term.IsTerm) : term.IsPart :=
  ⟨h.regular, h.marks⟩

/-- What became of a term is a multiple of it if its content is. -/
theorem Becomes.isMultiple (h : term.Becomes result n) (hterm : term.IsTerm)
    (hmeaning : n = term.contentMeaning * m) : term.IsMultiple result m where
  isTerm := h.isTerm hterm.additive
  meaning_eq := by rw [h.meaning_signed, hmeaning, Meaning.signed_mul, meaning]

/-- A term that is multiplied twice. -/
theorem IsMultiple.trans {other : Node} (h : term.IsMultiple other m)
    (h' : other.IsMultiple result n) :
    term.IsMultiple result (m * n) where
  isTerm := h'.isTerm
  meaning_eq := by rw [h'.meaning_eq, h.meaning_eq, mul_assoc]

/-- The mark on a term does not matter for its multiples. -/
theorem IsMultiple.of_withPending (h : (term.withPending true).IsMultiple result m) :
    term.IsMultiple result m where
  isTerm := h.isTerm
  meaning_eq := by rw [h.meaning_eq, meaning_withPending]

/-- The sign of a cancellation is on the term, or on what the term is multiplied by. -/
theorem IsMultiple.of_applySign (cancellation : Cancellation) (hterm : term.IsTerm)
    (h : (cancellation.applySign term).IsMultiple result (cancellation.apply m)) :
    term.IsMultiple result m where
  isTerm := h.isTerm
  meaning_eq := by
    rw [h.meaning_eq, Cancellation.meaning_applySign hterm.additive, Cancellation.apply_mul,
      Cancellation.mul_apply, Cancellation.apply_apply]

/-- A term stays one when its sign turns. -/
theorem IsTerm.applySign (h : term.IsTerm) (cancellation : Cancellation) :
    (cancellation.applySign term).IsTerm := by
  cases cancellation with
  | equal => exact h
  | opposite => exact h.flipSign

/-- The sign of a cancellation is on the result, or on what the term is multiplied by. -/
theorem IsMultiple.applySign {cancellation : Cancellation}
    (h : term.IsMultiple result (cancellation.apply m)) :
    term.IsMultiple (cancellation.applySign result) m where
  isTerm := h.isTerm.applySign cancellation
  meaning_eq := by
    rw [Cancellation.meaning_applySign h.isTerm.additive, h.meaning_eq, Cancellation.mul_apply,
      Cancellation.apply_apply]

/-- A sign that turns is no part of the content. -/
theorem contentMeaning_applySign (cancellation : Cancellation) (term : Node) :
    (cancellation.applySign term).contentMeaning = term.contentMeaning := by
  cases cancellation with
  | equal => rfl
  | opposite => exact contentMeaning_mapTag _ _

end Node

/-- The operation multiplies each term by the meaning. -/
def MultipliesTerms (oracle : Oracle) (onTerm : Node → Inquiry Node) (m : Meaning) : Prop :=
  ∀ term : Node, term.IsTerm → term.IsAskable →
    term.IsMultiple ((onTerm term).answeredBy oracle) m

/-! ### Sides

From terms to sides. The meaning of a side of terms is their sum, before and after. -/

/-- A side that was read and normalized is settled. -/
theorem Node.IsSettled.of_read {side : Node} {passes : Nat} {readLimits : Limits}
    (htext : IsExpression text) (hread : Node.read readLimits text true = .ok node)
    (h : node.normalize Oracle.exactFraction limits = (.ok passes, side)) :
    side.IsSettled Oracle.exactFraction := by
  obtain ⟨hshaped, hroot, hnew⟩ := of_read_root htext hread
  have hside := isSide_of_normalize isFaithful_exactFraction hshaped hroot hnew h
  exact ⟨hside.shaped, hside.root, hside.canonical⟩

/-- The terms of a side between edits that has a value. -/
theorem of_isSettled {side : Node} (hside : side.IsSettled Oracle.exactFraction)
    (hfamily : side.family? = some .sum) (hdefined : side.meaning ≠ .undefined) :
    side.meaning = (side.children.map meaning).sum ∧
      ∀ term ∈ side.children, term.IsTerm ∧ term.IsAskable := by
  have hmarks := hside.canonical.marksInSums
  obtain ⟨hidle, hcanonical⟩ := isCanonical_iff.1 hside.canonical
  cases side with
  | atom tag text => cases hfamily
  | group tag children =>
    obtain ⟨-, hregular, hsign⟩ := isShaped_group_iff.1 hside.shaped
    have hadditive : ∀ child ∈ children, child.sign.isAdditive = true := fun child hmem ↦
      Family.ofSign_eq_sum_iff.1 (ofSign_of_isShaped hside.shaped hfamily child hmem)
    have hsum : (group tag children).meaning = (children.map meaning).sum := by
      have hplus : tag.sign = .plus := hsign hside.root
      rw [meaning, Node.sign, tag_group, hplus, Meaning.signed_plus, contentMeaning_group,
        groupMeaning_of_terms hadditive]
    refine ⟨hsum, fun term hmem ↦ ?_⟩
    have hmarksTerm := (marksInSums_group_iff.1 hmarks).2 term hmem
    refine ⟨⟨hadditive term hmem, hregular term hmem, hmarksTerm⟩,
      ⟨hregular term hmem, hmarksTerm⟩, (hcanonical term hmem).isCompact (hregular term hmem), ?_⟩
    -- one undefined term would make the sum undefined
    rw [hsum] at hdefined
    rw [← Meaning.signed_ne_undefined_iff term.sign]
    clear hside hfamily hmarks hidle hcanonical hregular hsign hadditive hsum hmarksTerm
    induction children with
    | nil => cases hmem
    | cons first rest ih =>
      rw [List.map_cons, List.sum_cons, Meaning.add_ne_undefined_iff] at hdefined
      rcases List.mem_cons.1 hmem with rfl | hmem
      · exact hdefined.1
      · exact ih hdefined.2 hmem

/-- Normalizing a side with other terms gives the sum of these terms. -/
theorem meaning_normalize_withChildren {side result : Node} {terms : List Node} {passes : Nat}
    (hside : side.IsSettled Oracle.exactFraction) (hfamily : side.family? = some .sum)
    (hne : terms ≠ []) (hterms : ∀ term ∈ terms, term.IsTerm)
    (hnormalize : (side.withChildren terms).normalize Oracle.exactFraction limits =
      (.ok passes, result)) : result.meaning = (terms.map meaning).sum := by
  cases side with
  | atom tag text => cases hfamily
  | group tag children =>
    have hplus : tag.sign = .plus := (isShaped_group_iff.1 hside.shaped).2.2 hside.root
    have hsum : ∀ term ∈ terms, Family.ofSign term.sign = .sum := fun term hmem ↦
      Family.ofSign_eq_sum_iff.2 (hterms term hmem).additive
    have hsame : (group tag terms).family? = some .sum := family?_of_forall hne hsum
    have hshaped : (group tag terms).isShaped = true :=
      isShaped_group_iff.2 ⟨Or.inl (isChain_of_family hne hsum),
        fun term hmem ↦ (hterms term hmem).regular, fun _ ↦ hplus⟩
    have hmarks : (group tag terms).marksInSums = true :=
      marksInSums_group_iff.2 ⟨Or.inl hsame, fun term hmem ↦ (hterms term hmem).marks⟩
    have hkeeps :=
      (keeps_normalize isFaithful_exactFraction hshaped hmarks hnormalize).resolve_right
      fun hemptied ↦ by cases hsame.symm.trans hemptied.family
    rw [hkeeps.meaning, meaning, Node.sign, tag_group, hplus, Meaning.signed_plus,
      contentMeaning_group,
      groupMeaning_of_terms fun term hmem ↦ (hterms term hmem).additive]

/-- The terms of a computation on each term. -/
theorem answeredBy_mapM' {α β : Type} (f : α → Inquiry β) (list : List α) :
    (list.mapM' f).answeredBy oracle = list.map fun a ↦ (f a).answeredBy oracle := by
  induction list with
  | nil => rfl
  | cons a list ih =>
    rw [List.mapM', Inquiry.answeredBy_bind, Inquiry.answeredBy_bind, ih]
    rfl

namespace Operand

/-- The sign of the operand leaves a term. -/
theorem isTerm_applySign (operand : Operand) {term : Node} (h : term.IsTerm) :
    (operand.applySign term).IsTerm := by
  unfold applySign
  split
  · exact h.flipSign
  · exact h

/-- What can be asked about can be asked about behind another sign. -/
theorem isAskable_applySign (operand : Operand) {term : Node} (h : term.IsAskable) :
    (operand.applySign term).IsAskable := by
  unfold applySign
  split
  · exact h.flipSign
  · exact h

/-- The signs of all terms turn, or none. -/
theorem sum_map_applySign (operand : Operand) {terms : List Node}
    (h : ∀ term ∈ terms, term.IsTerm) :
    ((terms.map operand.applySign).map meaning).sum =
      if operand.negative then -(terms.map meaning).sum else (terms.map meaning).sum := by
  cases hnegative : operand.negative with
  | true =>
    have hflip : operand.applySign = Node.flipSign := funext fun term ↦ by
      rw [applySign, hnegative, if_pos rfl]
    rw [hflip, sum_map_flipSign h, if_pos rfl]
  | false =>
    have hkeep : operand.applySign = id := funext fun term ↦ by
      rw [applySign, hnegative, if_neg Bool.false_ne_true, id]
    rw [hkeep, List.map_id, if_neg Bool.false_ne_true]

/-- **The terms that an operand leaves** are terms, and their sum is the sum of the terms before,
with the operand's sign, times what the operation multiplies each term by. -/
theorem exists_terms_of_applyTo {onTerm : Operand → Node → Inquiry Node} {m : Meaning} {side : Node}
    (hne : side.children ≠ []) (hterms : ∀ term ∈ side.children, term.IsTerm ∧ term.IsAskable)
    (hunit : operand.isUnit = true → m = 1)
    (hmultiplies : MultipliesTerms oracle (onTerm operand) m) :
    ∃ terms, (operand.applyTo onTerm side).answeredBy oracle = side.withChildren terms ∧
      terms ≠ [] ∧ (∀ term ∈ terms, term.IsTerm) ∧ (terms.map meaning).sum =
        (if operand.negative then -(side.children.map meaning).sum
          else (side.children.map meaning).sum) * m := by
  have hsum := operand.sum_map_applySign fun term hmem ↦ (hterms term hmem).1
  have hne' : side.children.map operand.applySign ≠ [] :=
    fun hnil ↦ hne (List.map_eq_nil_iff.1 hnil)
  have hterms' : ∀ term ∈ side.children.map operand.applySign, term.IsTerm ∧ term.IsAskable := by
    intro applied happlied
    obtain ⟨term, hmem, rfl⟩ := List.mem_map.1 happlied
    exact ⟨operand.isTerm_applySign (hterms term hmem).1,
      operand.isAskable_applySign (hterms term hmem).2⟩
  unfold applyTo
  dsimp only
  split
  · rename_i hone
    refine ⟨_, rfl, hne', fun term hmem ↦ (hterms' term hmem).1, ?_⟩
    rw [hsum, hunit hone, mul_one]
  · refine ⟨(side.children.map operand.applySign).map fun term ↦
      (onTerm operand term).answeredBy oracle, ?_,
      fun hnil ↦ hne' (List.map_eq_nil_iff.1 hnil), ?_, ?_⟩
    · rw [Inquiry.answeredBy_bind, answeredBy_mapM', Inquiry.answeredBy_pure]
    · intro result hresult
      obtain ⟨term, hmem, rfl⟩ := List.mem_map.1 hresult
      exact (hmultiplies term (hterms' term hmem).1 (hterms' term hmem).2).isTerm
    · rw [← hsum, ← Meaning.sum_map_mul hne', List.map_map]
      exact congrArg List.sum (List.map_congr_left fun term hmem ↦
        (hmultiplies term (hterms' term hmem).1 (hterms' term hmem).2).meaning_eq)

end Operand

/-- **A side of factors or parts** is left as it is by `-1`: its operands have no sign that could
turn. -/
theorem answeredBy_transformSide_negativeOne {onTerm : Operand → Node → Inquiry Node} {side : Node}
    (hside : side.IsSettled Oracle.exactFraction) (hfamily : side.family? ≠ some .sum) :
    (transformSide onTerm Oracle.exactFraction .standard "-1".toList side).answeredBy oracle =
      (.ok (), side) := by
  have hread : Operand.read Oracle.exactFraction .standard "-1".toList =
      .ok ⟨.atom ['1'], ['1'], true⟩ := rfl
  rw [transformSide_negativeOne hside (by decide) hread, hside.negated_eq_self hfamily]
  rfl

/-- What was transformed successfully is an operand that was read, applied and normalized. -/
theorem exists_of_transformSide {onTerm : Operand → Node → Inquiry Node}
    {rationalize : Text → Except ValueError Text} {side side' : Node}
    (hresult : (transformSide onTerm rationalize limits text side).answeredBy oracle =
      (.ok (), side')) :
    ∃ operand passes, Operand.read rationalize limits text = .ok operand ∧
      ((operand.applyTo onTerm side).answeredBy oracle).normalize rationalize limits =
        (.ok passes, side') := by
  unfold transformSide at hresult
  split at hresult
  · cases hresult
  rename_i operand hread
  rw [Inquiry.answeredBy_bind, Inquiry.answeredBy_pure] at hresult
  obtain ⟨houtcome, hside⟩ := Prod.mk.inj hresult
  cases hnormalize :
    (((operand.applyTo onTerm side).answeredBy oracle).normalize rationalize limits).1 with
  | ok passes => exact ⟨operand, passes, hread, Prod.ext hnormalize hside⟩
  | error cause =>
    rw [hnormalize] at houtcome
    cases houtcome

/-- **What an operation on each term makes of a side of terms.** The operation may depend on the
operand's value by any function that keeps one and commutes with negation. -/
theorem meaning_of_transformSide {onTerm : Operand → Node → Inquiry Node} {a : Meaning → Meaning}
    {side side' : Node} {f : RationalFunction} (hone : a 1 = 1) (hneg : ∀ m, a (-m) = -a m)
    (hsound : oracle.IsSound) (hside : side.IsSettled Oracle.exactFraction)
    (hfamily : side.family? = some .sum) (hdefined : side.meaning ≠ .undefined)
    (htext : IsExpression text) (hf : evaluate valueLimits text = .ok f)
    (honTerm : ∀ (operand : Operand) (k : FunctionField), operand.Means k →
      (k = f.toField ∨ -k = f.toField) → MultipliesTerms oracle (onTerm operand) (a (.of k)))
    (hresult : (transformSide onTerm oracle.rationalize limits text side).answeredBy oracle =
      (.ok (), side')) : side'.meaning = side.meaning * a (.of f.toField) := by
  rw [hsound.rationalize] at hresult
  obtain ⟨operand, passes, hread, hnormalize⟩ := exists_of_transformSide hresult
  obtain ⟨k, hmeans, hvalue⟩ := Operand.exists_means_of_read htext hf hread
  obtain ⟨hsum, hterms⟩ := of_isSettled hside hfamily hdefined
  have hne : side.children ≠ [] := fun hnil ↦ by
    cases side with
    | atom tag text => cases hfamily
    | group tag children =>
      obtain rfl : children = [] := hnil
      cases hfamily
  have hmultiplies := honTerm operand k hmeans <| by
    rw [hvalue]
    split
    · exact Or.inr rfl
    · exact Or.inl rfl
  obtain ⟨terms, happlied, hneTerms, hterms', hsum'⟩ := operand.exists_terms_of_applyTo hne hterms
    (fun hunit ↦ by rw [hmeans.of_isUnit hunit, hone]) hmultiplies
  rw [happlied] at hnormalize
  rw [meaning_normalize_withChildren hside hfamily hneTerms hterms' hnormalize, hsum', hsum, hvalue]
  -- The operand's sign has acted on the terms already.
  split
  · rw [← Meaning.neg_of, hneg, neg_mul, mul_neg]
  · rfl

end EquationSteps
