import EquationSteps.Proofs.Reading.Denotation

/-!
# The meaning of what is read

The tree that is read from an expression means what the expression says (`Node.meaning_of_read`).
The proof is by induction on the reading: a leaf says its number or letter, a minus that the reader
takes off negates, parentheses are dropped, and the segments into which a chain is cut say the
operands of its formula (`ReadsSegments.groupMeaning_eq`, by induction on the chain from its last
operand).

**The reader cuts, the grammar builds.** A derivation of a chain adds one operand after another at
its end, and the reader cuts the text at all operators of the family at once. The two meet in the
last operand: cutting a chain that was continued by an operand gives the segments of the chain and
one more (`ReadsSegments.of_append`). So the induction is on the derivation, and each step appends
an operand to the group (`groupMeaning_concat_of_term`, `groupMeaning_concat_of_factor`).

**Signs have two places.** A segment of a sum is cut with the sign in front of it, and is read
without that sign, which goes to the tag of the operand. A text that is read by itself keeps the
minus in its meaning. `IsMeant` says both in one: with a sign given from outside it is the content
that means what is said, and without one it is the node.
-/

namespace EquationSteps

namespace Node

/-- A sum with one more term. -/
theorem groupMeaning_concat_of_term {nodes : List Node} {node : Node}
    (hfamily : ∀ other ∈ nodes ++ [node], Family.ofSign other.sign = .sum) :
    groupMeaning (nodes ++ [node]) = groupMeaning nodes + node.meaning := by
  have hadditive := fun other hmem ↦ Family.ofSign_eq_sum_iff.1 (hfamily other hmem)
  rw [groupMeaning_of_terms hadditive, List.map_append, List.sum_append, List.map_singleton,
    List.sum_singleton,
    groupMeaning_of_terms fun other hmem ↦ hadditive other (List.mem_append_left _ hmem)]

/-- A product with one more factor, or a quotient with one more divisor. -/
theorem groupMeaning_concat_of_factor {nodes : List Node} {node : Node} {family : Family}
    (hne : nodes ≠ []) (hsum : family ≠ .sum)
    (hfamily : ∀ other ∈ nodes ++ [node], Family.ofSign other.sign = family) :
    groupMeaning (nodes ++ [node]) =
      groupMeaning nodes * .asFactor node.sign node.contentMeaning := by
  cases nodes with
  | nil => exact absurd rfl hne
  | cons first rest =>
    have hfirst : first.sign.isAdditive = false := by
      rw [← Bool.not_eq_true, ← Family.ofSign_eq_sum_iff, hfamily first List.mem_cons_self]
      exact hsum
    rw [groupMeaning, groupMeaning, branch, branch, List.cons_append,
      contentMeaning_of_not_isAdditive hfirst, contentMeaning_of_not_isAdditive hfirst,
      List.map_append, List.prod_append, List.map_singleton, List.prod_singleton, mul_assoc]

end Node

/-- What is read from the segments of a text: operands that mean what the segments say. -/
structure ReadsSegments (family : Family) (text : Text) (parts : List (Text × Node)) : Prop where
  /-- The parts are the segments of the text, with the nodes that they are read as. -/
  segments : segments family text = parts.map Prod.fst
  /-- Each node has the sign of its segment. -/
  sign : ∀ part ∈ parts, part.2.sign = (family.signedOperand part.1).1
  /-- Its content means what the operand of the segment says. -/
  meaning : ∀ part ∈ parts, ∀ e, Denotes .sum (family.signedOperand part.1).2 e →
    part.2.contentMeaning = e.meaning

namespace ReadsSegments

variable {family : Family} {text left right : Text} {sign : Sign} {parts : List (Text × Node)}
  {e f : Formula}

/-- The operands that are read from a chain are of its family, and there is at least one. -/
theorem family_eq (h : ReadsSegments family text parts)
    (htext : Generates false family.category text) :
    parts.map Prod.snd ≠ [] ∧ ∀ node ∈ parts.map Prod.snd, Family.ofSign node.sign = family := by
  constructor
  · have hlength := congrArg List.length h.segments
    rw [EquationSteps.segments, List.length_cons, List.length_map] at hlength
    exact List.ne_nil_of_length_pos (by rw [List.length_map]; omega)
  · intro node hmem
    obtain ⟨part, hpart, rfl⟩ := List.mem_map.1 hmem
    rw [h.sign part hpart]
    exact (htext.forall_mem_segments part.1
      (by rw [h.segments]; exact List.mem_map_of_mem hpart)).2 rfl

/-- The only operand of an uncut text, which is all of the text up to its sign. -/
theorem of_isUncut (h : ReadsSegments family text parts) (huncut : IsUncut family 0 none text) :
    ∃ node, parts = [(text, node)] ∧ node.sign = (family.signedOperand text).1 ∧
      ∀ e, Denotes .sum (family.signedOperand text).2 e → node.contentMeaning = e.meaning := by
  have hsegments := h.segments
  rw [segments_of_isUncut huncut] at hsegments
  obtain ⟨part, rfl, hpart⟩ := List.map_eq_singleton_iff.1 hsegments.symm
  obtain ⟨segment, node⟩ := part
  obtain rfl : segment = text := hpart
  exact ⟨node, rfl, h.sign _ (List.mem_singleton_self _), h.meaning _ (List.mem_singleton_self _)⟩

/-- The last operand of a chain and the chain in front of it. The sign between them is that of the
last operand. -/
theorem of_append (h : ReadsSegments family (left ++ sign.symbol :: right) parts)
    (hleft : Generates false family.category left) (hsign : Family.ofSign sign = family)
    (hright : Denotes (.signed family.operandCategory) right f) :
    ∃ front node, parts.map Prod.snd = front.map Prod.snd ++ [node] ∧
      ReadsSegments family left front ∧ node.sign = sign ∧ node.contentMeaning = f.meaning := by
  have hsegments := h.segments
  rw [hleft.segments_append hsign hright.generates] at hsegments
  obtain ⟨front, last, rfl, hfront, hlast⟩ := List.map_eq_append_iff.1 hsegments.symm
  obtain ⟨part, rfl, hpart⟩ := List.map_eq_singleton_iff.1 hlast
  have hmem : part ∈ front ++ [part] := List.mem_append_right _ (List.mem_singleton_self _)
  have hoperand : family.signedOperand part.1 = (sign, right) := by
    rw [hpart, Family.signedOperand_symbol]
  refine ⟨front, part.2, by simp, ⟨hfront.symm, ?_, ?_⟩, ?_, ?_⟩
  · exact fun other hother ↦ h.sign other (List.mem_append_left _ hother)
  · exact fun other hother ↦ h.meaning other (List.mem_append_left _ hother)
  · rw [h.sign part hmem, hoperand]
  · exact h.meaning part hmem f (by rw [hoperand]; exact hright.sum_of_operand)

/-- The only operand of a text that is one operand of the family. -/
theorem groupMeaning_of_operand (h : ReadsSegments family text parts)
    (htext : Denotes family.operandCategory text e) :
    Node.groupMeaning (parts.map Prod.snd) = e.meaning := by
  have hsigned := Denotes.unsigned htext
  obtain ⟨node, rfl, hsign, hmeaning⟩ := h.of_isUncut (hsigned.generates.isUncut (Or.inl rfl))
  rw [htext.signedOperand_of_operand] at hsign hmeaning
  have hne : node.sign ≠ .minus := by
    rw [hsign]
    cases family <;> exact fun h ↦ (nomatch h)
  rw [List.map_singleton, Node.groupMeaning_singleton, Node.meaning, Meaning.signed_of_ne hne,
    hmeaning e hsigned.sum_of_operand]

/-- The only term of a text that is one term. There may be signs in front of it, of which the first
is that of the segment and the others belong to its operand. -/
theorem groupMeaning_of_term (h : ReadsSegments .sum text parts)
    (htext : Denotes (.signed .product) text e) :
    Node.groupMeaning (parts.map Prod.snd) = e.meaning := by
  have huncut : IsUncut .sum 0 none text :=
    Generates.isUncut (show Generates false (.signed Family.sum.operandCategory) text from
      htext.generates) (Or.inl rfl)
  cases htext with
  | unsigned hproduct => exact h.groupMeaning_of_operand hproduct
  | plus hterm =>
    obtain ⟨node, rfl, hsign, hmeaning⟩ := h.of_isUncut huncut
    have hplus : node.sign = .plus := hsign
    rw [List.map_singleton, Node.groupMeaning_singleton, Node.meaning, hplus,
      hmeaning _ (.term hterm), Meaning.signed_plus]
  | minus hterm =>
    obtain ⟨node, rfl, hsign, hmeaning⟩ := h.of_isUncut huncut
    have hminus : node.sign = .minus := hsign
    rw [List.map_singleton, Node.groupMeaning_singleton, Node.meaning, hminus,
      hmeaning _ (.term hterm), Meaning.signed_minus, Formula.meaning]

/-- A chain that is continued by one operand. The meaning of the chain in front is given, so that
the lemma serves as the step of an induction. -/
theorem groupMeaning_append (sign : Sign)
    (h : ReadsSegments family (left ++ sign.symbol :: right) parts)
    (hleft : Generates false family.category left) (hsign : Family.ofSign sign = family)
    (hright : Denotes (.signed family.operandCategory) right f) {m : Meaning}
    (hfront : ∀ {front}, ReadsSegments family left front →
      Node.groupMeaning (front.map Prod.snd) = m) :
    Node.groupMeaning (parts.map Prod.snd) =
      if family = .sum then m + .signed sign f.meaning else m * .asFactor sign f.meaning := by
  have hall := h.family_eq (hleft.append family sign hsign hright.generates)
  obtain ⟨front, node, hparts, hreads, hnodeSign, hnode⟩ := h.of_append hleft hsign hright
  have hne := (hreads.family_eq hleft).1
  rw [hparts] at hall ⊢
  by_cases hsum : family = .sum
  · subst hsum
    rw [Node.groupMeaning_concat_of_term hall.2, hfront hreads, Node.meaning, hnodeSign, hnode,
      if_pos rfl]
  · rw [Node.groupMeaning_concat_of_factor hne hsum hall.2, hfront hreads, hnodeSign, hnode,
      if_neg hsum]

/-- **A chain means what it says.** The group of the operands that are read from a chain means the
formula that the chain says. -/
theorem groupMeaning_eq (h : ReadsSegments family text parts)
    (htext : Denotes family.category text e) :
    Node.groupMeaning (parts.map Prod.snd) = e.meaning := by
  generalize hcategory : family.category = category at htext
  induction htext generalizing parts with
  | literal | letter | parenthesized | unsigned | plus | minus => cases family <;> cases hcategory
  | factor htext =>
    cases family <;> cases hcategory
    exact h.groupMeaning_of_operand htext
  | quotient htext =>
    cases family <;> cases hcategory
    exact h.groupMeaning_of_operand htext
  | term htext =>
    cases family <;> cases hcategory
    exact h.groupMeaning_of_term htext
  | divided hleft hright ih =>
    cases family <;> cases hcategory
    exact h.groupMeaning_append .divide hleft.generates rfl hright (ih · rfl)
  | multiplied hleft hright ih =>
    cases family <;> cases hcategory
    exact h.groupMeaning_append .times hleft.generates rfl hright (ih · rfl)
  | added hleft hright ih =>
    cases family <;> cases hcategory
    exact h.groupMeaning_append .plus hleft.generates rfl hright (ih · rfl)
  | subtracted hleft hright ih =>
    cases family <;> cases hcategory
    exact h.groupMeaning_append .minus hleft.generates rfl hright (ih · rfl)

end ReadsSegments

/-! ### Reading keeps what is said

The induction on the reading itself. -/

/-- A text that is not negated is read as a tree without a minus. -/
theorem Reads.sign_of_negated?_eq_none {text : Text} {node : Node} (h : Reads none text node)
    (hnegated : negated? text = none) : node.sign = .plus := by
  cases h with
  | leaf => rfl
  | negated h => cases hnegated.symm.trans h
  | group => rfl
  | nested => exact congrArg Tag.sign (Node.tag_ofContent _ _)
  | operand => rfl

/-- The tree has the given meaning: with its own sign if it was read without one in front, and
without the sign that was read. -/
def IsMeant (sign? : Option Sign) (node : Node) (m : Meaning) : Prop :=
  match sign? with
  | none => node.meaning = m
  | some _ => node.contentMeaning = m

/-- If the content means it and the sign is the one that was given, or a plus, then the tree
does. -/
theorem isMeant_of_contentMeaning {sign? : Option Sign} {node : Node} {m : Meaning}
    (h : node.contentMeaning = m) (hsign : node.sign = sign?.getD .plus) :
    IsMeant sign? node m := by
  cases sign? with
  | none =>
    have hplus : node.sign = .plus := hsign
    show node.meaning = m
    rw [Node.meaning, hplus, h, Meaning.signed_plus]
  | some sign => exact h

/-- A tree that means what is said behind no sign, as the content of another tree. -/
theorem IsMeant.contentMeaning {node : Node} {m : Meaning} (h : IsMeant none node m)
    (hsign : node.sign = .plus) : node.contentMeaning = m := by
  have hmeaning : node.meaning = m := h
  rwa [Node.meaning, hsign, Meaning.signed_plus] at hmeaning

/-- A text without operators is not negated. -/
theorem negated?_of_forall {text : Text} (h : ∀ c ∈ text, isOperator c = false) :
    negated? text = none := by
  cases hnegated : negated? text with
  | none => rfl
  | some operand =>
    obtain ⟨rfl, -⟩ := negated?_eq_some_iff.1 hnegated
    cases h '-' List.mem_cons_self

/-- **A tree means what its text says.** Each way in which a text is read corresponds to a way in
which its formula is built, or to parentheses, which say nothing. -/
theorem Reads.isMeant {sign? : Option Sign} {text : Text} {node : Node} {e : Formula}
    (h : Reads sign? text node) (htext : Denotes .sum text e) : IsMeant sign? node e.meaning := by
  -- what follows a minus that is negated has no operators, so it is read without a minus
  have hinner : ∀ {text operand : Text} {inner : Node} {e : Formula}, Denotes .sum text e →
      negated? text = some operand → Reads none operand inner →
      (∀ {f}, Denotes .sum operand f → IsMeant none inner f.meaning) →
        (Node.fresh .minus inner.content).meaning = e.meaning := by
    intro text operand inner e htext hnegated hreads ih
    obtain ⟨f, rfl, hoperand⟩ := htext.of_negated? hnegated
    have hplus := hreads.sign_of_negated?_eq_none
      (negated?_of_forall (negated?_eq_some_iff.1 hnegated).2)
    rw [Node.meaning, Node.fresh, Node.contentMeaning_ofContent, Node.sign, Node.tag_ofContent,
      (ih hoperand).contentMeaning hplus]
    exact Meaning.signed_minus _
  induction h generalizing e with
  | leaf hleaf =>
    obtain ⟨-, hstrip, hfamily⟩ := of_not_isStructural hleaf
    exact isMeant_of_contentMeaning (htext.ofValue_atomValue hfamily hstrip) rfl
  | negated hnegated hreads ih => exact hinner htext hnegated hreads ih
  | negatedBehind hnegated hreads ih =>
    refine isMeant_of_contentMeaning ?_ rfl
    rw [Node.branch, Node.contentMeaning_group, Node.groupMeaning_singleton]
    exact hinner htext hnegated hreads ih
  | group _ hfamily hsegments hparts ih =>
    refine isMeant_of_contentMeaning ?_ rfl
    rw [Node.branch, Node.contentMeaning_group]
    have hreads : ReadsSegments _ _ _ := ⟨hsegments, fun part hpart ↦ (hparts part hpart).sign,
      fun part hpart _ hsays ↦ ih part hpart hsays⟩
    exact hreads.groupMeaning_eq (htext.stripParentheses.of_classify hfamily)
  | @nested sign? text inner _ _ hnested hreads ih =>
    have hplus : inner.sign = .plus := by
      refine hreads.sign_of_negated?_eq_none ?_
      rw [(of_stripParentheses_ne hnested).1]
      rfl
    refine isMeant_of_contentMeaning ?_ (congrArg Tag.sign (Node.tag_ofContent _ _))
    rw [Node.fresh, Node.contentMeaning_ofContent]
    exact (ih htext.stripParentheses).contentMeaning hplus
  | operand _ _ hfamily hnested =>
    exact isMeant_of_contentMeaning (htext.stripParentheses.ofValue_atomValue hfamily hnested) rfl

/-- What is read from a whole expression means what the expression says. -/
theorem Node.meaning_of_read {limits : Limits} {text : Text} {node : Node} {e : Formula}
    (h : Node.read limits text false = .ok node) (htext : Denotes .sum text.scanned e) :
    node.meaning = e.meaning := by
  obtain ⟨inner, rfl, hbuild⟩ := exists_of_read h
  have hmeaning : inner.meaning = e.meaning := (Reads.of_build hbuild).isMeant htext
  rw [← hmeaning, Node.meaning, Node.meaning, Node.withRoot, Node.contentMeaning_mapTag, Node.sign,
    Node.tag_mapTag]
  rfl

end EquationSteps
