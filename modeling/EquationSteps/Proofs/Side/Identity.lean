import EquationSteps.Proofs.Canonical.Identity
import EquationSteps.Proofs.Side.Inversion

/-!
# Operations on sides and identities

Multiplying and dividing take parts of a term out, put parts together and add copies of the operand,
which are new nodes. So whatever a term looks like, and whatever the answers to the questions about
it are, no node of what becomes of it has an identity that was another one's
(`Node.issued_multiplyTerm_sublist`, `Node.issued_divideTerm_sublist`), and the same holds for a
side, also where the operation fails halfway (`issued_transformSide_sublist`).

**Sublists.** The identities of a tree are listed in the order of its nodes, and what becomes of the
tree has a sublist of them. That is more than an inclusion: an identity that occurs once before
occurs at most once after. And it composes, since a part whose identities become fewer makes those
of the whole fewer.

**Nothing is assumed of the term.** The lemmas hold of any tree, whether it is well-formed or not,
and of any operand whose magnitude has no identities. This is why an operation that fails halfway,
as normalization runs out of passes, is covered as well.

**One lemma for each change.** An operation is a choice between few changes of a term, and which
choices there are is known from `Proofs.Side.Inversion`. The changes themselves are small: a factor
is appended or left out, a content goes under a denominator, a leaf gets another number.
-/

namespace EquationSteps

open Node

namespace Node

variable {node term term' numerator denominator factor : Node} {operand : Operand}
  {content : Content}

/-- The identities of several nodes are no others if those of each node are no others. -/
theorem flatMap_issued_sublist {nodes nodes' : List Node}
    (h : List.Forall₂ (fun node node' ↦ node'.issued.Sublist node.issued) nodes nodes') :
    (nodes'.flatMap issued).Sublist (nodes.flatMap issued) := by
  induction h with
  | nil => exact List.Sublist.refl _
  | cons hfirst _ ih =>
    rw [List.flatMap_cons, List.flatMap_cons]
    exact hfirst.append ih

/-! ### Changing one part of a term -/

/-- The children of a node may be exchanged for others with fewer identities. -/
theorem issued_withChildren_sublist {children : List Node}
    (h : (children.flatMap issued).Sublist (node.children.flatMap issued)) :
    (node.withChildren children).issued.Sublist node.issued := by
  cases node with
  | atom tag text => exact List.Sublist.refl _
  | group tag operands => exact @issued_withOperands_sublist (group tag operands) children h

/-- A turned sign leaves the identities. -/
theorem issued_applySign (cancellation : Cancellation) (term : Node) :
    (cancellation.applySign term).issued = term.issued := by
  cases cancellation with
  | equal => rfl
  | opposite => exact issued_mapTag rfl

/-- A new factor brings no identity along, -/
theorem issued_appendFactor_sublist (hfactor : factor.issued = []) :
    (node.appendFactor factor).issued.Sublist node.issued := by
  unfold appendFactor
  split
  · refine issued_withChildren_sublist ?_
    rw [List.flatMap_append, List.flatMap_singleton, hfactor, List.append_nil]
  · refine issued_withContent_sublist ?_
    rw [issued_fresh_group, List.flatMap_cons, List.flatMap_singleton, hfactor, List.append_nil,
      issued_fresh]

/-- nor does a number, -/
theorem issued_appendNumber_sublist (node : Node) (n : Nat) :
    (node.appendNumber n).issued.Sublist node.issued := by
  unfold appendNumber
  split
  · exact List.Sublist.refl _
  · exact issued_appendFactor_sublist (issued_atom _ _)

/-- nor a new denominator. -/
theorem issued_intoQuotient_sublist (hdenominator : denominator.issued = []) :
    (node.intoQuotient denominator).issued.Sublist node.issued := by
  refine issued_withContent_sublist ?_
  rw [issued_fresh_group, List.flatMap_cons, List.flatMap_singleton, hdenominator, List.append_nil,
    issued_fresh]

/-- What cancels takes its identities with it. -/
theorem issued_cancelled_sublist (node : Node) : node.cancelled.issued.Sublist node.issued :=
  issued_withContent_sublist (List.nil_sublist _)

/-- A child that is left out does, too. -/
theorem issued_eraseIdx_sublist (node : Node) (place : Nat) :
    (node.withChildren (node.children.eraseIdx place)).issued.Sublist node.issued :=
  issued_withChildren_sublist ((List.eraseIdx_sublist _ _).flatMap _)

/-- So does a factor that is taken out of a product. -/
theorem issued_withoutFactor_sublist (node : Node) (place : Nat) :
    (node.withoutFactor place).issued.Sublist node.issued := by
  unfold withoutFactor
  dsimp only
  split
  · exact issued_cancelled_sublist node
  · exact issued_eraseIdx_sublist node place

/-- A fraction that gives way to its numerator keeps its own identity and those below the
numerator. -/
theorem issued_adoptNumerator_sublist (hmem : numerator ∈ term.children) :
    (term.adoptNumerator numerator).issued.Sublist term.issued := by
  rw [adoptNumerator, withPending, issued_mapTag rfl]
  exact issued_withContent_of_mem hmem

/-! ### Common factors of integers

A number that is reduced is another number in the same leaf. -/

/-- A leaf keeps its identity when its number is reduced. -/
theorem issued_reduceAtom?_sublist {node' : Node} {d rest : Nat}
    (h : node.reduceAtom? d = some (node', rest)) : node'.issued.Sublist node.issued := by
  obtain ⟨n, -, h⟩ := Option.bind_eq_some_iff.1 h
  obtain ⟨r, -, h⟩ := Option.bind_eq_some_iff.1 h
  cases h
  exact issued_withContent_sublist (List.nil_sublist _)

/-- Of several nodes one is reduced, and the others stay. -/
theorem issued_reduceFirst?_sublist {nodes nodes' : List Node} {d rest : Nat}
    (h : reduceFirst? d nodes = some (nodes', rest)) :
    (nodes'.flatMap issued).Sublist (nodes.flatMap issued) := by
  induction nodes generalizing nodes' with
  | nil => cases h
  | cons node nodes ih =>
    rw [reduceFirst?] at h
    rw [List.flatMap_cons]
    split at h
    · rename_i reduced left hatom
      cases h
      exact (issued_reduceAtom?_sublist hatom).append_right _
    · obtain ⟨found, hfound, hpair⟩ := Option.map_eq_some_iff.1 h
      cases hpair
      exact (ih hfound).append_left _

/-- A number or a factor of a product is reduced in its place. -/
theorem issued_reduce?_sublist {node' : Node} {d rest : Nat}
    (h : node.reduce? d = some (node', rest)) : node'.issued.Sublist node.issued := by
  unfold reduce? at h
  split at h
  · obtain ⟨found, hfound, hpair⟩ := Option.map_eq_some_iff.1 h
    cases hpair
    exact issued_withChildren_sublist (issued_reduceFirst?_sublist hfound)
  · exact issued_reduceAtom?_sublist h

/-! ### Terms -/

/-- The parts of a fraction may be exchanged for others. -/
theorem issued_fraction_sublist {numerator' denominator' : Node}
    (hparts : term.parts? = some (numerator, denominator))
    (hnumerator : numerator'.issued.Sublist numerator.issued)
    (hdenominator : denominator'.issued.Sublist denominator.issued) :
    (term.withContent (.group [numerator', denominator'])).issued.Sublist term.issued := by
  refine issued_withOperands_sublist ?_
  rw [children_of_parts? hparts, List.flatMap_cons, List.flatMap_singleton, List.flatMap_cons,
    List.flatMap_singleton]
  exact hnumerator.append hdenominator

/-- A fraction may give way to its numerator, with its sign turned. -/
theorem issued_applySign_adoptNumerator_sublist (cancellation : Cancellation)
    (hparts : term.parts? = some (numerator, denominator)) :
    ((cancellation.applySign term).adoptNumerator numerator).issued.Sublist term.issued := by
  rw [← issued_applySign cancellation term]
  refine issued_adoptNumerator_sublist ?_
  rw [children_of_parts? ((parts?_applySign cancellation).trans hparts)]
  exact List.mem_cons_self

/-- A copy of an operand has no identities if the operand has none. -/
theorem issued_operand (hoperand : (fresh .plus operand.magnitude).issued = []) (sign : Sign) :
    (operand.node sign).issued = [] := by
  have hnode := issued_fresh sign (fresh .plus operand.magnitude)
  rw [fresh, fresh, content_ofContent] at hnode
  exact hnode.trans hoperand

section Operand

variable (hoperand : (fresh .plus operand.magnitude).issued = [])

include hoperand

/-- A factor that does not cancel is new. -/
theorem issued_multiplyNumerator_sublist (hparts : term.parts? = some (numerator, denominator)) :
    (term.multiplyNumerator operand numerator denominator).issued.Sublist term.issued := by
  unfold multiplyNumerator
  split
  · rename_i reduced rest hreduce
    obtain ⟨n, -, hreduce⟩ := Option.bind_eq_some_iff.1 hreduce
    split
    · exact (issued_appendNumber_sublist _ rest).trans
        (issued_applySign_adoptNumerator_sublist .equal hparts)
    · exact issued_fraction_sublist hparts (issued_appendNumber_sublist _ rest)
        (issued_reduce?_sublist hreduce)
  · exact issued_fraction_sublist hparts
      (issued_appendFactor_sublist (issued_operand hoperand .times))
      (List.Sublist.refl _)

/-- Multiplying a fraction issues no identity. -/
theorem issued_multiplyFraction_sublist (hparts : term.parts? = some (numerator, denominator))
    (h : (term.multiplyFraction operand numerator denominator).MayReturn term') :
    term'.issued.Sublist term.issued := by
  rcases of_mayReturn_multiplyFraction h with ⟨cancellation, rfl⟩ |
    ⟨-, place, cancellation, -, rfl⟩ | rfl
  · exact issued_applySign_adoptNumerator_sublist cancellation hparts
  · rw [← issued_applySign cancellation term]
    exact issued_fraction_sublist ((parts?_applySign cancellation).trans hparts)
      (List.Sublist.refl _) (issued_eraseIdx_sublist denominator place)
  · exact issued_multiplyNumerator_sublist hoperand hparts

/-- **Multiplying a term issues no identity**, whatever the answers are. -/
theorem issued_multiplyTerm_sublist (h : (term.multiplyTerm operand).MayReturn term') :
    term'.issued.Sublist term.issued := by
  rcases of_mayReturn_multiplyTerm h with ⟨-, rfl⟩ |
    ⟨-, numerator, denominator, hparts, hfraction⟩ | rfl
  · exact List.Sublist.refl _
  · exact issued_multiplyFraction_sublist hoperand hparts hfraction
  · exact issued_appendFactor_sublist (issued_operand hoperand .times)

/-- A divisor that does not cancel is new. -/
theorem issued_reduceOrDivide_sublist (term : Node) :
    (term.reduceOrDivide operand).issued.Sublist term.issued := by
  unfold reduceOrDivide
  split
  · rename_i reduced rest hreduce
    obtain ⟨n, -, hreduce⟩ := Option.bind_eq_some_iff.1 hreduce
    split
    · exact issued_reduce?_sublist hreduce
    · exact (issued_intoQuotient_sublist (issued_atom _ _)).trans (issued_reduce?_sublist hreduce)
  · exact issued_intoQuotient_sublist (issued_operand hoperand .divide)

/-- Dividing a product issues no identity. -/
theorem issued_divideProduct_sublist (h : (term.divideProduct operand).MayReturn term') :
    term'.issued.Sublist term.issued := by
  rcases of_mayReturn_divideProduct h with ⟨place, cancellation, rfl⟩ | rfl
  · rw [issued_applySign]
    exact issued_withoutFactor_sublist term place
  · exact issued_reduceOrDivide_sublist hoperand term

/-- A factor of a denominator is new. -/
theorem issued_divideDenominator_sublist (hparts : term.parts? = some (numerator, denominator)) :
    (term.divideDenominator operand numerator denominator).issued.Sublist term.issued := by
  unfold divideDenominator
  split
  · rename_i reduced rest hreduce
    obtain ⟨n, -, hreduce⟩ := Option.bind_eq_some_iff.1 hreduce
    exact issued_fraction_sublist hparts (issued_reduce?_sublist hreduce)
      (issued_appendNumber_sublist _ rest)
  · exact issued_fraction_sublist hparts (List.Sublist.refl _)
      (issued_appendFactor_sublist (issued_operand hoperand .times))

/-- Dividing a fraction issues no identity. -/
theorem issued_divideFraction_sublist (hparts : term.parts? = some (numerator, denominator))
    (h : (term.divideFraction operand numerator denominator).MayReturn term') :
    term'.issued.Sublist term.issued := by
  rcases of_mayReturn_divideFraction h with ⟨cancellation, rfl⟩ |
    ⟨-, place, cancellation, rfl⟩ | rfl
  · rw [issued_applySign]
    exact issued_fraction_sublist hparts (issued_cancelled_sublist _) (List.Sublist.refl _)
  · rw [issued_applySign]
    exact issued_fraction_sublist hparts (issued_withoutFactor_sublist _ _) (List.Sublist.refl _)
  · exact issued_divideDenominator_sublist hoperand hparts

/-- **Dividing a term issues no identity**, whatever the answers are. -/
theorem issued_divideTerm_sublist (h : (term.divideTerm operand).MayReturn term') :
    term'.issued.Sublist term.issued := by
  rcases of_mayReturn_divideTerm h with ⟨-, rfl⟩ | ⟨cancellation, rfl⟩ | ⟨-, hdivided⟩ |
    ⟨-, numerator, denominator, hparts, hdivided⟩ | rfl | rfl
  · exact List.Sublist.refl _
  · rw [issued_applySign]
    exact issued_cancelled_sublist term
  · exact issued_divideProduct_sublist hoperand hdivided
  · exact issued_divideFraction_sublist hoperand hparts hdivided
  · exact issued_intoQuotient_sublist (issued_operand hoperand .divide)
  · exact issued_reduceOrDivide_sublist hoperand term

end Operand

end Node

/-! ### The side

The operand is read anew for each operation, so its copies have no identities. Normalizing issues
none either, which is known of each of its passes. -/

variable {rationalize : Text → Except ValueError Text} {limits : Limits} {text : Text}
  {onTerm : Operand → Node → Inquiry Node} {side side' : Node} {operand : Operand}

/-- An operand that is read has no identities. -/
theorem Operand.issued_magnitude (h : Operand.read rationalize limits text = .ok operand) :
    (fresh .plus operand.magnitude).issued = [] := by
  obtain ⟨read, hread, h⟩ := Except.ok_of_bind_eq_ok h
  split at h
  · rename_i normalized hnormalize
    cases h
    have hissued := issued_normalize_sublist rationalize limits read
    rw [hnormalize, issued_eq_nil_of_read hread] at hissued
    have hnone := List.sublist_nil.1 hissued
    rw [issued_eq, List.append_eq_nil_iff] at hnone
    exact hnone.2
  · cases h

/-- Whether an operation leaves no identities in a term but those of the term, whatever the answers
to its questions are. -/
def IssuesNothing (onTerm : Operand → Node → Inquiry Node) : Prop :=
  ∀ {operand : Operand} {term term' : Node}, (fresh .plus operand.magnitude).issued = [] →
    (onTerm operand term).MayReturn term' → term'.issued.Sublist term.issued

/-- Multiplying is such an operation. -/
theorem issuesNothing_multiplyTerm : IssuesNothing fun factor term ↦ term.multiplyTerm factor :=
  fun hoperand h ↦ issued_multiplyTerm_sublist hoperand h

/-- So is dividing. -/
theorem issuesNothing_divideTerm : IssuesNothing fun divisor term ↦ term.divideTerm divisor :=
  fun hoperand h ↦ issued_divideTerm_sublist hoperand h

/-- An operand that acts on all terms of a side issues no identity. -/
theorem issued_applyTo_sublist (honTerm : IssuesNothing onTerm)
    (hoperand : (fresh .plus operand.magnitude).issued = [])
    (h : (operand.applyTo onTerm side).MayReturn side') : side'.issued.Sublist side.issued := by
  have hsigned : (side.children.map operand.applySign).flatMap issued =
      side.children.flatMap issued := by
    rw [List.flatMap_map]
    refine List.flatMap_congr fun child _ ↦ ?_
    unfold Operand.applySign
    split
    · exact issued_mapTag rfl
    · rfl
  rcases Operand.of_mayReturn_applyTo h with rfl | ⟨terms, rfl, hterms⟩
  · exact issued_withChildren_sublist (by rw [hsigned])
  · refine issued_withChildren_sublist ?_
    rw [← hsigned]
    exact flatMap_issued_sublist (hterms.imp fun _ _ hterm ↦ honTerm hoperand hterm)

/-- **An operation issues no identity on a side**, whether it succeeds or fails, and whatever the
answers to its questions are. -/
theorem issued_transformSide_sublist {result : Except TreeError Unit}
    (honTerm : IssuesNothing onTerm)
    (h : (transformSide onTerm rationalize limits text side).MayReturn (result, side')) :
    side'.issued.Sublist side.issued := by
  rcases of_mayReturn_transformSide h with ⟨-, rfl⟩ | ⟨operand, applied, hread, happlied, -, rfl⟩
  · exact List.Sublist.refl _
  · have hissued := issued_applyTo_sublist honTerm (Operand.issued_magnitude hread) happlied
    exact (issued_normalize_sublist rationalize limits applied).trans hissued

end EquationSteps
