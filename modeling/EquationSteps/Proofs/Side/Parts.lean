import EquationSteps.Proofs.Canonical.Rules
import EquationSteps.Side.Divide

/-!
# How terms grow and shrink

The changes that multiplying and dividing make to a part of a term, each with what it does to the
part's meaning. A part is a tree below a root in which only terms are pending (`Node.IsPart`); a
change leaves its tag as it is and gives it a new meaning (`Node.Becomes`).

* A factor is appended (`becomes_appendFactor`) or taken out (`becomes_withoutFactor`).
* A content is put over a denominator (`becomes_intoQuotient`), or a fraction is changed in one of
  its parts (`becomes_fraction`).
* An integer in a part is divided by what it shares with another integer (`of_reduce?`).

**Contents and meanings.** What a node means depends on its sign, and what changes here is the
content under it. So the statements are about `Node.contentMeaning`, in which signs do not occur,
and they are the same for a term, a factor of it or a part of a fraction. The sign is put on at the
end (`Becomes.meaning_signed`).

**Marks.** The operands of a product or a fraction must not be pending, because the mark has a
meaning only in a sum. `Node.IsLink` says so of an operand, together with the sign that it has; it
is what a part has to be in order to stand in a group of that sign's family.

Nothing is asked here and nothing has to be defined. If a part is undefined, then what becomes of it
is undefined as well, which is why meanings are used and not functions.
-/

namespace EquationSteps

/-- The meaning of a natural number. -/
noncomputable def Meaning.number (n : Nat) : Meaning :=
  .of (RationalFunction.constant (n : Rat)).toField

namespace Meaning

/-- The product of two numbers. -/
theorem number_mul (m n : Nat) : number m * number n = number (m * n) := by
  simp [number]

/-- The number one is the unit of multiplication. -/
@[simp] theorem number_one : number 1 = 1 := by
  simp [number, of_one]

/-- Any other number than zero may be divided by. -/
theorem inv_number_ne_undefined {n : Nat} (h : n ≠ 0) : (number n)⁻¹ ≠ undefined := by
  have hne : (RationalFunction.constant (n : Rat)).toField ≠ 0 := by
    rw [RationalFunction.toField_constant]
    refine (map_ne_zero ((algebraMap (MvPolynomial Char ℚ) FunctionField).comp MvPolynomial.C)).2 ?_
    exact Nat.cast_ne_zero.2 h
  rw [number, inv_of hne]
  exact of_ne_undefined _

end Meaning

namespace Node

variable {node node' part factor numerator denominator : Node} {tag : Tag} {sign : Sign}
  {children : List Node} {m n : Meaning}

/-! ### Parts -/

/-- A tree below a root in which only terms are pending. -/
structure IsPart (node : Node) : Prop where
  /-- It has the shape of a tree below a root. -/
  regular : node.isRegular = true
  /-- What is pending in it is a term of a sum. -/
  marks : node.marksInSums = true

/-- A part that can be an operand with the given sign: it is not pending itself. -/
structure IsLink (sign : Sign) (node : Node) : Prop extends IsPart node where
  /-- It has the sign of the family that it is an operand of. -/
  sign_eq : node.sign = sign
  /-- It is not pending. -/
  examined : node.isPending = false

/-- The second part is what the first one has become: its tag is the same, and its content has the
given meaning. -/
structure Becomes (node node' : Node) (m : Meaning) : Prop extends IsPart node' where
  /-- Sign, identity and marks are kept. -/
  tag_eq : node'.tag = node.tag
  /-- The content means what is given. -/
  meaning_eq : node'.contentMeaning = m

/-- A part that does not change. -/
theorem IsPart.becomes (h : node.IsPart) : node.Becomes node node.contentMeaning :=
  ⟨h, rfl, rfl⟩

/-- What became of an operand is an operand with the same sign. -/
theorem Becomes.isLink (h : node.Becomes node' m) (hnode : node.IsLink sign) :
    node'.IsLink sign where
  toIsPart := h.toIsPart
  sign_eq := by rw [Node.sign, h.tag_eq, ← hnode.sign_eq, Node.sign]
  examined := by rw [isPending, h.tag_eq, ← hnode.examined, isPending]

/-- What became of a term is a term. -/
theorem Becomes.isTerm (h : node.Becomes node' m) (hadditive : node.sign.isAdditive = true) :
    node'.IsTerm where
  additive := by rw [Node.sign, h.tag_eq, ← hadditive, Node.sign]
  regular := h.regular
  marks := h.marks

/-- What became of a node has the node's sign. -/
theorem Becomes.meaning_signed (h : node.Becomes node' m) :
    node'.meaning = .signed node.sign m := by
  rw [meaning, h.meaning_eq, Node.sign, h.tag_eq, Node.sign]

/-- The meaning may be written in another way. -/
theorem Becomes.of_eq (h : node.Becomes node' m) (hmeaning : m = n) : node.Becomes node' n :=
  hmeaning ▸ h

/-- A part is below a root. -/
theorem IsPart.isRoot (h : node.IsPart) : node.tag.root = false :=
  isRoot_of_isRegular h.regular

/-- A part stays one under another tag that is not the one of a root. -/
theorem IsPart.mapTag {f : Tag → Tag} (h : node.IsPart)
    (hroot : (f node.tag).root = node.tag.root) :
    (node.mapTag f).IsPart where
  regular := by rw [isRegular_mapTag hroot]; exact h.regular
  marks := by rw [marksInSums_mapTag]; exact h.marks

/-- A leaf takes the place of a part. -/
theorem becomes_atom {text : Text} (h : node.IsPart) (htext : isOperandText text = true) :
    node.Becomes (node.withContent (.atom text)) (.ofValue (atomValue text)) where
  regular := isRegular_atom_iff.2 ⟨h.isRoot, htext⟩
  marks := rfl
  tag_eq := rfl
  meaning_eq := rfl

/-- A group of factors or divisors takes the place of a part. -/
theorem becomes_group (h : node.IsPart) (hne : children ≠ [])
    (hchildren : ∀ child ∈ children, child.IsLink sign) :
    node.Becomes (node.withContent (.group children)) (groupMeaning children) where
  regular := isRegular_group_iff.2 ⟨h.isRoot,
    isChain_of_family hne fun child hmem ↦ by rw [(hchildren child hmem).sign_eq],
    fun child hmem ↦ (hchildren child hmem).regular⟩
  marks := marksInSums_group_iff.2 ⟨Or.inr fun child hmem ↦ (hchildren child hmem).examined,
    fun child hmem ↦ (hchildren child hmem).marks⟩
  tag_eq := rfl
  meaning_eq := contentMeaning_group _ _

/-- The content of a part as a new operand. -/
theorem isLink_fresh (h : node.IsPart) (sign : Sign) : (fresh sign node.content).IsLink sign where
  regular := isRegular_ofContent rfl h.regular
  marks := by rw [fresh, marksInSums_ofContent]; exact h.marks
  sign_eq := by rw [fresh, Node.sign, tag_ofContent]; rfl
  examined := by rw [fresh, isPending, tag_ofContent]; rfl

/-- A number as a new operand. -/
theorem isLink_digits (sign : Sign) (n : Nat) : (leaf sign (Numeral.digits n)).IsLink sign where
  regular := isRegular_atom_iff.2 ⟨rfl, isOperandText_of_isInteger (Numeral.isInteger_digits n)⟩
  marks := rfl
  sign_eq := rfl
  examined := rfl

/-- The operands of a product and of a fraction. -/
theorem IsPart.isLink_of_mem (h : node.IsPart) {family : Family}
    (hfamily : node.family? = some family) (hsum : family ≠ .sum) {child : Node}
    (hmem : child ∈ node.children) :
    child.IsLink family.defaultSign := by
  cases node with
  | atom tag text => exact absurd hmem List.not_mem_nil
  | group tag children =>
    obtain ⟨-, hchain, hregular⟩ := isRegular_group_iff.1 h.regular
    obtain ⟨hexamined, hmarks⟩ := marksInSums_group_iff.1 h.marks
    have hsign := ofSign_of_isChain hchain hfamily child hmem
    refine ⟨⟨hregular child hmem, hmarks child hmem⟩, ?_, ?_⟩
    · cases family with
      | sum => exact absurd rfl hsum
      | product => exact Family.ofSign_eq_product_iff.1 hsign
      | quotient => exact Family.ofSign_eq_quotient_iff.1 hsign
    · refine hexamined.resolve_left (fun h ↦ ?_) child hmem
      exact hsum (Option.some.inj (hfamily.symm.trans h))

/-! ### Products -/

/-- The meaning of a product is the product of its factors' meanings. -/
theorem contentMeaning_of_product (h : node.isRegular = true)
    (hproduct : node.family? = some .product) :
    node.contentMeaning = (node.children.map contentMeaning).prod := by
  cases node with
  | atom tag text => cases hproduct
  | group tag children =>
    obtain ⟨-, hchain, -⟩ := isRegular_group_iff.1 h
    rw [contentMeaning_group, groupMeaning_of_factors (isChain_iff.1 hchain).1 fun child hmem ↦
      Family.ofSign_eq_product_iff.1 (ofSign_of_isChain hchain hproduct child hmem)]
    rfl

/-- The meaning of some factors. -/
theorem groupMeaning_of_links (hne : children ≠ []) (h : ∀ child ∈ children, child.IsLink .times) :
    groupMeaning children = (children.map contentMeaning).prod :=
  groupMeaning_of_factors hne fun child hmem ↦ (h child hmem).sign_eq

/-- Exchanging the operands of a group that has a family. -/
theorem withChildren_of_family? {family : Family} (h : node.family? = some family)
    (children : List Node) : node.withChildren children = node.withContent (.group children) := by
  cases node with
  | atom tag text => cases h
  | group tag operands => rfl

/-- **One factor more.** -/
theorem becomes_appendFactor (h : node.IsPart) (hfactor : factor.IsLink .times) :
    node.Becomes (node.appendFactor factor) (node.contentMeaning * factor.contentMeaning) := by
  unfold appendFactor
  split
  · rename_i hproduct
    have hlinks : ∀ child ∈ node.children ++ [factor], child.IsLink .times :=
      List.forall_mem_append.2 ⟨fun child hmem ↦ h.isLink_of_mem hproduct (by decide) hmem,
        List.forall_mem_singleton.2 hfactor⟩
    have hne := List.append_ne_nil_of_right_ne_nil node.children (List.cons_ne_nil factor [])
    rw [withChildren_of_family? hproduct]
    refine (becomes_group h hne hlinks).of_eq ?_
    rw [groupMeaning_of_links hne hlinks, contentMeaning_of_product h.regular hproduct,
      List.map_append, List.prod_append, List.map_singleton, List.prod_singleton]
  · have hlinks : ∀ child ∈ [fresh .times node.content, factor], child.IsLink .times :=
      List.forall_mem_cons.2 ⟨isLink_fresh h .times, List.forall_mem_singleton.2 hfactor⟩
    refine (becomes_group h (List.cons_ne_nil _ _) hlinks).of_eq ?_
    rw [groupMeaning_of_links (List.cons_ne_nil _ _) hlinks, List.map_cons, List.prod_cons,
      List.map_singleton, List.prod_singleton, fresh, contentMeaning_ofContent]

/-- One number more, unless it is one. -/
theorem becomes_appendNumber (h : node.IsPart) (n : Nat) :
    node.Becomes (node.appendNumber n) (node.contentMeaning * .number n) := by
  unfold appendNumber
  split
  · rename_i hone
    rw [hone, Meaning.number_one, mul_one]
    exact h.becomes
  · refine (becomes_appendFactor h (isLink_digits .times n)).of_eq ?_
    rw [contentMeaning_digits]
    rfl

/-- A product is one of its factors times the others. -/
theorem contentMeaning_eq_mul_prod {place : Nat} (h : node.IsPart)
    (hproduct : node.family? = some .product) (hplace : node.children[place]? = some factor) :
    node.contentMeaning =
      factor.contentMeaning * ((node.children.eraseIdx place).map contentMeaning).prod := by
  obtain ⟨hlt, hfactor⟩ := List.getElem?_eq_some_iff.1 hplace
  have hlength : place < (node.children.map contentMeaning).length := by rwa [List.length_map]
  rw [contentMeaning_of_product h.regular hproduct,
    ← List.CommMonoid.mul_prod_eraseIdx (i := place) hlength, List.getElem_map, hfactor,
    List.eraseIdx_map]

/-- **One factor less**, if others are left. -/
theorem becomes_eraseIdx (place : Nat) (h : node.IsPart) (hproduct : node.family? = some .product)
    (hne : node.children.eraseIdx place ≠ []) :
    node.Becomes (node.withChildren (node.children.eraseIdx place))
      ((node.children.eraseIdx place).map contentMeaning).prod := by
  have hlinks : ∀ child ∈ node.children.eraseIdx place, child.IsLink .times := fun child hmem ↦
    h.isLink_of_mem hproduct (by decide) ((List.eraseIdx_sublist _ _).subset hmem)
  rw [withChildren_of_family? hproduct]
  exact (becomes_group h hne hlinks).of_eq (groupMeaning_of_links hne hlinks)

/-- One factor less, or a leaf with the number one if none is left. -/
theorem becomes_withoutFactor (place : Nat) (h : node.IsPart)
    (hproduct : node.family? = some .product) :
    node.Becomes (node.withoutFactor place)
      ((node.children.eraseIdx place).map contentMeaning).prod := by
  unfold withoutFactor
  dsimp only
  split
  · rename_i hempty
    rw [List.isEmpty_iff.1 hempty]
    exact (becomes_atom h rfl).of_eq (contentMeaning_one node.tag)
  · rename_i hnonempty
    exact becomes_eraseIdx place h hproduct fun hnil ↦ hnonempty (List.isEmpty_iff.2 hnil)

/-- What cancels as a whole becomes one. -/
theorem becomes_cancelled (h : node.IsPart) : node.Becomes node.cancelled 1 :=
  (becomes_atom h rfl).of_eq (contentMeaning_one node.tag)

/-! ### Fractions -/

/-- A fraction takes the place of a part. -/
theorem becomes_fraction (h : node.IsPart) (hnumerator : numerator.IsLink .divide)
    (hdenominator : denominator.IsLink .divide) :
    node.Becomes (node.withContent (.group [numerator, denominator]))
      (numerator.contentMeaning * denominator.contentMeaning⁻¹) := by
  have hlinks : ∀ child ∈ [numerator, denominator], child.IsLink .divide :=
    List.forall_mem_cons.2 ⟨hnumerator, List.forall_mem_singleton.2 hdenominator⟩
  refine (becomes_group h (List.cons_ne_nil _ _) hlinks).of_eq ?_
  rw [groupMeaning_of_parts fun child hmem ↦ (hlinks child hmem).sign_eq, List.map_singleton,
    List.prod_singleton]

/-- The content over a denominator. -/
theorem becomes_intoQuotient (h : node.IsPart) (hdenominator : denominator.IsLink .divide) :
    node.Becomes (node.intoQuotient denominator)
      (node.contentMeaning * denominator.contentMeaning⁻¹) := by
  refine (becomes_fraction h (isLink_fresh h .divide) hdenominator).of_eq ?_
  rw [fresh, contentMeaning_ofContent]

/-- A fraction of two parts. -/
theorem of_parts? (h : node.IsPart) (hquotient : node.family? = some .quotient)
    (hparts : node.parts? = some (numerator, denominator)) :
    numerator.IsLink .divide ∧ denominator.IsLink .divide ∧
      node.contentMeaning = numerator.contentMeaning * denominator.contentMeaning⁻¹ := by
  have hchildren : node.children = [numerator, denominator] := by
    unfold parts? at hparts
    split at hparts
    · rename_i heq
      cases hparts
      exact heq
    · cases hparts
  have hlinks : ∀ child ∈ [numerator, denominator], child.IsLink .divide := fun child hmem ↦
    h.isLink_of_mem hquotient (by decide) (hchildren ▸ hmem)
  refine ⟨hlinks _ List.mem_cons_self,
    hlinks _ (List.mem_cons_of_mem _ (List.mem_singleton_self _)), ?_⟩
  cases node with
  | atom tag text => cases hquotient
  | group tag children =>
    obtain rfl : children = [numerator, denominator] := hchildren
    rw [contentMeaning_group, groupMeaning_of_parts fun child hmem ↦ (hlinks child hmem).sign_eq,
      List.map_singleton, List.prod_singleton]

/-- A fraction that gives way to its numerator is pending. -/
theorem becomes_adoptNumerator (h : node.IsPart) (hnumerator : numerator.IsPart) :
    (node.withPending true).Becomes (node.adoptNumerator numerator) numerator.contentMeaning := by
  have htaken : (ofContent node.tag numerator.content).IsPart := by
    refine ⟨isRegular_ofContent h.isRoot hnumerator.regular, ?_⟩
    rw [marksInSums_ofContent]
    exact hnumerator.marks
  refine ⟨htaken.mapTag rfl, ?_, ?_⟩
  · rw [adoptNumerator, withPending, withPending, tag_mapTag, tag_mapTag, tag_withContent]
  · rw [adoptNumerator, withPending, contentMeaning_mapTag, withContent, contentMeaning_ofContent]

/-! ### Common factors of integers

A common factor of two integers is taken out of both. In a part that is a number this is done to the
leaf, in a product to the first factor that shares one with the given number. -/

/-- Two natural numbers that are reduced by a common factor. -/
theorem of_reduction {a b : Nat} {r : Reduction} (h : Reduction.of? a b = some r) :
    r.removed ≠ 0 ∧ r.left = r.left.natAbs ∧ a = r.left.natAbs * r.removed ∧
      b = r.right.toNat * r.removed := by
  have hleft := Reduction.removed_mul_left h
  have hright := Reduction.removed_mul_right h
  have hremoved : 1 < r.removed := by
    unfold Reduction.of? at h
    dsimp only at h
    split at h
    · rename_i hlarge
      cases h
      exact hlarge
    · cases h
  -- both numbers are natural, so what is left of them is not negative
  have hnonneg : ∀ {z : Int} {n : Nat}, (r.removed : Int) * z = n → 0 ≤ z := fun {z n} h ↦ by
    by_contra hneg
    have hpos : (0 : Int) < r.removed := by omega
    have hmul := Int.mul_neg_of_pos_of_neg hpos (not_le.1 hneg)
    omega
  have hleftNat : r.left = r.left.natAbs := (Int.natAbs_of_nonneg (hnonneg hleft)).symm
  have hrightNat : r.right = r.right.toNat := (Int.toNat_of_nonneg (hnonneg hright)).symm
  refine ⟨by omega, hleftNat, ?_, ?_⟩
  · rw [hleftNat] at hleft
    rw [mul_comm]
    exact_mod_cast hleft.symm
  · rw [hrightNat] at hright
    rw [mul_comm]
    exact_mod_cast hright.symm

/-- What reducing an integer in a part and the integer `d` comes to: both are divided by the same
number. -/
def Reduces (d rest : Nat) (node node' : Node) : Prop :=
  ∃ g m, g ≠ 0 ∧ d = rest * g ∧ node.Becomes node' m ∧ node.contentMeaning = m * .number g

/-- A leaf with a number is reduced. -/
theorem of_reduceAtom? {d rest : Nat} (h : node.IsPart)
    (hreduce : node.reduceAtom? d = some (node', rest)) : Reduces d rest node node' := by
  unfold reduceAtom? at hreduce
  obtain ⟨n, hn, hreduce⟩ := Option.bind_eq_some_iff.1 hreduce
  obtain ⟨r, hr, hreduce⟩ := Option.bind_eq_some_iff.1 hreduce
  obtain ⟨hremoved, hleft, hproduct, hd⟩ := of_reduction hr
  cases hreduce
  cases node with
  | group tag children => cases hn
  | atom tag text =>
    obtain ⟨hinteger, hvalue⟩ := Numeral.integer?_eq_some_iff.1 hn
    have htext := @Numeral.integerText_of_nonneg r.left (by omega)
    refine ⟨r.removed, .number r.left.natAbs, hremoved, hd, ?_, ?_⟩
    · rw [htext]
      exact (becomes_atom h (isOperandText_of_isInteger (Numeral.isInteger_digits _))).of_eq
        (contentMeaning_digits .plus _)
    · rw [contentMeaning_atom, atomValue_of_isInteger hinteger, hvalue, Meaning.ofValue_ok,
        Meaning.number_mul, ← hproduct]
      rfl

/-- The first of several factors that can be reduced is. -/
theorem of_reduceFirst? {d rest : Nat} {nodes nodes' : List Node}
    (h : ∀ node ∈ nodes, node.IsLink .times)
    (hreduce : reduceFirst? d nodes = some (nodes', rest)) :
    nodes' ≠ [] ∧ (∀ node ∈ nodes', node.IsLink .times) ∧ ∃ g, g ≠ 0 ∧ d = rest * g ∧
      (nodes.map contentMeaning).prod = (nodes'.map contentMeaning).prod * .number g := by
  induction nodes generalizing nodes' with
  | nil => cases hreduce
  | cons node nodes ih =>
    obtain ⟨hnode, hnodes⟩ := List.forall_mem_cons.1 h
    rw [reduceFirst?] at hreduce
    split at hreduce
    · rename_i reduced left hatom
      cases hreduce
      obtain ⟨g, m, hg, hd, hbecomes, hmeaning⟩ := of_reduceAtom? hnode.toIsPart hatom
      refine ⟨List.cons_ne_nil _ _, List.forall_mem_cons.2 ⟨hbecomes.isLink hnode, hnodes⟩, g, hg,
        hd, ?_⟩
      rw [List.map_cons, List.prod_cons, List.map_cons, List.prod_cons, hmeaning,
        hbecomes.meaning_eq, mul_right_comm]
    · obtain ⟨found, hfound, hpair⟩ := Option.map_eq_some_iff.1 hreduce
      cases hpair
      obtain ⟨-, hlinks, g, hg, hd, hmeaning⟩ := ih hnodes hfound
      refine ⟨List.cons_ne_nil _ _, List.forall_mem_cons.2 ⟨hnode, hlinks⟩, g, hg, hd, ?_⟩
      rw [List.map_cons, List.prod_cons, List.map_cons, List.prod_cons, hmeaning, mul_assoc]

/-- **What the integers share is divided out.** -/
theorem of_reduce? {d rest : Nat} (h : node.IsPart)
    (hreduce : node.reduce? d = some (node', rest)) : Reduces d rest node node' := by
  unfold reduce? at hreduce
  split at hreduce
  · rename_i hproduct
    obtain ⟨⟨factors, left⟩, hfactors, hpair⟩ := Option.map_eq_some_iff.1 hreduce
    cases hpair
    obtain ⟨hne, hlinks, g, hg, hd, hmeaning⟩ := of_reduceFirst?
      (fun child hmem ↦ h.isLink_of_mem hproduct (by decide) hmem) hfactors
    rw [withChildren_of_family? hproduct]
    refine ⟨g, _, hg, hd, becomes_group h hne hlinks, ?_⟩
    rw [contentMeaning_of_product h.regular hproduct, hmeaning, groupMeaning_of_links hne hlinks]
  · exact of_reduceAtom? h hreduce

end Node

end EquationSteps
