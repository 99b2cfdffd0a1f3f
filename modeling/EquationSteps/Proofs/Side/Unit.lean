import EquationSteps.Proofs.Equation.Side
import EquationSteps.Side.Divide

/-!
# Operations by a unit

An operand that comes to `1` or `-1` asks nothing and acts on signs only. For `1` the side stays as
it is. For `-1` the signs of all terms turn, and that cannot make a rule apply, on any level: what
keeps the rules from a node does not depend on its sign, up to the sign being additive
(`Node.IsCanonical.flipSign`), and factors and the parts of a fraction have no sign that could turn.
The one exception is a side with a single term that is a sum with a minus. Once it has a plus, the
side takes over the terms of the sum (`Node.reshape_lone`), and these are settled already.

So multiplying and dividing by `-1` is the same, it leaves a settled side
(`Node.IsSettled.normalize_map_flipSign`), and doing it twice gives the side back
(`Node.IsSettled.negated_negated`).

**What comes to a unit** is any text that normalizes to a leaf with the number one, as `01` and
`(1)` do. The oracle is not asked, so nothing is required of it, not even that it is sound. Two
passes are required of the limits, one to take over the terms of a lone sum and one to find out that
nothing is left to do.

**The exception does not come back.** From `-(x+1)` a unit makes `x+1`, and from there it makes
`-x-1`. The parentheses are lost and the sum is the same. So for such a side a second operation does
not undo the first one, which is why its absence is a hypothesis where one is to be undone.
-/

namespace EquationSteps

/-! ### Signs -/

/-- Turning a sign is undone by turning it again. -/
theorem Sign.flipped_eq_iff {sign sign' : Sign} : sign.flipped = sign' ↔ sign = sign'.flipped := by
  cases sign <;> cases sign' <;> decide

/-- A turned sign is of the same family. -/
theorem Family.ofSign_flipped (sign : Sign) : Family.ofSign sign.flipped = Family.ofSign sign := by
  cases sign <;> rfl

namespace Node

variable {rationalize : Text → Except ValueError Text} {limits : Limits}
  {node side only : Node} {tag : Tag} {children : List Node}

/-! ### Turning signs -/

/-- The sign of a node turns, -/
@[simp] theorem sign_flipSign (node : Node) : node.flipSign.sign = node.sign.flipped := by
  rw [flipSign, withSign, sign, tag_mapTag]

/-- and its content stays. -/
theorem family?_flipSign (node : Node) : node.flipSign.family? = node.family? := by
  cases node <;> rfl

/-- Turning the sign of a node twice gives the node back. -/
@[simp] theorem flipSign_flipSign (node : Node) : node.flipSign.flipSign = node := by
  cases node <;> simp [flipSign, withSign, mapTag, sign]

/-- So does turning the signs of several nodes. -/
@[simp] theorem map_flipSign_map_flipSign (nodes : List Node) :
    (nodes.map flipSign).map flipSign = nodes := by
  rw [List.map_map]
  exact (List.map_congr_left fun node _ ↦ flipSign_flipSign node).trans (List.map_id _)

/-- The signs of factors and of the parts of a fraction do not turn. -/
theorem flipSign_eq_self (h : node.sign.isAdditive = false) : node.flipSign = node := by
  have hsign : node.sign.flipped = node.sign := by
    cases hsign : node.sign <;> simp_all [Sign.isAdditive, Sign.flipped]
  rw [flipSign, hsign]
  cases node <;> rfl

/-- The family of a group stays when the signs of its operands turn. -/
theorem family?_map_flipSign (tag : Tag) (children : List Node) :
    (group tag (children.map flipSign)).family? = (group tag children).family? := by
  cases children with
  | nil => rfl
  | cons first rest =>
    show some (Family.ofSign first.flipSign.sign) = some (Family.ofSign first.sign)
    rw [sign_flipSign, Family.ofSign_flipped]

/-- What keeps all rules from a node has nothing to do with which of the additive signs it has. -/
theorem IsCanonical.flipSign (h : node.IsCanonical rationalize) :
    node.flipSign.IsCanonical rationalize := by
  obtain ⟨hidle, hall⟩ := isCanonical_iff.1 h
  cases node with
  | atom tag text =>
    obtain ⟨hroot, hnumber⟩ := isIdle_atom_iff.1 hidle
    exact .atom (isIdle_atom_iff.2 ⟨hroot, hnumber⟩)
  | group tag children =>
    obtain ⟨hnonempty, hexamined, hparts, hsingle, hfactors, hterms⟩ := isIdle_group_iff.1 hidle
    refine .group (isIdle_group_iff.2 ⟨hnonempty, hexamined, hparts, fun only honly ↦ ?_,
      hfactors, hterms⟩)
      hall
    have hsame : tag.sign.flipped.isAdditive = tag.sign.isAdditive := Sign.isAdditive_flipped _
    show if tag.root = true then _ else only.sign = .minus ∧ tag.sign.flipped.isAdditive = false
    rw [hsame]
    exact hsingle only honly

/-- A turned sign leaves the shape. -/
theorem isRegular_flipSign (node : Node) : node.flipSign.isRegular = node.isRegular :=
  isRegular_mapTag rfl

/-- Only terms have signs that turn. -/
theorem map_flipSign_eq_self (hshaped : (group tag children).isShaped = true)
    (hfamily : (group tag children).family? ≠ some .sum) : children.map flipSign = children := by
  refine (List.map_congr_left fun child hmem ↦ flipSign_eq_self ?_).trans (List.map_id _)
  have hchain := isChain_of_isShaped hshaped (List.ne_nil_of_mem hmem)
  obtain ⟨family, hsome⟩ := @exists_family?_of_isChain tag children hchain
  have hsign := ofSign_of_isShaped hshaped hsome child hmem
  refine Bool.eq_false_iff.2 fun hadditive ↦ hfamily ?_
  rw [hsome, ← hsign, Family.ofSign_eq_sum_iff.2 hadditive]

/-- A shaped group keeps its shape when all signs turn. -/
theorem isShaped_map_flipSign (hshaped : (group tag children).isShaped = true) :
    (group tag (children.map flipSign)).isShaped = true := by
  obtain ⟨hchain, hregular, hroot⟩ := isShaped_group_iff.1 hshaped
  have hregular' : ∀ child ∈ children.map flipSign, child.isRegular = true :=
    List.forall_mem_map.2 fun child hmem ↦ (isRegular_flipSign child).trans (hregular child hmem)
  refine isShaped_group_iff.2 ⟨?_, hregular', hroot⟩
  rcases hchain with hchain | ⟨hmark, rfl⟩
  · obtain ⟨hne, family, hfamily⟩ := isChain_iff.1 hchain
    refine Or.inl (isChain_iff.2 ⟨fun hnil ↦ hne (List.map_eq_nil_iff.1 hnil), family,
      List.forall_mem_map.2 fun child hmem ↦ ?_⟩)
    rw [sign_flipSign, Family.ofSign_flipped]
    exact hfamily child hmem
  · exact Or.inr ⟨hmark, rfl⟩

/-! ### Negated sides

What a side comes to under `-1`, with the one exception, and that normalizing has nothing to do but
to make that exception. -/

/-- The only term of a side, if it is a sum with a minus, as in `-(x+1)`. -/
def loneSum? (side : Node) : Option Node :=
  match side.children with
  | [only] => if only.sign = .minus ∧ only.family? = some .sum then some only else none
  | _ => none

/-- What a side comes to under `-1`: the signs of its terms turn, but a side with nothing but a sum
with a minus takes over the terms of the sum, with their signs. -/
def negated (side : Node) : Node :=
  match side.loneSum? with
  | some only => side.withChildren only.children
  | none => side.withChildren (side.children.map flipSign)

theorem loneSum?_eq_some_iff : side.loneSum? = some only ↔
    side.children = [only] ∧ only.sign = .minus ∧ only.family? = some .sum := by
  unfold loneSum?
  split
  · rename_i term hchildren
    rw [hchildren, List.cons.injEq, Option.ite_none_right_eq_some]
    constructor
    · rintro ⟨hsum, hterm⟩
      obtain rfl := Option.some.inj hterm
      exact ⟨⟨rfl, rfl⟩, hsum⟩
    · rintro ⟨⟨rfl, -⟩, hsum⟩
      exact ⟨hsum, rfl⟩
  · rename_i hseveral
    exact iff_of_false (fun h ↦ by cases h) fun h ↦ hseveral only h.1

/-- If it is not a sum with a minus that stands alone, turned signs leave no rule to apply to a
side. -/
theorem isStable_map_flipSign (hshaped : (group tag children).isShaped = true)
    (hroot : tag.root = true) (hlone : (group tag children).loneSum? = none)
    (h : IsStable tag children) :
    IsStable tag (children.map flipSign) := by
  by_cases hsum : (group tag children).family? = some .sum
  · have hfamily : (group tag (children.map flipSign)).family? = some .sum :=
      (family?_map_flipSign tag children).trans hsum
    refine ⟨fun _ hnil ↦ h.nonempty hroot (List.map_eq_nil_iff.1 hnil),
      List.forall_mem_map.2 fun child hmem ↦ ?_, fun hquotient ↦ ?_, fun only honly ↦ ?_,
      fun hproduct ↦ ?_, fun _ hseveral ↦ List.forall_mem_map.2 fun child hmem ↦ ?_⟩
    · rw [flipSign, withSign, isPending, tag_mapTag]
      exact h.examined child hmem
    · cases hfamily.symm.trans hquotient
    · rw [if_pos hroot]
      rintro ⟨hplus, honlySum⟩
      obtain ⟨term, rfl, rfl⟩ := List.map_eq_singleton_iff.1 honly
      -- the term had a minus, and so it would be the one that stands alone
      have hminus : term.sign = .minus :=
        Sign.flipped_eq_iff.1 ((sign_flipSign term).symm.trans hplus)
      have hsome : (group tag [term]).loneSum? = some term :=
        loneSum?_eq_some_iff.2 ⟨rfl, hminus, (family?_flipSign term).symm.trans honlySum⟩
      cases hlone.symm.trans hsome
    · cases hfamily.symm.trans hproduct
    · have hterm := h.terms hsum (by rwa [List.length_map] at hseveral) child hmem
      cases child <;> exact hterm
  · rwa [map_flipSign_eq_self hshaped hsum]

section Lone

variable {onlyTag : Tag} {terms : List Node}

/-- The terms of a sum that stands alone are settled on the side, too. -/
theorem isSettled_of_lone (h : (group tag [group onlyTag terms]).IsSettled rationalize)
    (hminus : onlyTag.sign = .minus) (hsum : (group onlyTag terms).family? = some .sum) :
    (group tag terms).IsSettled rationalize := by
  obtain ⟨-, hregular, hplus⟩ := isShaped_group_iff.1 h.shaped
  obtain ⟨honlyRoot, hchain, hterms⟩ := isRegular_group_iff.1 (hregular _ List.mem_cons_self)
  obtain ⟨hidle, hall⟩ :=
    isCanonical_iff.1 (List.forall_mem_singleton.1 (isCanonical_iff.1 h.canonical).2)
  have hstable := isIdle_group_iff.1 hidle
  have hroot : tag.root = true := h.root
  have hfamily : (group tag terms).family? = some .sum := hsum
  refine ⟨isShaped_group_iff.2 ⟨Or.inl hchain, hterms, hplus⟩, hroot,
    .group (isIdle_group_iff.2 ⟨fun _ ↦ (isChain_iff.1 hchain).1, hstable.examined,
      fun hquotient ↦ ?_, fun only honly ↦ ?_, fun hproduct ↦ ?_, fun _ ↦ hstable.terms hsum⟩) hall⟩
  · cases hfamily.symm.trans hquotient
  · -- a sum below a root has several terms, as it has room for a sign
    have hsingle := hstable.single only honly
    rw [if_neg (by rw [honlyRoot]; exact Bool.false_ne_true), hminus] at hsingle
    cases hsingle.2
  · cases hfamily.symm.trans hproduct

/-- **A sum that stands alone gives way to its terms** once it has a plus. -/
theorem reshape_lone (h : (group tag [group onlyTag terms]).IsSettled rationalize)
    (hminus : onlyTag.sign = .minus) (hsum : (group onlyTag terms).family? = some .sum) :
    (group tag [(group onlyTag terms).flipSign]).reshape rationalize =
      .opened true (group tag terms) := by
  have hroot : tag.root = true := h.root
  have hexamined : onlyTag.pending = false :=
    (isIdle_group_iff.1 (isCanonical_iff.1 h.canonical).1).examined _ List.mem_cons_self
  have hlifted := (isCanonical_iff.1 (isSettled_of_lone h hminus hsum).canonical).1
  generalize honly : (group onlyTag terms).flipSign = only
  have hsign : only.sign = .plus := by
    rw [← honly, sign_flipSign, sign, tag_group, hminus]
    rfl
  have hfamily : only.family? = some .sum := by
    rw [← honly]
    exact hsum
  have hchildren : only.children = terms := by
    rw [← honly]
    rfl
  have hpending : only.isPending = false := by
    rw [← honly]
    exact hexamined
  -- no rule that is tried before collapsing applies
  have hfill : (group tag [only]).fillRoot? = none :=
    fillRoot?_eq_none_iff.2 fun _ ↦ List.cons_ne_nil _ _
  have hwrap : (group tag [only]).wrapRoot? = none := by
    rw [wrapRoot?, isRoot, tag_group, hroot]
    rfl
  have hsettle : (group tag [only]).settle? = none :=
    settle?_eq_none_iff.2 (List.forall_mem_singleton.2 hpending)
  have hregroup : (group tag [only]).regroup? = none :=
    regroup?_eq_none_iff.2 fun _ ↦ Nat.le_add_left 1 1
  -- and collapsing takes over the terms of the sum
  have hcollapse : (group tag [only]).collapse? = some (group tag terms) := by
    rw [collapse?, isRoot, tag_group, hroot, if_pos rfl, lift?, Node.children]
    dsimp only
    rw [if_pos ⟨hsign, hfamily⟩, hchildren]
    rfl
  exact reshape_eq_opened_true hfill
    (rewritten_of_collapse? hwrap hsettle rfl hregroup hcollapse) hlifted

end Lone

/-- **What `-1` makes of a side**: normalizing it after all signs were turned gives the negated
side. -/
theorem IsSettled.normalize_map_flipSign (h : side.IsSettled rationalize)
    (hlimits : 2 ≤ limits.passes) :
    side.negated.IsSettled rationalize ∧ ∃ passes,
      (side.withChildren (side.children.map flipSign)).normalize rationalize limits =
        (.ok passes, side.negated) := by
  obtain ⟨tag, first, rest, rfl⟩ := (isCanonical_iff.1 h.canonical).1.exists_group h.root
  cases hlone : (group tag (first :: rest)).loneSum? with
  | some only =>
    obtain ⟨hchildren, hminus, hsum⟩ := loneSum?_eq_some_iff.1 hlone
    obtain ⟨rfl, rfl⟩ := List.cons.inj hchildren
    cases first with
    | atom onlyTag text => cases hsum
    | group onlyTag terms =>
      have hnegated : (group tag [group onlyTag terms]).negated = group tag terms := by
        rw [negated, hlone]
        rfl
      have hsettled := isSettled_of_lone h hminus hsum
      rw [hnegated]
      exact ⟨hsettled, 1,
        normalize_of_reshape (reshape_lone h hminus hsum) hsettled.canonical hlimits⟩
  | none =>
    have hnegated : (group tag (first :: rest)).negated =
        group tag ((first :: rest).map flipSign) := by
      rw [negated, hlone]
      rfl
    obtain ⟨hidle, hall⟩ := isCanonical_iff.1 h.canonical
    have hstable := isStable_map_flipSign h.shaped h.root hlone (isIdle_group_iff.1 hidle)
    have hcanonical : (group tag ((first :: rest).map flipSign)).IsCanonical rationalize :=
      .group (isIdle_group_iff.2 hstable) (List.forall_mem_map.2 fun child hmem ↦
        (hall child hmem).flipSign)
    rw [hnegated]
    exact ⟨⟨isShaped_map_flipSign h.shaped, h.root, hcanonical⟩, 0,
      hcanonical.normalize (Nat.lt_of_lt_of_le Nat.zero_lt_two hlimits)⟩

/-- Factors and the parts of a fraction stay as they are. -/
theorem IsSettled.negated_eq_self (h : side.IsSettled rationalize)
    (hfamily : side.family? ≠ some .sum) :
    side.negated = side := by
  obtain ⟨tag, first, rest, rfl⟩ := (isCanonical_iff.1 h.canonical).1.exists_group h.root
  have hlone : (group tag (first :: rest)).loneSum? = none := by
    rw [Option.eq_none_iff_forall_ne_some]
    intro only hsome
    obtain ⟨honly, hminus, -⟩ := loneSum?_eq_some_iff.1 hsome
    obtain ⟨rfl, rfl⟩ := List.cons.inj honly
    exact hfamily (congrArg some (Family.ofSign_eq_sum_iff.2 (by rw [hminus]; rfl)))
  rw [negated, hlone]
  exact congrArg (group tag) (map_flipSign_eq_self h.shaped hfamily)

/-- **Negating twice gives the side back**, if the signs are all that turns. -/
theorem IsSettled.negated_negated (h : side.IsSettled rationalize) (hlone : side.loneSum? = none) :
    side.negated.negated = side := by
  obtain ⟨tag, first, rest, rfl⟩ := (isCanonical_iff.1 h.canonical).1.exists_group h.root
  have hnegated : (group tag (first :: rest)).negated =
      group tag ((first :: rest).map flipSign) := by
    rw [negated, hlone]
    rfl
  have hlone' : (group tag ((first :: rest).map flipSign)).loneSum? = none := by
    rw [Option.eq_none_iff_forall_ne_some]
    intro only hsome
    obtain ⟨honly, hminus, hsum⟩ := loneSum?_eq_some_iff.1 hsome
    obtain ⟨term, hterm, rfl⟩ := List.map_eq_singleton_iff.1 honly
    -- a sum with a plus does not stand alone on a settled side
    have hsingle := (isIdle_group_iff.1 (isCanonical_iff.1 h.canonical).1).single term hterm
    rw [if_pos (show tag.root = true from h.root)] at hsingle
    exact hsingle ⟨Sign.flipped_eq_iff.1 ((sign_flipSign term).symm.trans hminus),
      (family?_flipSign term).symm.trans hsum⟩
  rw [hnegated, negated, hlone']
  exact congrArg (group tag) (map_flipSign_map_flipSign _)

end Node

/-! ### Operations

The frame of the operations, for an operand that is a unit. -/

section Operations

variable {rationalize : Text → Except ValueError Text} {limits : Limits} {text : Text}
  {node node' side : Node} {tag : Tag} {passes : Nat} {onTerm : Operand → Node → Inquiry Node}

/-- A text is read as the operand that it comes to. -/
theorem Operand.read_of_normalize (hread : Node.read limits text false = .ok node)
    (hnormalize : node.normalize rationalize limits = (.ok passes, node')) :
    Operand.read rationalize limits text = .ok (.ofNode node') := by
  unfold Operand.read
  rw [hread]
  dsimp only [bind, Except.bind]
  rw [hnormalize]

/-- A text that comes to `1` or `-1` is read as a unit with the sign. -/
theorem Operand.read_of_unit (hread : Node.read limits text false = .ok node)
    (hunit : node.normalize rationalize limits = (.ok passes, .atom tag ['1'])) :
    Operand.read rationalize limits text = .ok ⟨.atom ['1'], ['1'], tag.sign == .minus⟩ :=
  Operand.read_of_normalize hread hunit

/-- An operation by a unit normalizes the side with the signs that the unit leaves, and asks
nothing. -/
theorem transformSide_of_isUnit {operand : Operand}
    (hread : Operand.read rationalize limits text = .ok operand) (hunit : operand.isUnit = true)
    {result : Except TreeError Nat} {side' : Node}
    (hnormalize : (side.withChildren (side.children.map operand.applySign)).normalize
      rationalize limits =
      (result, side')) :
    transformSide onTerm rationalize limits text side = pure (result.map fun _ ↦ (), side') := by
  have happlied : operand.applyTo onTerm side =
      pure (side.withChildren (side.children.map operand.applySign)) := by
    rw [Operand.applyTo, if_pos hunit]
  rw [transformSide, hread]
  dsimp only
  rw [happlied]
  generalize side.withChildren (side.children.map operand.applySign) = applied at hnormalize
  show (pure ((applied.normalize rationalize limits).1.map fun _ ↦ (),
    (applied.normalize rationalize limits).2) : Inquiry _) = _
  rw [hnormalize]

/-- `1` leaves a settled side as it is. -/
theorem transformSide_one (hside : side.IsSettled rationalize) (hlimits : 0 < limits.passes)
    (hread : Operand.read rationalize limits text = .ok ⟨.atom ['1'], ['1'], false⟩) :
    transformSide onTerm rationalize limits text side = pure (.ok (), side) := by
  have hkept : side.children.map (Operand.applySign ⟨.atom ['1'], ['1'], false⟩) = side.children :=
    List.map_id _
  have hnormalize : (side.withChildren (side.children.map
      (Operand.applySign ⟨.atom ['1'], ['1'], false⟩))).normalize rationalize limits =
        (.ok 0, side) := by
    rw [hkept, Node.withChildren_children]
    exact hside.canonical.normalize hlimits
  exact transformSide_of_isUnit hread rfl hnormalize

/-- `-1` negates a settled side. -/
theorem transformSide_negativeOne (hside : side.IsSettled rationalize) (hlimits : 2 ≤ limits.passes)
    (hread : Operand.read rationalize limits text = .ok ⟨.atom ['1'], ['1'], true⟩) :
    transformSide onTerm rationalize limits text side = pure (.ok (), side.negated) := by
  obtain ⟨-, passes, hnormalize⟩ := hside.normalize_map_flipSign hlimits
  exact transformSide_of_isUnit hread rfl hnormalize

/-- **Units act on signs only.** An operand that comes to `1` leaves every settled side as it is,
whether the side is multiplied or divided by it. If it comes to `-1`, both operations negate the
side, which is settled again. If not for a single term that was a sum with a minus, another
operation by `-1` gives the side back. -/
theorem operations_by_unit (hside : side.IsSettled rationalize) (hlimits : 2 ≤ limits.passes)
    (hread : Node.read limits text false = .ok node)
    (hunit : node.normalize rationalize limits = (.ok passes, .atom tag ['1'])) :
    (tag.sign = .plus → ∀ operation ∈ [multiplySide, divideSide],
      operation rationalize limits text side = pure (.ok (), side)) ∧
    (tag.sign = .minus → side.negated.IsSettled rationalize ∧
      ∀ operation ∈ [multiplySide, divideSide],
        operation rationalize limits text side = pure (.ok (), side.negated) ∧
        (side.loneSum? = none →
          operation rationalize limits text side.negated = pure (.ok (), side))) := by
  have hoperand := Operand.read_of_unit hread hunit
  have hpasses : 0 < limits.passes := by omega
  constructor
  · intro hplus
    rw [hplus] at hoperand
    exact List.forall_mem_cons.2 ⟨transformSide_one hside hpasses hoperand,
      List.forall_mem_singleton.2 (transformSide_one hside hpasses hoperand)⟩
  · intro hminus
    rw [hminus] at hoperand
    have hnegated := (hside.normalize_map_flipSign hlimits).1
    have hboth : ∀ onTerm : Operand → Node → Inquiry Node,
        transformSide onTerm rationalize limits text side = pure (.ok (), side.negated) ∧
          (side.loneSum? = none →
            transformSide onTerm rationalize limits text side.negated = pure (.ok (), side)) := by
      intro onTerm
      refine ⟨transformSide_negativeOne hside hlimits hoperand, fun hlone ↦ ?_⟩
      rw [transformSide_negativeOne hnegated hlimits hoperand, hside.negated_negated hlone]
    exact ⟨hnegated, List.forall_mem_cons.2 ⟨hboth _, List.forall_mem_singleton.2 (hboth _)⟩⟩

/-- Multiplied by `-01`, the side `x-2` is `-x+2`, and divided by it again it is `x-2`. The side
`-(x+1)` comes to `x+1`, and `1` leaves it as it is. -/
theorem operations_by_unit_sums : ∃ side lone : Node,
    (side.IsSettled Oracle.exactFraction ∧ side.toText = "x-2".toList) ∧
      (lone.IsSettled Oracle.exactFraction ∧ lone.toText = "-(x+1)".toList) ∧
        multiplySide Oracle.exactFraction .standard "-01".toList side =
            pure (.ok (), side.negated) ∧
          side.negated.toText = "-x+2".toList ∧
            divideSide Oracle.exactFraction .standard "-01".toList side.negated =
                pure (.ok (), side) ∧
              multiplySide Oracle.exactFraction .standard "-01".toList lone =
                  pure (.ok (), lone.negated) ∧
                lone.negated.toText = "x+1".toList ∧
                  divideSide Oracle.exactFraction .standard ['1'] lone = pure (.ok (), lone) := by
  have hletter : ∀ sign, (Node.leaf sign ['x']).IsCanonical Oracle.exactFraction := fun _ ↦
    .atom ⟨rfl, rfl, rfl, rfl, rfl, rfl, rfl⟩
  have hnumber : ∀ sign, (Node.leaf sign ['1']).IsCanonical Oracle.exactFraction ∧
      (Node.leaf sign ['2']).IsCanonical Oracle.exactFraction := fun _ ↦
    ⟨.atom ⟨rfl, rfl, rfl, rfl, rfl, rfl, rfl⟩, .atom ⟨rfl, rfl, rfl, rfl, rfl, rfl, rfl⟩⟩
  have hside :
      (Node.group ⟨none, .plus, true, false⟩ [.leaf .plus ['x'], .leaf .minus ['2']]).IsSettled
      Oracle.exactFraction :=
    ⟨by decide, rfl, .group ⟨rfl, rfl, rfl, rfl, rfl, rfl, rfl⟩
      (List.forall_mem_cons.2 ⟨hletter _, List.forall_mem_singleton.2 (hnumber _).2⟩)⟩
  have hlone : (Node.group ⟨none, .plus, true, false⟩
      [.branch .minus [.leaf .plus ['x'], .leaf .plus ['1']]]).IsSettled Oracle.exactFraction := by
    refine ⟨by decide, rfl,
      .group ⟨rfl, rfl, rfl, rfl, rfl, rfl, rfl⟩ (List.forall_mem_singleton.2 ?_)⟩
    exact .group ⟨rfl, rfl, rfl, rfl, rfl, rfl, rfl⟩
      (List.forall_mem_cons.2 ⟨hletter _, List.forall_mem_singleton.2 (hnumber _).1⟩)
  have hminus : Node.read .standard "-01".toList false = .ok (.leaf .minus ['0', '1']) := rfl
  have hone : Node.read .standard ['1'] false = .ok (.leaf .plus ['1']) := rfl
  have hminusUnit : (Node.leaf .minus ['0', '1']).normalize Oracle.exactFraction .standard =
      (.ok 1, .leaf .minus ['1']) :=
    Node.normalize_of_reshape rfl (hnumber _).1 (by decide)
  have honeUnit : (Node.leaf .plus ['1']).normalize Oracle.exactFraction .standard =
      (.ok 0, .leaf .plus ['1']) := (hnumber _).1.normalize (by decide)
  obtain ⟨-, hturned⟩ := (operations_by_unit hside (by decide) hminus hminusUnit).2 rfl
  obtain ⟨-, hlifted⟩ := (operations_by_unit hlone (by decide) hminus hminusUnit).2 rfl
  have hkept := (operations_by_unit hlone (by decide) hone honeUnit).1 rfl
  exact ⟨_, _, ⟨hside, by decide⟩, ⟨hlone, by decide⟩, (hturned _ List.mem_cons_self).1, by decide,
    (hturned divideSide (by simp)).2 rfl, (hlifted _ List.mem_cons_self).1, by decide,
    hkept divideSide (by simp)⟩

end Operations

end EquationSteps
