import EquationSteps.Proofs.Meaning.Tree
import EquationSteps.Proofs.Tree.Shape

/-!
# The meaning of a group

A group means the same whatever its own tag is, so the meaning of a list of operands is a notion of
its own (`Node.groupMeaning`). Where all operands are of one family it is the sum of the terms
(`groupMeaning_of_terms`), the product of the factors (`groupMeaning_of_factors`), or the numerator
times the inverses of the denominators (`groupMeaning_of_parts`). Operands may be exchanged for
others of the same family and meaning (`groupMeaning_congr`).

**An operand is its family and its meaning.** What an operand contributes depends on its content and
its sign. For terms the two go together into `Node.meaning`. For factors and divisors the sign says
what is done with the content, and it is determined by the family, so the meaning as a term, in
which such a sign does nothing, tells the rest (`asFactor_eq_of_meaning`). That is why `Agrees` has
two fields, and why rules may turn the sign of a term.

The empty list means zero. A group of factors without operands would rather mean one, and this is
where a root that loses all of its factors changes its value.
-/

namespace EquationSteps.Node

/-- What relates each element of a list to its image relates the list to the list of the images. -/
theorem forall₂_map_of_forall_mem {α β : Type} {relation : α → β → Prop} {f : α → β} {list : List α}
    (h : ∀ a ∈ list, relation a (f a)) : List.Forall₂ relation list (list.map f) :=
  List.forall₂_map_right_iff.2 (List.forall₂_same.2 h)

/-- The meaning of a group with the given operands. -/
noncomputable def groupMeaning (nodes : List Node) : Meaning :=
  contentMeaning (branch .plus nodes)

/-- The tag of a group does not count for its content. -/
theorem contentMeaning_group (tag : Tag) (children : List Node) :
    contentMeaning (.group tag children) = groupMeaning children := by
  cases children <;> rfl

/-- An empty group means zero, of whichever family its operands were. -/
@[simp] theorem groupMeaning_nil : groupMeaning [] = 0 :=
  contentMeaning_nil _

/-- Terms add up. -/
theorem groupMeaning_of_terms {nodes : List Node}
    (h : ∀ node ∈ nodes, node.sign.isAdditive = true) :
    groupMeaning nodes = (nodes.map meaning).sum := by
  cases nodes with
  | nil => exact groupMeaning_nil
  | cons first rest => exact contentMeaning_of_isAdditive (h first List.mem_cons_self)

/-- Factors multiply. -/
theorem groupMeaning_of_factors {nodes : List Node} (hne : nodes ≠ [])
    (h : ∀ node ∈ nodes, node.sign = .times) :
    groupMeaning nodes = (nodes.map contentMeaning).prod := by
  cases nodes with
  | nil => exact absurd rfl hne
  | cons first rest =>
    obtain ⟨hfirst, hrest⟩ := List.forall_mem_cons.1 h
    rw [groupMeaning, branch, contentMeaning_of_not_isAdditive (by rw [hfirst]; rfl), List.map_cons,
      List.prod_cons]
    congr 2
    exact List.map_congr_left fun node hmem ↦ by rw [hrest node hmem, Meaning.asFactor_times]

/-- The numerator is divided by each denominator. -/
theorem groupMeaning_of_parts {first : Node} {rest : List Node}
    (h : ∀ node ∈ first :: rest, node.sign = .divide) :
    groupMeaning (first :: rest) =
      first.contentMeaning * (rest.map fun node ↦ node.contentMeaning⁻¹).prod := by
  obtain ⟨hfirst, hrest⟩ := List.forall_mem_cons.1 h
  rw [groupMeaning, branch, contentMeaning_of_not_isAdditive (by rw [hfirst]; rfl)]
  congr 2
  exact List.map_congr_left fun node hmem ↦ by rw [hrest node hmem, Meaning.asFactor_divide]

/-- A group of one operand means what the operand means. -/
theorem groupMeaning_singleton (node : Node) : groupMeaning [node] = node.meaning := by
  cases h : node.sign.isAdditive with
  | true =>
    rw [groupMeaning_of_terms (by simpa using h), List.map_singleton, List.sum_singleton]
  | false =>
    have hsign : node.sign ≠ .minus := fun hminus ↦ by
      rw [hminus] at h
      cases h
    rw [groupMeaning, branch, contentMeaning_of_not_isAdditive h, List.map_nil, List.prod_nil,
      mul_one, meaning, Meaning.signed_of_ne hsign]

/-- The meaning of the content of a node depends on the content alone. -/
theorem contentMeaning_ofContent (tag : Tag) (node : Node) :
    contentMeaning (ofContent tag node.content) = node.contentMeaning := by
  cases node with
  | atom _ text => rfl
  | group _ children => exact (contentMeaning_group _ _).trans (contentMeaning_group _ _).symm

/-- Nor does the tag of a node that is changed. -/
theorem contentMeaning_mapTag (f : Tag → Tag) (node : Node) :
    (node.mapTag f).contentMeaning = node.contentMeaning := by
  cases node with
  | atom _ text => rfl
  | group _ children => exact (contentMeaning_group _ _).trans (contentMeaning_group _ _).symm

/-- Marks do not count for the meaning. -/
@[simp] theorem meaning_withPending (pending : Bool) (node : Node) :
    (node.withPending pending).meaning = node.meaning := by
  rw [meaning, meaning, withPending, contentMeaning_mapTag]
  cases node <;> rfl

/-- Turning the sign of a term negates it. -/
theorem meaning_flipSign {node : Node} (h : node.sign.isAdditive = true) :
    node.flipSign.meaning = -node.meaning := by
  have hsign : node.flipSign.sign = node.sign.flipped := by
    cases node <;> rfl
  rw [meaning, meaning, hsign, flipSign, withSign, contentMeaning_mapTag, Meaning.signed_flipped h]

/-! ### Exchanging operands

A group may have all of its operands exchanged at once, one for one. -/

/-- Outside of sums the meaning as a term is the one of the content. -/
theorem meaning_of_not_isAdditive {node : Node} (h : node.sign.isAdditive = false) :
    node.meaning = node.contentMeaning :=
  Meaning.signed_of_ne (fun hminus ↦ by rw [hminus] at h; cases h) _

/-- A sign of the same family as a multiplicative sign is that sign. -/
theorem sign_eq_of_ofSign_eq {a b : Sign} (h : Family.ofSign a = Family.ofSign b)
    (hb : b.isAdditive = false) : a = b := by
  cases a <;> cases b <;> simp_all [Family.ofSign, Sign.isAdditive]

/-- What an operand brings into a group depends on its family and its meaning only. -/
theorem asFactor_eq_of_meaning {node node' : Node}
    (hfamily : Family.ofSign node'.sign = Family.ofSign node.sign)
    (hmeaning : node'.meaning = node.meaning) (hsign : node.sign.isAdditive = false) :
    node'.sign = node.sign ∧ node'.contentMeaning = node.contentMeaning := by
  have hsigns := sign_eq_of_ofSign_eq hfamily hsign
  rw [meaning_of_not_isAdditive hsign, meaning_of_not_isAdditive (hsigns ▸ hsign)] at hmeaning
  exact ⟨hsigns, hmeaning⟩

/-- Two operands bring the same into a group. -/
structure Agrees (node node' : Node) : Prop where
  family : Family.ofSign node'.sign = Family.ofSign node.sign
  meaning : node'.meaning = node.meaning

/-- A function that does not tell related elements apart has the same values along related lists. -/
theorem map_eq_of_forall₂ {α β : Type} {relation : α → α → Prop} {f : α → β} {list list' : List α}
    (h : List.Forall₂ relation list list')
    (hf : ∀ a ∈ list, ∀ b, relation a b → f b = f a) : list'.map f = list.map f := by
  induction h with
  | nil => rfl
  | cons hhead _ ih =>
    obtain ⟨hfirst, hrest⟩ := List.forall_mem_cons.1 hf
    rw [List.map_cons, List.map_cons, hfirst _ hhead, ih hrest]

/-- Operands that agree one by one are of the same family. -/
theorem ofSign_of_forall₂ {nodes nodes' : List Node} {family : Family}
    (h : List.Forall₂ Agrees nodes nodes')
    (hfamily : ∀ node ∈ nodes, Family.ofSign node.sign = family) :
    ∀ node ∈ nodes', Family.ofSign node.sign = family := by
  induction h with
  | nil => exact List.forall_mem_nil _
  | cons hhead _ ih =>
    obtain ⟨hfirst, hrest⟩ := List.forall_mem_cons.1 hfamily
    exact List.forall_mem_cons.2 ⟨hhead.family.trans hfirst, ih hrest⟩

/-- Operands of one family may be exchanged for others of that family with the same meaning. -/
theorem groupMeaning_congr {nodes nodes' : List Node} (hchain : isChain nodes = true)
    (h : List.Forall₂ Agrees nodes nodes') : groupMeaning nodes' = groupMeaning nodes := by
  obtain ⟨hne, family, hall⟩ := isChain_iff.1 hchain
  have hall' := ofSign_of_forall₂ h hall
  have hfactors : family ≠ .sum → ∀ node ∈ nodes, ∀ node', Agrees node node' →
      node'.contentMeaning = node.contentMeaning := by
    intro hfamily node hmem node' hagrees
    refine (asFactor_eq_of_meaning hagrees.family hagrees.meaning ?_).2
    rw [← Bool.not_eq_true, ← Family.ofSign_eq_sum_iff, hall node hmem]
    exact hfamily
  have hmap := fun hfamily ↦ map_eq_of_forall₂ h (hfactors hfamily)
  cases family with
  | sum =>
    rw [groupMeaning_of_terms fun node hmem ↦ Family.ofSign_eq_sum_iff.1 (hall node hmem),
      groupMeaning_of_terms fun node hmem ↦ Family.ofSign_eq_sum_iff.1 (hall' node hmem),
      map_eq_of_forall₂ h fun _ _ _ hagrees ↦ hagrees.meaning]
  | product =>
    have hne' : nodes' ≠ [] := by
      rintro rfl
      cases h
      exact hne rfl
    rw [groupMeaning_of_factors hne fun node hmem ↦ Family.ofSign_eq_product_iff.1 (hall node hmem),
      groupMeaning_of_factors hne' fun node hmem ↦
        Family.ofSign_eq_product_iff.1 (hall' node hmem), hmap (by decide)]
  -- the first part counts as it is and the others by their inverses
  | quotient =>
    cases h with
    | nil => exact absurd rfl hne
    | @cons first first' rest rest' hfirst hrest =>
      have hmap := hmap (by decide)
      rw [List.map_cons, List.map_cons, List.cons.injEq] at hmap
      have hinverses := congrArg (List.map fun meaning : Meaning ↦ meaning⁻¹) hmap.2
      rw [List.map_map, List.map_map] at hinverses
      rw [groupMeaning_of_parts fun node hmem ↦ Family.ofSign_eq_quotient_iff.1 (hall node hmem),
        groupMeaning_of_parts fun node hmem ↦ Family.ofSign_eq_quotient_iff.1 (hall' node hmem),
        hmap.1]
      exact congrArg (fun meanings ↦ first.contentMeaning * List.prod meanings) hinverses

end EquationSteps.Node
