import EquationSteps.Proofs.Canonical.Identity
import EquationSteps.Proofs.Canonical.Tags

/-!
# What remains of a tree

Normalization keeps the shape of a tree whatever is pending in it, and whatever its value is
(`Node.remains_normalize`). In contrast to the meaning, that takes no condition on the marks: a
factor that is dropped as a zero leaves a product of the others. `Node.Remains` collects what is
kept: the tree is still shaped, it stands where it stood, a root of terms is left with terms, and no
node has an identity that was not there before.

**Why this is a relation of its own.** `Node.Keeps` says more, and it holds only where marks are in
sums. After an edit there may be marks on factors, and the edited equation must still have sides of
the right form, from which the next edit starts. So everything that is said of *all* equations that
arise goes by `Remains`, and only the statements about values go by `Keeps`.

**What is asked of the oracle** is that its answers are read as regular trees (`AnswersRegular`);
what they mean does not matter here.

The lemmas build on one another in this order:

* exchanging the operands of a group (`Remains.of_children`, `Remains.of_family`), or the content of
  a node below a root (`Remains.of_content`, `Remains.of_atom`, `Remains.of_new`);
* one lemma for each rule (`remains_settle?`, `remains_regroup?`, …);
* what the rules make of one node (`remains_reshape`), and a whole normalization
  (`remains_normalize`), by the induction level by level.

A root and a node below a root are different cases throughout. A root may run out of operands and is
then filled again, and it may take over the operands of its only term; below a root a whole content
may be exchanged, but then the family must stay that of the sign in front of it.
-/

namespace EquationSteps.Node

variable {rationalize : Text → Except ValueError Text} {node node' child : Node} {tag : Tag}
  {children children' : List Node} {family : Family}

/-- What a tree has in common with the tree that it came from. A root may come to hold terms where
it held factors, but not the other way around. -/
structure Remains (node node' : Node) : Prop where
  shaped : node'.isShaped = true
  root : node'.isRoot = node.isRoot
  family : Family.ofSign node'.sign = Family.ofSign node.sign
  rootFamily : node.isRoot = true → ∀ family, family ≠ .sum →
    node'.family? = some family → node.family? = some family
  issued : node'.issued.Sublist node.issued

theorem Remains.refl (h : node.isShaped = true) : node.Remains node :=
  ⟨h, rfl, rfl, fun _ _ _ h ↦ h, List.Sublist.refl _⟩

theorem Remains.trans {a b c : Node} (hab : a.Remains b) (hbc : b.Remains c) : a.Remains c where
  shaped := hbc.shaped
  root := hbc.root.trans hab.root
  family := hbc.family.trans hab.family
  rootFamily hroot family hne hfamily :=
    hab.rootFamily hroot family hne (hbc.rootFamily (hab.root.trans hroot) family hne hfamily)
  issued := hbc.issued.trans hab.issued

/-- Regular trees are shaped: what is asked of a node below a root is enough for a root as well. -/
theorem isShaped_of_isRegular (h : node.isRegular = true) : node.isShaped = true :=
  (isShaped_iff_isRegular (isRoot_of_isRegular h)).2 h

/-- Regular trees remain as they are, one by one. -/
theorem forall₂_remains_of_regular (h : ∀ child ∈ children, child.isRegular = true) :
    List.Forall₂ Remains children children :=
  List.forall₂_same.2 fun child hmem ↦ .refl (isShaped_of_isRegular (h child hmem))

/-- Below a root what remains of a regular tree is regular. -/
theorem Remains.regular (h : node.Remains node') (hregular : node.isRegular = true) :
    node'.isRegular = true :=
  (isShaped_iff_isRegular (h.root.trans (isRoot_of_isRegular hregular))).1 h.shaped

/-- The operands of a group may be exchanged for others. -/
theorem Remains.of_children (hnode : (group tag children).isShaped = true)
    (hchain : isChain children' = true ∨ tag.root = true ∧ children' = [])
    (hregular : ∀ child ∈ children', child.isRegular = true)
    (hfamily : tag.root = true → ∀ family, family ≠ .sum →
      (group tag children').family? = some family → (group tag children).family? = some family)
    (hissued : (group tag children').issued.Sublist (group tag children).issued) :
    (group tag children).Remains (group tag children') where
  shaped := isShaped_group_iff.2 ⟨hchain, hregular, (isShaped_group_iff.1 hnode).2.2⟩
  root := rfl
  family := rfl
  rootFamily := hfamily
  issued := hissued

/-- The operands of a group may be exchanged for others of its family. -/
theorem Remains.of_family (hnode : (group tag children).isShaped = true)
    (hfamily : (group tag children).family? = some family)
    (hne : children' ≠ [] ∨ tag.root = true)
    (hchildren : ∀ child ∈ children', child.isRegular = true ∧ Family.ofSign child.sign = family)
    (hissued : (group tag children').issued.Sublist (group tag children).issued) :
    (group tag children).Remains (group tag children') := by
  have hsigns := fun child hmem ↦ (hchildren child hmem).2
  refine Remains.of_children hnode ?_ (fun child hmem ↦ (hchildren child hmem).1) ?_ hissued
  · by_cases hnil : children' = []
    · exact Or.inr ⟨hne.resolve_left fun h ↦ h hnil, hnil⟩
    · exact Or.inl (isChain_of_family hnil hsigns)
  · intro _ other _ hother
    cases children' with
    | nil => cases hother
    | cons first rest =>
      have hfirst : Family.ofSign first.sign = other := Option.some.inj hother
      rw [hfamily, ← hfirst, hsigns first List.mem_cons_self]

/-- Below a root the content of a node may be exchanged for another one. -/
theorem Remains.of_content {content : Content} (hroot : node.isRoot = false)
    (hregular : (fresh .plus content).isRegular = true)
    (hissued : (node.withContent content).issued.Sublist node.issued) :
    node.Remains (node.withContent content) := by
  have hcontent : (fresh .plus content).content = content := content_ofContent _ _
  have htag : (node.withContent content).tag = node.tag := tag_withContent _ _
  refine ⟨?_, congrArg Tag.root htag,
    congrArg (fun tag : Tag ↦ Family.ofSign tag.sign) htag, ?_, hissued⟩
  · rw [isShaped_iff_isRegular ((congrArg Tag.root htag).trans hroot), withContent, ← hcontent]
    exact isRegular_ofContent hroot hregular
  · rw [hroot]
    exact fun h ↦ by cases h

/-- A leaf may take the place of a node below a root. -/
theorem Remains.of_atom {text : Text} (hroot : node.isRoot = false)
    (htext : isOperandText text = true) :
    node.Remains (node.withContent (.atom text)) :=
  .of_content hroot (isRegular_atom_iff.2 ⟨rfl, htext⟩)
    (issued_withContent_sublist (List.nil_sublist _))

/-! ### The rules

Each rule by its cases. The marks of pending play no part. -/

/-- A leaf that is wrapped becomes the only term of its root. -/
theorem remains_wrapRoot? (hshaped : node.isShaped = true) (h : node.wrapRoot? = some node') :
    node.Remains node' := by
  have hkeeps := keeps_wrapRoot? hshaped h
  exact ⟨hkeeps.shaped, hkeeps.root, hkeeps.family, hkeeps.rootFamily, issued_wrapRoot? h⟩

/-- Below a root the tag of a node may be exchanged for another one, if the sign stays in its
family. -/
theorem Remains.of_tag {f : Tag → Tag} (hid : (f node.tag).id = node.tag.id)
    (hmark : (f node.tag).root = node.tag.root)
    (hsign : Family.ofSign (f node.tag).sign = Family.ofSign node.tag.sign)
    (hroot : node.isRoot = false) (hshaped : node.isShaped = true) :
    node.Remains (node.mapTag f) where
  shaped := by
    have hmark' : (node.mapTag f).isRoot = false := by
      rw [isRoot, tag_mapTag, hmark]
      exact hroot
    rw [isShaped_iff_isRegular hmark', isRegular_mapTag hmark]
    exact (isShaped_iff_isRegular hroot).1 hshaped
  root := by rw [isRoot, tag_mapTag, hmark, isRoot]
  family := by rw [sign, tag_mapTag, hsign, sign]
  rootFamily h := by
    rw [hroot] at h
    cases h
  issued := by rw [issued_mapTag hid]

/-- Turning a sign keeps it in its family. -/
theorem Remains.flipSign (hroot : node.isRoot = false) (hshaped : node.isShaped = true) :
    node.Remains node.flipSign := by
  refine .of_tag rfl rfl ?_ hroot hshaped
  show Family.ofSign node.tag.sign.flipped = Family.ofSign node.tag.sign
  cases node.tag.sign <;> rfl

/-- The operands of a regular group. -/
theorem of_mem_children_of_isRegular (hregular : node.isRegular = true)
    (hfamily : node.family? = some family) :
    ∀ child ∈ node.children, child.isRegular = true ∧ Family.ofSign child.sign = family := by
  cases node with
  | atom tag text => exact List.forall_mem_nil _
  | group tag children =>
    obtain ⟨-, hchain, hall⟩ := isRegular_group_iff.1 hregular
    exact fun child hmem ↦ ⟨hall child hmem, ofSign_of_isChain hchain hfamily child hmem⟩

/-- What an operand leaves in a group once it is examined. -/
theorem of_settled (hregular : child.isRegular = true) (hsign : Family.ofSign child.sign = family) :
    ∀ left ∈ settled (some family) child, left.isRegular = true ∧
      Family.ofSign left.sign = family := by
  unfold settled
  split
  · have hregular' : (child.withPending false).isRegular = true := by
      rw [withPending, isRegular_mapTag rfl]
      exact hregular
    have hsign' : Family.ofSign (child.withPending false).sign = family := by
      rw [withPending, sign, tag_mapTag]
      exact hsign
    generalize child.withPending false = examined at hregular' hsign'
    dsimp only
    -- a zero goes, a group of the same family leaves its operands, and everything else stays
    split
    · exact List.forall_mem_nil _
    · split
      · rename_i hsum
        obtain ⟨hfamily, hinner, -⟩ := hsum
        cases hfamily
        have hall := of_mem_children_of_isRegular hregular' hinner
        split
        · intro left hmem
          obtain ⟨operand, hoperand, rfl⟩ := List.mem_map.1 hmem
          obtain ⟨hoperandRegular, hoperandSign⟩ := hall operand hoperand
          refine ⟨?_, ?_⟩
          · rw [flipSign, withSign, isRegular_mapTag rfl]
            exact hoperandRegular
          · rw [flipSign, withSign, sign, tag_mapTag, Family.ofSign_eq_sum_iff,
              Sign.isAdditive_flipped]
            exact Family.ofSign_eq_sum_iff.1 hoperandSign
        · exact hall
      · split
        · rename_i hproduct
          obtain ⟨hfamily, hinner, -⟩ := hproduct
          cases hfamily
          exact of_mem_children_of_isRegular hregular' hinner
        · exact List.forall_mem_singleton.2 ⟨hregular', hsign'⟩
  · exact List.forall_mem_singleton.2 ⟨hregular, hsign⟩

/-- What is left of a group after examining its operands has the same family, as a group that is
spliced in has the family of the one around it. -/
theorem remains_settle? (hshaped : node.isShaped = true) (h : node.settle? = some node') :
    node.Remains node' := by
  have hissued := issued_settle? h
  obtain ⟨tag, operands, rfl, hpending, hcases⟩ := of_settle? h
  obtain ⟨child, hchild, -⟩ := List.any_eq_true.1 hpending
  have hchain := isChain_of_isShaped hshaped (List.ne_nil_of_mem hchild)
  obtain ⟨family, hfamily⟩ := @exists_family?_of_isChain tag operands hchain
  rw [hfamily] at hcases
  rcases hcases with ⟨-, hroot, rfl⟩ | ⟨hne, rfl⟩
  · exact @Remains.of_atom (group tag operands) ['0'] hroot rfl
  · refine Remains.of_family hshaped hfamily hne (fun left hmem ↦ ?_) hissued
    obtain ⟨child, hchild, hmem⟩ := List.mem_flatMap.1 hmem
    exact of_settled (isRegular_of_isShaped_group hshaped child hchild)
      (ofSign_of_isShaped hshaped hfamily child hchild) left hmem

/-- Below a root the content of a node may be exchanged for a new one. -/
theorem Remains.of_new {content : Content} (hroot : node.isRoot = false)
    (hregular : (fresh .plus content).isRegular = true)
    (hnew : (fresh .plus content).everyTag Tag.isNew = true) :
    node.Remains (node.withContent content) := by
  refine .of_content hroot hregular (issued_withContent_sublist ?_)
  rw [issued_eq_nil_of_isNew hnew]
  exact List.nil_sublist _

/-- A number is replaced by a leaf, or by what is read from an answer. -/
theorem remains_canonicalNumber? (hanswers : AnswersRegular rationalize)
    (hroot : node.isRoot = false) (h : node.canonicalNumber? rationalize = some node') :
    node.Remains node' := by
  obtain ⟨tag, text, rfl, ⟨hinteger, -, rfl⟩ | ⟨hinteger, hdecimal, content, hcontent, rfl⟩⟩ :=
    of_canonicalNumber? h
  · exact @Remains.of_atom (atom tag text) _ hroot
      (isOperandText_of_isInteger (Numeral.isInteger_canonicalInteger hinteger))
  · obtain ⟨answer, hfresh, rfl⟩ := isFresh_of_fraction? hcontent
    exact .of_new hroot (hanswers text _ hdecimal hinteger hcontent)
      (everyTag_ofContent rfl (isNew_of_isFresh hfresh))

/-- Splitting a chain of divisions makes a quotient of a quotient. -/
theorem remains_regroup? (hshaped : node.isShaped = true) (h : node.regroup? = some node') :
    node.Remains node' := by
  have hissued := issued_regroup? h
  obtain ⟨tag, first, middle, last, rfl, -, hfamily, rfl⟩ := of_regroup? h
  have hsigns := ofSign_of_isShaped hshaped hfamily
  have hregular := isRegular_of_isShaped_group hshaped
  rw [← List.cons_append] at hsigns hregular
  obtain ⟨hsigns, hlastSign⟩ := List.forall_mem_append.1 hsigns
  obtain ⟨hregular, hlastRegular⟩ := List.forall_mem_append.1 hregular
  refine Remains.of_family hshaped hfamily (Or.inl (List.cons_ne_nil _ _))
    (List.forall_mem_cons.2 ⟨⟨?_, rfl⟩, List.forall_mem_singleton.2
      ⟨hlastRegular last List.mem_cons_self, hlastSign last List.mem_cons_self⟩⟩) hissued
  exact isRegular_group_iff.2 ⟨rfl, isChain_of_family (List.cons_ne_nil _ _) hsigns, hregular⟩

/-- A root that takes over the terms of its only term holds terms. -/
theorem remains_lift? (hshaped : node.isShaped = true) (h : node.lift? = some node') :
    node.Remains node' := by
  have hissued := issued_lift? h
  obtain ⟨tag, onlyTag, terms, rfl, hsign, hfamily, rfl⟩ := of_lift? h
  have hregular := isRegular_of_isShaped_group hshaped _ List.mem_cons_self
  have hgroup : (group tag [group onlyTag terms]).family? = some .sum :=
    congrArg (fun sign ↦ some (Family.ofSign sign)) hsign
  exact Remains.of_family hshaped hgroup
    (Or.inl (isChain_iff.1 (isRegular_group_iff.1 hregular).2.1).1)
    (of_mem_children_of_isRegular hregular hfamily) hissued

/-- A group that gives way to its operand has the operand's content behind its own sign, or behind
the opposite one. -/
theorem remains_collapse? (hshaped : node.isShaped = true) (h : node.collapse? = some node') :
    node.Remains node' := by
  rcases of_collapse? h with ⟨-, hlift⟩ | ⟨tag, only, rfl, hroot, hcases⟩
  · exact remains_lift? hshaped hlift
  have hregular := isRegular_of_isShaped_group hshaped _ List.mem_cons_self
  rcases hcases with ⟨-, -, rfl⟩ | ⟨-, rfl⟩
  · exact (@Remains.flipSign (group tag [only]) hroot hshaped).trans
      (@Remains.of_content (group tag [only]).flipSign _ hroot (isRegular_ofContent rfl hregular)
        (@issued_withContent_of_mem (group tag [only]).flipSign only (List.mem_singleton_self _)))
  · exact @Remains.of_content (group tag [only]) _ hroot (isRegular_ofContent rfl hregular)
      (@issued_withContent_of_mem (group tag [only]) only (List.mem_singleton_self _))

/-- What is left of a group after some operands are dropped. -/
theorem remains_pruneBy {keep : Node → Bool} {identity : Text} (hshaped : node.isShaped = true)
    (hfamily : node.family? = some family) (hidentity : isOperandText identity = true)
    (h : node.pruneBy keep identity = .changed node') : node.Remains node' := by
  have hissued := issued_pruneBy (Or.inl h)
  cases node with
  | atom tag text => cases hfamily
  | group tag operands =>
    rcases of_pruneBy_eq_changed h with ⟨hroot, -, rfl⟩ | ⟨hne, rfl⟩
    · exact .of_atom hroot hidentity
    · refine Remains.of_family hshaped hfamily (Or.inl hne) (fun child hmem ↦ ?_) hissued
      have hmem := List.mem_of_mem_filter hmem
      exact ⟨isRegular_of_isShaped_group hshaped child hmem,
        ofSign_of_isShaped hshaped hfamily child hmem⟩

/-- Dropping ones and zeros leaves operands of the same family, or a leaf in their place. -/
theorem remains_prune (hshaped : node.isShaped = true) (h : node.prune = .changed node') :
    node.Remains node' := by
  rcases prune_cases node with hnone | ⟨hfamily, hprune⟩ | ⟨hfamily, hprune⟩
  · cases hnone.symm.trans h
  · exact remains_pruneBy hshaped hfamily rfl (hprune.symm.trans h)
  · exact remains_pruneBy hshaped hfamily rfl (hprune.symm.trans h)

/-- A root that loses its operands is left with the term `0`. -/
theorem Remains.of_zeroTerm (hshaped : (group tag children).isShaped = true) :
    (group tag children).Remains (group tag [zeroTerm]) :=
  Remains.of_children hshaped (Or.inl rfl) (List.forall_mem_singleton.2 rfl)
    (fun _ _ hne hfamily ↦ absurd (Option.some.inj hfamily).symm hne)
    (@issued_withOperands_sublist (group tag children) _ (List.nil_sublist _))

/-- An empty root is left with the term `0`. -/
theorem remains_fillRoot? (hshaped : node.isShaped = true) (h : node.fillRoot? = some node') :
    node.Remains node' := by
  obtain ⟨tag, rfl, -, rfl⟩ := of_fillRoot? h
  exact .of_zeroTerm hshaped

/-- So is a root that loses all of its operands. -/
theorem remains_emptiedRoot (hshaped : node.isShaped = true) (h : node.prune = .emptiedRoot node') :
    node.Remains node' := by
  cases node with
  | atom tag text => cases h
  | group tag operands =>
    obtain ⟨keep, identity, hby⟩ := exists_pruneBy h nofun
    obtain ⟨-, -, rfl⟩ := of_pruneBy_eq_emptiedRoot hby
    exact .of_zeroTerm hshaped

/-! ### Passes

The same steps as for the meaning, but without a condition on marks, so that the induction on the
levels of a tree can be taken as it is. -/

/-- A rule that leaves what remains may be attempted. -/
theorem Remains.attempt {state : Bool × Node} {rule : Node → Option Node} (h : node.Remains state.2)
    (hrule : ∀ node', rule state.2 = some node' → state.2.Remains node') :
    node.Remains (attempt rule state).2 := by
  cases hnode' : rule state.2 with
  | none =>
    rw [attempt_of_eq_none hnode']
    exact h
  | some node' =>
    rw [attempt_of_eq_some hnode']
    exact h.trans (hrule node' hnode')

/-- So the rules before dropping may be attempted one after another. -/
theorem remains_rewritten (hanswers : AnswersRegular rationalize) (hshaped : node.isShaped = true) :
    node.Remains (node.rewritten rationalize).2 := by
  have hwrapped : node.Remains (attempt wrapRoot? (false, node)).2 :=
    Remains.attempt (.refl hshaped) fun _ h ↦ remains_wrapRoot? hshaped h
  have hexamined : node.Remains node.examined.2 :=
    hwrapped.attempt fun _ h ↦ remains_settle? hwrapped.shaped h
  -- a leaf that is a root has been wrapped by then, so a number is below the root
  have hnumber : node.Remains (attempt (canonicalNumber? rationalize) node.examined).2 := by
    refine hexamined.attempt fun node' h ↦ ?_
    cases hroot : node.isRoot with
    | false => exact remains_canonicalNumber? hanswers (hexamined.root.trans hroot) h
    | true =>
      obtain ⟨tag, operands, hgroup, -⟩ := exists_group_of_isRoot hroot
      rw [hgroup] at h
      cases h
  have hregrouped := hnumber.attempt fun _ h ↦ remains_regroup? hnumber.shaped h
  exact hregrouped.attempt fun _ h ↦ remains_collapse? hregrouped.shaped h

/-- What the rules make of a node, whatever is pending. -/
theorem remains_reshape (hanswers : AnswersRegular rationalize) (hshaped : node.isShaped = true) :
    node.Remains (node.reshape rationalize).outcome := by
  have hrewritten := remains_rewritten hanswers hshaped
  rw [reshape_eq]
  split
  · rename_i filled hfill
    exact remains_fillRoot? hshaped hfill
  · split
    · exact hrewritten
    · rename_i hprune
      exact hrewritten.trans (remains_prune hrewritten.shaped hprune)
    · rename_i hprune
      exact hrewritten.trans (remains_emptiedRoot hrewritten.shaped hprune)

/-- What remains of regular operands of one family, one by one. -/
theorem regular_of_forall₂ (h : List.Forall₂ Remains children children')
    (hchildren : ∀ child ∈ children, child.isRegular = true ∧ Family.ofSign child.sign = family) :
    (∀ child ∈ children', child.isRegular = true ∧ Family.ofSign child.sign = family) ∧
      (children'.flatMap Node.issued).Sublist (children.flatMap Node.issued) := by
  induction h with
  | nil => exact ⟨List.forall_mem_nil _, List.Sublist.refl _⟩
  | cons hfirst _ ih =>
    obtain ⟨⟨hregular, hsign⟩, hrest⟩ := List.forall_mem_cons.1 hchildren
    obtain ⟨hall, hissued⟩ := ih hrest
    refine ⟨List.forall_mem_cons.2 ⟨⟨hfirst.regular hregular, hfirst.family.trans hsign⟩, hall⟩, ?_⟩
    rw [List.flatMap_cons, List.flatMap_cons]
    exact hfirst.issued.append hissued

/-- The operands of a group may be exchanged for what remains of them. -/
theorem Remains.of_forall₂ (hshaped : (group tag children).isShaped = true)
    (h : List.Forall₂ Remains children children') :
    (group tag children).Remains (group tag children') := by
  cases h with
  | nil => exact .refl hshaped
  | cons hfirst hrest =>
    obtain ⟨family, hfamily⟩ := @exists_family?_of_isChain tag _
      (isChain_of_isShaped hshaped (List.cons_ne_nil _ _))
    obtain ⟨hregular, hissued⟩ := regular_of_forall₂ (.cons hfirst hrest) fun child hmem ↦
      ⟨isRegular_of_isShaped_group hshaped child hmem,
        ofSign_of_isShaped hshaped hfamily child hmem⟩
    exact Remains.of_family hshaped hfamily (Or.inl (List.cons_ne_nil _ _)) hregular
      (issued_group_sublist hissued)

/-- **Normalization keeps the shape** of a tree, its place, and a root's terms, and it gives no node
an identity that was another one's. -/
theorem remains_normalize (hanswers : AnswersRegular rationalize) {limits : Limits}
    {result : Except TreeError Nat} (hshaped : node.isShaped = true)
    (h : node.normalize rationalize limits = (result, node')) : node.Remains node' := by
  have hreshape : ∀ node : Node, node.isShaped = true →
      node.Remains (node.reshape rationalize).outcome := fun _ ↦ remains_reshape hanswers
  have hgroup : ∀ (tag : Tag) {children children' : List Node},
      List.Forall₂ (fun child child' ↦ child.isShaped = true →
        child.Remains child') children children' →
        (group tag children).isShaped = true →
          (group tag children).Remains (group tag children') := by
    intro tag children children' hchildren hshaped
    -- the operands of a shaped group are regular, so each of them is shaped
    have hregular := isRegular_of_isShaped_group hshaped
    exact .of_forall₂ hshaped (((List.forall₂_and_left _ _).2 ⟨hregular, hchildren⟩).imp
      fun _ _ hchild ↦ hchild.2 (isShaped_of_isRegular hchild.1))
  have hremains := normalizeFrom_induction (motive := fun node node' ↦
    node.isShaped = true → node.Remains node') (fun _ ↦ .refl)
    (fun hab hbc hshaped ↦ (hab hshaped).trans (hbc (hab hshaped).shaped)) hreshape hgroup 0
    limits.passes node hshaped
  rw [← normalize, h] at hremains
  exact hremains

end EquationSteps.Node
