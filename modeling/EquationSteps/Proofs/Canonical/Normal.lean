import EquationSteps.Proofs.Canonical.Form
import EquationSteps.Proofs.Tree.Place

/-!
# Normal trees

A tree is canonical if no rule applies to any of its nodes. Here the same is said without the rules:
what stands in a leaf, and which operands a group has, at every node of the tree (`Node.IsNormal`).
The rules are tried one after another and some of them hide others, but none applies exactly if each
of them has nothing to do with the node as it stands (`Node.isIdle_iff`), so the order does not
matter here.

If only the topmost node may be a root, normal trees are the ones that a pass leaves as they are,
identities apart (`Node.isNormal_iff_pass_unchanged`). A pass also reports no change where it puts
the term `0` into an empty root, or into one that it emptied. Such a tree comes out normal, so if it
came out with the structure and the marks that it had, then it was normal before
(`Node.anonymous_eq_of_sameStructure`).

**What the report alone does not say.** For this reason the equivalence asks for three things of a
pass and not only for its report: no change is reported, the structure is that of the tree before,
and so are the marks. Without the last two an empty root would have to count as normal. Identities
are left out of the comparison, as the rules neither look at them nor make any.

The marks of a tree are read off in the order of its nodes (`marks`). Two trees with the same
structure have their nodes in the same order, so two lists of marks that agree give the same marks
to each node.
-/

namespace EquationSteps

namespace Numeral

/-- An integer literal is in canonical form if it does not start with `0`, or is no more than that.
The canonical form drops leading zeros and keeps one digit. -/
theorem canonicalInteger_eq_self_iff {text : Text} (htext : isInteger text = true) :
    canonicalInteger text = text ↔ (text.head? = some '0' → text = ['0']) := by
  cases text with
  | nil => cases htext
  | cons c rest =>
    rw [canonicalInteger, List.dropWhile_cons, List.head?_cons, Option.some.injEq]
    by_cases hzero : c = '0'
    · subst hzero
      rw [if_pos (beq_self_eq_true _), forall_prop_of_true rfl]
      cases hdrop : rest.dropWhile (· == '0') with
      | nil => exact eq_comm
      | cons d digits =>
        -- the zero is dropped, so what is left is shorter
        have hlength : (d :: digits).length ≤ rest.length :=
          hdrop ▸ (List.dropWhile_sublist _).length_le
        have hrest : rest ≠ [] := List.ne_nil_of_length_pos (by simp at hlength; omega)
        refine iff_of_false (fun (h : d :: digits = '0' :: rest) ↦ ?_) (by simpa using hrest)
        rw [h, List.length_cons] at hlength
        omega
    · rw [if_neg (by simpa using hzero)]
      exact iff_of_true rfl fun h ↦ absurd h hzero

/-- A decimal literal is an integer literal or has a point in it. -/
theorem mem_point_iff {text : Text} (htext : isDecimal text = true) :
    '.' ∈ text ↔ isInteger text = false := by
  simp only [isDecimal, Bool.and_eq_true, List.all_eq_true, Bool.or_eq_true, beq_iff_eq,
    List.any_eq_true] at htext
  obtain ⟨⟨hall, -⟩, c, hmem, -⟩ := htext
  rw [← Bool.not_eq_true, isInteger_iff]
  constructor
  · rintro hpoint ⟨-, hdigits⟩
    cases hdigits '.' hpoint
  · intro hinteger
    by_contra hpoint
    refine hinteger ⟨List.ne_nil_of_mem hmem, fun d hd ↦ (hall d hd).resolve_right ?_⟩
    rintro rfl
    exact hpoint hd

end Numeral

namespace Node

variable {rationalize : Text → Except ValueError Text} {node node' inner : Node} {tag : Tag}
  {children : List Node} {text : Text}

/-! ### Normal nodes

The fields are what the rules look at, said of the node itself: what its text is, how many operands
it has, and of which kind they are. Nothing in them mentions a rule. -/

/-- What is normal about a node, the nodes below its operands apart. -/
structure IsNormalAt (rationalize : Text → Except ValueError Text) (node : Node) : Prop where
  /-- A root has terms, and they are not all in one sum with a plus. -/
  root : node.isRoot = true → node.children ≠ [] ∧
    ∀ only, node.children = [only] → ¬(only.sign = .plus ∧ only.family? = some .sum)
  /-- No operand is pending. -/
  examined : ∀ child ∈ node.children, child.isPending = false
  /-- An integer does not start with a zero that could be left out. -/
  integer : ∀ text, node.atomText? = some text → Numeral.isInteger text = true →
    text.head? = some '0' → text = ['0']
  /-- For a decimal literal with a point the oracle has no answer that can be read. -/
  decimal : ∀ text, node.atomText? = some text → Numeral.isDecimal text = true → '.' ∈ text →
    ∀ answer, rationalize text = .ok answer → ∀ inner, read .standard answer false ≠ .ok inner
  /-- A quotient has at most two parts. -/
  parts : node.family? = some .quotient → node.children.length ≤ 2
  /-- Outside of roots a single operand is negative, and is in a factor or a divisor. -/
  single : node.isRoot = false → ∀ only, node.children = [only] →
    (node.sign = .times ∨ node.sign = .divide) ∧ only.sign = .minus
  /-- No factor reads `1`. -/
  factors : node.family? = some .product → ∀ child ∈ node.children, child.toText ≠ ['1']
  /-- None of several terms is `0`. -/
  terms : node.family? = some .sum → 2 ≤ node.children.length →
    ∀ child ∈ node.children, child.isZeroAtom = false

/-- All nodes of a tree are normal. -/
def IsNormal (rationalize : Text → Except ValueError Text) (node : Node) : Prop :=
  ∀ inner, node.Contains inner → inner.IsNormalAt rationalize

/-- No fraction is taken from an oracle exactly if each answer that it might have given cannot be
read. -/
theorem fraction?_eq_none_iff : fraction? rationalize text = none ↔
    ∀ answer, rationalize text = .ok answer → ∀ inner, read .standard answer false ≠ .ok inner := by
  unfold fraction?
  cases rationalize text with
  | error cause => simp
  | ok answer =>
    cases hread : read .standard answer false <;> simp [hread]

/-- The rule for numbers leaves a leaf alone if its literal is canonical, in the case of an integer,
and has no readable answer, in the case of a decimal. -/
theorem canonicalNumber?_eq_none_iff : (leaf .plus text).canonicalNumber? rationalize = none ↔
    (Numeral.isInteger text = true → text.head? = some '0' → text = ['0']) ∧
      (Numeral.isDecimal text = true → '.' ∈ text → ∀ answer, rationalize text = .ok answer →
        ∀ inner, read .standard answer false ≠ .ok inner) := by
  simp only [canonicalNumber?, leaf, content]
  by_cases hinteger : Numeral.isInteger text = true
  · have hpoint : '.' ∉ text := fun hmem ↦ by cases (Numeral.isInteger_iff.1 hinteger).2 _ hmem
    rw [if_pos hinteger, ← Numeral.canonicalInteger_eq_self_iff hinteger]
    simp [hinteger, hpoint]
  · rw [if_neg hinteger]
    by_cases hdecimal : Numeral.isDecimal text = true
    · have hpoint : '.' ∈ text :=
        (Numeral.mem_point_iff hdecimal).2 (Bool.not_eq_true _ ▸ hinteger)
      rw [if_pos hdecimal, Option.map_eq_none_iff, fraction?_eq_none_iff]
      simp [hinteger, hdecimal, hpoint]
    · simp [hinteger, hdecimal]

/-- A sign that is not additive is that of a factor or of a divisor. -/
theorem isAdditive_eq_false_iff {sign : Sign} :
    sign.isAdditive = false ↔ sign = .times ∨ sign = .divide := by
  cases sign <;> decide

/-- The conditions on a group are the same, those on leaves being empty for it. -/
theorem isStable_iff : IsStable tag children ↔ (group tag children).IsNormalAt rationalize := by
  have hroot : (group tag children).isRoot = tag.root := rfl
  constructor
  · intro h
    refine ⟨fun htag ↦ ⟨h.nonempty htag, fun only honly ↦ ?_⟩, h.examined, nofun, nofun, h.parts,
      fun htag only honly ↦ ?_, h.factors, h.terms⟩
    · simpa only [if_pos (hroot.symm.trans htag)] using h.single only honly
    · have hsingle := h.single only honly
      rw [if_neg (by rw [← hroot, htag]; exact Bool.false_ne_true)] at hsingle
      exact ⟨isAdditive_eq_false_iff.1 hsingle.2, hsingle.1⟩
  · intro h
    refine ⟨fun htag ↦ (h.root htag).1, h.examined, h.parts, fun only honly ↦ ?_,
      h.factors, h.terms⟩
    split
    · rename_i htag
      exact (h.root htag).2 only honly
    · rename_i htag
      obtain ⟨hsign, honly⟩ := h.single (Bool.not_eq_true _ ▸ htag) only honly
      exact ⟨honly, isAdditive_eq_false_iff.2 hsign⟩

/-- **No rule applies to a node exactly if it is normal.** -/
theorem isIdle_iff : node.IsIdle rationalize ↔ node.IsNormalAt rationalize := by
  cases node with
  | group tag children => exact isIdle_group_iff.trans isStable_iff
  | atom tag text =>
    rw [isIdle_atom_iff, canonicalNumber?_eq_none_iff]
    constructor
    · rintro ⟨hroot, hinteger, hdecimal⟩
      refine ⟨fun htag ↦ ?_, List.forall_mem_nil _, ?_, ?_, nofun, nofun, nofun, nofun⟩
      · cases hroot.symm.trans htag
      · rintro text ⟨⟩
        exact hinteger
      · rintro text ⟨⟩
        exact hdecimal
    · intro h
      exact ⟨Bool.eq_false_iff.2 fun htag ↦ (h.root htag).1 rfl, h.integer text rfl,
        h.decimal text rfl⟩

/-! ### Normal trees

Canonical trees are defined by recursion and normal ones by their nodes. A node that a tree contains
is reached by going down, and each step keeps the tree canonical. -/

/-- A node in a canonical tree is canonical. -/
theorem IsCanonical.of_contains (h : node.IsCanonical rationalize) (hinner : node.Contains inner) :
    inner.IsCanonical rationalize := by
  obtain ⟨frames, rfl⟩ := hinner
  induction frames with
  | nil => exact h
  | cons frame frames ih => exact ih ((isCanonical_iff.1 h).2 _ List.mem_append_cons_self)

/-- **No rule applies anywhere in a tree exactly if it is normal.** -/
theorem isCanonical_iff_isNormal : node.IsCanonical rationalize ↔ node.IsNormal rationalize := by
  constructor
  · exact fun h inner hinner ↦ isIdle_iff.1 (isCanonical_iff.1 (h.of_contains hinner)).1
  · intro h
    induction node using Node.induction with
    | atom tag text => exact .atom (isIdle_iff.2 (h _ (contains_self _)))
    | group tag children ih =>
      refine .group (isIdle_iff.2 (h _ (contains_self _))) fun child hmem ↦ ?_
      exact ih child hmem fun inner hinner ↦ h inner (hinner.group hmem)

/-! ### Marks

Structure and marks together are all of a tree but its identities. -/

mutual

/-- The marks of a tree, of root and of pending, a node before its operands. -/
def marks : Node → List (Bool × Bool)
  | .atom tag _ => [(tag.root, tag.pending)]
  | .group tag children => (tag.root, tag.pending) :: marksOfAll children

/-- `marks` on a list of nodes. -/
def marksOfAll : List Node → List (Bool × Bool)
  | [] => []
  | node :: nodes => marks node ++ marksOfAll nodes

end

/-- Tags that have the same sign and marks differ in the identity only. -/
theorem withId_none_eq {tag tag' : Tag} (hsign : tag.sign = tag'.sign)
    (hmarks : (tag.root, tag.pending) = (tag'.root, tag'.pending)) :
    { tag with id := none } = { tag' with id := none } := by
  obtain ⟨hroot, hpending⟩ := Prod.mk.injEq _ _ _ _ ▸ hmarks
  rw [hsign, hroot, hpending]

mutual

/-- Trees with the same structure and the same marks differ in their identities only. What follows
the marks is there for the trees next to them. -/
theorem anonymous_eq_of_sameStructure {rest rest' : List (Bool × Bool)} :
    ∀ {node node' : Node}, node.sameStructure node' = true →
      node.marks ++ rest = node'.marks ++ rest' → node.anonymous = node'.anonymous ∧ rest = rest'
  | .atom tag text, .atom tag' text', h, hmarks => by
    obtain ⟨hsign, htext⟩ := Bool.and_eq_true_iff.1 h
    obtain ⟨htag, hrest⟩ := List.cons_eq_cons.1 hmarks
    rw [anonymous, anonymous, withId_none_eq (beq_iff_eq.1 hsign) htag, beq_iff_eq.1 htext]
    exact ⟨rfl, hrest⟩
  | .group tag children, .group tag' children', h, hmarks => by
    obtain ⟨hsign, hchildren⟩ := Bool.and_eq_true_iff.1 h
    obtain ⟨htag, hall⟩ := List.cons_eq_cons.1 hmarks
    obtain ⟨hanonymous, hrest⟩ := anonymousAll_eq_of_sameStructures hchildren hall
    rw [anonymous, anonymous, withId_none_eq (beq_iff_eq.1 hsign) htag, hanonymous]
    exact ⟨rfl, hrest⟩

/-- `anonymous_eq_of_sameStructure` on two lists of nodes. -/
theorem anonymousAll_eq_of_sameStructures {rest rest' : List (Bool × Bool)} :
    ∀ {nodes nodes' : List Node}, sameStructures nodes nodes' = true →
      marksOfAll nodes ++ rest = marksOfAll nodes' ++ rest' →
        anonymousAll nodes = anonymousAll nodes' ∧ rest = rest'
  | [], [], _, hmarks => ⟨rfl, hmarks⟩
  | node :: nodes, node' :: nodes', h, hmarks => by
    obtain ⟨hnode, hnodes⟩ := Bool.and_eq_true_iff.1 h
    rw [marksOfAll, marksOfAll, List.append_assoc, List.append_assoc] at hmarks
    obtain ⟨hfirst, hmarks⟩ := anonymous_eq_of_sameStructure hnode hmarks
    obtain ⟨hothers, hrest⟩ := anonymousAll_eq_of_sameStructures hnodes hmarks
    rw [anonymousAll, anonymousAll, hfirst, hothers]
    exact ⟨rfl, hrest⟩

end

/-- Such trees are both canonical or neither is. -/
theorem IsCanonical.of_sameStructure (h : node'.IsCanonical rationalize)
    (hstructure : node'.sameStructure node = true) (hmarks : node'.marks = node.marks) :
    node.IsCanonical rationalize := by
  have hsame : node'.anonymous = node.anonymous :=
    (anonymous_eq_of_sameStructure hstructure (congrArg (· ++ []) hmarks)).1
  rw [← isCanonical_anonymous_iff, ← hsame]
  exact isCanonical_anonymous_iff.2 h

/-! ### Passes

The tree that comes out of a pass without a change is canonical, whichever way the pass ended. So a
tree that is what came out, identities apart, is normal. -/

/-- **The normal trees are the ones that a pass leaves as they are**, if only the topmost node may
be a root. Normalization that settles leaves a normal tree, so it finds nothing more to do there. -/
theorem isNormal_iff_pass_unchanged (hroots : node.EveryTagBelow fun tag ↦ !tag.root) :
    (((node.pass rationalize).1 = false ∧ (node.pass rationalize).2.sameStructure node = true ∧
        (node.pass rationalize).2.marks = node.marks) ↔ node.IsNormal rationalize) ∧
      ∀ limits passes node', node.normalize rationalize limits = (.ok passes, node') →
        node'.IsNormal rationalize ∧ node'.normalize rationalize limits = (.ok 0, node') := by
  refine ⟨⟨?_, fun h ↦ ?_⟩, fun limits passes node' h ↦ ?_⟩
  · rintro ⟨hchanged, hstructure, hmarks⟩
    have hcanonical : (node.pass rationalize).2.IsCanonical rationalize :=
      isCanonical_of_passWithin (Nat.le_add_right _ _) hroots (Prod.ext hchanged rfl)
    exact isCanonical_iff_isNormal.1 (hcanonical.of_sameStructure hstructure hmarks)
  · have hpass : node.pass rationalize = (false, node) :=
      (isCanonical_iff_isNormal.2 h).passWithin _
    rw [hpass]
    exact ⟨rfl, sameStructure_refl node, rfl⟩
  · have hcanonical := isCanonical_of_settles hroots h
    refine ⟨isCanonical_iff_isNormal.1 hcanonical,
      hcanonical.normalize (Nat.pos_of_ne_zero fun hnone ↦ ?_)⟩
    -- normalization without any passes does not settle
    rw [Node.normalize, hnone] at h
    cases h

/-- The side `007-(0+x)/1/y`, of which the quotient is pending. -/
def unsettledSide : Node :=
  .group ⟨some 0, .plus, true, false⟩ [leaf .plus ['0', '0', '7'],
    .group ⟨none, .minus, false, true⟩ [branch .divide [leaf .plus ['0'], leaf .plus ['x']],
      leaf .divide ['1'], leaf .divide ['y']]]

/-- The side settles in two passes that change something. It then reads `7-(x/1)/y`: a divisor is
not a factor, so the one that it divides by stays. -/
theorem isNormal_iff_pass_unchanged_unsettledSide :
    (unsettledSide.EveryTagBelow fun tag ↦ !tag.root) ∧
      ¬unsettledSide.IsNormal Oracle.exactFraction ∧
      ∃ side, unsettledSide.normalize Oracle.exactFraction .standard = (.ok 2, side) ∧
        side.toText = "7-(x/1)/y".toList ∧ side.IsNormal Oracle.exactFraction ∧
          side.normalize Oracle.exactFraction .standard = (.ok 0, side) := by
  have hroots : unsettledSide.EveryTagBelow fun tag ↦ !tag.root := by
    unfold EveryTagBelow
    decide
  obtain ⟨hpass, hnormalize⟩ := @isNormal_iff_pass_unchanged Oracle.exactFraction _ hroots
  have hchanged : (unsettledSide.pass Oracle.exactFraction).1 = true := by decide +kernel
  have hsettled : (unsettledSide.normalize Oracle.exactFraction .standard).1 = .ok 2 := by
    decide +kernel
  have htext : (unsettledSide.normalize Oracle.exactFraction .standard).2.toText =
      "7-(x/1)/y".toList := by decide +kernel
  refine ⟨hroots, fun h ↦ ?_, ?_⟩
  · cases hchanged.symm.trans (hpass.2 h).1
  · cases hside : unsettledSide.normalize Oracle.exactFraction .standard with
    | mk result side =>
      rw [hside] at hsettled htext
      obtain rfl : result = .ok 2 := hsettled
      exact ⟨side, rfl, htext, hnormalize _ _ _ hside⟩

end Node

end EquationSteps
