import EquationSteps.Proofs.Reading.Acceptance

/-!
# Reading within the limit

One step of the reader reads what it goes on with one level down (`Node.partsBelow`) and puts the
results together (`Node.ofPartsBelow`), which never fails (`Node.build_succ_eq`). So whether a text
is read depends on what the reader goes on with, and on nothing else (`Node.exists_build_succ_iff`):
whether it nests too deeply does not depend on the sign in front of it, and more levels never hurt
(`Node.exists_build_mono`). An operand is read wherever it is read with a minus in front
(`Node.exists_read_of_minus`).

A text nests no deeper than it is long: every step of the reader goes on with shorter texts. It
takes off a minus or a pair of parentheses, or it cuts the text, and then each segment either leaves
others aside or loses its sign (`length_signedOperand_lt`). The one exception is a product that is
read as a root: the reader goes on with all of it, one level down. So a limit that is as large as
the text is long is never exceeded below a root, and a root takes one level more
(`Node.exists_read`).

**Why one step is taken in two halves.** `Node.build` has many ways out, and the recursive calls are
spread over them. What matters for the limit is only which texts the calls are about, and what
matters for the tree is only what is made of the results. With the two halves named, a statement
about the limit is an induction over the levels that never looks at the tree, and the cases are gone
through once, in `Node.build_succ_eq`.
-/

namespace EquationSteps

/-! ### Lengths

What is taken off a text makes it shorter. Where the reader goes on without taking anything off,
there is a reason in the text why it can: a family that cuts it, or a second pair of parentheses. -/

/-- Taking off parentheses makes a text no longer. -/
theorem length_stripParentheses_le (text : Text) :
    (stripParentheses text).length ≤ text.length := by
  by_cases hne : stripParentheses text = text
  · rw [hne]
  · have hlength := congrArg List.length (of_stripParentheses_ne hne).1
    simp only [List.length_cons, List.length_append, List.length_nil] at hlength
    omega

/-- What is below two pairs of parentheses is shorter than the text. -/
theorem length_stripParentheses_lt {text : Text}
    (h : stripParentheses (stripParentheses text) ≠ stripParentheses text) :
    (stripParentheses text).length < text.length := by
  have hne : stripParentheses text ≠ text := fun hsame ↦ h (by rw [hsame, hsame])
  have hlength := congrArg List.length (of_stripParentheses_ne hne).1
  simp only [List.length_cons, List.length_append, List.length_nil] at hlength
  omega

/-- The operand of a segment is no longer than the segment. -/
theorem length_signedOperand_le (family : Family) (segment : Text) :
    (family.signedOperand segment).2.length ≤ segment.length := by
  rcases signedOperand_cases family segment with ⟨hsame, -⟩ | ⟨sign, hsegment⟩
  · rw [hsame]
  · have hlength := congrArg List.length hsegment
    rw [List.length_cons] at hlength
    omega

/-- A text of a family that the family does not cut starts with a sign. -/
theorem exists_sign_of_isUncut {family : Family} {text : Text} (h : classify text = some family)
    (huncut : IsUncut family 0 none text) : ∃ sign : Sign, text.head? = some sign.symbol := by
  cases family with
  | sum =>
    obtain ⟨mark, hmem, hbinary⟩ := classify_eq_sum_iff.1 h
    cases text with
    | nil => cases hmem
    | cons c rest =>
      rw [outside, if_pos rfl] at hmem
      rcases List.mem_cons.1 hmem with rfl | hmem
      · simp only [isBinarySign, Bool.and_eq_true, Bool.or_eq_true, beq_iff_eq] at hbinary
        rcases hbinary.1 with rfl | rfl
        · exact ⟨.plus, rfl⟩
        · exact ⟨.minus, rfl⟩
      · -- a binary sign further behind is one in front of which the text is cut
        have hcuts := huncut mark (by
          rw [outside, if_pos rfl]
          exact List.mem_cons_of_mem _ hmem)
        have hsome := isSome_of_mem_outside hmem
        simp only [isBinarySign, Bool.and_eq_true] at hbinary
        simp [Family.cutsBefore, Family.operatorMatches, hbinary, hsome] at hcuts
  | product =>
    obtain ⟨-, mark, hmem, htimes⟩ := classify_eq_product_iff.1 h
    have hcuts := huncut mark hmem
    simp [Family.cutsBefore, Family.operatorMatches, htimes] at hcuts
  | quotient =>
    obtain ⟨-, -, mark, hmem, hdivide⟩ := classify_eq_quotient_iff.1 h
    have hcuts := huncut mark hmem
    simp [Family.cutsBefore, Family.operatorMatches, hdivide] at hcuts

/-- A chain is at least as long as its first operand and its signs, and longer than each operand
behind a sign. -/
theorem length_le_chainText (first : Text) (links : List (Sign × Text)) :
    first.length + links.length ≤ (chainText first links).length ∧
      ∀ link ∈ links, link.2.length < (chainText first links).length := by
  induction links generalizing first with
  | nil =>
    rw [chainText_nil]
    exact ⟨Nat.le_refl _, List.forall_mem_nil _⟩
  | cons link links ih =>
    obtain ⟨hfirst, hlinks⟩ := ih (first ++ link.1.symbol :: link.2)
    rw [List.length_append, List.length_cons] at hfirst
    rw [chainText_link]
    refine ⟨?_, List.forall_mem_cons.2 ⟨?_, hlinks⟩⟩
    · rw [List.length_cons]
      omega
    · omega

/-- **Each operand of a text is shorter than the text.** -/
theorem length_signedOperand_lt {family : Family} {text segment : Text}
    (h : classify text = some family) (hmem : segment ∈ segments family text) :
    (family.signedOperand segment).2.length < text.length := by
  obtain ⟨first, links, hsegments, rfl, huncut, -⟩ := exists_links family text
  obtain ⟨hfirst, hlinks⟩ := length_le_chainText first links
  rw [hsegments] at hmem
  rcases List.mem_cons.1 hmem with rfl | hmem
  · have hle := length_signedOperand_le family segment
    by_cases hne : links = []
    · subst hne
      rw [chainText_nil] at h ⊢
      obtain ⟨sign, hsign⟩ := exists_sign_of_isUncut h huncut
      rcases signedOperand_cases family segment with ⟨-, hunsigned⟩ | ⟨sign', hsegment⟩
      · exact absurd hsign (hunsigned sign)
      · have hlength := congrArg List.length hsegment
        rw [List.length_cons] at hlength
        omega
    · have hpos := List.length_pos_of_ne_nil hne
      omega
  · obtain ⟨link, hlink, rfl⟩ := List.mem_map.1 hmem
    rw [Family.signedOperand_symbol]
    exact hlinks link hlink

namespace Node

/-! ### One step of the reader -/

/-- What the reader goes on with one level down, each text behind the sign already read in front of
it. -/
def partsBelow (text : Text) (root : Bool) : List (Option Sign × Text) :=
  if root = false ∧ text.any isStructural = false then []
  else
    match negated? text with
    | some operand => [(none, operand)]
    | none =>
      match classify (stripParentheses text) with
      | some family =>
        if family = .product ∧ root = true then [(some .plus, stripParentheses text)]
        else (segments family (stripParentheses text)).map fun segment ↦
          (some (family.signedOperand segment).1, (family.signedOperand segment).2)
      | none =>
        if stripParentheses (stripParentheses text) ≠ stripParentheses text then
          [(none, stripParentheses text)]
        else []

/-- What the reader makes of a text once all that it goes on with is read. -/
def ofPartsBelow (sign? : Option Sign) (text : Text) (root : Bool) (read : List Node) : Node :=
  if root = false ∧ text.any isStructural = false then leaf (sign?.getD .plus) text
  else
    match negated? text with
    | some _ =>
      match sign? with
      | none => fresh .minus (read.headD (branch .plus [])).content
      | some sign => branch sign (read.map fun inner ↦ fresh .minus inner.content)
    | none =>
      match classify (stripParentheses text) with
      | some family =>
        if family = .quotient ∧ root = true then branch (sign?.getD .plus) [branch .plus read]
        else branch (sign?.getD .plus) read
      | none =>
        if stripParentheses (stripParentheses text) ≠ stripParentheses text then
          fresh (sign?.getD .plus) (read.headD (branch .plus [])).content
        else if root = true ∧ (stripParentheses text).isEmpty = true then
          branch (sign?.getD .plus) []
        else if root = true ∧ (stripParentheses text).any isStructural = false then
          branch (sign?.getD .plus) [leaf .plus (stripParentheses text)]
        else leaf (sign?.getD .plus) (stripParentheses text)

variable {limit levels levels' : Nat} {sign? sign?' : Option Sign} {text : Text} {root : Bool}

/-- **One step of the reader** reads what it goes on with, and makes one tree of the results. -/
theorem build_succ_eq : build limit (levels + 1) sign? text root =
    ((partsBelow text root).mapM' fun part ↦ build limit levels part.1 part.2 false) >>=
      fun read ↦ .ok (ofPartsBelow sign? text root read) := by
  rw [build, partsBelow]
  unfold ofPartsBelow
  by_cases hleaf : root = false ∧ text.any isStructural = false
  · simp only [if_pos hleaf]
    rfl
  simp only [if_neg hleaf]
  cases negated? text with
  | some operand =>
    dsimp only
    rw [mapM'_singleton_bind]
    cases sign? <;> rfl
  | none =>
    dsimp only
    cases classify (stripParentheses text) with
    | some family =>
      dsimp only
      -- a product at the root goes on with all of the text, other chains with their segments
      by_cases hproduct : family = .product ∧ root = true
      · obtain ⟨rfl, hroot⟩ := hproduct
        rw [if_pos ⟨rfl, hroot⟩, if_pos ⟨rfl, hroot⟩, mapM'_singleton_bind]
        rfl
      · rw [if_neg hproduct, if_neg hproduct, mapM'_map]
        by_cases hquotient : family = .quotient ∧ root = true
        · simp only [if_pos hquotient]
        · simp only [if_neg hquotient]
    | none =>
      dsimp only
      by_cases hnested : stripParentheses (stripParentheses text) ≠ stripParentheses text
      · simp only [if_pos hnested]
        rw [mapM'_singleton_bind]
        rfl
      · simp only [if_neg hnested]
        split
        · rfl
        · split <;> rfl

/-- **A text is read exactly if all that the reader goes on with is read one level down.** The sign
in front of it does not matter. -/
theorem exists_build_succ_iff : (∃ node, build limit (levels + 1) sign? text root = .ok node) ↔
    ∀ part ∈ partsBelow text root, ∃ node, build limit levels part.1 part.2 false = .ok node := by
  rw [build_succ_eq, Except.exists_bind_eq_ok_iff fun read ↦ ⟨_, rfl⟩]
  exact exists_mapM'_eq_ok_iff

/-- A chain is read operand by operand, unless it is a product and a root. -/
theorem partsBelow_of_classify {family : Family}
    (hentered : root = true ∨ text.any isStructural = true) (hnegated : negated? text = none)
    (hfamily : classify (stripParentheses text) = some family)
    (hproduct : ¬(family = .product ∧ root = true)) :
    partsBelow text root = ((segments family (stripParentheses text)).map family.signedOperand).map
      fun link ↦ (some link.1, link.2) := by
  have hlooked : ¬(root = false ∧ text.any isStructural = false) := by
    rintro ⟨rfl, hleaf⟩
    cases hentered.resolve_left Bool.false_ne_true |>.symm.trans hleaf
  rw [partsBelow, if_neg hlooked, hnegated]
  dsimp only
  rw [hfamily]
  dsimp only
  rw [if_neg hproduct, List.map_map]
  rfl

/-- A product that is a root is read as a whole. -/
theorem partsBelow_of_product (hnegated : negated? text = none)
    (hfamily : classify (stripParentheses text) = some .product) :
    partsBelow text true = [(some .plus, stripParentheses text)] := by
  rw [partsBelow, if_neg (fun h ↦ by cases h.1), hnegated]
  dsimp only
  rw [hfamily]
  exact if_pos ⟨rfl, rfl⟩

/-- What the reader goes on with is shorter than the text. Of a root it may be all of it. -/
theorem length_lt_of_mem_partsBelow {part : Option Sign × Text} (h : part ∈ partsBelow text root) :
    part.2.length < text.length + root.toNat := by
  have hstrip := length_stripParentheses_le text
  rw [partsBelow] at h
  split at h
  · cases h
  split at h
  · rename_i operand hnegated
    obtain ⟨rfl, -⟩ := negated?_eq_some_iff.1 hnegated
    cases List.mem_singleton.1 h
    dsimp only
    rw [List.length_cons]
    omega
  split at h
  · rename_i family hfamily
    split at h
    · rename_i hproduct
      cases List.mem_singleton.1 h
      dsimp only
      rw [hproduct.2, Bool.toNat_true]
      omega
    · obtain ⟨segment, hmem, rfl⟩ := List.mem_map.1 h
      have hshorter := length_signedOperand_lt hfamily hmem
      dsimp only
      omega
  · split at h
    · rename_i hnested
      have hshorter := length_stripParentheses_lt hnested
      cases List.mem_singleton.1 h
      dsimp only
      omega
    · cases h

/-- A text is read at as many levels as it has characters, and one more. A root takes another one,
as the reader goes on with all of a product that it reads as a root. -/
theorem exists_build (limit : Nat) (sign? : Option Sign) (root : Bool)
    (h : text.length + root.toNat < levels) :
    ∃ node, build limit levels sign? text root = .ok node := by
  induction levels generalizing sign? text root with
  | zero => cases h
  | succ levels ih =>
    refine exists_build_succ_iff.2 fun part hmem ↦ ih part.1 false ?_
    have hshorter := length_lt_of_mem_partsBelow hmem
    rw [Bool.toNat_false]
    omega

/-- A text is read if its scanned text is, one level above what the limit allows below it. -/
theorem exists_read_iff {limits : Limits} : (∃ node, read limits text root = .ok node) ↔
    ∃ node, build limits.depth (limits.depth + 1) none text.scanned root = .ok node := by
  constructor
  · rintro ⟨node, hnode⟩
    obtain ⟨inner, -, hinner⟩ := exists_of_read hnode
    exact ⟨inner, hinner⟩
  · rintro ⟨inner, hinner⟩
    exact ⟨inner.withRoot root, read_of_build hinner⟩

/-- **A text is read within a limit as large as it is long**, and as a root within one that is
larger by one. -/
theorem exists_read (limits : Limits) (text : Text) (root : Bool)
    (h : text.scanned.length + root.toNat ≤ limits.depth) :
    ∃ node, read limits text root = .ok node :=
  exists_read_iff.2 (exists_build limits.depth none root (Nat.lt_succ_of_le h))

/-- **What is read at some levels is read at more levels**, and behind any sign. -/
theorem exists_build_mono (hle : levels ≤ levels')
    (h : ∃ node, build limit levels sign? text root = .ok node) :
    ∃ node, build limit levels' sign?' text root = .ok node := by
  induction levels generalizing levels' sign? sign?' text root with
  | zero =>
    obtain ⟨node, hnode⟩ := h
    cases hnode
  | succ levels ih =>
    obtain ⟨levels', rfl⟩ : ∃ n, levels' = n + 1 := ⟨levels' - 1, by omega⟩
    rw [exists_build_succ_iff] at h ⊢
    exact fun part hmem ↦ ih (Nat.le_of_succ_le_succ hle) (h part hmem)

/-- An operand of a sum is read wherever it is read behind a minus. -/
theorem exists_read_of_minus {limits : Limits} {text : Text}
    (htext : Generates false Family.sum.operandCategory text)
    (h : ∃ node, read limits ('-' :: text) false = .ok node) :
    ∃ node, read limits text false = .ok node := by
  have hminus : Generates false (.signed Family.sum.operandCategory) ('-' :: text) :=
    .sign (show Sign.minus.isAdditive = true from rfl) (.unsigned htext)
  rw [exists_read_iff, hminus.scanned_eq] at h
  rw [exists_read_iff, htext.scanned_eq]
  -- the reader goes on with the operand in either case, if not behind the same sign
  obtain ⟨sign?, hbelow⟩ : ∃ sign?, (sign?, text) ∈ partsBelow ('-' :: text) false := by
    cases hnegated : negated? ('-' :: text) with
    | some operand =>
      obtain ⟨hcons, -⟩ := negated?_eq_some_iff.1 hnegated
      obtain ⟨-, rfl⟩ := List.cons.inj hcons
      rw [partsBelow, if_neg (fun h ↦ by cases h.2), hnegated]
      exact ⟨none, List.mem_singleton_self _⟩
    | none =>
      -- the text with the minus is a sum of one term
      have hstrip : stripParentheses ('-' :: text) = '-' :: text := rfl
      have hfamily : classify ('-' :: text) = some .sum := rfl
      rw [partsBelow_of_classify (Or.inr rfl) hnegated hfamily (fun h ↦ by cases h.1), hstrip,
        segments_of_isUncut (hminus.isUncut (Or.inl rfl))]
      exact ⟨some .minus, List.mem_singleton_self _⟩
  exact exists_build_mono (Nat.le_succ _) (exists_build_succ_iff.1 h _ hbelow)

end Node

end EquationSteps
