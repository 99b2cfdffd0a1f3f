import EquationSteps.Proofs.Reading.Levels

/-!
# The cap on nesting

The reader goes down one level for each operand, and the cap says how far down it may go. Three
things are said here about what the cap does.

* It bounds the tree. There are at most as many levels in it as the reader had left, and a root may
  have one more (`Node.depth_le_of_build`).
* It decides about nothing else. What is read within a cap is read as the same tree within any
  larger one (`Node.build_mono`).
* A cap that suffices is known beforehand, and is twice the length of a text, whatever the text
  says: scanning at most doubles the length (`length_scanned_le`), and a text is read within a limit
  as large as it is long.

**A cap of `n` allows `n + 1` levels**, since the outermost level is not nested in anything. And a
root may have a level more than what stands below it, as the parts of a quotient that is read as a
root get a group of their own. So the bound on the depth of a tree is the cap plus one, or plus two
for a root.

**The cap does not count parentheses.** What takes a level is an operand, and `x+1` takes one more
level than `x` without any parentheses in it. A single pair of parentheses around a text is taken
off at the level of what stands in it, and only a second pair takes a level of its own. So the cap
is not the largest number of parentheses that can be open at once.

The first two go by recursion on the levels, through `Node.build_succ_eq`: one step of the reader
is one level for what it goes on with, and it never fails by itself. All three are put together in
`Node.cap_bounds_read`.
-/

namespace EquationSteps

/-! ### The length of a scanned text -/

/-- A `*` may be put in front of every character but the first. -/
theorem length_explicitProducts_le (text : Text) :
    (explicitProducts text).length ≤ 2 * text.length - 1 := by
  fun_induction explicitProducts text with
  | case1 => exact Nat.le_refl _
  | case2 c => exact Nat.le_refl _
  | case3 c d rest hmultiplies ih =>
    simp only [List.length_cons] at ih ⊢
    omega
  | case4 c d rest hapart ih =>
    simp only [List.length_cons] at ih ⊢
    omega

/-- Scanning puts at most one `*` between any two neighbours. -/
theorem length_scanned_le (text : Text) : text.scanned.length ≤ 2 * text.length - 1 := by
  have hkept : text.withoutBlanks.length ≤ text.length := List.length_filter_le _ _
  have hscanned := length_explicitProducts_le text.withoutBlanks
  rw [Text.scanned]
  omega

namespace Node

variable {limit limit' levels levels' : Nat} {sign? : Option Sign} {text : Text}
  {root : Bool} {node : Node}

/-! ### Larger caps

The levels that are left matter only where there are none left, so a text that is read at some
levels takes the same way at more of them. -/

/-- **What is read at some levels is read as the same tree at more levels.** -/
theorem build_mono (hle : levels ≤ levels') (h : build limit levels sign? text root = .ok node) :
    build limit' levels' sign? text root = .ok node := by
  induction levels generalizing levels' sign? text root node with
  | zero => cases h
  | succ levels ih =>
    obtain ⟨levels', rfl⟩ : ∃ n, levels' = n + 1 := ⟨levels' - 1, by omega⟩
    rw [build_succ_eq] at h ⊢
    exact Except.bind_mono (fun _ ↦ mapM'_mono fun _ _ ↦ ih (Nat.le_of_succ_le_succ hle)) h

/-! ### The depth of what is read

What one step makes of the parts of a text has at most one level more than the parts, and the reader
takes at most as many steps, one within the other, as it had levels left. -/

/-- The depth of a node does not depend on the tag that its content gets. -/
theorem depth_ofContent (tag : Tag) (node : Node) :
    (ofContent tag node.content).depth = node.depth := by
  cases node <;> rfl

/-- The first of some nodes is no deeper than they are, up to the empty group that stands for it if
there are none. -/
theorem depth_headD_le {nodes : List Node} (h : ∀ node ∈ nodes, node.depth ≤ levels) :
    (nodes.headD (branch .plus [])).depth ≤ levels + 1 := by
  cases nodes with
  | nil => exact Nat.le_add_left 1 levels
  | cons node nodes => exact (h node List.mem_cons_self).trans (Nat.le_succ levels)

/-- What is made of the parts of a text has one level more than they have, and a root at most
two. -/
theorem depth_ofPartsBelow_le {read : List Node} (h : ∀ node ∈ read, node.depth ≤ levels) :
    (ofPartsBelow sign? text root read).depth ≤ levels + 1 + root.toNat := by
  have hhead := depth_headD_le h
  have hbranch : ∀ sign, (branch sign read).depth ≤ levels + 1 := fun sign ↦ by
    have hdepth := maxDepth_le_iff.2 h
    rw [branch, depth]
    omega
  have hleaf : ∀ sign text, (leaf sign text).depth = 1 := fun _ _ ↦ rfl
  unfold ofPartsBelow
  split
  · rw [hleaf]
    omega
  split
  · split
    · rw [fresh, depth_ofContent]
      omega
    · have hnegated : maxDepth (read.map fun inner ↦ fresh .minus inner.content) ≤ levels :=
        maxDepth_le_iff.2 (List.forall_mem_map.2 fun inner hmem ↦
          (depth_ofContent _ inner).le.trans (h inner hmem))
      rw [branch, depth]
      omega
  split
  · split
    -- at the root the parts of a quotient stand two levels down
    · rename_i hquotient
      have hinner := hbranch .plus
      rw [branch, depth, maxDepth, maxDepth, hquotient.2, Bool.toNat_true]
      omega
    · exact (hbranch _).trans (Nat.le_add_right _ _)
  · split
    · rw [fresh, depth_ofContent]
      omega
    · split
      · rw [branch, depth, maxDepth]
        omega
      · split
        -- a leaf below the root, which takes a level even if none was read
        · rename_i hoperand
          rw [branch, depth, maxDepth, maxDepth, hleaf, hoperand.1, Bool.toNat_true]
          omega
        · rw [hleaf]
          omega

/-- **A tree has no more levels than the reader had left**, and a root at most one more, as the
parts of a quotient stand two levels below it. -/
theorem depth_le_of_build (h : build limit levels sign? text root = .ok node) :
    node.depth ≤ levels + root.toNat := by
  induction levels generalizing sign? text root node with
  | zero => cases h
  | succ levels ih =>
    rw [build_succ_eq] at h
    obtain ⟨read, hread, h⟩ := Except.ok_of_bind_eq_ok h
    cases h
    obtain ⟨parts, -, rfl, hparts⟩ := exists_parts_of_mapM' hread
    exact depth_ofPartsBelow_le (List.forall_mem_map.2 fun part hmem ↦ ih (hparts part hmem))

/-- Tags have no levels. -/
theorem depth_mapTag (f : Tag → Tag) (node : Node) : (node.mapTag f).depth = node.depth := by
  cases node <;> rfl

/-! ### Reading within a cap

The same of what is read under limits, where scanning comes first and the mark of a root last. -/

/-- What is read within a cap is read as the same tree within a larger one. -/
theorem read_mono {limits larger : Limits} (hle : limits.depth ≤ larger.depth)
    (h : read limits text root = .ok node) : read larger text root = .ok node := by
  obtain ⟨inner, rfl, hinner⟩ := exists_of_read h
  exact read_of_build (build_mono (Nat.succ_le_succ hle) hinner)

/-- A tree has at most one level more than the cap, and as a root two more. -/
theorem depth_le_of_read {limits : Limits} (h : read limits text root = .ok node) :
    node.depth ≤ limits.depth + if root = true then 2 else 1 := by
  obtain ⟨inner, rfl, hinner⟩ := exists_of_read h
  have hdepth := depth_le_of_build hinner
  rw [withRoot, depth_mapTag]
  cases root with
  | false => exact hdepth
  | true => exact hdepth

/-- A cap that is twice as large as the text is long suffices. -/
theorem exists_read_of_length {limits : Limits} (h : 2 * text.length ≤ limits.depth) :
    ∃ node, read limits text root = .ok node := by
  by_cases hempty : text = []
  · -- nothing is above the single level that even the cap of zero leaves
    have hnothing : ∃ inner,
        build limits.depth (limits.depth + 1) none (Text.scanned []) root = .ok inner := by
      cases root with
      | false => exact ⟨leaf .plus [], rfl⟩
      | true => exact ⟨branch .plus [], rfl⟩
    obtain ⟨inner, hinner⟩ := hnothing
    subst hempty
    exact ⟨_, read_of_build hinner⟩
  · have hpos := List.length_pos_iff.2 hempty
    have hscanned := length_scanned_le text
    have hroot := Bool.toNat_le root
    exact exists_read limits text root (by omega)

/-- **The cap on nesting bounds the tree and nothing else.** A text is refused only for nesting too
deeply, with the cap as it stands in the limits, and else it is read as a tree that has at most one
level more than the cap, or two as a root. The same tree is read within every larger cap. And every
text is read, however it is written, within a cap that is twice as large as the text is long. -/
theorem cap_bounds_read (limits : Limits) (text : Text) (root : Bool) :
    (read limits text root = .error (.nestingTooDeep limits.depth) ∨
      ∃ node, read limits text root = .ok node ∧
        node.depth ≤ limits.depth + if root = true then 2 else 1) ∧
    (∀ (node : Node) (larger : Limits), read limits text root = .ok node →
      limits.depth ≤ larger.depth →
      read larger text root = .ok node) ∧
    (2 * text.length ≤ limits.depth → ∃ node, read limits text root = .ok node) := by
  refine ⟨?_, fun _ _ h hle ↦ read_mono hle h, exists_read_of_length⟩
  cases hread : read limits text root with
  | error cause =>
    left
    rw [read_eq_error hread]
  | ok node => exact Or.inr ⟨node, rfl, depth_le_of_read hread⟩

/-- Two pairs of parentheses are too much for a cap of zero, but not for one of twice their
length. -/
theorem read_nested_within_ten :
    read ⟨0, 1⟩ ['(', '(', 'x', ')', ')'] false = .error (.nestingTooDeep 0) ∧
      ∃ node, read ⟨10, 1⟩ ['(', '(', 'x', ')', ')'] false = .ok node :=
  ⟨rfl, (cap_bounds_read ⟨10, 1⟩ ['(', '(', 'x', ')', ')'] false).2.2 (by decide)⟩

end Node

end EquationSteps
