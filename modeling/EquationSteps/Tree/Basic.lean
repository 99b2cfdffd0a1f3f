import EquationSteps.Text.Numeral
import EquationSteps.Tree.Operator

/-!
# Expression trees

One side of an equation is a tree. A node is a leaf with the text of a number or a letter, or a
group of operands that share one operator family:

```
5 - 2*y/3            root [ +5, -[ *2, *[ /y, /3 ] ] ]
```

What a node carries besides its content is its `Tag`: its sign, its identity, the mark of a root,
which is the node that wraps one whole side, and the mark of a node that was substituted by an edit
and is pending examination. Identities are issued from outside, when an edit is complete
(`Tree.Identity`); a node made since has none. So changing a tree is a plain function on trees.

`Content` is a node without its tag: taking over another node's content is `withContent`, which
keeps the tag. Recursion through a tree is by pairs of functions, one on nodes and one on lists of
nodes, and `Node.induction` is the principle to reason with.
-/

namespace EquationSteps

/-- What tells nodes with equal content apart. -/
abbrev NodeId := Nat

/-- What a node carries besides its content. -/
structure Tag where
  /-- The identity of the node, once it is issued. -/
  id : Option NodeId
  /-- The operator in front of the node. -/
  sign : Sign
  /-- Whether the node wraps one whole side of an equation. -/
  root : Bool
  /-- Whether the node was substituted by an edit and is still to be examined. -/
  pending : Bool
  deriving DecidableEq

/-- The tag of a new node. -/
def Tag.fresh (sign : Sign) : Tag :=
  ⟨none, sign, false, false⟩

/-- A node of an expression tree. -/
inductive Node where
  /-- A leaf, with its text. -/
  | atom (tag : Tag) (text : Text)
  /-- A group of operands in order. -/
  | group (tag : Tag) (children : List Node)

/-- What a node holds, apart from its tag. -/
inductive Content where
  | atom (text : Text)
  | group (children : List Node)

namespace Node

/-- Induction over trees: a property of all children passes to the group. -/
theorem induction {motive : Node → Prop} (atom : ∀ tag text, motive (.atom tag text))
    (group : ∀ tag children, (∀ child ∈ children, motive child) → motive (.group tag children)) :
    ∀ node, motive node :=
  @Node.rec motive (fun nodes ↦ ∀ child ∈ nodes, motive child)
    atom group (fun _ h ↦ absurd h List.not_mem_nil)
    (fun _ _ head tail _ h ↦ (List.mem_cons.1 h).elim (fun e ↦ e ▸ head) (tail _))

/-! ### Tags and contents -/

/-- The tag of a node. -/
def tag : Node → Tag
  | .atom tag _ => tag
  | .group tag _ => tag

/-- Changes the tag of a node. -/
def mapTag (f : Tag → Tag) : Node → Node
  | .atom tag text => .atom (f tag) text
  | .group tag children => .group (f tag) children

/-- The content of a node. -/
def content : Node → Content
  | .atom _ text => .atom text
  | .group _ children => .group children

/-- The node with the given tag and content. -/
def ofContent (tag : Tag) : Content → Node
  | .atom text => .atom tag text
  | .group children => .group tag children

/-- The node with its content replaced and its tag kept. -/
def withContent (content : Content) (node : Node) : Node :=
  ofContent node.tag content

/-- A new node. -/
def fresh (sign : Sign) (content : Content) : Node :=
  ofContent (.fresh sign) content

/-- A new leaf. -/
def leaf (sign : Sign) (text : Text) : Node :=
  .atom (.fresh sign) text

/-- A new group. -/
def branch (sign : Sign) (children : List Node) : Node :=
  .group (.fresh sign) children

/-- The operator in front of a node. -/
def sign (node : Node) : Sign := node.tag.sign

/-- The identity of a node, once it is issued. -/
def id? (node : Node) : Option NodeId := node.tag.id

/-- Whether a node wraps one whole side of an equation. -/
def isRoot (node : Node) : Bool := node.tag.root

/-- Whether a node was substituted by an edit and is still to be examined. -/
def isPending (node : Node) : Bool := node.tag.pending

/-- The node with another sign. -/
def withSign (sign : Sign) (node : Node) : Node :=
  node.mapTag fun tag ↦ { tag with sign }

/-- The node with its sign turned to the opposite one. -/
def flipSign (node : Node) : Node :=
  node.withSign node.sign.flipped

/-- The node with the mark of a root set or cleared. -/
def withRoot (root : Bool) (node : Node) : Node :=
  node.mapTag fun tag ↦ { tag with root }

/-- The node with its own mark of pending set or cleared. -/
def withPending (pending : Bool) (node : Node) : Node :=
  node.mapTag fun tag ↦ { tag with pending }

/-- The operands of a group; a leaf has none. -/
def children : Node → List Node
  | .atom _ _ => []
  | .group _ children => children

/-- The node with its operands replaced; a leaf stays as it is. -/
def withChildren (children : List Node) : Node → Node
  | .atom tag text => .atom tag text
  | .group tag _ => .group tag children

/-- The text of a leaf. -/
def atomText? : Node → Option Text
  | .atom _ text => some text
  | .group _ _ => none

/-- The operator family of a group, which its first operand gives. Leaves and empty groups have
none. -/
def family? (node : Node) : Option Family :=
  node.children.head?.map fun first ↦ Family.ofSign first.sign

/-- Whether a node is the leaf `0`, whatever its sign. -/
def isZeroAtom (node : Node) : Bool :=
  node.atomText? == some ['0']

/-- The number in a leaf that is an integer literal. -/
def integer? (node : Node) : Option Nat :=
  node.atomText?.bind Numeral.integer?

/-- A new node with the given sign and the value of `node`. A factor or divisor has no room for a
minus sign, so a negative node is kept as the only operand of a group. -/
def asOperand (node : Node) (sign : Sign) : Node :=
  if node.sign = .minus then branch sign [fresh .minus node.content]
  else fresh sign node.content

@[simp] theorem tag_atom (tag : Tag) (text : Text) : (Node.atom tag text).tag = tag := rfl

@[simp] theorem tag_group (tag : Tag) (children : List Node) :
    (Node.group tag children).tag = tag := rfl

@[simp] theorem content_ofContent (tag : Tag) (content : Content) :
    (ofContent tag content).content = content := by
  cases content <;> rfl

@[simp] theorem tag_ofContent (tag : Tag) (content : Content) :
    (ofContent tag content).tag = tag := by
  cases content <;> rfl

@[simp] theorem ofContent_tag_content (node : Node) : ofContent node.tag node.content = node := by
  cases node <;> rfl

@[simp] theorem content_withContent (content : Content) (node : Node) :
    (node.withContent content).content = content :=
  content_ofContent _ _

@[simp] theorem tag_withContent (content : Content) (node : Node) :
    (node.withContent content).tag = node.tag :=
  tag_ofContent _ _

@[simp] theorem tag_mapTag (f : Tag → Tag) (node : Node) : (node.mapTag f).tag = f node.tag := by
  cases node <;> rfl

@[simp] theorem content_mapTag (f : Tag → Tag) (node : Node) :
    (node.mapTag f).content = node.content := by
  cases node <;> rfl

@[simp] theorem children_mapTag (f : Tag → Tag) (node : Node) :
    (node.mapTag f).children = node.children := by
  cases node <;> rfl

@[simp] theorem withChildren_children (node : Node) : node.withChildren node.children = node := by
  cases node <;> rfl

@[simp] theorem tag_withChildren (children : List Node) (node : Node) :
    (node.withChildren children).tag = node.tag := by
  cases node <;> rfl

/-! ### Functions on whole trees -/

mutual

/-- Sets or clears the mark of pending on a node and on all nodes below it. -/
def mark (pending : Bool) : Node → Node
  | .atom tag text => .atom { tag with pending } text
  | .group tag children => .group { tag with pending } (markAll pending children)

/-- `mark` on a list of nodes. -/
def markAll (pending : Bool) : List Node → List Node
  | [] => []
  | node :: nodes => mark pending node :: markAll pending nodes

end

mutual

/-- Whether two trees agree in signs and contents, whatever their identities and marks. -/
def sameStructure : Node → Node → Bool
  | .atom tag text, .atom tag' text' => tag.sign == tag'.sign && text == text'
  | .group tag children, .group tag' children' =>
    tag.sign == tag'.sign && sameStructures children children'
  | .atom _ _, .group _ _ => false
  | .group _ _, .atom _ _ => false

/-- `sameStructure` on two lists of nodes. -/
def sameStructures : List Node → List Node → Bool
  | [], [] => true
  | node :: nodes, node' :: nodes' => sameStructure node node' && sameStructures nodes nodes'
  | [], _ :: _ => false
  | _ :: _, [] => false

end

/-- Whether a text may stand in a leaf: a decimal literal or one letter. -/
def isOperandText (text : Text) : Bool :=
  Numeral.isDecimal text || Text.isVariable text

mutual

/-- Whether all leaves of a tree are decimal literals or letters. -/
def isValid : Node → Bool
  | .atom _ text => isOperandText text
  | .group _ children => areValid children

/-- `isValid` on a list of nodes. -/
def areValid : List Node → Bool
  | [] => true
  | node :: nodes => isValid node && areValid nodes

end

mutual

/-- The letters in the leaves of a tree, in order and with repetitions. -/
def letters : Node → Text
  | .atom _ text => text.filter Char.isAlpha
  | .group _ children => lettersOfAll children

/-- `letters` on a list of nodes. -/
def lettersOfAll : List Node → Text
  | [] => []
  | node :: nodes => letters node ++ lettersOfAll nodes

end

/-- The distinct variables of a tree, in the order of their first appearance. -/
def variableNames (node : Node) : Text :=
  node.letters.eraseDups

mutual

/-- The number of levels of a tree; a leaf and an empty group have one. -/
def depth : Node → Nat
  | .atom _ _ => 1
  | .group _ children => 1 + maxDepth children

/-- The greatest depth in a list of nodes. -/
def maxDepth : List Node → Nat
  | [] => 0
  | node :: nodes => max (depth node) (maxDepth nodes)

end

mutual

/-- The number of nodes of a tree, in which a root counts twice. -/
def weight : Node → Nat
  | .atom tag _ => if tag.root then 2 else 1
  | .group tag children => (if tag.root then 2 else 1) + totalWeight children

/-- The sum of the weights in a list of nodes. -/
def totalWeight : List Node → Nat
  | [] => 0
  | node :: nodes => weight node + totalWeight nodes

end

theorem areValid_eq_all (nodes : List Node) : areValid nodes = nodes.all isValid := by
  induction nodes with
  | nil => rfl
  | cons node nodes ih => rw [areValid, ih, List.all_cons]

theorem lettersOfAll_eq_flatMap (nodes : List Node) :
    lettersOfAll nodes = nodes.flatMap letters := by
  induction nodes with
  | nil => rfl
  | cons node nodes ih => rw [lettersOfAll, ih, List.flatMap_cons]

theorem weight_le_totalWeight {node : Node} {nodes : List Node} (h : node ∈ nodes) :
    node.weight ≤ totalWeight nodes := by
  induction nodes with
  | nil => cases h
  | cons head nodes ih =>
    rw [totalWeight]
    rcases List.mem_cons.1 h with rfl | h
    · exact Nat.le_add_right _ _
    · exact Nat.le_trans (ih h) (Nat.le_add_left _ _)

mutual

/-- Every tree has its own structure. -/
theorem sameStructure_refl : ∀ node : Node, sameStructure node node = true
  | .atom _ _ => by simp [sameStructure]
  | .group _ children => by simp [sameStructure, sameStructures_refl children]

/-- `sameStructure_refl` on a list of nodes. -/
theorem sameStructures_refl : ∀ nodes : List Node, sameStructures nodes nodes = true
  | [] => by simp [sameStructures]
  | node :: nodes => by
    simp [sameStructures, sameStructure_refl node, sameStructures_refl nodes]

end

end Node

end EquationSteps
