import EquationSteps.Tree.Basic

/-!
# Identities in a tree

Nodes are told apart by their identities, never by their contents. A tree keeps no links from a node
to its parent, so what is above a node is found by searching downwards from the root; a search
visits a node before its children, and the children from left to right.

New identities come from a counter: `number` gives one to each node that has none. Changing a tree
never issues an identity by itself, so after an edit the nodes that survived are known by their old
identities and the new ones get fresh ones. A copy of a tree is `anonymous`: all of its nodes count
as new.
-/

namespace EquationSteps.Node

/-! ### Searching -/

/-- Whether a node with the identity is among the children of a node. -/
def hasChild (id : NodeId) (node : Node) : Bool :=
  node.children.any fun child ↦ child.id? == some id

mutual

/-- The node with the identity in a tree. -/
def find? (id : NodeId) : Node → Option Node
  | .atom tag text => if tag.id = some id then some (.atom tag text) else none
  | .group tag children =>
    if tag.id = some id then some (.group tag children) else findAmong? id children

/-- `find?` in the first of several trees that has the node. -/
def findAmong? (id : NodeId) : List Node → Option Node
  | [] => none
  | node :: nodes => (find? id node).or (findAmong? id nodes)

end

mutual

/-- The node that has the identity among its children. -/
def findParent? (id : NodeId) : Node → Option Node
  | .atom _ _ => none
  | .group tag children =>
    if (group tag children).hasChild id then some (.group tag children)
    else findParentAmong? id children

/-- `findParent?` in the first of several trees that has the node. -/
def findParentAmong? (id : NodeId) : List Node → Option Node
  | [] => none
  | node :: nodes => (findParent? id node).or (findParentAmong? id nodes)

end

mutual

/-- Whether some node of a tree has both identities among its children. -/
def areSiblings (a b : NodeId) : Node → Bool
  | .atom _ _ => false
  | .group tag children =>
    ((group tag children).hasChild a && (group tag children).hasChild b) ||
      areSiblingsAmong a b children

/-- `areSiblings` in any of several trees. -/
def areSiblingsAmong (a b : NodeId) : List Node → Bool
  | [] => false
  | node :: nodes => areSiblings a b node || areSiblingsAmong a b nodes

end

/-! ### Changing a node in place -/

mutual

/-- The tree with the node of the identity changed, if the tree has it. -/
def modify? (id : NodeId) (f : Node → Node) : Node → Option Node
  | .atom tag text => if tag.id = some id then some (f (.atom tag text)) else none
  | .group tag children =>
    if tag.id = some id then some (f (.group tag children))
    else (modifyAmong? id f children).map (.group tag)

/-- `modify?` in the first of several trees that has the node. -/
def modifyAmong? (id : NodeId) (f : Node → Node) : List Node → Option (List Node)
  | [] => none
  | node :: nodes =>
    match modify? id f node with
    | some node => some (node :: nodes)
    | none => (modifyAmong? id f nodes).map (node :: ·)

end

mutual

/-- The tree with the parent of the identity changed, if the tree has it. -/
def modifyParent? (id : NodeId) (f : Node → Node) : Node → Option Node
  | .atom _ _ => none
  | .group tag children =>
    if (group tag children).hasChild id then some (f (.group tag children))
    else (modifyParentAmong? id f children).map (.group tag)

/-- `modifyParent?` in the first of several trees that has the node. -/
def modifyParentAmong? (id : NodeId) (f : Node → Node) : List Node → Option (List Node)
  | [] => none
  | node :: nodes =>
    match modifyParent? id f node with
    | some node => some (node :: nodes)
    | none => (modifyParentAmong? id f nodes).map (node :: ·)

end

/-- The children of a node, without the one of the identity. -/
def childrenBut (id : NodeId) (node : Node) : List Node :=
  node.children.filter fun child ↦ child.id? != some id

/-- The tree without the node of the identity, if that is a child of some node here. -/
def erase? (id : NodeId) (node : Node) : Option Node :=
  node.modifyParent? id fun parent ↦ parent.withChildren (parent.childrenBut id)

/-- The node with one more operand behind its others; a leaf takes none. -/
def push? (node child : Node) : Option Node :=
  match node with
  | .atom _ _ => none
  | .group tag children => some (.group tag (children ++ [child]))

/-! ### Issuing identities -/

mutual

/-- The tree as it would be newly made: no node has an identity. -/
def anonymous : Node → Node
  | .atom tag text => .atom { tag with id := none } text
  | .group tag children => .group { tag with id := none } (anonymousAll children)

/-- `anonymous` on a list of nodes. -/
def anonymousAll : List Node → List Node
  | [] => []
  | node :: nodes => anonymous node :: anonymousAll nodes

end

/-- The tag with an identity, and the next identity to issue. An identity once issued stays. -/
def numberTag (next : NodeId) (tag : Tag) : Tag × NodeId :=
  match tag.id with
  | some _ => (tag, next)
  | none => ({ tag with id := some next }, next + 1)

mutual

/-- Issues an identity to each node that has none, a node before its children. Returns the next
identity to issue as well. -/
def number (next : NodeId) : Node → Node × NodeId
  | .atom tag text =>
    let (tag, next) := numberTag next tag
    (.atom tag text, next)
  | .group tag children =>
    let (tag, next) := numberTag next tag
    let (children, next) := numberAll next children
    (.group tag children, next)

/-- `number` on a list of nodes. -/
def numberAll (next : NodeId) : List Node → List Node × NodeId
  | [] => ([], next)
  | node :: nodes =>
    let (node, next) := number next node
    let (nodes, next) := numberAll next nodes
    (node :: nodes, next)

end

mutual

/-- The identities of a tree in the order in which a search visits them; `none` stands for a node
without one. -/
def ids : Node → List (Option NodeId)
  | .atom tag _ => [tag.id]
  | .group tag children => tag.id :: idsOfAll children

/-- `ids` on a list of nodes. -/
def idsOfAll : List Node → List (Option NodeId)
  | [] => []
  | node :: nodes => ids node ++ idsOfAll nodes

end

theorem anonymousAll_eq_map (nodes : List Node) : anonymousAll nodes = nodes.map anonymous := by
  induction nodes with
  | nil => rfl
  | cons node nodes ih => rw [anonymousAll, ih, List.map_cons]

theorem findAmong?_eq_findSome? (id : NodeId) (nodes : List Node) :
    findAmong? id nodes = nodes.findSome? (find? id) := by
  induction nodes with
  | nil => rfl
  | cons node nodes ih =>
    rw [findAmong?, ih, List.findSome?_cons]
    cases find? id node <;> rfl

theorem findParentAmong?_eq_findSome? (id : NodeId) (nodes : List Node) :
    findParentAmong? id nodes = nodes.findSome? (findParent? id) := by
  induction nodes with
  | nil => rfl
  | cons node nodes ih =>
    rw [findParentAmong?, ih, List.findSome?_cons]
    cases findParent? id node <;> rfl

theorem areSiblingsAmong_eq_any (a b : NodeId) (nodes : List Node) :
    areSiblingsAmong a b nodes = nodes.any (areSiblings a b) := by
  induction nodes with
  | nil => rfl
  | cons node nodes ih => rw [areSiblingsAmong, ih, List.any_cons]

theorem idsOfAll_eq_flatMap (nodes : List Node) : idsOfAll nodes = nodes.flatMap ids := by
  induction nodes with
  | nil => rfl
  | cons node nodes ih => rw [idsOfAll, ih, List.flatMap_cons]

/-- A node that is found has the identity that was asked for. -/
theorem id?_of_find? {id : NodeId} {node found : Node} (h : node.find? id = some found) :
    found.id? = some id := by
  revert h
  refine Node.induction (motive := fun node ↦ node.find? id = some found → found.id? = some id)
    (fun tag text h ↦ ?_) (fun tag children ih h ↦ ?_) node
  · simp only [find?] at h
    split at h
    · cases h; assumption
    · cases h
  · simp only [find?] at h
    split at h
    · cases h; assumption
    · rw [findAmong?_eq_findSome?] at h
      obtain ⟨child, hmem, hchild⟩ := List.exists_of_findSome?_eq_some h
      exact ih child hmem hchild

end EquationSteps.Node
