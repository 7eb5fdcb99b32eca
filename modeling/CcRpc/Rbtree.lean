import CcRpc.Lib.RedBlack

/-!
# The red-black tree (`rbtree.c`)

Nodes are records in a memory that maps their addresses to them; NULL is `none`, and a function
that dereferences it returns `none`. The two mirrored versions of a step are one definition over the
side. A loop has a bound on its iterations and returns `none` when they do not end it.
-/

namespace CcRpc

open RedBlack

/-- `struct rb_node`, without the pointer to the root that nothing reads. -/
structure RbNode where
  rbParent : Option Nat
  rbColor : Color
  rbRight : Option Nat
  rbLeft : Option Nat
  value : UInt32

/-- `struct rb_root`. -/
structure RbRoot where
  rbNode : Option Nat
  firstNode : Option Nat
  lastNode : Option Nat
  count : UInt32

/-- The memory of nodes and one root. -/
structure Rb where
  node : Nat → RbNode
  root : RbRoot

namespace Rb

/-- Static memory before the first call, all zero. -/
def initial : Rb := ⟨fun _ => ⟨none, .red, none, none, 0⟩, ⟨none, none, none, 0⟩⟩

def parent (S : Rb) (a : Nat) : Option Nat := (S.node a).rbParent
def color (S : Rb) (a : Nat) : Color := (S.node a).rbColor
def value (S : Rb) (a : Nat) : UInt32 := (S.node a).value

/-- `a->rb_left` or `a->rb_right`. -/
def child (S : Rb) (s : Side) (a : Nat) : Option Nat :=
  match s with
  | .left => (S.node a).rbLeft
  | .right => (S.node a).rbRight

def setNode (S : Rb) (a : Nat) (n : RbNode) : Rb := { S with node := Function.update S.node a n }

def setParent (S : Rb) (a : Nat) (q : Option Nat) : Rb :=
  S.setNode a { S.node a with rbParent := q }

def setColor (S : Rb) (a : Nat) (c : Color) : Rb := S.setNode a { S.node a with rbColor := c }

def setChild (S : Rb) (s : Side) (a : Nat) (q : Option Nat) : Rb :=
  S.setNode a (match s with
    | .left => { S.node a with rbLeft := q }
    | .right => { S.node a with rbRight := q })

def setValue (S : Rb) (a : Nat) (v : UInt32) : Rb := S.setNode a { S.node a with value := v }

def setRbNode (S : Rb) (q : Option Nat) : Rb := { S with root := { S.root with rbNode := q } }

/-- `!p || p->rb_color == RB_BLACK`. -/
def isBlack (S : Rb) (p : Option Nat) : Bool :=
  match p with
  | none => true
  | some a => S.color a = .black

/-- `if (p) p->rb_color = RB_BLACK`. -/
def blacken (S : Rb) (p : Option Nat) : Rb :=
  match p with
  | none => S
  | some a => S.setColor a .black

/-- `if (p) p->rb_parent = parent`. -/
def adopt (S : Rb) (p parent : Option Nat) : Rb :=
  match p with
  | none => S
  | some a => S.setParent a parent

/-- The link of `parent` to `node`, looked for on the side `s` first, is set to `new`; without a
parent the root's is. -/
def replaceChild (S : Rb) (s : Side) (parent : Option Nat) (node : Nat) (new : Option Nat) : Rb :=
  match parent with
  | some p => if S.child s p = some node then S.setChild s p new else S.setChild s.other p new
  | none => S.setRbNode new

end Rb

/-- A rotation to the side `s`. -/
def rbRotate (s : Side) (node : Nat) (S : Rb) : Option Rb := do
  let right ← S.child s.other node
  let S := S.setChild s.other node (S.child s right)
  let S := S.adopt (S.child s.other node) (some node)
  let S := S.setChild s right (some node)
  let S := S.setParent right (S.parent node)
  let S := S.replaceChild s (S.parent right) node (some right)
  return S.setParent node (some right)

def rbRotateLeft : Nat → Rb → Option Rb := rbRotate .left
def rbRotateRight : Nat → Rb → Option Rb := rbRotate .right

def rbLinkNode (node : Nat) (parent : Option Nat) (S : Rb) : Rb :=
  let S := S.setParent node parent
  let S := S.setColor node .red
  let S := S.setChild .right node none
  S.setChild .left node none

/-- A `node` on the other side of its parent changes places with it. -/
def rbInsertTurn (s : Side) (node parent : Nat) (S : Rb) : Option (Nat × Nat × Rb) :=
  if S.child s.other parent = some node then do
    let S ← rbRotate s parent S
    return (parent, node, S)
  else return (node, parent, S)

/-- The iteration of `rb_insert_color` for a parent on the side `s` of the grandparent: the next
`node`, and the tree. -/
def rbInsertFix (s : Side) (node parent grandParent : Nat) (S : Rb) : Option (Nat × Rb) :=
  let uncle := S.child s.other grandParent
  if S.isBlack uncle then do
    let (node, parent, S) ← rbInsertTurn s node parent S
    let S := S.setColor parent .black
    let S := S.setColor grandParent .red
    let S ← rbRotate s.other grandParent S
    return (node, S)
  else
    let S := S.blacken uncle
    let S := S.setColor parent .black
    let S := S.setColor grandParent .red
    return (grandParent, S)

/-- `rb_insert_color`. -/
def rbInsertColor : Nat → Nat → Rb → Option Rb
  | 0, _, _ => none
  | fuel + 1, node, S =>
    match (S.parent node).filter (fun parent => S.color parent = .red) with
    | some parent => do
      let grandParent ← S.parent parent
      let s := if S.child .left grandParent = some parent then Side.left else .right
      let (node, S) ← rbInsertFix s node parent grandParent S
      rbInsertColor fuel node S
    | none => do
      let top ← S.root.rbNode
      return S.setColor top .black

/-- Where a pointer to a link points: to the root's, or to a node's on one side. -/
inductive RbLink
  | root
  | child (s : Side) (a : Nat)

def RbLink.load (S : Rb) : RbLink → Option Nat
  | root => S.root.rbNode
  | child s a => S.child s a

def RbLink.store (q : Option Nat) (S : Rb) : RbLink → Rb
  | root => S.setRbNode q
  | child s a => S.setChild s a q

/-- The descent of `rb_insert_node`. -/
def rbInsertLink (S : Rb) (v : UInt32) : Nat → RbLink → Option Nat → Option (RbLink × Option Nat)
  | 0, _, _ => none
  | fuel + 1, link, parent =>
    match link.load S with
    | none => some (link, parent)
    | some a => rbInsertLink S v fuel (.child (if v < S.value a then .left else .right) a) (some a)

/-- The update of `first_node` and `last_node` before the insertion. -/
def rbInsertEnds (newNode : Nat) (S : Rb) : Option Rb :=
  if S.root.count ≠ 0 then do
    let last ← S.root.lastNode
    let lastNode := if S.value newNode ≥ S.value last then some newNode else some last
    let first ← S.root.firstNode
    let firstNode := if S.value newNode < S.value first then some newNode else some first
    return { S with root := { S.root with firstNode := firstNode, lastNode := lastNode } }
  else return { S with root := { S.root with firstNode := some newNode, lastNode := some newNode } }

/-- `rb_insert_node`. -/
def rbInsertNode (fuel newNode : Nat) (S : Rb) : Option Rb := do
  let (link, parent) ← rbInsertLink S (S.value newNode) fuel .root none
  let S ← rbInsertEnds newNode S
  let S := link.store (some newNode) (rbLinkNode newNode parent S)
  let S ← rbInsertColor fuel newNode S
  return { S with root := { S.root with count := S.root.count + 1 } }

/-- The sibling `other`, after a rotation if it was red. -/
def rbEraseSibling (s : Side) (parent : Nat) (S : Rb) : Option (Nat × Rb) := do
  let other ← S.child s.other parent
  if S.color other = .red then
    let S := S.setColor other .black
    let S := S.setColor parent .red
    let S ← rbRotate s parent S
    let other ← S.child s.other parent
    return (other, S)
  else return (other, S)

/-- The sibling `other`, after a rotation if its child on the other side of `s` was black. -/
def rbEraseTurn (s : Side) (parent other : Nat) (S : Rb) : Option (Nat × Rb) :=
  if S.isBlack (S.child s.other other) then do
    let S := S.blacken (S.child s other)
    let S := S.setColor other .red
    let S ← rbRotate s.other other S
    let other ← S.child s.other parent
    return (other, S)
  else return (other, S)

/-- The iteration of `rb_erase_color` for a `node` on the side `s` of its parent: the next `node`
and `parent`, or nothing after a `break`, and the tree. -/
def rbEraseFix (s : Side) (parent : Nat) (S : Rb) : Option (Option (Nat × Option Nat) × Rb) := do
  let (other, S) ← rbEraseSibling s parent S
  if S.isBlack (S.child .left other) ∧ S.isBlack (S.child .right other) then
    let S := S.setColor other .red
    return (some (parent, S.parent parent), S)
  else
    let (other, S) ← rbEraseTurn s parent other S
    let S := S.setColor other (S.color parent)
    let S := S.setColor parent .black
    let S := S.blacken (S.child s.other other)
    let S ← rbRotate s parent S
    return (none, S)

/-- `rb_erase_color`. -/
def rbEraseColor : Nat → Option Nat → Option Nat → Rb → Option Rb
  | 0, _, _, _ => none
  | fuel + 1, node, parent, S =>
    if S.isBlack node ∧ node ≠ S.root.rbNode then do
      let p ← parent
      let s := if S.child .left p = node then Side.left else .right
      let (next, S) ← rbEraseFix s p S
      match next with
      | some (node, parent) => rbEraseColor fuel (some node) parent S
      | none => return S.blacken S.root.rbNode
    else return S.blacken node

/-- `while (node->rb_left) node = node->rb_left`, on the side `s`. -/
def rbEnd (S : Rb) (s : Side) : Nat → Nat → Option Nat
  | 0, _ => none
  | fuel + 1, node =>
    match S.child s node with
    | none => some node
    | some next => rbEnd S s fuel next

/-- The last part of the relinking of `rb_erase`: `node` takes the place of `old`. -/
def rbEraseReplace (old node : Nat) (S : Rb) : Option Rb := do
  let S := S.setParent node (S.parent old)
  let S := S.setColor node (S.color old)
  let S := S.setChild .right node (S.child .right old)
  let S := S.setChild .left node (S.child .left old)
  let S := S.replaceChild .left (S.parent old) old (some node)
  let left ← S.child .left old
  let S := S.setParent left (some node)
  return S.adopt (S.child .right old) (some node)

/-- The relinking of `rb_erase`: the `child` and the `parent` for the repair, the colour that the
tree lost, and the tree. -/
def rbEraseLink (fuel node : Nat) (S : Rb) : Option (Option Nat × Option Nat × Color × Rb) :=
  match S.child .left node, S.child .right node with
  | none, child | child, none =>
    let parent := S.parent node
    let color := S.color node
    let S := S.adopt child parent
    let S := S.replaceChild .left parent node child
    some (child, parent, color, S)
  | some _, some right => do
    let old := node
    let node ← rbEnd S .left fuel right
    let child := S.child .right node
    let parent := S.parent node
    let color := S.color node
    let S := S.adopt child parent
    let S := S.replaceChild .left parent node child
    let parent := if S.parent node = some old then some node else parent
    let S ← rbEraseReplace old node S
    return (child, parent, color, S)

/-- `rb_erase`. -/
def rbErase (fuel node : Nat) (S : Rb) : Option Rb := do
  let (child, parent, color, S) ← rbEraseLink fuel node S
  if color = .black then rbEraseColor fuel child parent S else return S

/-- `while (node->rb_parent && node == node->rb_parent->rb_right) node = node->rb_parent`, on the
side `s`; the last parent. -/
def rbClimb (S : Rb) (s : Side) : Nat → Nat → Option (Option Nat)
  | 0, _ => none
  | fuel + 1, node =>
    match S.parent node with
    | none => some none
    | some p => if S.child s p = some node then rbClimb S s fuel p else some (some p)

/-- The next node on the side `s`, NULL if there is none. -/
def rbNeighbour (s : Side) (fuel node : Nat) (S : Rb) : Option (Option Nat) :=
  match S.child s node with
  | some next => (rbEnd S s.other fuel next).map some
  | none => rbClimb S s fuel node

def rbNext : Nat → Nat → Rb → Option (Option Nat) := rbNeighbour .right
def rbPrev : Nat → Nat → Rb → Option (Option Nat) := rbNeighbour .left

/-- The update of `first_node` and `last_node` before the removal. -/
def rbRemoveEnds (fuel node : Nat) (S : Rb) : Option Rb :=
  if 1 < S.root.count then do
    let last ← if some node = S.root.lastNode then rbPrev fuel node S else pure S.root.lastNode
    let first ← if some node = S.root.firstNode then rbNext fuel node S else pure S.root.firstNode
    return { S with root := { S.root with lastNode := last, firstNode := first } }
  else return { S with root := { S.root with lastNode := none, firstNode := none } }

/-- `rb_remove_node`. -/
def rbRemoveNode (fuel node : Nat) (S : Rb) : Option Rb := do
  let S ← rbRemoveEnds fuel node S
  let S ← rbErase fuel node S
  return { S with root := { S.root with count := S.root.count - 1 } }

/-- The loop of `rb_first_greater`. -/
def rbFirstGreaterFrom (S : Rb) (key : Nat) : Nat → Option Nat → Option Nat → Option (Option Nat)
  | 0, _, _ => none
  | fuel + 1, node, candidate =>
    match node with
    | none => some candidate
    | some a =>
      if key < (S.value a).toNat then rbFirstGreaterFrom S key fuel (S.child .left a) (some a)
      else rbFirstGreaterFrom S key fuel (S.child .right a) candidate

/-- `rb_first_greater`; the `key` is a `size_t`. -/
def rbFirstGreater (fuel key : Nat) (S : Rb) : Option (Option Nat) :=
  rbFirstGreaterFrom S key fuel S.root.rbNode none

/-- The loop of `search_node`. -/
def searchNodeFrom (S : Rb) (key : UInt32) : Nat → Option Nat → Option (Option Nat)
  | 0, _ => none
  | fuel + 1, node =>
    match node with
    | none => some none
    | some a =>
      if key < S.value a then searchNodeFrom S key fuel (S.child .left a)
      else if key > S.value a then searchNodeFrom S key fuel (S.child .right a)
      else some (some a)

/-- `search_node`. -/
def searchNode (fuel : Nat) (key : UInt32) (S : Rb) : Option (Option Nat) :=
  searchNodeFrom S key fuel S.root.rbNode

/-- The outermost node on the side `s`, NULL in an empty tree. -/
def rbOutermost (s : Side) (fuel : Nat) (S : Rb) : Option (Option Nat) :=
  match S.root.rbNode with
  | none => some none
  | some n => (rbEnd S s fuel n).map some

def rbFirst : Nat → Rb → Option (Option Nat) := rbOutermost .left
def rbLast : Nat → Rb → Option (Option Nat) := rbOutermost .right

/-- `rb_replace_node`. -/
def rbReplaceNode (victim new : Nat) (S : Rb) : Rb :=
  let parent := S.parent victim
  let S := S.replaceChild .left parent victim (some new)
  let S := S.adopt (S.child .left victim) (some new)
  let S := S.adopt (S.child .right victim) (some new)
  S.setNode new (S.node victim)

/-- `rb_node_init`. -/
def rbNodeInit (node : Nat) (S : Rb) : Rb := S.setNode node ⟨none, .red, none, none, 0⟩

/-- `rb_root_init`. -/
def rbRootInit (S : Rb) : Rb := { S with root := ⟨none, none, none, 0⟩ }

end CcRpc
