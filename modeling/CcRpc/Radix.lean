import CcRpc.Lib.Prefixes

/-!
# The radix tree (`radix.c`)

Nodes are records in a memory that maps the addresses of the live ones to them. A function that reads
a node through a pointer that is not one to a live node, or a slot past the last, returns `none`.
Items are opaque and not NULL.
-/

namespace CcRpc

/-- `BIT_LEVEL`. -/
def bitLevel : Nat := 4
/-- `SIZE_LEVEL`. -/
def sizeLevel : Nat := 1 <<< bitLevel

/-- What a `void *` slot or a node pointer can hold; `root` is the address of the
`struct radix_tree_root` after a cast. -/
inductive RadixPtr (α : Type) where
  | null
  | root
  | node (addr : Nat)
  | item (v : α)
  deriving DecidableEq

/-- `struct radix_tree_node`. -/
structure RadixNode (α : Type) where
  slots : Nat → RadixPtr α
  parent : RadixPtr α
  offset : Nat
  count : Nat
  height : Nat

/-- The answers of `heap_malloc` during a call: the addresses it grants before it returns NULL, and
whether it did. -/
structure RadixHeap where
  grants : List Nat
  refused : Bool

/-- `struct radix_tree_root`, with the memory of its nodes. -/
structure Radix (α : Type) where
  height : Nat
  count : Nat
  rnode : RadixPtr α
  mem : Nat → Option (RadixNode α)
  heap : RadixHeap

variable {α : Type}

/-- `uint8_t` and `unsigned int`. -/
def uint8 (n : Nat) : Nat := n % 2 ^ 8
def uint32 (n : Nat) : Nat := n % 2 ^ 32

/-- `n--` for an `unsigned int`. -/
def decUint32 (n : Nat) : Nat := if n = 0 then 2 ^ 32 - 1 else n - 1

namespace RadixPtr

/-- A pointer to an item, or NULL. -/
def ofItem : Option α → RadixPtr α
  | none => null
  | some v => item v

theorem ofItem_eq_null {o : Option α} : ofItem o = null ↔ o = none := by
  cases o <;> simp [ofItem]

end RadixPtr

namespace RadixNode

/-- `node->slots[offset]`. -/
def slot (n : RadixNode α) (offset : Nat) : Option (RadixPtr α) :=
  if offset < sizeLevel then some (n.slots offset) else none

/-- The scan `while (offset < SIZE_LEVEL && !slots[offset]) offset++`, `n` slots at most. -/
def skipNull (slots : Nat → RadixPtr α) : Nat → Nat → Nat
  | 0, offset => offset
  | n + 1, offset => match slots offset with
    | .null => skipNull slots n (offset + 1)
    | _ => offset

/-- The first slot behind `offset` that is not NULL, if there is one. -/
def nextSlot (n : RadixNode α) (offset : Nat) : RadixPtr α :=
  let next := skipNull n.slots (sizeLevel - (offset + 1)) (offset + 1)
  if next < sizeLevel then n.slots next else .null

/-- `node->count++` and `node->count--`. -/
def incCount (n : RadixNode α) : RadixNode α := { n with count := uint32 (n.count + 1) }
def decCount (n : RadixNode α) : RadixNode α := { n with count := decUint32 n.count }

end RadixNode

namespace Radix

/-- The node `p` points to. -/
def load (t : Radix α) (p : RadixPtr α) : Option (RadixNode α) :=
  match p with
  | .node a => t.mem a
  | _ => none

/-- A store to fields of the node `p` points to; `setSlot` is the one to `p->slots[offset]`. -/
def modify (t : Radix α) (p : RadixPtr α) (f : RadixNode α → RadixNode α) : Option (Radix α) :=
  match p with
  | .node a => (t.mem a).map fun n => { t with mem := Function.update t.mem a (some (f n)) }
  | _ => none

def setSlot (t : Radix α) (p : RadixPtr α) (offset : Nat) (q : RadixPtr α) : Option (Radix α) :=
  if offset < sizeLevel then
    t.modify p fun n => { n with slots := Function.update n.slots offset q }
  else none

end Radix

/-- `radix_tree_init`. -/
def radixTreeInit : Radix α where
  height := 0
  count := 0
  rnode := .null
  mem := fun _ => none
  heap := ⟨[], false⟩

/-- `radix_tree_node_init`. -/
def radixTreeNodeInit (height : Nat) : RadixNode α where
  slots := fun _ => .null
  parent := .null
  offset := 0
  count := 0
  height := uint8 height

/-- `radix_tree_height`; `63 - clz` is the position of the most significant bit. -/
def radixTreeHeight (index : Nat) : Nat :=
  if index = 0 then 1 else Nat.log2 index / bitLevel + 1

/-- `radix_tree_node_alloc`. -/
def radixTreeNodeAlloc (t : Radix α) (height : Nat) : RadixPtr α × Radix α :=
  match t.heap.grants with
  | [] => (.null, { t with heap := ⟨[], true⟩ })
  | a :: grants => (.node a, { t with
      count := uint32 (t.count + 1)
      mem := Function.update t.mem a (some (radixTreeNodeInit height))
      heap := ⟨grants, t.heap.refused⟩ })

/-- `radix_tree_node_free`. -/
def radixTreeNodeFree (t : Radix α) (node : RadixPtr α) : Option (Radix α) :=
  match node with
  | .node a => (t.mem a).map fun _ => { t with
      count := decUint32 t.count
      mem := Function.update t.mem a none }
  | _ => none

variable [DecidableEq α]

/-- The `while` loop of `radix_tree_grow_height` for `n` more levels. -/
def growHeightLoop : Nat → Radix α → Option (Int × Radix α)
  | 0, t => some (t.height, t)
  | n + 1, t => do
    let t := { t with height := t.height + 1 }
    let (parent, t) := radixTreeNodeAlloc t t.height
    if parent = .null then return (-1, t)
    let t ← t.modify parent fun n => { n with offset := 0 }
    let t ← t.modify t.rnode fun n => { n with parent := parent }
    let t ← t.setSlot parent 0 t.rnode
    let t ← t.modify parent RadixNode.incCount
    growHeightLoop n { t with rnode := parent }

/-- `radix_tree_grow_height`. -/
def radixTreeGrowHeight (t : Radix α) (height : Nat) : Option (Int × Radix α) :=
  growHeightLoop (height - t.height) t

/-- `(index >> shift) & (SIZE_LEVEL - 1)`. -/
def slotOffset (index shift : Nat) : Nat := (index >>> shift) &&& (sizeLevel - 1)

/-- `(height - 1) * BIT_LEVEL` and `shift - BIT_LEVEL`, in an unsigned type of `bits` bits. -/
def firstShift (bits height : Nat) : Nat := (height * bitLevel + (2 ^ bits - bitLevel)) % 2 ^ bits
def nextShift (bits shift : Nat) : Nat := (shift + (2 ^ bits - bitLevel)) % 2 ^ bits

/-- One level of the `while` loop of `radix_tree_grow_node`: the child of `node`, of height `height`,
or NULL when it cannot be allocated. -/
def growChild (node : RadixPtr α) (offset height : Nat) (t : Radix α) :
    Option (RadixPtr α × Radix α) := do
  let slot ← (← t.load node).slot offset
  if slot = .null then
    let (child, t) := radixTreeNodeAlloc t height
    let t ← t.setSlot node offset child
    if child = .null then return (.null, t)
    let t ← t.modify node RadixNode.incCount
    let t ← t.modify child fun n => { n with offset := offset }
    let t ← t.modify child fun n => { n with parent := node }
    return (child, t)
  else return (slot, t)

/-- The `while` loop of `radix_tree_grow_node`: the leaf, or NULL. -/
def growNodeLoop (index : Nat) : Nat → RadixPtr α → Nat → Radix α → Option (RadixPtr α × Radix α)
  | height + 2, node, shift, t => do
    let (child, t) ← growChild node (slotOffset index shift) (height + 1) t
    if child = .null then return (.null, t)
    growNodeLoop index (height + 1) child (nextShift 8 shift) t
  | _, node, _, t => some (node, t)

/-- `radix_tree_grow_node`. -/
def radixTreeGrowNode (t : Radix α) (index : Nat) (item : α) : Option (Int × Radix α) := do
  let height := uint8 t.height
  let (leaf, t) ← growNodeLoop index height t.rnode (firstShift 8 height) t
  if leaf = .null then return (-1, t)
  let offset := index &&& (sizeLevel - 1)
  let slot ← (← t.load leaf).slot offset
  if slot ≠ .null then return (-1, t)
  let t ← t.setSlot leaf offset (.item item)
  let t ← t.modify leaf RadixNode.incCount
  return (0, t)

/-- `radix_tree_insert`. -/
def radixTreeInsert (t : Radix α) (index : Nat) (item : α) : Option (Int × Radix α) := do
  let height := radixTreeHeight index
  if t.rnode = .null then
    let (node, t) := radixTreeNodeAlloc t height
    let t := { t with rnode := node }
    if node = .null then return (-1, t)
    let t ← t.modify node fun n => { n with parent := .root }
    radixTreeGrowNode { t with height := height } index item
  else if t.height < height then
    let (height, t) ← radixTreeGrowHeight t height
    if height < 0 then return (height, t)
    radixTreeGrowNode t index item
  else radixTreeGrowNode t index item

/-- The `while` loop of `radix_tree_lookup`. -/
def lookupLoop (t : Radix α) (index : Nat) : Nat → RadixPtr α → Nat → Option (RadixPtr α)
  | 0, node, _ => some node
  | height + 1, node, shift => do
    let node ← (← t.load node).slot (slotOffset index shift)
    if node = .null then return .null
    lookupLoop t index height node (nextShift 32 shift)

/-- `radix_tree_lookup`. -/
def radixTreeLookup (t : Radix α) (index : Nat) : Option (RadixPtr α) :=
  if t.rnode = .null then some .null
  else lookupLoop t index t.height t.rnode (firstShift 32 t.height)

/-- The outer `while` loop of `radix_tree_node_left`. -/
def nodeLeftLoop (t : Radix α) : Nat → RadixPtr α → Option (RadixPtr α)
  | 0, node => some node
  | height + 1, node =>
    if node = .null then some .null
    else do
      let n ← t.load node
      let node ← n.slot (RadixNode.skipNull n.slots sizeLevel 0)
      nodeLeftLoop t height node

/-- `radix_tree_node_left`. -/
def radixTreeNodeLeft (t : Radix α) (node : RadixPtr α) : Option (RadixPtr α) :=
  if node = .null then some .null
  else do nodeLeftLoop t (← t.load node).height node

/-- `radix_tree_root_left`. -/
def radixTreeRootLeft (t : Radix α) : Option (RadixPtr α) := radixTreeNodeLeft t t.rnode

/-- The last `while` loop of `radix_tree_lookup_upper_bound`, from `node` up. -/
def boundClimb (t : Radix α) : Nat → RadixPtr α → Option (RadixPtr α)
  | 0, _ => none
  | fuel + 1, node => do
    let n ← t.load node
    if n.parent = .null then return .null
    let next := (← t.load n.parent).nextSlot n.offset
    if next ≠ .null then radixTreeNodeLeft t next else boundClimb t fuel n.parent

/-- `radix_tree_lookup_upper_bound` from the node `node` on, the climb included. -/
def boundDescend (t : Radix α) (index : Nat) : Nat → RadixPtr α → Nat → Option (RadixPtr α)
  | 0, _, _ => none
  | fuel + 1, node, shift => do
    let n ← t.load node
    if 1 < n.height then
      let offset := slotOffset index shift
      let slot ← n.slot offset
      if slot ≠ .null then boundDescend t index fuel slot (nextShift 32 shift)
      else if n.nextSlot offset ≠ .null then radixTreeNodeLeft t (n.nextSlot offset)
      else boundClimb t t.height node
    else if n.height = 1 then
      let offset := index &&& (sizeLevel - 1)
      let slot ← n.slot offset
      if slot ≠ .null then return slot
      else if n.nextSlot offset ≠ .null then return n.nextSlot offset
      else boundClimb t t.height node
    else boundClimb t t.height node

/-- `radix_tree_lookup_upper_bound`. -/
def radixTreeLookupUpperBound (t : Radix α) (index : Nat) : Option (RadixPtr α) :=
  if t.rnode = .null then some .null
  else boundDescend t index t.height t.rnode (firstShift 32 t.height)

/-- The first `while` loop of `radix_tree_delete`: the leaf, or NULL. -/
def deleteDescend (t : Radix α) (index : Nat) : Nat → RadixPtr α → Nat → Option (RadixPtr α)
  | height + 2, node, shift =>
    if node = .null then some .null
    else do
      let node ← (← t.load node).slot (slotOffset index shift)
      deleteDescend t index (height + 1) node (nextShift 8 shift)
  | _, node, _ => some node

/-- The second `while` loop of `radix_tree_delete`: it frees empty nodes up to the root. -/
def deletePrune : Nat → RadixPtr α → Radix α → Option (RadixPtr α × Radix α)
  | 0, _, _ => none
  | fuel + 1, node, t => do
    let n ← t.load node
    if n.count = 0 ∧ node ≠ t.rnode then
      let t ← radixTreeNodeFree t node
      let t ← t.setSlot n.parent n.offset .null
      let t ← t.modify n.parent RadixNode.decCount
      deletePrune fuel n.parent t
    else return (node, t)

/-- `radix_tree_delete`. -/
def radixTreeDelete (t : Radix α) (index : Nat) : Option (RadixPtr α × Radix α) :=
  if t.height < radixTreeHeight index then some (.null, t)
  else do
    let node ← deleteDescend t index t.height t.rnode (firstShift 8 t.height)
    if node = .null then return (.null, t)
    let offset := index &&& (sizeLevel - 1)
    let item ← (← t.load node).slot offset
    if item = .null then return (.null, t)
    let t ← t.setSlot node offset .null
    let t ← t.modify node RadixNode.decCount
    let (node, t) ← deletePrune t.height node t
    if t.rnode = .null then return (item, t)
    if (← t.load t.rnode).count = 0 then
      let t ← radixTreeNodeFree t node
      return (item, { t with rnode := .null, height := 0 })
    else return (item, t)

end CcRpc
