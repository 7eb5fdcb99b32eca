import CcRpc.Heap
import CcRpc.Rbtree

/-!
# The size-tree allocator (`memalloc.c`)

Every block of the arena begins with a header: its links in a ring in address order, its node in a
tree of the free blocks by size, and a mark. The links and the mark are kept by the address of the
header, the tree's node by its own address inside it. NULL is 0, and a function that dereferences it
returns `none`.
-/

namespace CcRpc.MemAlloc

def configHeap : Nat := 10 * 1024

/-- `sizeof(struct heap_node)`: two links, six words of a tree node, and `used` with its padding. -/
def heapNodeSize (w : WordSize) : Nat := 9 * w.bytes

def heapStructSize (w : WordSize) : Nat := clearAlignment (heapNodeSize w + alignmentByte)

def minSize (w : WordSize) : Nat := heapStructSize w <<< 1

/-- Where the linker put `all_heap` and `the_heap.cache_node`. -/
structure Arena where
  word : WordSize
  allHeap : Nat
  cacheNode : Nat
  allHeap_pos : 0 < allHeap
  allHeap_fits : allHeap + configHeap < 2 ^ word.bits
  cacheNode_pos : 0 < cacheNode
  cacheNode_apart : cacheNode + 2 * word.bytes ≤ allHeap ∨ allHeap + configHeap ≤ cacheNode

/-- The memory of headers, with `mem_tree`, and the counter of `the_heap`. -/
structure Mem where
  next : Nat → Nat
  prev : Nat → Nat
  used : Nat → Bool
  tree : Rb
  allSize : Nat

/-- The static initial value. -/
def Mem.initial : Mem where
  next := fun _ => 0
  prev := fun _ => 0
  used := fun _ => false
  tree := Rb.initial
  allSize := configHeap

namespace Mem

def setNext (h : Mem) (node v : Nat) : Mem := { h with next := Function.update h.next node v }
def setPrev (h : Mem) (node v : Nat) : Mem := { h with prev := Function.update h.prev node v }
def setUsed (h : Mem) (node : Nat) (v : Bool) : Mem :=
  { h with used := Function.update h.used node v }
def setTree (h : Mem) (tree : Rb) : Mem := { h with tree := tree }
def setAllSize (h : Mem) (n : Nat) : Mem := { h with allSize := n }

end Mem

/-- A pointer that is dereferenced. -/
def deref (p : Nat) : Option Nat := if p = 0 then none else some p

def listNodeInit (node : Nat) (h : Mem) : Mem := (h.setNext node node).setPrev node node

def listAddNext (prev next : Nat) (h : Mem) : Option Mem := do
  let h := h.setPrev next prev
  let h := h.setNext next (h.next prev)
  let after ← deref (h.next prev)
  let h := h.setPrev after next
  return h.setNext prev next

def listRemove (node : Nat) (h : Mem) : Option Mem := do
  let before ← deref (h.prev node)
  let h := h.setNext before (h.next node)
  let after ← deref (h.next node)
  return h.setPrev after (h.prev node)

variable (A : Arena)

/-- `&node->iter_node`. -/
def Arena.iterNode (node : Nat) : Nat := node + 2 * A.word.bytes

/-- `container_of(iter, struct heap_node, iter_node)`. -/
def Arena.containerOf (iter : Nat) : Nat := iter - 2 * A.word.bytes

/-- `node->iter_node.value`. -/
def Mem.size (h : Mem) (node : Nat) : Nat := (h.tree.value (A.iterNode node)).toNat

/-- `node->iter_node.value = v`, cut to 32 bits. -/
def Mem.setSize (h : Mem) (node v : Nat) : Mem :=
  h.setTree (h.tree.setValue (A.iterNode node) (UInt32.ofNat v))

/-- `rb_insert_node`. A loop over the blocks of the arena has fewer rounds than it has bytes. -/
def treeInsert (iter : Nat) (h : Mem) : Option Mem :=
  (rbInsertNode configHeap iter h.tree).map h.setTree

/-- `rb_remove_node`. -/
def treeRemove (iter : Nat) (h : Mem) : Option Mem :=
  (rbRemoveNode configHeap iter h.tree).map h.setTree

/-- `start`, the first aligned address of `all_heap`. -/
def Arena.start : Nat :=
  if A.allHeap &&& alignmentByte ≠ 0 then clearAlignment (A.allHeap + alignmentByte) else A.allHeap

/-- `mem_init`. -/
def memInit (h : Mem) : Option Mem := do
  let h := h.setTree (rbRootInit h.tree)
  let h := listNodeInit A.cacheNode h
  let start := A.start
  let h :=
    if A.allHeap &&& alignmentByte ≠ 0 then
      h.setAllSize (A.word.sub h.allSize (start - A.allHeap))
    else h
  let h := listNodeInit start h
  let h ← listAddNext A.cacheNode start h
  let h := h.setTree (rbNodeInit (A.iterNode start) h.tree)
  let h := h.setSize A start h.allSize
  let h := h.setUsed start false
  treeInsert (A.iterNode start) h

/-- The request with the header added, rounded up to the alignment. -/
def roundedRequest (want : Nat) : Nat :=
  A.word.roundUp (A.word.sizeT (want + heapStructSize A.word))

/-- `mem_init` on the first request. -/
def readyMem (h : Mem) : Option Mem := if h.prev A.cacheNode = 0 then memInit A h else some h

/-- The free block that a request of `want` bytes, the header included, is served from; NULL if
there is none. -/
def findBlock (want : Nat) (h : Mem) : Option (Option Nat) :=
  match h.tree.root.lastNode with
  | none => some none
  | some last =>
    if (h.tree.value last).toNat < want then some none
    else rbFirstGreater configHeap want h.tree

/-- What is left of a block behind its first `want` bytes becomes a free block. -/
def splitBlock (use want blockSize : Nat) (h : Mem) : Option Mem := do
  let new := use + want
  let h := h.setUsed new false
  let h := h.setSize A use want
  let h ← listAddNext use new h
  let h := h.setSize A new (A.word.sub blockSize want)
  treeInsert (A.iterNode new) h

/-- `mem_malloc` after `find` was found. -/
def takeBlock (want find : Nat) (h : Mem) : Option (Mem × Nat) := do
  let blockSize := (h.tree.value find).toNat
  let h ← treeRemove find h
  let use := A.containerOf find
  let h := h.setUsed use true
  let ret := use + heapStructSize A.word
  let h ←
    if minSize A.word < A.word.sub blockSize want then splitBlock A use want blockSize h else some h
  return (h.setAllSize (A.word.sub h.allSize (h.size A use)), ret)

/-- `mem_malloc`. -/
def memMalloc (want : Nat) (h : Mem) : Option (Mem × Nat) :=
  if want = 0 then some (h, 0)
  else do
    let want := roundedRequest A want
    let h ← readyMem A h
    match ← findBlock want h with
    | none => return (h, 0)
    | some find => takeBlock A want find h

/-- `into` takes in the block `gone` behind it; `free` is the one of the two in the tree. -/
def mergeBlocks (into gone free : Nat) (h : Mem) : Option Mem := do
  let h ← listRemove gone h
  let h := h.setSize A into (h.size A into + h.size A gone)
  treeRemove (A.iterNode free) h

/-- `mem_free`: a free block behind `node` joins it. -/
def mergeNext (node : Nat) (h : Mem) : Option Mem :=
  if h.next node ≠ A.cacheNode then do
    let adj ← deref (h.next node)
    if h.used adj then return h else mergeBlocks A node adj adj h
  else some h

/-- `mem_free`: `node` joins a free block before it. The result is the block to be inserted. -/
def mergePrev (node : Nat) (h : Mem) : Option (Mem × Nat) :=
  if h.prev node ≠ A.cacheNode then do
    let adj ← deref (h.prev node)
    if h.used adj then return (h, node)
    else do
      let h ← mergeBlocks A adj node adj h
      return (h, adj)
  else some (h, node)

/-- `mem_free`. -/
def memFree (ptr : Nat) (h : Mem) : Option Mem :=
  if ptr = 0 then some h
  else do
    let node := ptr - heapStructSize A.word
    let h := h.setUsed node false
    let h := h.setAllSize (A.word.sizeT (h.allSize + h.size A node))
    let h ← mergeNext A node h
    let (h, insert) ← mergePrev A node h
    treeInsert (A.iterNode insert) h

end CcRpc.MemAlloc
