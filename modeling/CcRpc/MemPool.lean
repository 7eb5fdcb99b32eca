import CcRpc.LinkList
import CcRpc.Payload

/-!
# Fixed-block pools (`mempool.c`)

A pool is one payload of the heap: a head, and behind it nodes of one size, each with its block. The
nodes are chained by `next` in the order they lie in memory, and the free ones are on a ring as well.
A function that leaves the pool's memory, or uses a pointer it never set, returns `none`.
-/

namespace CcRpc

variable (w : WordSize)

/-- `sizeof(struct pool_node)`: a flag padded to a word, two links and `next`. -/
def sizeofPoolNode : Nat := 4 * w.bytes

/-- `sizeof(struct pool_head)`: `head`, two links, two sizes and a counter padded to a word. -/
def sizeofPoolHead : Nat := 6 * w.bytes

/-- `node_struct_size`. -/
def WordSize.nodeStructSize : Nat := clearAlignment (sizeofPoolNode w + alignmentByte)

/-- `head_struct_size`. -/
def WordSize.headStructSize : Nat := clearAlignment (sizeofPoolHead w + alignmentByte)

/-- `&node->free_node`. -/
def freeNode (node : Nat) : Nat := node + w.bytes

/-- `container_of(iter, struct pool_node, free_node)`. -/
def poolNodeOf (iter : Nat) : Nat := iter - w.bytes

/-- The payload from `lo` to `hi` with the fields of the nodes in it, by their addresses. -/
structure PoolMem where
  lo : Nat
  hi : Nat
  links : Links
  used : Nat → Nat
  next : Nat → Nat

namespace PoolMem

/-- The struct at `node` lies in the payload. -/
def Has (m : PoolMem) (node : Nat) : Prop := m.lo ≤ node ∧ node + sizeofPoolNode w ≤ m.hi

instance (m : PoolMem) (node : Nat) : Decidable (m.Has w node) :=
  inferInstanceAs (Decidable (_ ∧ _))

def getUsed (m : PoolMem) (node : Nat) : Option Nat := if m.Has w node then some (m.used node) else none

def getNext (m : PoolMem) (node : Nat) : Option Nat := if m.Has w node then some (m.next node) else none

def setUsed (m : PoolMem) (node v : Nat) : Option PoolMem :=
  if m.Has w node then some { m with used := Function.update m.used node v } else none

def setNext (m : PoolMem) (node v : Nat) : Option PoolMem :=
  if m.Has w node then some { m with next := Function.update m.next node v } else none

def setLinks (m : PoolMem) (links : Links) : PoolMem := { m with links := links }

/-- A payload of `n` bytes that `heap_malloc` granted at `p`, with what is left in it from before. -/
def granted (m : PoolMem) (p n : Nat) : PoolMem :=
  { m with
    lo := p
    hi := p + n
    links := { m.links with valid := fun a => decide (p ≤ a ∧ a + 2 * w.bytes ≤ p + n) } }

end PoolMem

/-- `struct pool_head`, where it is, and the memory of the pool. -/
structure PoolHead where
  addr : Nat
  head : Nat
  blockSize : Nat
  allCount : Nat
  remainNode : Nat
  mem : PoolMem

/-- `&pool->free_list`. -/
def PoolHead.freeList (pool : PoolHead) : Nat := pool.addr + w.bytes

/-- `apart_size`, from one node to the next. -/
def apartSize (size : UInt16) : Nat :=
  let apart := size.toNat + w.nodeStructSize
  if apart &&& alignmentByte ≠ 0 then
    apart + (alignmentByte + 1 - (apart &&& alignmentByte))
  else apart

/-- `total_size`, a `uint32_t`. -/
def memPoolTotal (size : UInt16) (amount : UInt8) : Nat :=
  (amount.toNat * apartSize w size % 2 ^ 32 + w.headStructSize) % 2 ^ 32

/-- The `while` loop of `pool_apart`; `new` has no value before its first round. -/
def poolApartLoop (apart : Nat) : Nat → Nat → Option Nat → PoolMem → Option (Option Nat × PoolMem)
  | 0, _, new, m => some (new, m)
  | amount + 1, prev, _, m => do
    let new := prev + apart
    let m ← m.setUsed w new 0
    let links ← listAddNext (freeNode w prev) (freeNode w new) m.links
    let m ← (m.setLinks links).setNext w prev new
    poolApartLoop apart amount new (some new) m

/-- `pool_apart`. -/
def poolApart (head amount apart : Nat) (m : PoolMem) : Option PoolMem := do
  let (new, m) ← poolApartLoop w apart amount head none m
  let new ← new
  m.setNext w new 0

/-- `mem_pool_create`, given what `heap_malloc` answers and what the memory held before. -/
def memPoolCreate (size : UInt16) (amount : UInt8) (before : PoolMem) :
    Option Nat → Option (Option PoolHead)
  | none => some none
  | some start =>
    let pool : PoolHead :=
      { addr := start
        head := start + w.headStructSize
        blockSize := size.toNat
        allCount := amount.toNat
        remainNode := amount.toNat
        mem := before.granted w start (memPoolTotal w size amount) }
    -- the store of the head itself
    if pool.mem.hi < start + sizeofPoolHead w then none
    else do
      let m ← pool.mem.setUsed w pool.head 0
      let links ← listNodeInit (pool.freeList w) m.links
      let links ← listAddNext (pool.freeList w) (freeNode w pool.head) links
      -- `amount - 1` becomes a `uint8_t`
      let m ← poolApart w pool.head ((amount.toNat + 255) % 256) (apartSize w size)
        (m.setLinks links)
      return some { pool with mem := m }

/-- `mem_pool_alloc`. -/
def memPoolAlloc (pool : PoolHead) : Option (Option Nat × PoolHead) := do
  let first ← pool.mem.links.getNext (pool.freeList w)
  if first = pool.freeList w then return (none, pool)
  else
    let node := poolNodeOf w first
    let links ← listRemove first pool.mem.links
    let m := pool.mem.setLinks links
    let used ← m.getUsed w node
    if used = 0 then
      let m ← m.setUsed w node 1
      return (some (node + w.nodeStructSize),
        { pool with remainNode := (pool.remainNode + 255) % 256, mem := m })
    else return (none, { pool with mem := m })

/-- The `while` loop of `mem_pool_free`: the first node from `n` on that is not used, or NULL. -/
def nextUnused (m : PoolMem) : Nat → Nat → Option Nat
  | 0, _ => none
  | fuel + 1, n => do
    if n = 0 then return 0
    else
      let used ← m.getUsed w n
      if used = 0 then return n
      else
        let n ← m.getNext w n
        nextUnused m fuel n

/-- `mem_pool_free`; the chain it walks has at most `all_count` nodes. -/
def memPoolFree (pool : PoolHead) (ptr : Nat) : Option PoolHead :=
  if ptr = 0 then some pool
  else do
    let blk := ptr - w.nodeStructSize
    let m ← pool.mem.setUsed w blk 0
    let n ← m.getNext w blk
    let n ← nextUnused w m pool.allCount n
    let links ←
      if n ≠ 0 then listAddPrev (freeNode w n) (freeNode w blk) m.links
      else listAddPrev (pool.freeList w) (freeNode w blk) m.links
    return { pool with mem := m.setLinks links }

/-- Node `i` of a pool whose first node is `head`. -/
def poolNode (head : Nat) (size : UInt16) (i : Nat) : Nat := head + apartSize w size * i

theorem nodeStructSize_eq : w.nodeStructSize = 4 * w.bytes := by
  cases w <;> decide

theorem headStructSize_eq : w.headStructSize = 6 * w.bytes := by
  cases w <;> decide

theorem apartSize_bounds (size : UInt16) :
    size.toNat + w.nodeStructSize ≤ apartSize w size ∧
      apartSize w size < size.toNat + w.nodeStructSize + 8 := by
  unfold apartSize
  dsimp only
  rw [and_alignmentByte]
  simp only [alignmentByte]
  split <;> omega

theorem memPoolTotal_eq (size : UInt16) (amount : UInt8) :
    memPoolTotal w size amount = amount.toNat * apartSize w size + w.headStructSize := by
  have hsize := size.toNat_lt
  have hamount := amount.toNat_lt
  have hapart := (apartSize_bounds w size).2
  have hbytes := w.bytes_eq
  rw [nodeStructSize_eq] at hapart
  have hle : amount.toNat * apartSize w size ≤ 255 * 65607 :=
    Nat.mul_le_mul (by omega) (by omega)
  rw [memPoolTotal, headStructSize_eq]
  rw [Nat.mod_eq_of_lt (by omega), Nat.mod_eq_of_lt (by omega)]

end CcRpc
