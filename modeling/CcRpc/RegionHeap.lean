import CcRpc.HeapUsers
import CcRpc.RegionBlocks
import CcRpc.BumpRegion

/-!
# Regions on the heap (`mg_alloc.c`, `membit.c`)

The functions that call `heap_malloc` and `heap_free`, as programs. Answered by a list they do what they
do in the model of a region alone; on the heap each keeps to the blocks of its region.
-/

namespace CcRpc

open HeapPrograms

namespace OnHeap

variable (w : WordSize)

/-- `membit_create`. -/
def membitCreate (size : UInt16) (count : UInt8) : Program (Option MembitPool) := do
  let p ← heapMalloc (membitTotal w size count)
  return CcRpc.membitCreate size count p

/-- `membit_destroy`. -/
def membitDestroy (pool : MembitPool) : Program Unit := heapFree pool.addr

/-- `sizeof(struct mg_pool_node)`: two pointers, and two 16-bit numbers padded to a word. -/
def sizeofMgPoolNode : Nat := 3 * w.bytes

/-- `sizeof(struct mg_region)`: `kind` and `max_bits` padded to 8 bytes, and 13 classes of two words. -/
def sizeofMgRegion : Nat := 8 + (mgMaxClassBits + 1) * (2 * w.bytes)

/-- `mg_pool_node_new`. -/
def mgPoolNodeNew (blockSize : Nat) : Program (Option MgPoolNode) := do
  let count := mgPoolBlockCount blockSize
  let p ← membitCreate w (UInt16.ofNat blockSize) (UInt8.ofNat count)
  match p with
  | none => return none
  | some p =>
    match ← heapMalloc (sizeofMgPoolNode w) with
    | none => do
      membitDestroy p
      return none
    | some n => return some ⟨n, p, count, blockSize % 2 ^ 16⟩

/-- `mg_region_create_pool`, with the address of the region. -/
def mgRegionCreatePool (maxClassBits : UInt8) : Program (Option (Nat × MgRegion)) := do
  match ← heapMalloc (sizeofMgRegion w) with
  | none => return none
  | some r => return some (r, .pool (mgEmptyPools maxClassBits))

/-- `mg_region_create_bump`, with the address of the region. -/
def mgRegionCreateBump (cap : Nat) : Program (Option (Nat × MgRegion)) := do
  match ← heapMalloc (sizeofMgRegion w) with
  | none => return none
  | some r =>
    match ← heapMalloc cap with
    | none => do
      heapFree r
      return none
    | some buf => return some (r, .bump ⟨buf, cap, 0⟩)

/-- The end of `mg_region_alloc_class`, with what `mg_pool_node_new` returned. -/
def allocFromNew (r : MgPools) (bits : Nat) : Option MgPoolNode → Option Nat × MgPools
  | none => (none, r)
  | some n =>
    match membitAlloc w n.pool with
    | (none, _) => (none, r.setPools bits (n :: (r.classes bits).pools))
    | (some blk, pool) =>
      (some (blk + sizeofBlockHeader w),
        (r.setPools bits ({ n with pool := pool } :: (r.classes bits).pools)).setHeader blk n.pool.addr)

/-- `mg_region_alloc_class`. -/
def mgRegionAllocClass (r : MgPools) (size : Nat) : Program (Option Nat × MgPools) :=
  let bits := classBits w size
  if r.maxBits < bits then return (none, r)
  else
    match allocFromClasses w r (r.maxBits + 1 - bits) bits with
    | some (blk, p, r) => return (some (blk + sizeofBlockHeader w), r.setHeader blk p)
    | none => do
      let n ← mgPoolNodeNew w (r.classes bits).blockSize
      return allocFromNew w r bits n

/-- `mg_region_alloc`. -/
def mgRegionAlloc (r : MgRegion) (size : Nat) : Program (Option Nat × MgRegion) :=
  if size = 0 then return (none, r)
  else
    match r with
    | .bump b =>
      let (p, b) := mgRegionAllocBump w b size
      return (p, .bump b)
    | .pool r => do
      let size := if size < mgMinClassBytes then mgMinClassBytes else size
      let (p, r) ← mgRegionAllocClass w r size
      return (p, .pool r)

end OnHeap

variable {w : WordSize}

/-- Creation does on the heap what it does on a list of answers. -/
theorem mgRegionCreatePool_replay (maxClassBits : UInt8) (answers : HeapAnswers) :
    (OnHeap.mgRegionCreatePool w maxClassBits).replay answers =
      some ((mgRegionCreatePool maxClassBits answers).1.map fun r => (answers.pop.1.getD 0, r),
        (mgRegionCreatePool maxClassBits answers).2) := by
  rcases answers with _ | ⟨_ | p, answers⟩ <;> rfl

theorem mgRegionCreateBump_replay (cap : Nat) (answers : HeapAnswers) :
    (OnHeap.mgRegionCreateBump w cap).replay answers =
      some ((mgRegionCreateBump cap answers).1.map fun r => (answers.pop.1.getD 0, r),
        (mgRegionCreateBump cap answers).2) := by
  rcases answers with _ | ⟨_ | p, _ | ⟨_ | a, answers⟩⟩ <;> rfl

/-- The blocks of a node and its pool. -/
def MgPoolNode.owned (w : WordSize) (n : MgPoolNode) : List (Nat × Nat) :=
  [(n.pool.addr, n.pool.extent w), (n.addr, OnHeap.sizeofMgPoolNode w)]

/-- The blocks of the region at `addr`. -/
def MgRegion.owned (w : WordSize) (addr : Nat) : MgRegion → List (Nat × Nat)
  | .pool r => r.nodes.flatMap (MgPoolNode.owned w) ++ [(addr, OnHeap.sizeofMgRegion w)]
  | .bump b => [(b.buf, b.cap), (addr, OnHeap.sizeofMgRegion w)]

section Owns

variable {A : Arena} {own : Multiset (Nat × Nat)} {addr size : Nat}

/-- The state of a region on the heap. -/
def RegionHeld (A : Arena) (s : RegionSys) : Prop :=
  match s.region with
  | .pool r => RegionInv A r s.results
  | .bump b => 0 < b.buf ∧ BumpInv b.buf b.cap s

theorem RegionInv.after {r : MgPools} {results : List (Nat × Nat)} (hI : RegionInv A r results)
    (hsize : size + sizeofBlockHeader A.word < 2 ^ 32) {answers : HeapAnswers}
    (hlegal : RegionLegal A ⟨.pool r, results⟩ (.alloc size answers)) :
    ∃ r', (mgRegionAlloc A.word (.pool r) size answers).2.1 = .pool r' ∧
      RegionInv A r' (((mgRegionAlloc A.word (.pool r) size answers).1.map fun p => (p, size)).toList ++
        results) := by
  obtain ⟨r', results', hstep, hI'⟩ := hI.step hlegal (.inl hsize)
  rw [regionStep_alloc, Option.some.injEq, RegionSys.mk.injEq] at hstep
  exact ⟨r', hstep.1, by rw [hstep.2]; exact hI'⟩

theorem RegionHeld.reset {s : RegionSys} (hs : RegionHeld A s) :
    RegionHeld A ⟨mgRegionReset s.region, []⟩ ∧
      (mgRegionReset s.region).owned A.word addr = s.region.owned A.word addr := by
  obtain ⟨region, results⟩ := s
  cases region with
  | pool r =>
    refine ⟨RegionInv.reset hs, ?_⟩
    have hnodes : r.reset.nodes = r.nodes.map MgPoolNode.reset := by
      rw [MgPools.nodes, MgPools.nodes, List.map_flatMap]
      apply List.flatMap_congr
      intro b hb
      have hle : b ≤ r.maxBits := Nat.le_of_lt_succ (List.mem_range.mp hb)
      simp [MgPools.reset, hle]
    change r.reset.nodes.flatMap (MgPoolNode.owned A.word) ++ _ = _
    rw [hnodes, List.flatMap_map]
    rfl
  | bump b =>
    obtain ⟨hpos, hI⟩ := hs
    have hfits : BumpFits A.word ⟨.bump b, results⟩ .reset := trivial
    obtain ⟨-, s', hstep, hI'⟩ := hI.step hfits
    cases hstep
    exact ⟨⟨hpos, hI'⟩, rfl⟩

end Owns

end CcRpc
