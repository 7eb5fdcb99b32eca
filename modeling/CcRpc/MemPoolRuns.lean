import CcRpc.Lib.Runs
import CcRpc.MemPoolCalls

/-!
# Runs of a fixed-block pool

A run allocates and frees live pointers. In every state of a run the free list holds the unused nodes
in address order. The counter of the remaining blocks is another matter: `mem_pool_free` forgets it.
-/

namespace CcRpc

open Chain

structure PoolSys where
  pool : PoolHead
  /-- The pointers handed out and not freed since. -/
  live : List Nat

inductive PoolOp where
  | alloc
  | free (ptr : Nat)

variable (w : WordSize) (size : UInt16) (amount : UInt8) (start : Nat)

/-- One call. -/
def poolStep (s : PoolSys) : PoolOp → Option PoolSys
  | .alloc =>
    (memPoolAlloc w s.pool).map fun (ret, pool) => ⟨pool, ret.toList ++ s.live⟩
  | .free ptr => (memPoolFree w s.pool ptr).map fun pool => ⟨pool, s.live.erase ptr⟩

/-- Only live pointers are freed. -/
def PoolLive (s : PoolSys) : PoolOp → Prop
  | .alloc => True
  | .free ptr => ptr ∈ s.live

/-- The nodes of a pool in address order. -/
def poolNodes : List Nat :=
  (List.range amount.toNat).map (poolNode w (start + w.headStructSize) size)

/-- Those that are not in use. -/
def PoolHead.freeNodes (pool : PoolHead) : List Nat :=
  (poolNodes w size amount start).filter fun node => pool.mem.used node = 0

/-- The bytes behind the struct of a node. -/
def blockRoom : Nat := apartSize w size - w.nodeStructSize

/-- The free list is the nodes with `used == 0` in address order, the live pointers are the blocks of
the others, and these are disjoint, large enough and inside the payload of the pool. -/
structure PoolOrdered (s : PoolSys) : Prop where
  free_list : Ring s.pool.mem.links.next s.pool.mem.links.prev (s.pool.freeList w)
    ((s.pool.freeNodes w size amount start).map (freeNode w))
  increasing : (s.pool.freeNodes w size amount start).Pairwise (· < ·)
  live_iff : ∀ p, p ∈ s.live ↔ ∃ node ∈ poolNodes w size amount start,
    s.pool.mem.used node ≠ 0 ∧ p = node + w.nodeStructSize
  disjoint : s.live.Pairwise fun p q => Apart p (blockRoom w size) q (blockRoom w size)
  sized : size.toNat ≤ blockRoom w size
  inside : ∀ p ∈ s.live, start ≤ p ∧ p + blockRoom w size ≤ start + memPoolTotal w size amount

/-- The next allocation returns the lowest free block, and NULL exactly when all are live. -/
def AllocatesLowest (s : PoolSys) : Prop :=
  ∃ ret pool, memPoolAlloc w s.pool = some (ret, pool) ∧
    (ret = none ↔ ∀ node ∈ poolNodes w size amount start, node + w.nodeStructSize ∈ s.live) ∧
    ∀ p, ret = some p → ∃ node ∈ s.pool.freeNodes w size amount start,
      p = node + w.nodeStructSize ∧ ∀ n ∈ s.pool.freeNodes w size amount start, node ≤ n

/-- The counter is the number of blocks that are free. -/
def PoolCounted (s : PoolSys) : Prop :=
  s.pool.remainNode = (s.pool.freeNodes w size amount start).length

/-- The call leaves the counter right, and an allocation does not wrap it. -/
def PoolCountKept (s : PoolSys) (op : PoolOp) : Prop :=
  ∃ s', poolStep w s op = some s' ∧ PoolCounted w size amount start s' ∧
    (op = .alloc → s'.pool.remainNode ≤ s.pool.remainNode)

/-- A number of allocations in a row. -/
def allocResults : Nat → PoolHead → Option (List (Option Nat) × PoolHead)
  | 0, pool => some ([], pool)
  | k + 1, pool => do
    let (ret, pool) ← memPoolAlloc w pool
    let (rets, pool) ← allocResults k pool
    return (ret :: rets, pool)

/-- Creation stays in the memory it was given and on pointers it has set, chains all nodes with their
flags clear, and `amount` allocations succeed before one returns NULL. -/
def PoolBuilt (before : PoolMem) : Prop :=
  ∃ pool, memPoolCreate w size amount before (some start) = some (some pool) ∧
    (∀ i < amount.toNat, pool.mem.used (poolNode w (start + w.headStructSize) size i) = 0 ∧
      pool.mem.next (poolNode w (start + w.headStructSize) size i) =
        if i + 1 < amount.toNat then poolNode w (start + w.headStructSize) size (i + 1) else 0) ∧
    ∃ (ps : List Nat) (pool' : PoolHead), ps.length = amount.toNat ∧
      allocResults w (amount.toNat + 1) pool = some (ps.map some ++ [none], pool')

/-- The pool is in shape, and the live pointers are the blocks of the nodes in use. -/
structure PoolInv (s : PoolSys) : Prop where
  holds : PoolHolds w size amount start s.pool
  nodup : s.live.Nodup
  live : ∀ p, p ∈ s.live ↔ ∃ i < amount.toNat,
    s.pool.mem.used (poolNode w (start + w.headStructSize) size i) ≠ 0 ∧
      p = poolNode w (start + w.headStructSize) size i + w.nodeStructSize

variable {w size amount start} {s s' : PoolSys} {pool : PoolHead} {i : Nat}

theorem mem_poolNodes {node : Nat} : node ∈ poolNodes w size amount start ↔
    ∃ i < amount.toNat, node = poolNode w (start + w.headStructSize) size i := by
  simp only [poolNodes, List.mem_map, List.mem_range, eq_comm]

theorem mem_freeNodes {node : Nat} : node ∈ pool.freeNodes w size amount start ↔
    ∃ i < amount.toNat, pool.mem.used (poolNode w (start + w.headStructSize) size i) = 0 ∧
      node = poolNode w (start + w.headStructSize) size i := by
  simp only [PoolHead.freeNodes, List.mem_filter, mem_poolNodes, decide_eq_true_eq]
  constructor
  · rintro ⟨⟨i, hi, rfl⟩, hfree⟩
    exact ⟨i, hi, hfree, rfl⟩
  · rintro ⟨i, hi, hfree, rfl⟩
    exact ⟨⟨i, hi, rfl⟩, hfree⟩

theorem map_freeNodes : (pool.freeNodes w size amount start).map (freeNode w) =
    unusedNodes w size (start + w.headStructSize) pool.mem.used (List.range amount.toNat) := by
  rw [PoolHead.freeNodes, poolNodes, List.filter_map, List.map_map]
  rfl

theorem length_freeNodes : (pool.freeNodes w size amount start).length =
    (unusedNodes w size (start + w.headStructSize) pool.mem.used
      (List.range amount.toNat)).length := by
  rw [← map_freeNodes, List.length_map]

theorem poolNodes_increasing : (poolNodes w size amount start).Pairwise (· < ·) := by
  have hpos := apartSize_pos w size
  have hbytes := w.bytes_eq
  rw [poolNodes, List.pairwise_map]
  apply List.pairwise_lt_range.imp
  intro i j hij
  have hle : poolNode w (start + w.headStructSize) size i + apartSize w size ≤
      poolNode w (start + w.headStructSize) size j := poolNode_lt hij
  omega

theorem length_freeNodes_take {pool' : PoolHead} (hi : i < amount.toNat)
    (hfree : pool.mem.used (poolNode w (start + w.headStructSize) size i) = 0)
    (hused : pool'.mem.used = Function.update pool.mem.used
      (poolNode w (start + w.headStructSize) size i) 1) :
    (pool'.freeNodes w size amount start).length + 1 =
      (pool.freeNodes w size amount start).length := by
  rw [length_freeNodes, length_freeNodes, hused, range_split hi, unusedNodes_append,
    unusedNodes_append, unusedNodes_cons hfree, unusedNodes_cons_used (by simp),
    unusedNodes_update (by simp), unusedNodes_update (by simp)]
  simp only [List.length_append, List.length_cons]
  omega

theorem length_freeNodes_give {pool' : PoolHead} (hi : i < amount.toNat)
    (hin : pool.mem.used (poolNode w (start + w.headStructSize) size i) ≠ 0)
    (hused : pool'.mem.used = Function.update pool.mem.used
      (poolNode w (start + w.headStructSize) size i) 0) :
    (pool'.freeNodes w size amount start).length =
      (pool.freeNodes w size amount start).length + 1 := by
  rw [length_freeNodes, length_freeNodes, hused, range_split hi, unusedNodes_append,
    unusedNodes_append, unusedNodes_cons (Function.update_self ..), unusedNodes_cons_used hin,
    unusedNodes_update (by simp), unusedNodes_update (by simp)]
  simp only [List.length_append, List.length_cons]
  omega

theorem le_blockRoom (w : WordSize) (size : UInt16) : size.toNat ≤ blockRoom w size := by
  have hle := (apartSize_bounds w size).1
  rw [blockRoom]
  omega

theorem blockRoom_add (w : WordSize) (size : UInt16) :
    w.nodeStructSize + blockRoom w size = apartSize w size := by
  have hle := (apartSize_bounds w size).1
  rw [blockRoom]
  omega

theorem PoolInv.ordered (hI : PoolInv w size amount start s) :
    PoolOrdered w size amount start s where
  free_list := by
    rw [map_freeNodes, PoolHead.freeList, hI.holds.addr]
    exact hI.holds.shape.carved.ring.ring
  increasing := poolNodes_increasing.filter _
  live_iff := by
    intro p
    rw [hI.live]
    constructor
    · rintro ⟨i, hi, hused, rfl⟩
      exact ⟨_, mem_poolNodes.mpr ⟨i, hi, rfl⟩, hused, rfl⟩
    · rintro ⟨node, hnode, hused, rfl⟩
      obtain ⟨i, hi, rfl⟩ := mem_poolNodes.mp hnode
      exact ⟨i, hi, hused, rfl⟩
  disjoint := by
    have hroom := blockRoom_add w size
    apply hI.nodup.imp_of_mem
    intro p q hp hq hne
    obtain ⟨i, -, -, rfl⟩ := (hI.live p).mp hp
    obtain ⟨j, -, -, rfl⟩ := (hI.live q).mp hq
    have hij : i ≠ j := fun heq => hne (by rw [heq])
    have hapart : Apart (poolNode w (start + w.headStructSize) size i) (apartSize w size)
        (poolNode w (start + w.headStructSize) size j) (apartSize w size) :=
      (Nat.lt_or_gt_of_ne hij).imp poolNode_lt poolNode_lt
    exact hapart.within (by omega) (by omega) (by omega) (by omega)
  sized := le_blockRoom w size
  inside := by
    intro p hp
    obtain ⟨i, hi, -, rfl⟩ := (hI.live p).mp hp
    have hroom := blockRoom_add w size
    have hle : poolNode w (start + w.headStructSize) size i + apartSize w size ≤ _ := poolNode_le hi
    have hge : start + w.headStructSize ≤ poolNode w (start + w.headStructSize) size i :=
      Nat.le_add_right ..
    rw [Nat.mul_comm] at hle
    rw [memPoolTotal_eq]
    omega

theorem PoolInv.allocatesLowest (hI : PoolInv w size amount start s) :
    AllocatesLowest w size amount start s := by
  rcases hI.holds.alloc with ⟨hall, hnull⟩ | ⟨i, hi, hfree, hmin, pool', hsome, -⟩
  · refine ⟨none, s.pool, hnull, ⟨fun _ node hnode => ?_, fun _ => rfl⟩, fun p hp => by cases hp⟩
    obtain ⟨i, hi, rfl⟩ := mem_poolNodes.mp hnode
    exact (hI.live _).mpr ⟨i, hi, hall i hi, rfl⟩
  · refine ⟨_, pool', hsome, ⟨fun hnone => (Option.some_ne_none _ hnone).elim, fun hall => ?_⟩, ?_⟩
    · -- node `i` is not live
      obtain ⟨j, -, hused, heq⟩ := (hI.live _).mp (hall _ (mem_poolNodes.mpr ⟨i, hi, rfl⟩))
      rw [poolNode_inj.mp (Nat.add_right_cancel heq)] at hfree
      exact absurd hfree hused
    · intro p hp
      cases hp
      refine ⟨_, mem_freeNodes.mpr ⟨i, hi, hfree, rfl⟩, rfl, fun n hn => ?_⟩
      obtain ⟨j, -, hzero, rfl⟩ := mem_freeNodes.mp hn
      have hij : i ≤ j := by
        by_contra hlt
        exact hmin j (by omega) hzero
      exact Nat.add_le_add_left (Nat.mul_le_mul_left _ hij) _

theorem memPoolCreate_inv (hamount : 2 ≤ amount.toNat) {before : PoolMem}
    (hpool : memPoolCreate w size amount before (some start) = some (some pool)) :
    PoolInv w size amount start ⟨pool, []⟩ ∧ PoolCounted w size amount start ⟨pool, []⟩ := by
  obtain ⟨pool', hcreate, hH, hremain, hfree⟩ := memPoolCreate_spec w size hamount before start
  rw [hpool] at hcreate
  cases hcreate
  refine ⟨⟨hH, List.nodup_nil, fun p => ?_⟩, ?_⟩
  · simp only [List.not_mem_nil, false_iff]
    rintro ⟨i, hi, hused, -⟩
    exact hused (hfree i hi)
  · have hall : (poolNodes w size amount start).filter (fun node => pool.mem.used node = 0) =
        poolNodes w size amount start := by
      apply List.filter_eq_self.mpr
      intro node hnode
      obtain ⟨i, hi, rfl⟩ := mem_poolNodes.mp hnode
      exact decide_eq_true (hfree i hi)
    rw [PoolCounted, hremain, PoolHead.freeNodes, hall, poolNodes, List.length_map,
      List.length_range]

theorem PoolInv.alloc (hI : PoolInv w size amount start s) :
    ∃ s', poolStep w s .alloc = some s' ∧ PoolInv w size amount start s' ∧
      (PoolCounted w size amount start s → PoolCounted w size amount start s' ∧
        s'.pool.remainNode ≤ s.pool.remainNode) := by
  rcases hI.holds.alloc with ⟨-, hnull⟩ | ⟨i, hi, hfree, -, pool', hsome, hH', hused, hremain⟩
  · refine ⟨s, ?_, hI, fun hcount => ⟨hcount, Nat.le_refl _⟩⟩
    rw [poolStep, hnull]
    rfl
  · refine ⟨⟨pool', (poolNode w (start + w.headStructSize) size i + w.nodeStructSize) :: s.live⟩,
      ?_, ⟨hH', ?_, fun p => ?_⟩, fun hcount => ?_⟩
    · rw [poolStep, hsome]
      rfl
    · refine List.nodup_cons.mpr ⟨fun hmem => ?_, hI.nodup⟩
      obtain ⟨j, -, hin, heq⟩ := (hI.live _).mp hmem
      rw [poolNode_inj.mp (Nat.add_right_cancel heq)] at hfree
      exact hin hfree
    · rw [List.mem_cons, hI.live, hused]
      constructor
      · rintro (rfl | ⟨j, hj, hin, rfl⟩)
        · exact ⟨i, hi, by simp, rfl⟩
        · refine ⟨j, hj, ?_, rfl⟩
          rw [Function.update_apply]
          split
          · exact Nat.one_ne_zero
          · exact hin
      · rintro ⟨j, hj, hin, rfl⟩
        by_cases hij : j = i
        · exact Or.inl (by rw [hij])
        · rw [Function.update_of_ne fun heq => hij (poolNode_inj.mp heq)] at hin
          exact Or.inr ⟨j, hj, hin, rfl⟩
    · have hlen := length_freeNodes_take hi hfree hused
      have hamount := amount.toNat_lt
      have hbound : (s.pool.freeNodes w size amount start).length ≤ amount.toNat := by
        have hle := List.length_filter_le (fun node => decide (s.pool.mem.used node = 0))
          (poolNodes w size amount start)
        rwa [poolNodes, List.length_map, List.length_range] at hle
      rw [PoolCounted] at hcount ⊢
      dsimp only
      rw [hremain]
      omega

theorem PoolInv.free (hI : PoolInv w size amount start s) {ptr : Nat} (hptr : ptr ∈ s.live) :
    ∃ s', poolStep w s (.free ptr) = some s' ∧ PoolInv w size amount start s' ∧
      s'.pool.remainNode = s.pool.remainNode ∧
      (s'.pool.freeNodes w size amount start).length =
        (s.pool.freeNodes w size amount start).length + 1 := by
  obtain ⟨i, hi, hin, hat⟩ := (hI.live ptr).mp hptr
  obtain ⟨pool', hfree, hH', hused, hremain⟩ := hI.holds.free hi hin
  rw [← hat] at hfree
  refine ⟨⟨pool', s.live.erase ptr⟩, ?_, ⟨hH', hI.nodup.erase _, fun p => ?_⟩, hremain,
    length_freeNodes_give hi hin hused⟩
  · rw [poolStep, hfree]
    rfl
  · rw [hI.nodup.mem_erase_iff, hI.live, hused]
    constructor
    · rintro ⟨hne, j, hj, hother, rfl⟩
      have hij : j ≠ i := fun heq => hne (by rw [heq, hat])
      refine ⟨j, hj, ?_, rfl⟩
      rwa [Function.update_of_ne fun heq => hij (poolNode_inj.mp heq)]
    · rintro ⟨j, hj, hother, rfl⟩
      have hij : j ≠ i := by
        rintro rfl
        exact hother (Function.update_self ..)
      rw [Function.update_of_ne fun heq => hij (poolNode_inj.mp heq)] at hother
      refine ⟨fun heq => hij ?_, j, hj, hother, rfl⟩
      exact poolNode_inj.mp (Nat.add_right_cancel (heq.trans hat))

theorem PoolInv.step (hI : PoolInv w size amount start s) {op : PoolOp} (hlive : PoolLive s op) :
    ∃ s', poolStep w s op = some s' ∧ PoolInv w size amount start s' := by
  cases op with
  | alloc =>
    obtain ⟨s', hstep, hI', -⟩ := hI.alloc
    exact ⟨s', hstep, hI'⟩
  | free ptr =>
    obtain ⟨s', hstep, hI', -⟩ := hI.free hlive
    exact ⟨s', hstep, hI'⟩

/-- In every state of a run of a pool of two blocks or more the free list is the unused nodes in
address order, the live blocks are disjoint, and the next allocation returns the lowest free one. -/
theorem memPool_ordered (w : WordSize) (size : UInt16) {amount : UInt8}
    (hamount : 2 ≤ amount.toNat) (before : PoolMem) (start : Nat) {pool : PoolHead}
    (hpool : memPoolCreate w size amount before (some start) = some (some pool))
    {ops : List PoolOp} (hlive : Runs.Along (poolStep w) PoolLive ⟨pool, []⟩ ops) :
    ∃ s, Runs.run (poolStep w) ⟨pool, []⟩ ops = some s ∧ PoolOrdered w size amount start s ∧
      AllocatesLowest w size amount start s := by
  obtain ⟨s, hrun, hI⟩ := Runs.run_total (P := PoolInv w size amount start)
    (fun _ _ hI hlive => hI.step hlive) (memPoolCreate_inv hamount hpool).1 hlive
  exact ⟨s, hrun, hI.ordered, hI.allocatesLowest⟩

/-- Memory that was never written. -/
def PoolMem.blank : PoolMem :=
  ⟨0, 0, ⟨fun _ => false, fun _ => 0, fun _ => 0⟩, fun _ => 0, fun _ => 0⟩

theorem poolLive_three : ∃ pool,
    memPoolCreate .w64 16 3 PoolMem.blank (some 0x100010) = some (some pool) ∧
      Runs.Along (poolStep .w64) PoolLive ⟨pool, []⟩
        [.alloc, .free (poolNode .w64 0x100040 16 0 + 32)] := by
  obtain ⟨pool, hpool, hH, -, hfree⟩ :=
    memPoolCreate_spec .w64 16 (show 2 ≤ (3 : UInt8).toNat by decide) PoolMem.blank 0x100010
  obtain ⟨pool', halloc, -⟩ := hH.alloc_first (i := 0) (by decide) (hfree 0 (by decide))
    fun j hj => absurd hj (Nat.not_lt_zero j)
  refine ⟨pool, hpool, trivial, fun s hs => ⟨?_, fun _ _ => trivial⟩⟩
  rw [poolStep, halloc] at hs
  cases hs
  exact List.mem_cons_self

theorem memPool_ordered_three : ∃ pool,
    memPoolCreate .w64 16 3 PoolMem.blank (some 0x100010) = some (some pool) ∧
      ∃ s, Runs.run (poolStep .w64) ⟨pool, []⟩
          [.alloc, .free (poolNode .w64 0x100040 16 0 + 32)] = some s ∧
        PoolOrdered .w64 16 3 0x100010 s ∧ AllocatesLowest .w64 16 3 0x100010 s := by
  obtain ⟨pool, hpool, hlive⟩ := poolLive_three
  exact ⟨pool, hpool, memPool_ordered .w64 16 (by decide) PoolMem.blank 0x100010 hpool hlive⟩

/-- Every call keeps the counter exact when no call of the run is a release, and only then. -/
theorem memPool_counted_iff (w : WordSize) (size : UInt16) {amount : UInt8}
    (hamount : 2 ≤ amount.toNat) (before : PoolMem) (start : Nat) {pool : PoolHead}
    (hpool : memPoolCreate w size amount before (some start) = some (some pool))
    {ops : List PoolOp} (hlive : Runs.Along (poolStep w) PoolLive ⟨pool, []⟩ ops) :
    PoolCounted w size amount start ⟨pool, []⟩ ∧
      (Runs.Along (poolStep w) (PoolCountKept w size amount start) ⟨pool, []⟩ ops ↔
        ∀ op ∈ ops, op = .alloc) := by
  obtain ⟨hI, hcount⟩ := memPoolCreate_inv hamount hpool
  have hkept : ∀ s op, PoolInv w size amount start s ∧ PoolCounted w size amount start s →
      PoolLive s op → op = .alloc → PoolCountKept w size amount start s op ∧
        ∃ s', poolStep w s op = some s' ∧ PoolInv w size amount start s' ∧
          PoolCounted w size amount start s' := by
    rintro s op ⟨hI, hcount⟩ - rfl
    obtain ⟨s', hstep, hI', hkeep⟩ := hI.alloc
    obtain ⟨hcount', hle⟩ := hkeep hcount
    exact ⟨⟨s', hstep, hcount', fun _ => hle⟩, s', hstep, hI', hcount'⟩
  have honly : ∀ s op, PoolInv w size amount start s ∧ PoolCounted w size amount start s →
      PoolLive s op → PoolCountKept w size amount start s op → op = .alloc := by
    rintro s op ⟨hI, hcount⟩ hlive ⟨s', hstep, hcount', -⟩
    cases op with
    | alloc => rfl
    | free ptr =>
      -- the node is free again, the counter is what it was
      obtain ⟨s'', hstep', -, hremain, hlen⟩ := hI.free hlive
      rw [hstep] at hstep'
      cases hstep'
      rw [PoolCounted] at hcount hcount'
      omega
  refine ⟨hcount, (Runs.along_iff honly hkept ⟨hI, hcount⟩ hlive).trans ?_⟩
  exact Runs.along_forall_iff (fun s op hI hl hC => (hkept s op hI hl hC).2) ⟨hI, hcount⟩ hlive

theorem memPool_counted_iff_three : ∃ pool,
    memPoolCreate .w64 16 3 PoolMem.blank (some 0x100010) = some (some pool) ∧
      PoolCounted .w64 16 3 0x100010 ⟨pool, []⟩ ∧
      (Runs.Along (poolStep .w64) (PoolCountKept .w64 16 3 0x100010) ⟨pool, []⟩
          [.alloc, .free (poolNode .w64 0x100040 16 0 + 32)] ↔
        ∀ op ∈ [PoolOp.alloc, .free (poolNode .w64 0x100040 16 0 + 32)], op = .alloc) := by
  obtain ⟨pool, hpool, hlive⟩ := poolLive_three
  exact ⟨pool, hpool,
    memPool_counted_iff .w64 16 (by decide) PoolMem.blank 0x100010 hpool hlive⟩

/-- One block taken and given back: the counter has one block less than there are. -/
theorem memPool_miscounts : ∃ pool,
    memPoolCreate .w64 16 3 PoolMem.blank (some 0x100010) = some (some pool) ∧
      ∃ s, Runs.run (poolStep .w64) ⟨pool, []⟩
          [.alloc, .free (poolNode .w64 0x100040 16 0 + 32)] = some s ∧
        ¬ PoolCounted .w64 16 3 0x100010 s := by
  obtain ⟨pool, hpool, hlive⟩ := poolLive_three
  obtain ⟨hI, hcount⟩ := memPoolCreate_inv (by decide) hpool
  obtain ⟨s₁, hstep₁, hI₁, hkeep⟩ := hI.alloc
  obtain ⟨s₂, hstep₂, -, hremain, hlen⟩ := hI₁.free (hlive.2 s₁ hstep₁).1
  have hcount₁ := (hkeep hcount).1
  refine ⟨pool, hpool, s₂, Runs.run_cons.mpr ⟨s₁, hstep₁, Runs.run_cons.mpr ⟨s₂, hstep₂, rfl⟩⟩, ?_⟩
  intro hcount₂
  rw [PoolCounted] at hcount₁ hcount₂
  omega

theorem PoolHolds.allocResults {k : Nat} (hH : PoolHolds w size amount start pool)
    (hk : (pool.freeNodes w size amount start).length = k) :
    ∃ (ps : List Nat) (pool' : PoolHead), ps.length = k ∧
      allocResults w (k + 1) pool = some (ps.map some ++ [none], pool') := by
  induction k generalizing pool with
  | zero =>
    have hall : ∀ i < amount.toNat,
        pool.mem.used (poolNode w (start + w.headStructSize) size i) ≠ 0 := by
      intro i hi hfree
      have hmem := mem_freeNodes.mpr ⟨i, hi, hfree, rfl⟩
      rw [List.eq_nil_of_length_eq_zero hk] at hmem
      cases hmem
    refine ⟨[], pool, rfl, ?_⟩
    simp [CcRpc.allocResults, hH.alloc_null hall]
  | succ k ih =>
    rcases hH.alloc with ⟨hall, -⟩ | ⟨i, hi, hfree, -, pool', hsome, hH', hused, -⟩
    · obtain ⟨node, hnode⟩ := List.exists_mem_of_length_pos
        (show 0 < (pool.freeNodes w size amount start).length by omega)
      obtain ⟨i, hi, hfree, -⟩ := mem_freeNodes.mp hnode
      exact absurd hfree (hall i hi)
    · have hlen := length_freeNodes_take hi hfree hused
      obtain ⟨ps, pool'', hps, hrest⟩ := ih hH' (by omega)
      refine ⟨(poolNode w (start + w.headStructSize) size i + w.nodeStructSize) :: ps, pool'',
        congrArg Nat.succ hps, ?_⟩
      rw [CcRpc.allocResults, hsome]
      simp only [Option.bind_eq_bind, Option.bind_some, hrest]
      rfl

/-- A single block leaves `new` unset; without blocks the first node is behind the payload. -/
theorem memPoolCreate_fault (w : WordSize) (size : UInt16) (hamount : amount.toNat < 2)
    (before : PoolMem) (start : Nat) : memPoolCreate w size amount before (some start) = none := by
  rw [memPoolCreate]
  dsimp only
  split
  · rfl
  · rcases Nat.lt_or_ge 0 amount.toNat with hpos | hzero
    · have hone : amount.toNat = 1 := by omega
      have hloop : ∀ m, poolApart w (start + w.headStructSize) ((amount.toNat + 255) % 256)
          (apartSize w size) m = none := by
        intro m
        rw [hone]
        rfl
      simp only [hloop, Option.bind_eq_bind, Option.bind_none, Option.bind_fun_none]
    · have hout : (before.granted w start (memPoolTotal w size amount)).setUsed w
          (start + w.headStructSize) 0 = none := by
        apply if_neg
        rintro ⟨-, hle⟩
        change start + w.headStructSize + sizeofPoolNode w ≤
          start + memPoolTotal w size amount at hle
        have hbytes := w.bytes_eq
        rw [memPoolTotal_eq, Nat.le_zero.mp hzero, Nat.zero_mul, sizeofPoolNode] at hle
        omega
      rw [hout]
      rfl

/-- Construction is correct from two blocks on, and never with fewer. -/
theorem memPoolCreate_built_iff (w : WordSize) (size : UInt16) (amount : UInt8) (before : PoolMem)
    (start : Nat) : PoolBuilt w size amount start before ↔ 2 ≤ amount.toNat := by
  constructor
  · rintro ⟨pool, hpool, -⟩
    by_contra hamount
    rw [memPoolCreate_fault w size (by omega)] at hpool
    cases hpool
  · intro hamount
    obtain ⟨pool, hpool, hH, hremain, hfree⟩ := memPoolCreate_spec w size hamount before start
    have hcount := (memPoolCreate_inv hamount hpool).2
    rw [PoolCounted, hremain] at hcount
    exact ⟨pool, hpool, fun i hi => ⟨hfree i hi, hH.shape.next_eq hi⟩,
      hH.allocResults hcount.symm⟩

/-- A pool of one block: `new->next = NULL` goes through a pointer that was never set. -/
theorem memPoolCreate_unset : ¬ PoolBuilt .w64 16 1 0x100010 PoolMem.blank := by
  rintro ⟨pool, hpool, -⟩
  rw [memPoolCreate_fault .w64 16 (by decide)] at hpool
  cases hpool

end CcRpc
