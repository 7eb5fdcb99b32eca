import CcRpc.MgAlloc

/-!
# What a pool region does

An allocation looks for a free block from the class of the request upwards, and makes a new pool in
that class when there is none. Here is what each of these can come to.
-/

namespace CcRpc

variable {w : WordSize}

/-- The bytes of a pool. -/
def MembitPool.extent (w : WordSize) (pool : MembitPool) : Nat :=
  w.membitHeadSize + pool.blockSize * pool.count

/-- Where block `i` of a pool begins. -/
def MembitPool.block (w : WordSize) (pool : MembitPool) (i : Nat) : Nat :=
  pool.base w + pool.blockSize * i

/-- The pools of all classes. -/
def MgPools.nodes (r : MgPools) : List MgPoolNode :=
  (List.range (r.maxBits + 1)).flatMap fun b => (r.classes b).pools

/-- The pool after its lowest free block is taken. -/
def MembitPool.take (pool : MembitPool) : MembitPool :=
  { pool with bitmask := pool.bitmask &&& ~~~(1#32 <<< lowbitIndex pool.bitmask) }

/-- The node after its lowest free block is taken. -/
def MgPoolNode.take (n : MgPoolNode) : MgPoolNode := { n with pool := n.pool.take }

/-- No pool of the list has a free block. -/
def AllTaken (ns : List MgPoolNode) : Prop := ∀ n ∈ ns, n.pool.bitmask = 0

theorem membitAlloc_eq (pool : MembitPool) :
    membitAlloc w pool = if pool.bitmask = 0 then (none, pool)
      else (some (pool.block w (lowbitIndex pool.bitmask)), pool.take) := rfl

section Stores

variable {r : MgPools} {b c : Nat} {pools : List MgPoolNode}

@[simp] theorem maxBits_setPools : (r.setPools b pools).maxBits = r.maxBits := rfl

theorem pools_setPools_self : ((r.setPools b pools).classes b).pools = pools := by
  simp [MgPools.setPools]

theorem classes_setPools_of_ne (hc : c ≠ b) : (r.setPools b pools).classes c = r.classes c := by
  simp [MgPools.setPools, hc]

@[simp] theorem blockSize_setPools :
    ((r.setPools b pools).classes c).blockSize = (r.classes c).blockSize := by
  by_cases hc : c = b
  · simp [MgPools.setPools, hc]
  · rw [classes_setPools_of_ne hc]

theorem setPools_self (r : MgPools) (b : Nat) : r.setPools b (r.classes b).pools = r := by
  rw [MgPools.setPools, Function.update_eq_self]

theorem setPools_setPools {pools' : List MgPoolNode} :
    (r.setPools b pools).setPools b pools' = r.setPools b pools' := by
  simp [MgPools.setPools]

theorem nodes_split (r : MgPools) (hb : b ≤ r.maxBits) :
    ∃ P Q, ∀ pools, (r.setPools b pools).nodes = P ++ pools ++ Q := by
  have hlt : b < r.maxBits + 1 := by omega
  have hother : ∀ (pools : List MgPoolNode) (l : List Nat), b ∉ l →
      l.flatMap (fun c => ((r.setPools b pools).classes c).pools) =
        l.flatMap fun c => (r.classes c).pools := by
    intro pools l hl
    rw [List.flatMap_congr]
    intro c hc
    have hne : c ≠ b := fun heq => hl (heq ▸ hc)
    rw [classes_setPools_of_ne hne]
  refine ⟨(List.range b).flatMap fun c => (r.classes c).pools,
    (List.range' (b + 1) (r.maxBits + 1 - (b + 1))).flatMap fun c => (r.classes c).pools,
    fun pools => ?_⟩
  rw [MgPools.nodes, maxBits_setPools, range_split hlt, List.flatMap_append, List.flatMap_cons,
    pools_setPools_self, hother _ _ (by simp), hother _ _ (by simp), List.append_assoc]

end Stores

theorem allocFromPools_none {ns : List MgPoolNode} :
    allocFromPools w ns = none ↔ AllTaken ns := by
  induction ns with
  | nil => simp [allocFromPools, AllTaken]
  | cons n ns ih =>
    rw [allocFromPools, membitAlloc_eq, AllTaken, List.forall_mem_cons]
    by_cases hzero : n.pool.bitmask = 0
    · rw [if_pos hzero]
      dsimp only
      rw [Option.map_eq_none_iff, ih, AllTaken, and_iff_right hzero]
    · rw [if_neg hzero]
      exact iff_of_false (Option.some_ne_none _) fun hall => hzero hall.1

/-- The first pool with a free block gives its lowest one. -/
theorem allocFromPools_some {ns ns' : List MgPoolNode} {blk p : Nat}
    (h : allocFromPools w ns = some (blk, p, ns')) :
    ∃ pre n post, ns = pre ++ n :: post ∧ n.pool.bitmask ≠ 0 ∧
      blk = n.pool.block w (lowbitIndex n.pool.bitmask) ∧ p = n.pool.addr ∧
      ns' = pre ++ n.take :: post := by
  induction ns generalizing ns' with
  | nil => cases h
  | cons n ns ih =>
    rw [allocFromPools, membitAlloc_eq] at h
    by_cases hzero : n.pool.bitmask = 0
    · rw [if_pos hzero] at h
      obtain ⟨⟨blk', p', ns''⟩, hrest, heq⟩ := Option.map_eq_some_iff.mp h
      cases heq
      obtain ⟨pre, m, post, rfl, hm, rfl, rfl, rfl⟩ := ih hrest
      exact ⟨n :: pre, m, post, rfl, hm, rfl, rfl, rfl⟩
    · rw [if_neg hzero] at h
      cases h
      exact ⟨[], n, ns, rfl, hzero, rfl, rfl, rfl⟩

theorem allocFromClasses_none {r : MgPools} {count b : Nat} :
    allocFromClasses w r count b = none ↔
      ∀ c, b ≤ c → c < b + count → AllTaken (r.classes c).pools := by
  induction count generalizing b with
  | zero =>
    simp only [allocFromClasses, true_iff]
    intro c hle hlt
    omega
  | succ count ih =>
    rw [allocFromClasses]
    cases hpools : allocFromPools w (r.classes b).pools with
    | none =>
      rw [allocFromPools_none] at hpools
      dsimp only
      rw [ih]
      constructor
      · intro hrest c hle hlt
        rcases Nat.eq_or_lt_of_le hle with rfl | hlt'
        · exact hpools
        · exact hrest c hlt' (by omega)
      · intro hall c hle hlt
        exact hall c (by omega) (by omega)
    | some x =>
      obtain ⟨blk, p, pools⟩ := x
      simp only [reduceCtorEq, false_iff]
      intro hall
      have hnone : allocFromPools w (r.classes b).pools = none :=
        allocFromPools_none.mpr (hall b (Nat.le_refl b) (by omega))
      rw [hpools] at hnone
      cases hnone

theorem allocFromClasses_some {r r' : MgPools} {count b blk p : Nat}
    (h : allocFromClasses w r count b = some (blk, p, r')) :
    ∃ c pools, b ≤ c ∧ c < b + count ∧
      (∀ d, b ≤ d → d < c → AllTaken (r.classes d).pools) ∧
      allocFromPools w (r.classes c).pools = some (blk, p, pools) ∧ r' = r.setPools c pools := by
  induction count generalizing b with
  | zero => cases h
  | succ count ih =>
    rw [allocFromClasses] at h
    cases hpools : allocFromPools w (r.classes b).pools with
    | none =>
      rw [hpools] at h
      obtain ⟨c, pools, hle, hlt, hfull, hc, rfl⟩ := ih h
      refine ⟨c, pools, by omega, by omega, fun d hd hdc => ?_, hc, rfl⟩
      rcases Nat.eq_or_lt_of_le hd with rfl | hlt'
      · exact allocFromPools_none.mp hpools
      · exact hfull d hlt' hdc
    | some x =>
      obtain ⟨blk', p', pools⟩ := x
      rw [hpools] at h
      cases h
      exact ⟨b, pools, Nat.le_refl b, by omega, fun d hd hdb => by omega, hpools, rfl⟩

/-- The pool `mg_pool_node_new` makes at `p`. -/
def newPool (blockSize p : Nat) : MembitPool where
  addr := p
  bitmask := fullMask (clampedCount (UInt8.ofNat (mgPoolBlockCount blockSize)))
  blockSize := roundedBlock (UInt16.ofNat blockSize)
  count := clampedCount (UInt8.ofNat (mgPoolBlockCount blockSize))

theorem mgPoolNodeNew_some {blockSize : Nat} {answers : HeapAnswers} {n : MgPoolNode}
    (h : (mgPoolNodeNew blockSize answers).1 = some n) :
    ∃ p a rest, answers = some p :: some a :: rest ∧
      n = ⟨a, newPool blockSize p, mgPoolBlockCount blockSize, blockSize % 2 ^ 16⟩ := by
  rcases answers with _ | ⟨_ | p, _ | ⟨_ | a, answers⟩⟩
  all_goals simp only [mgPoolNodeNew, HeapAnswers.pop, membitCreate, Option.map_none, Option.map_some,
    reduceCtorEq] at h
  cases h
  exact ⟨p, a, answers, rfl, rfl⟩

theorem mgPoolBlockCount_pos (blockSize : Nat) :
    0 < mgPoolBlockCount blockSize ∧ mgPoolBlockCount blockSize ≤ 8 := by
  unfold mgPoolBlockCount
  split
  · omega
  · split <;> omega

theorem newPool_count (blockSize p : Nat) :
    (newPool blockSize p).count = mgPoolBlockCount blockSize := by
  have hcount := mgPoolBlockCount_pos blockSize
  have hsmall : (UInt8.ofNat (mgPoolBlockCount blockSize)).toNat = mgPoolBlockCount blockSize :=
    UInt8.toNat_ofNat_of_lt' (show _ < 2 ^ 8 by omega)
  rw [newPool]
  dsimp only
  rw [clampedCount_eq, hsmall]
  omega

theorem newPool_mask (blockSize p i : Nat) :
    (newPool blockSize p).bitmask.getLsbD i = decide (i < (newPool blockSize p).count) :=
  getLsbD_fullMask (clampedCount_le _) i

theorem newPool_mask_ne (blockSize p : Nat) : (newPool blockSize p).bitmask ≠ 0 := by
  intro hzero
  have hbit := newPool_mask blockSize p 0
  rw [hzero, newPool_count, decide_eq_true (mgPoolBlockCount_pos blockSize).1] at hbit
  simp at hbit

/-- The size `mg_region_alloc` goes on with. -/
def clampedSize (size : Nat) : Nat := if size < mgMinClassBytes then mgMinClassBytes else size

/-- There is no class for the request, or no free block and no new pool. -/
def Refused (w : WordSize) (r : MgPools) (size : Nat) (answers : HeapAnswers) : Prop :=
  r.maxBits < classBits w (clampedSize size) ∨
    (∀ b, classBits w (clampedSize size) ≤ b → b ≤ r.maxBits → AllTaken (r.classes b).pools) ∧
      (mgPoolNodeNew (r.classes (classBits w (clampedSize size))).blockSize answers).1 = none

/-- The request is granted from a new pool, that of `n`. -/
def MakesPool (w : WordSize) (r : MgPools) (size : Nat) (answers : HeapAnswers) (n : MgPoolNode) : Prop :=
  size ≠ 0 ∧ classBits w (clampedSize size) ≤ r.maxBits ∧
    (∀ c, classBits w (clampedSize size) ≤ c → c ≤ r.maxBits → AllTaken (r.classes c).pools) ∧
    (mgPoolNodeNew (r.classes (classBits w (clampedSize size))).blockSize answers).1 = some n

/-- The region after a block of the node `n` of class `b` is handed out. -/
def MgPools.taken (w : WordSize) (r : MgPools) (b : Nat) (pre : List MgPoolNode) (n : MgPoolNode)
    (post : List MgPoolNode) : MgPools :=
  (r.setPools b (pre ++ n.take :: post)).setHeader
    (n.pool.block w (lowbitIndex n.pool.bitmask)) n.pool.addr

/-- What an allocation from a pool region can come to: NULL, a block of a pool that is there, or the
first block of a new pool. -/
inductive PoolAlloc (w : WordSize) (r : MgPools) (size : Nat) (answers : HeapAnswers) :
    Option Nat × MgRegion × HeapAnswers → Prop where
  | null (rest : HeapAnswers) (h : size = 0 ∨ Refused w r size answers) :
      PoolAlloc w r size answers (none, .pool r, rest)
  | reused (b : Nat) (pre : List MgPoolNode) (n : MgPoolNode) (post : List MgPoolNode)
      (hsize : size ≠ 0) (hbits : classBits w (clampedSize size) ≤ b) (hmax : b ≤ r.maxBits)
      (hbelow : ∀ c, classBits w (clampedSize size) ≤ c → c < b → AllTaken (r.classes c).pools)
      (hpools : (r.classes b).pools = pre ++ n :: post) (hfree : n.pool.bitmask ≠ 0) :
      PoolAlloc w r size answers
        (some (n.pool.block w (lowbitIndex n.pool.bitmask) + sizeofBlockHeader w),
          .pool (r.taken w b pre n post), answers)
  | created (n : MgPoolNode) (rest : HeapAnswers) (hnew : MakesPool w r size answers n) :
      PoolAlloc w r size answers
        (some (n.pool.block w (lowbitIndex n.pool.bitmask) + sizeofBlockHeader w),
          .pool (r.taken w (classBits w (clampedSize size)) [] n
            (r.classes (classBits w (clampedSize size))).pools), rest)

theorem MakesPool.free {r : MgPools} {size : Nat} {answers : HeapAnswers} {n : MgPoolNode}
    (h : MakesPool w r size answers n) : n.pool.bitmask ≠ 0 := by
  obtain ⟨p, a, -, -, rfl⟩ := mgPoolNodeNew_some h.2.2.2
  exact newPool_mask_ne _ p

/-- `mg_region_alloc` on a pool region. -/
theorem mgRegionAlloc_pool (w : WordSize) (r : MgPools) (size : Nat) (answers : HeapAnswers) :
    PoolAlloc w r size answers (mgRegionAlloc w (.pool r) size answers) := by
  by_cases hsize : size = 0
  · rw [mgRegionAlloc, if_pos hsize]
    exact .null answers (Or.inl hsize)
  have hcall : mgRegionAlloc w (.pool r) size answers =
      (fun x => (x.1, MgRegion.pool x.2.1, x.2.2))
        (mgRegionAllocClass w r (clampedSize size) answers) := by
    rw [mgRegionAlloc, if_neg hsize]
    rfl
  rw [hcall, mgRegionAllocClass]
  dsimp only
  by_cases hmax : r.maxBits < classBits w (clampedSize size)
  · rw [if_pos hmax]
    exact .null answers (Or.inr (Or.inl hmax))
  rw [if_neg hmax]
  cases hclasses : allocFromClasses w r (r.maxBits + 1 - classBits w (clampedSize size))
      (classBits w (clampedSize size)) with
  | some x =>
    obtain ⟨blk, p, r'⟩ := x
    obtain ⟨b, pools, hbits, hlt, hbelow, hpools, rfl⟩ := allocFromClasses_some hclasses
    obtain ⟨pre, n, post, hsplit, hfree, rfl, rfl, rfl⟩ := allocFromPools_some hpools
    exact .reused b pre n post hsize hbits (by omega) hbelow hsplit hfree
  | none =>
    have hfull : ∀ c, classBits w (clampedSize size) ≤ c → c ≤ r.maxBits →
        AllTaken (r.classes c).pools := fun c hle hc =>
      allocFromClasses_none.mp hclasses c hle (by omega)
    cases hnew : mgPoolNodeNew (r.classes (classBits w (clampedSize size))).blockSize answers with
    | mk made rest =>
      cases made with
      | none => exact .null rest (Or.inr (Or.inr ⟨hfull, congrArg Prod.fst hnew⟩))
      | some n =>
        have hfree : n.pool.bitmask ≠ 0 := by
          obtain ⟨p, a, -, -, rfl⟩ := mgPoolNodeNew_some (congrArg Prod.fst hnew)
          exact newPool_mask_ne _ p
        dsimp only
        rw [membitAlloc_eq, if_neg hfree]
        exact .created n rest ⟨hsize, by omega, hfull, congrArg Prod.fst hnew⟩

end CcRpc
