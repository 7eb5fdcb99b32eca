import CcRpc.MemPool

/-!
# The shape of a fixed-block pool

The chain by `next` goes through all nodes in address order, and so does the ring of the free ones.
`mem_pool_free` walks the chain to find its place on the ring, which is right because the two agree.
-/

namespace CcRpc

open Chain

variable (w : WordSize) (size : UInt16) (head fl n : Nat)

/-- The payload has room for the list head at `fl` and for `n` nodes from `head` on. -/
structure PoolRoom (m : PoolMem) : Prop where
  lo_le : m.lo ≤ fl
  fl_le : fl + 2 * w.bytes ≤ head
  le_hi : head + apartSize w size * n ≤ m.hi
  valid : ∀ a, m.links.valid a = decide (m.lo ≤ a ∧ a + 2 * w.bytes ≤ m.hi)

/-- Of the nodes `is` those that are not used, as nodes of the ring. -/
def unusedNodes (used : Nat → Nat) (is : List Nat) : List Nat :=
  (is.filter fun i => used (poolNode w head size i) = 0).map
    fun i => freeNode w (poolNode w head size i)

/-- `k` nodes are chained, and the unused ones are on the ring in the same order. -/
structure PoolCarved (k : Nat) (m : PoolMem) : Prop where
  ring : m.links.Holds fl (unusedNodes w size head m.used (List.range k))
  chain : ∀ i, i + 1 < k → m.next (poolNode w head size i) = poolNode w head size (i + 1)

/-- All nodes are chained, and the last one ends the chain. -/
structure PoolShape (m : PoolMem) : Prop where
  room : PoolRoom w size head fl n m
  carved : PoolCarved w size head fl n m
  last : ∀ i, i + 1 = n → m.next (poolNode w head size i) = 0

variable {w size head fl n} {m m' : PoolMem} {i j k : Nat}

theorem apartSize_pos (w : WordSize) (size : UInt16) : 4 * w.bytes ≤ apartSize w size := by
  have hle := (apartSize_bounds w size).1
  rw [nodeStructSize_eq] at hle
  omega

theorem poolNode_succ : poolNode w head size (i + 1) = poolNode w head size i + apartSize w size := by
  rw [poolNode, poolNode, Nat.mul_succ, Nat.add_assoc]

theorem poolNode_le (h : i < n) :
    poolNode w head size i + apartSize w size ≤ head + apartSize w size * n := by
  rw [← poolNode_succ]
  exact Nat.add_le_add_left (Nat.mul_le_mul_left _ h) head

theorem poolNode_lt (h : i < j) :
    poolNode w head size i + apartSize w size ≤ poolNode w head size j :=
  poolNode_le h

theorem poolNode_inj : poolNode w head size i = poolNode w head size j ↔ i = j := by
  have hpos := apartSize_pos w size
  have hbytes := w.bytes_eq
  constructor
  · intro heq
    by_contra hne
    rcases Nat.lt_or_gt_of_ne hne with hlt | hlt
    · have hle : poolNode w head size i + apartSize w size ≤ poolNode w head size j :=
        poolNode_lt hlt
      omega
    · have hle : poolNode w head size j + apartSize w size ≤ poolNode w head size i :=
        poolNode_lt hlt
      omega
  · intro heq
    rw [heq]

theorem freeNode_inj {a c : Nat} : freeNode w a = freeNode w c ↔ a = c := by
  simp [freeNode]

theorem poolNodeOf_freeNode (a : Nat) : poolNodeOf w (freeNode w a) = a := Nat.add_sub_cancel a _

theorem PoolRoom.fl_lt (hR : PoolRoom w size head fl n m) (i : Nat) :
    fl < freeNode w (poolNode w head size i) := by
  have hfl := hR.fl_le
  have hbytes := w.bytes_eq
  rw [freeNode, poolNode]
  omega

theorem PoolRoom.node_pos (hR : PoolRoom w size head fl n m) (i : Nat) :
    poolNode w head size i ≠ 0 := by
  have hfl := hR.fl_le
  have hbytes := w.bytes_eq
  rw [poolNode]
  omega

theorem PoolRoom.congr (hR : PoolRoom w size head fl n m) (hlo : m'.lo = m.lo) (hhi : m'.hi = m.hi)
    (hvalid : m'.links.valid = m.links.valid) : PoolRoom w size head fl n m' := by
  refine ⟨hlo ▸ hR.lo_le, hR.fl_le, hhi ▸ hR.le_hi, fun a => ?_⟩
  rw [hvalid, hlo, hhi, hR.valid a]

theorem PoolRoom.has (hR : PoolRoom w size head fl n m) (hi : i < n) :
    m.Has w (poolNode w head size i) := by
  have hle : poolNode w head size i + apartSize w size ≤ _ := poolNode_le hi
  have hpos := apartSize_pos w size
  have hlo := hR.lo_le
  have hfl := hR.fl_le
  have hhi := hR.le_hi
  have hge : head ≤ poolNode w head size i := Nat.le_add_right ..
  constructor
  · omega
  · rw [sizeofPoolNode]
    omega

theorem PoolRoom.valid_node (hR : PoolRoom w size head fl n m) (hi : i < n) :
    m.links.valid (freeNode w (poolNode w head size i)) = true := by
  obtain ⟨hlo, hhi⟩ := hR.has hi
  rw [sizeofPoolNode] at hhi
  rw [hR.valid, freeNode]
  apply decide_eq_true
  omega

theorem PoolRoom.valid_list (hR : PoolRoom w size head fl n m) : m.links.valid fl = true := by
  have hlo := hR.lo_le
  have hfl := hR.fl_le
  have hhi := hR.le_hi
  rw [hR.valid]
  apply decide_eq_true
  omega

theorem PoolRoom.setUsed (hR : PoolRoom w size head fl n m) (hi : i < n) (v : Nat) :
    m.setUsed w (poolNode w head size i) v =
      some { m with used := Function.update m.used (poolNode w head size i) v } :=
  if_pos (hR.has hi)

theorem PoolRoom.setNext (hR : PoolRoom w size head fl n m) (hi : i < n) (v : Nat) :
    m.setNext w (poolNode w head size i) v =
      some { m with next := Function.update m.next (poolNode w head size i) v } :=
  if_pos (hR.has hi)

theorem PoolRoom.getUsed (hR : PoolRoom w size head fl n m) (hi : i < n) :
    m.getUsed w (poolNode w head size i) = some (m.used (poolNode w head size i)) :=
  if_pos (hR.has hi)

theorem PoolRoom.getNext (hR : PoolRoom w size head fl n m) (hi : i < n) :
    m.getNext w (poolNode w head size i) = some (m.next (poolNode w head size i)) :=
  if_pos (hR.has hi)

section Unused

variable {is js : List Nat} {used : Nat → Nat}

theorem unusedNodes_append :
    unusedNodes w size head used (is ++ js) =
      unusedNodes w size head used is ++ unusedNodes w size head used js := by
  simp [unusedNodes]

theorem unusedNodes_cons (hfree : used (poolNode w head size i) = 0) :
    unusedNodes w size head used (i :: is) =
      freeNode w (poolNode w head size i) :: unusedNodes w size head used is := by
  simp [unusedNodes, hfree]

theorem unusedNodes_cons_used (hused : used (poolNode w head size i) ≠ 0) :
    unusedNodes w size head used (i :: is) = unusedNodes w size head used is := by
  simp [unusedNodes, hused]

theorem unusedNodes_eq_nil (hall : ∀ i ∈ is, used (poolNode w head size i) ≠ 0) :
    unusedNodes w size head used is = [] := by
  rw [unusedNodes, List.filter_eq_nil_iff.mpr, List.map_nil]
  intro i hi
  simpa using hall i hi

theorem mem_unusedNodes {a : Nat} :
    a ∈ unusedNodes w size head used is ↔
      ∃ i ∈ is, used (poolNode w head size i) = 0 ∧ a = freeNode w (poolNode w head size i) := by
  simp only [unusedNodes, List.mem_map, List.mem_filter, decide_eq_true_eq]
  constructor
  · rintro ⟨i, ⟨hi, hfree⟩, rfl⟩
    exact ⟨i, hi, hfree, rfl⟩
  · rintro ⟨i, hi, hfree, rfl⟩
    exact ⟨i, ⟨hi, hfree⟩, rfl⟩

theorem unusedNodes_update {v : Nat} (hi : i ∉ is) :
    unusedNodes w size head (Function.update used (poolNode w head size i) v) is =
      unusedNodes w size head used is := by
  have hfilter : is.filter (fun j =>
      Function.update used (poolNode w head size i) v (poolNode w head size j) = 0) =
      is.filter fun j => used (poolNode w head size j) = 0 := by
    apply List.filter_congr
    intro j hj
    have hne : poolNode w head size j ≠ poolNode w head size i := fun heq =>
      hi (poolNode_inj.mp heq ▸ hj)
    rw [Function.update_of_ne hne]
  rw [unusedNodes, unusedNodes, hfilter]

end Unused

end CcRpc
