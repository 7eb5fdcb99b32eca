import CcRpc.HeapRequests

/-!
# The figures of the heap (`heap_get_stats`)

A walk of the free list adds up its blocks. In a state that calls of the heap lead to the walk ends, the
sum is the size the heap keeps count of, and the largest block tells which requests will be refused.
-/

namespace CcRpc

open Chain

/-- `struct heap_stats`. -/
structure HeapStats where
  remainSize : Nat
  freeSizeIter : Nat
  maxFreeBlock : Nat
  freeBlocks : Nat

/-- The body of the loop of `heap_get_stats`, for a node of `size` bytes. -/
def HeapStats.count (w : WordSize) (st : HeapStats) (size : Nat) : HeapStats where
  remainSize := st.remainSize
  freeSizeIter := w.sizeT (st.freeSizeIter + size)
  maxFreeBlock := if size > st.maxFreeBlock then size else st.maxFreeBlock
  freeBlocks := w.sizeT (st.freeBlocks + 1)

/-- The loop; `none` when `fuel` iterations do not end it. -/
def statsLoop (A : Arena) (h : Heap) : Nat → Nat → HeapStats → Option HeapStats
  | 0, _, _ => none
  | fuel + 1, node, st =>
    if node = 0 then some st else statsLoop A h fuel (h.next node) (st.count A.word (h.blockSize A node))

/-- `heap_get_stats`, without what it prints. -/
def heapGetStats (A : Arena) (h : Heap) : Option HeapStats :=
  statsLoop A h configHeap (h.next A.head) ⟨h.allSize, 0, 0, 0⟩

variable {A : Arena} {s : HeapSys} {bs : List Block}

theorem statsLoop_eq {h : Heap} {a fuel : Nat} {ns : List Nat} (hchain : Linked h.next a ns 0)
    (hpos : ∀ x ∈ ns, x ≠ 0) (hfuel : ns.length < fuel) (st : HeapStats) :
    statsLoop A h fuel (h.next a) st = some ((ns.map (h.blockSize A)).foldl (HeapStats.count A.word) st) := by
  induction ns generalizing a fuel st with
  | nil =>
    obtain ⟨fuel, rfl⟩ : ∃ k, fuel = k + 1 := ⟨fuel - 1, by omega⟩
    rw [statsLoop, if_pos (show h.next a = 0 from hchain)]
    rfl
  | cons n ns ih =>
    obtain ⟨fuel, rfl⟩ : ∃ k, fuel = k + 1 := ⟨fuel - 1, by omega⟩
    have hlen : ns.length < fuel := Nat.lt_of_succ_lt_succ hfuel
    rw [statsLoop, hchain.1, if_neg (hpos n (by simp)), ih hchain.2 (fun x hx => hpos x (by simp [hx])) hlen]
    rfl

theorem foldl_count {w : WordSize} {sizes : List Nat} {st : HeapStats}
    (hsum : st.freeSizeIter + sizes.sum < 2 ^ w.bits) (hlen : st.freeBlocks + sizes.length < 2 ^ w.bits) :
    (sizes.foldl (HeapStats.count w) st).remainSize = st.remainSize ∧
      (sizes.foldl (HeapStats.count w) st).freeSizeIter = st.freeSizeIter + sizes.sum ∧
      (sizes.foldl (HeapStats.count w) st).freeBlocks = st.freeBlocks + sizes.length ∧
      ∀ k, (sizes.foldl (HeapStats.count w) st).maxFreeBlock < k ↔
        st.maxFreeBlock < k ∧ ∀ x ∈ sizes, x < k := by
  induction sizes generalizing st with
  | nil => simp
  | cons x xs ih =>
    simp only [List.sum_cons, List.length_cons] at hsum hlen
    have hcount : (st.count w x).freeBlocks = st.freeBlocks + 1 := WordSize.sizeT_of_lt (by omega)
    have hsize : (st.count w x).freeSizeIter = st.freeSizeIter + x := WordSize.sizeT_of_lt (by omega)
    have hrest : (st.count w x).freeSizeIter + xs.sum < 2 ^ w.bits := by omega
    obtain ⟨hremain, hiter, hblocks, hmax⟩ := ih hrest (by omega)
    refine ⟨hremain, ?_, ?_, fun k => ?_⟩
    · rw [List.foldl_cons, hiter, hsize, List.sum_cons]
      omega
    · rw [List.foldl_cons, hblocks, hcount, List.length_cons]
      omega
    · rw [List.foldl_cons, hmax]
      have hlarger : (st.count w x).maxFreeBlock < k ↔ st.maxFreeBlock < k ∧ x < k := by
        unfold HeapStats.count
        dsimp only
        split <;> omega
      rw [hlarger, List.forall_mem_cons, and_assoc]

/-- The figures of a heap that is set up: the count of its free bytes is what its free list has, and all
that the live blocks leave of the region; the blocks are those of the free list and the sentinel; a
request is refused if and only if the largest block is too small for it. -/
structure StatsExact (A : Arena) (s : HeapSys) (st : HeapStats) : Prop where
  remain : st.remainSize = st.freeSizeIter
  iter : st.freeSizeIter = ((freeList A s.heap).map Prod.snd).sum
  whole : st.freeSizeIter + (s.live.map fun p => s.heap.blockSize A (p - A.word.heapStructSize)).sum = A.region.2
  blocks : st.freeBlocks = (freeList A s.heap).length + 1
  refuses : ∀ n, Unwrapped A n → ∃ h' ptr, realHeapMalloc A s.heap n = some (h', ptr) ∧
    (ptr = 0 ↔ st.maxFreeBlock < roundedRequest A n)

theorem sum_partition (bs : List Block) :
    freeSize bs + ((bs.filter (!·.free)).map (·.size)).sum = (bs.map Block.size).sum := by
  induction bs with
  | nil => rfl
  | cons b bs ih =>
    rw [freeSize_cons, List.map_cons, List.sum_cons, ← ih]
    cases hb : b.free <;> simp [hb] <;> omega

/-- What the walk counts: the free blocks and the sentinel. -/
def countedSizes (bs : List Block) : List Nat := (bs.filter Block.free).map Block.size ++ [0]

theorem sum_countedSizes (bs : List Block) : (countedSizes bs).sum = freeSize bs := by
  rw [countedSizes, List.sum_append, List.sum_singleton, Nat.add_zero]
  rfl

theorem HeapInv.live_sizes (hI : HeapInv A s bs) (hready : readyHeap A s.heap = s.heap) :
    (s.live.map fun p => s.heap.blockSize A (p - A.word.heapStructSize)).sum =
      ((bs.filter (!·.free)).map (·.size)).sum := by
  have hR := hI.heap
  rw [hready] at hR
  have hperm := hI.live.map fun p => s.heap.blockSize A (p - A.word.heapStructSize)
  rw [hperm.sum_eq, usedAddrs, List.map_map, List.map_map]
  congr 1
  apply List.map_congr_left
  intro b hb
  have hmem := (List.mem_filter.mp hb).1
  simp only [Function.comp_apply, Nat.add_sub_cancel]
  exact hR.sizes b hmem

theorem HeapApart.stats (hI : HeapApart A s bs) (hset : s.heap.tail ≠ 0) :
    ∃ st, heapGetStats A s.heap = some st ∧ StatsExact A s st := by
  have hready : readyHeap A s.heap = s.heap := if_neg hset
  have hR := hI.inv.heap
  rw [hready] at hR
  have hlen := hR.layout.length_lt
  have hfits := A.allHeap_fits
  have hpos : ∀ x ∈ freeAddrs bs ++ [A.tailAddr], x ≠ 0 := by
    intro x hx
    rcases List.mem_append.mp hx with hfree | htail
    · obtain ⟨b, hb, -, rfl⟩ := mem_freeAddrs.mp hfree
      have hbpos := hR.layout.addr_pos hb
      omega
    · rw [List.mem_singleton.mp htail]
      have htpos := tailAddr_pos A
      omega
  have hcount : (freeAddrs bs).length ≤ bs.length := by
    rw [freeAddrs, List.length_map]
    exact List.length_filter_le _ _
  have hfuel : (freeAddrs bs ++ [A.tailAddr]).length < configHeap := by
    simp only [List.length_append, List.length_singleton]
    omega
  have hsizes : (freeAddrs bs ++ [A.tailAddr]).map (s.heap.blockSize A) =
      countedSizes bs := by
    rw [List.map_append, List.map_singleton, hR.tail_size, freeAddrs, List.map_map, countedSizes]
    congr 1
    apply List.map_congr_left
    intro b hb
    exact hR.sizes b (List.mem_filter.mp hb).1
  have hsum := sum_countedSizes bs
  have hlist : freeList A s.heap = (bs.filter (·.free)).map fun b => (b.addr, b.size) := hR.freeList_eq
  have hlengths : (countedSizes bs).length = (freeList A s.heap).length + 1 := by
    rw [hlist]
    simp [countedSizes]
  have hfree := hR.layout.freeSize_lt
  have hnodes : (countedSizes bs).length < 2 ^ A.word.bits := by
    rw [hlengths, hlist, List.length_map]
    have hle : (bs.filter (·.free)).length ≤ bs.length := List.length_filter_le _ _
    simp only [configHeap] at hlen hfits
    omega
  obtain ⟨hremain, hiter, hblocks, hmax⟩ := @foldl_count A.word (countedSizes bs) ⟨s.heap.allSize, 0, 0, 0⟩
    (by simpa [hsum] using hfree) (by simpa using hnodes)
  have hwalk := @statsLoop_eq A s.heap A.head configHeap _ hR.chain_null hpos hfuel ⟨s.heap.allSize, 0, 0, 0⟩
  rw [hsizes] at hwalk
  refine ⟨_, hwalk, ?_, ?_, ?_, ?_, ?_⟩
  · rw [hremain, hiter, hsum, hR.all_size, Nat.zero_add]
  · rw [hiter, hsum, hlist, List.map_map, Nat.zero_add]
    rfl
  · rw [hiter, hsum, Nat.zero_add, hI.inv.live_sizes hready, sum_partition]
    have htiles := hR.layout.tiles.sum
    rw [region_eq]
    dsimp only
    omega
  · rw [hblocks, hlengths, Nat.zero_add]
  · intro n hn
    obtain ⟨h', ptr, hmalloc, hnull, -⟩ := hI.inv.malloc_spec hn
    refine ⟨h', ptr, hmalloc, hnull.trans ?_⟩
    rw [hmax, hready, hR.freeNodes_eq]
    have hreq := (roundedRequest_eq A hn).1
    have hw := headerSize_pos A.word
    simp only [countedSizes, List.mem_append, List.mem_map, List.mem_filter, List.mem_singleton]
    constructor
    · intro hall
      refine ⟨by omega, ?_⟩
      rintro x (⟨b, ⟨hb, hbfree⟩, rfl⟩ | rfl)
      · rw [← hR.sizes b hb]
        exact hall _ (mem_freeAddrs.mpr ⟨b, hb, hbfree, rfl⟩)
      · omega
    · rintro ⟨-, hall⟩ a ha
      obtain ⟨b, hb, hbfree, rfl⟩ := mem_freeAddrs.mp ha
      rw [hR.sizes b hb]
      exact hall _ (.inl ⟨b, ⟨hb, hbfree⟩, rfl⟩)

/-- The heap is set up by the first call. -/
theorem HeapInv.tail_step (hI : HeapInv A s bs) {s' : HeapSys} {op : HeapOp}
    (hop : ∀ n, op = .malloc n → HeaderFits A n) (hstep : heapStep A s op = some s') : s'.heap.tail ≠ 0 := by
  have hpos := tailAddr_pos A
  cases op with
  | malloc n =>
    rcases hI.malloc_cases (hop n rfl) with ⟨-, -, hs, -⟩ | ⟨pre, b, post, h', -, -, -, -, hs, hI'⟩
    · rw [hs] at hstep
      cases hstep
      have htail := hI.heap.tail
      dsimp only
      omega
    · rw [hs] at hstep
      cases hstep
      exact hI'.tail_ne (List.cons_ne_nil _ _)
  | free ptr =>
    by_cases hptr : ptr ∈ s.live
    · have hR := hI.heap
      rw [hI.readyHeap_of_live hptr] at hR
      obtain ⟨a, ha, rfl⟩ := List.mem_map.mp (hI.live.mem_iff.mp hptr)
      obtain ⟨b, hb, hused, rfl⟩ := mem_usedAddrs.mp ha
      obtain ⟨pre, post, rfl⟩ := List.append_of_mem hb
      obtain ⟨h', hfree, hR'⟩ := hR.free hused
      rw [heapStep, if_pos hptr, hfree] at hstep
      cases hstep
      have htail := hR'.tail
      dsimp only
      omega
    · rw [heapStep, if_neg hptr] at hstep
      cases hstep

/-- The figures are exact in every state of a run whose requests have room for a header, from the first
call on. Before it they are those of the static initial value, which has no free list yet. -/
theorem heap_stats_exact (A : Arena) {ops : List HeapOp} (hops : ∀ n, .malloc n ∈ ops → HeaderFits A n)
    (hrun : Runs.run (heapStep A) HeapSys.initial ops = some s) :
    (ops = [] ∧ ∃ st, heapGetStats A s.heap = some st ∧ st.remainSize = configHeap ∧ st.freeBlocks = 0) ∨
      ∃ st, heapGetStats A s.heap = some st ∧ StatsExact A s st := by
  rcases List.eq_nil_or_concat ops with rfl | ⟨before, op, rfl⟩
  · cases hrun
    exact .inl ⟨rfl, _, rfl, rfl, rfl⟩
  · right
    rw [List.concat_eq_append] at hops hrun
    obtain ⟨bs, hI⟩ := heapApart_run hops hrun
    obtain ⟨m, hbefore, hlast⟩ := Runs.run_append.mp hrun
    obtain ⟨bs₀, hI₀⟩ := heapApart_run (fun n hn => hops n (List.mem_append_left _ hn)) hbefore
    obtain ⟨s', hstep, hnil⟩ := Runs.run_cons.mp hlast
    cases hnil
    apply hI.stats
    apply hI₀.inv.tail_step _ hstep
    rintro n rfl
    exact hops n (by simp)

/-- After one request. -/
theorem heap_stats_exact_small :
    ∃ s st, Runs.run (heapStep Arena.low) HeapSys.initial [.malloc 100] = some s ∧
      heapGetStats Arena.low s.heap = some st ∧ StatsExact Arena.low s st := by
  have hn : HeaderFits Arena.low 100 := by
    unfold HeaderFits
    decide
  have hrun : ∃ s, Runs.run (heapStep Arena.low) HeapSys.initial [.malloc 100] = some s := by
    rcases (heapInv_initial Arena.low).malloc_cases hn with
      ⟨-, -, hs, -⟩ | ⟨_, _, _, _, -, -, -, -, hs, -⟩
    · exact ⟨_, Runs.run_cons.mpr ⟨_, hs, rfl⟩⟩
    · exact ⟨_, Runs.run_cons.mpr ⟨_, hs, rfl⟩⟩
  obtain ⟨s, hs⟩ := hrun
  have hops : ∀ n, HeapOp.malloc n ∈ [HeapOp.malloc 100] → HeaderFits Arena.low n := by
    intro n hmem
    rw [List.mem_singleton] at hmem
    cases hmem
    exact hn
  rcases heap_stats_exact Arena.low hops hs with ⟨hnil, -⟩ | ⟨st, hst, hexact⟩
  · cases hnil
  · exact ⟨s, st, hs, hst, hexact⟩

end CcRpc
