import CcRpc.HeapBlocks

/-!
# The heap computes the block operations

The free list in memory links the free blocks of a layout in order, between the head and the
sentinel. Each function of the heap takes a heap that stands for a layout to one that stands for
the layout after the operation.
-/

namespace CcRpc

open Chain Tiling

variable (A : Arena)

/-- The heap in memory stands for a layout. -/
structure Represents (h : Heap) (bs : List Block) : Prop where
  layout : Layout A bs
  tail : h.tail = A.tailAddr
  sizes : ∀ b ∈ bs, h.blockSize A b.addr = b.size
  chain : Linked h.next A.head (freeAddrs bs) A.tailAddr
  tail_next : h.next A.tailAddr = 0
  tail_size : h.blockSize A A.tailAddr = 0
  head_size : h.blockSize A A.head = 0
  all_size : h.allSize = freeSize bs

variable {A} {h : Heap}

theorem node_head (bs : List Block) : A.Node bs A.head := Or.inl rfl
theorem node_tail (bs : List Block) : A.Node bs A.tailAddr := Or.inr (Or.inl rfl)
theorem node_block {bs : List Block} {b : Block} (hb : b ∈ bs) : A.Node bs b.addr :=
  Or.inr (Or.inr ⟨b, hb, rfl⟩)

theorem node_free {bs : List Block} {x : Nat} (hx : x ∈ A.head :: freeAddrs bs) : A.Node bs x := by
  rcases List.mem_cons.mp hx with rfl | hx
  · exact node_head bs
  · obtain ⟨b, hb, -, rfl⟩ := mem_freeAddrs.mp hx
    exact node_block hb

/-- The block `heap_init` makes of the whole region. -/
def Arena.firstBlock (A : Arena) : Block := ⟨A.start, A.regionEnd - A.start, true⟩

theorem layout_firstBlock (A : Arena) : Layout A [A.firstBlock] := by
  have hs := start_bounds A
  have ht := tailAddr_bounds A
  have he := regionEnd_bounds A
  have hw := headerSize_pos A.word
  simp only [configHeap] at ht he
  refine ⟨⟨rfl, ?_⟩, ?_, ?_, ?_⟩
  · change A.start + (A.regionEnd - A.start) = A.regionEnd
    omega
  all_goals simp only [List.mem_singleton, forall_eq, Arena.firstBlock]
  all_goals omega

/-- The stores of `heap_init`. -/
private def initStores (A : Arena) (h : Heap) : Heap :=
  (((((h.setNext A.head A.start).setBlockSize A A.head 0).setBlockSize A A.tailAddr 0).setNext
    A.tailAddr 0).setNext A.start A.tailAddr).setBlockSize A A.start (A.regionEnd - A.start)

private theorem heapInit_eq (hall : h.allSize = configHeap) :
    heapInit A h = ⟨(initStores A h).mem, A.tailAddr, A.regionEnd - A.start⟩ := by
  have hs := start_bounds A
  have hw := headerSize_pos A.word
  have hfit := A.allHeap_fits
  unfold heapInit
  simp only [and_alignmentByte, hall]
  by_cases hal : A.allHeap % 8 = 0
  · have hstart : A.start = A.allHeap := by omega
    have hraw : (A.start + configHeap - A.word.heapStructSize) % 8 = 0 := by
      simp only [configHeap] at hfit ⊢
      omega
    have htail : A.start + configHeap - A.word.heapStructSize = A.tailAddr := by
      rw [Arena.tailAddr, clearAlignment_eq, hstart]
      rw [hstart] at hraw
      omega
    have hend : A.regionEnd - A.start = configHeap := by
      rw [Arena.regionEnd, if_pos hal]
      omega
    rw [htail] at hraw
    simp only [hal, ne_eq, not_true_eq_false, if_false, hraw, htail, hend, initStores]
  · have hsub : A.word.sub configHeap (A.start - A.allHeap) = configHeap - (A.start - A.allHeap) :=
      WordSize.sub_of_le (by simp only [configHeap]; omega) (by omega)
    have hraw : A.start + (configHeap - (A.start - A.allHeap)) - A.word.heapStructSize =
        A.allHeap + configHeap - A.word.heapStructSize := by
      simp only [configHeap]
      omega
    have hmis : (A.allHeap + configHeap - A.word.heapStructSize) % 8 ≠ 0 := by
      simp only [configHeap]
      omega
    have hend : A.regionEnd = A.tailAddr := by rw [Arena.regionEnd, if_neg hal]
    simp only [ne_eq, hal, not_false_eq_true, if_true, hsub, hraw, hmis, hend, Arena.tailAddr,
      initStores]

theorem heapInit_represents (hall : h.allSize = configHeap) :
    Represents A (heapInit A h) [A.firstBlock] := by
  have hL := layout_firstBlock A
  have hS := hL.separate
  have hfirst : A.Node [A.firstBlock] A.start := node_block (b := A.firstBlock) (by simp)
  have hhead := node_head (A := A) [A.firstBlock]
  have htail := node_tail (A := A) [A.firstBlock]
  have hne := hL.nodup
  have hstart := hL.below A.firstBlock (by simp)
  have hpos := headerSize_pos A.word
  have hht : A.head ≠ A.tailAddr := by
    have ht := tailAddr_bounds A
    have hs := start_bounds A
    have := A.head_apart
    simp only [configHeap] at ht this
    omega
  have hhs : A.head ≠ A.start := by
    intro heq
    refine (List.nodup_cons.mp hne).1 ?_
    rw [heq]
    exact List.mem_singleton.mpr rfl
  have hts : A.tailAddr ≠ A.start := by
    have : A.start + A.word.heapStructSize ≤ A.tailAddr := hstart
    omega
  have hnext_head : (initStores A h).next A.head = A.start := by
    rw [initStores, Heap.next_setBlockSize hS hfirst hhead, Heap.next_setNext, if_neg hhs,
      Heap.next_setNext, if_neg hht, Heap.next_setBlockSize hS htail hhead,
      Heap.next_setBlockSize hS hhead hhead, Heap.next_setNext, if_pos rfl]
  have hnext_first : (initStores A h).next A.start = A.tailAddr := by
    rw [initStores, Heap.next_setBlockSize hS hfirst hfirst, Heap.next_setNext, if_pos rfl]
  have hnext_tail : (initStores A h).next A.tailAddr = 0 := by
    rw [initStores, Heap.next_setBlockSize hS hfirst htail, Heap.next_setNext, if_neg hts,
      Heap.next_setNext, if_pos rfl]
  have hsize_first : (initStores A h).blockSize A A.start = A.regionEnd - A.start := by
    rw [initStores, Heap.blockSize_setBlockSize, if_pos rfl]
  have hsize_tail : (initStores A h).blockSize A A.tailAddr = 0 := by
    rw [initStores, Heap.blockSize_setBlockSize, if_neg hts, Heap.blockSize_setNext hS hfirst htail,
      Heap.blockSize_setNext hS htail htail, Heap.blockSize_setBlockSize, if_pos rfl]
  have hsize_head : (initStores A h).blockSize A A.head = 0 := by
    rw [initStores, Heap.blockSize_setBlockSize, if_neg hhs, Heap.blockSize_setNext hS hfirst hhead,
      Heap.blockSize_setNext hS htail hhead, Heap.blockSize_setBlockSize, if_neg hht,
      Heap.blockSize_setBlockSize, if_pos rfl]
  have hnext : ∀ x, (heapInit A h).next x = (initStores A h).next x := by
    intro x
    rw [heapInit_eq hall, Heap.next_mk]
  have hsize : ∀ x, (heapInit A h).blockSize A x = (initStores A h).blockSize A x := by
    intro x
    rw [heapInit_eq hall, Heap.blockSize_mk]
  refine ⟨hL, ?_, ?_, ⟨(hnext _).trans hnext_head, (hnext _).trans hnext_first⟩,
    (hnext _).trans hnext_tail, (hsize _).trans hsize_tail, (hsize _).trans hsize_head, ?_⟩
  · rw [heapInit_eq hall]
  · intro b hb
    rw [List.mem_singleton.mp hb, hsize]
    exact hsize_first
  · rw [heapInit_eq hall]
    simp [freeSize, Arena.firstBlock]

theorem findFit_found {size fuel prev u z : Nat} {ns qs : List Nat}
    (hchain : Linked h.next prev (ns ++ u :: qs) z) (hsmall : ∀ x ∈ ns, h.blockSize A x < size)
    (hu : size ≤ h.blockSize A u) (hpos : ∀ x ∈ ns ++ u :: qs, x ≠ 0) (hfuel : ns.length < fuel) :
    findFit A h size fuel prev (h.next prev) = some (some (ns.getLastD prev, u)) := by
  induction ns generalizing prev fuel with
  | nil =>
    obtain ⟨fuel, rfl⟩ : ∃ k, fuel = k + 1 := ⟨fuel - 1, by omega⟩
    rw [hchain.1, findFit, if_neg (Nat.not_lt.mpr hu)]
    rfl
  | cons n ns ih =>
    obtain ⟨fuel, rfl⟩ : ∃ k, fuel = k + 1 := ⟨fuel - 1, by omega⟩
    have hnext : h.next n = (ns ++ u :: qs).headD z := hchain.2.first
    have hne : h.next n ≠ 0 := by
      rw [hnext]
      cases ns with
      | nil => exact hpos u (by simp)
      | cons m ms => exact hpos m (by simp)
    have hlen : ns.length < fuel := Nat.lt_of_succ_lt_succ hfuel
    have hrest := ih hchain.2 (fun x hx => hsmall x (by simp [hx]))
      (fun x hx => hpos x (by simp only [List.cons_append]; exact List.mem_cons_of_mem _ hx)) hlen
    rw [hchain.1, findFit, if_pos (hsmall n (by simp)), if_neg hne, hrest, List.getLastD_cons]

theorem findFit_none {size fuel prev z : Nat} {ns : List Nat} (hchain : Linked h.next prev ns z)
    (hsmall : ∀ x ∈ ns, h.blockSize A x < size) (hz : h.blockSize A z < size)
    (hend : h.next z = 0) (hpos : ∀ x ∈ ns, x ≠ 0) (hzpos : z ≠ 0) (hfuel : ns.length < fuel) :
    findFit A h size fuel prev (h.next prev) = some none := by
  induction ns generalizing prev fuel with
  | nil =>
    obtain ⟨fuel, rfl⟩ : ∃ k, fuel = k + 1 := ⟨fuel - 1, by omega⟩
    rw [show h.next prev = z from hchain, findFit, if_pos hz, if_pos hend]
  | cons n ns ih =>
    obtain ⟨fuel, rfl⟩ : ∃ k, fuel = k + 1 := ⟨fuel - 1, by omega⟩
    have hnext : h.next n = ns.headD z := hchain.2.first
    have hne : h.next n ≠ 0 := by
      rw [hnext]
      cases ns with
      | nil => exact hzpos
      | cons m ms => exact hpos m (by simp)
    have hlen : ns.length < fuel := Nat.lt_of_succ_lt_succ hfuel
    have hrest := ih hchain.2 (fun x hx => hsmall x (by simp [hx]))
      (fun x hx => hpos x (by simp [hx])) hlen
    rw [hchain.1, findFit, if_pos (hsmall n (by simp)), if_neg hne, hrest]

theorem Represents.free_size_lt {bs : List Block} (hR : Represents A h bs) {req : Nat}
    (hno : ∀ b ∈ bs, b.fits req = false) : ∀ x ∈ freeAddrs bs, h.blockSize A x < req := by
  intro x hx
  obtain ⟨b, hb, hfree, rfl⟩ := mem_freeAddrs.mp hx
  have hfit := hno b hb
  rw [hR.sizes b hb]
  simpa [Block.fits, hfree] using hfit

theorem Represents.free_ne_zero {bs : List Block} (hR : Represents A h bs) :
    ∀ x ∈ freeAddrs bs, x ≠ 0 := by
  intro x hx
  obtain ⟨b, hb, -, rfl⟩ := mem_freeAddrs.mp hx
  exact Nat.ne_of_gt (hR.layout.addr_pos hb)

theorem Represents.length_lt {bs : List Block} (hR : Represents A h bs) :
    (freeAddrs bs).length < configHeap := by
  have hlen : (freeAddrs bs).length ≤ bs.length := by
    unfold freeAddrs
    rw [List.length_map]
    exact List.length_filter_le _ _
  have := hR.layout.length_lt
  omega

theorem tailAddr_pos (A : Arena) : 0 < A.tailAddr := by
  have ht := tailAddr_bounds A
  have hw := headerSize_pos A.word
  simp only [configHeap] at ht
  omega

theorem Represents.findFit_none {bs : List Block} (hR : Represents A h bs) {req : Nat}
    (hreq : 0 < req) (hno : ∀ b ∈ bs, b.fits req = false) :
    findFit A h req configHeap A.head (h.next A.head) = some none := by
  refine CcRpc.findFit_none hR.chain (hR.free_size_lt hno) ?_ hR.tail_next hR.free_ne_zero
    (Nat.ne_of_gt (tailAddr_pos A)) hR.length_lt
  rw [hR.tail_size]
  exact hreq

/-- The search finds the first free block that fits. -/
theorem Represents.findFit_found {pre post : List Block} {b : Block}
    (hR : Represents A h (pre ++ b :: post)) {req : Nat} (hb : b.fits req = true)
    (hno : ∀ x ∈ pre, x.fits req = false) :
    findFit A h req configHeap A.head (h.next A.head) =
      some (some ((freeAddrs pre).getLastD A.head, b.addr)) := by
  have hfree : b.free = true ∧ req ≤ b.size := by simpa [Block.fits] using hb
  have hlist : freeAddrs (pre ++ b :: post) = freeAddrs pre ++ b.addr :: freeAddrs post := by
    rw [freeAddrs_append, freeAddrs_cons, if_pos hfree.1]
  have hchain := hR.chain
  have hne := hR.free_ne_zero
  have hlen := hR.length_lt
  rw [hlist] at hchain hne hlen
  refine CcRpc.findFit_found hchain ?_ ?_ hne ?_
  · intro x hx
    obtain ⟨c, hc, hcfree, rfl⟩ := mem_freeAddrs.mp hx
    have hfit := hno c hc
    rw [hR.sizes c (by simp [hc])]
    simpa [Block.fits, hcfree] using hfit
  · rw [hR.sizes b (by simp)]
    exact hfree.2
  · rw [List.length_append] at hlen
    omega

section TakeNode

variable {S : Nat → Prop} {prev use : Nat} (req : Nat)

private theorem takeNode_whole (hS : A.Separate S) (hprev : S prev) (huse : S use)
    (hsmall : ¬ A.word.minSize < A.word.sub (h.blockSize A use) req) :
    (∀ x, (takeNode A h req prev use).1.next x =
        if x = use then 0 else if x = prev then h.next use else h.next x) ∧
      (∀ x, S x → (takeNode A h req prev use).1.blockSize A x = h.blockSize A x) ∧
      (takeNode A h req prev use).1.tail = h.tail ∧
      (takeNode A h req prev use).1.allSize = A.word.sub h.allSize (h.blockSize A use) := by
  have hsize : ∀ x, S x → (h.setNext prev (h.next use)).blockSize A x = h.blockSize A x :=
    fun x hx => Heap.blockSize_setNext hS hprev hx
  unfold takeNode
  simp only [hsize use huse, if_neg hsmall]
  refine ⟨?_, ?_, rfl, rfl⟩
  · intro x
    rw [Heap.next_setNext, Heap.next_mk, Heap.next_setNext]
  · intro x hx
    rw [Heap.blockSize_setNext hS huse hx, Heap.blockSize_mk, hsize x hx]

/-- The stores that cut `use` in two. -/
private def splitStores (A : Arena) (h : Heap) (req prev use : Nat) : Heap :=
  ((((h.setNext prev (h.next use)).setBlockSize A (use + req)
    (A.word.sub (h.blockSize A use) req)).setBlockSize A use req).setNext (use + req)
    (h.next use)).setNext prev (use + req)

private theorem takeNode_eq_split (hS : A.Separate S) (hprev : S prev) (huse : S use)
    (hnew : S (use + req)) (hbig : A.word.minSize < A.word.sub (h.blockSize A use) req) :
    takeNode A h req prev use =
      (Heap.setNext ⟨(splitStores A h req prev use).mem, h.tail,
        A.word.sub h.allSize ((splitStores A h req prev use).blockSize A use)⟩ use 0,
        use + A.word.heapStructSize) := by
  have hsize : (h.setNext prev (h.next use)).blockSize A use = h.blockSize A use :=
    Heap.blockSize_setNext hS hprev huse
  have hnext : (((h.setNext prev (h.next use)).setBlockSize A (use + req)
      (A.word.sub (h.blockSize A use) req)).setBlockSize A use req).next prev = h.next use := by
    rw [Heap.next_setBlockSize hS huse hprev, Heap.next_setBlockSize hS hnew hprev,
      Heap.next_setNext, if_pos rfl]
  unfold takeNode
  simp only [hsize, if_pos hbig, hnext]
  rfl

private theorem takeNode_split (hS : A.Separate S) (hprev : S prev) (huse : S use)
    (hnew : S (use + req)) (hbig : A.word.minSize < A.word.sub (h.blockSize A use) req) :
    (∀ x, S x → (takeNode A h req prev use).1.next x =
        if x = use then 0 else if x = prev then use + req
          else if x = use + req then h.next use else h.next x) ∧
      (∀ x, S x → (takeNode A h req prev use).1.blockSize A x =
        if x = use then req else if x = use + req then A.word.sub (h.blockSize A use) req
          else h.blockSize A x) ∧
      (takeNode A h req prev use).1.tail = h.tail ∧
      (takeNode A h req prev use).1.allSize = A.word.sub h.allSize req := by
  have hnext : ∀ x, S x → (splitStores A h req prev use).next x =
      if x = prev then use + req else if x = use + req then h.next use else h.next x := by
    intro x hx
    rw [splitStores, Heap.next_setNext, Heap.next_setNext, Heap.next_setBlockSize hS huse hx,
      Heap.next_setBlockSize hS hnew hx, Heap.next_setNext]
    by_cases hxp : x = prev
    · rw [if_pos hxp, if_pos hxp]
    · rw [if_neg hxp, if_neg hxp, if_neg hxp]
  have hsize : ∀ x, S x → (splitStores A h req prev use).blockSize A x =
      if x = use then req else if x = use + req then A.word.sub (h.blockSize A use) req
        else h.blockSize A x := by
    intro x hx
    rw [splitStores, Heap.blockSize_setNext hS hprev hx, Heap.blockSize_setNext hS hnew hx,
      Heap.blockSize_setBlockSize, Heap.blockSize_setBlockSize, Heap.blockSize_setNext hS hprev hx]
  rw [takeNode_eq_split req hS hprev huse hnew hbig]
  refine ⟨?_, ?_, rfl, ?_⟩
  · intro x hx
    rw [Heap.next_setNext, Heap.next_mk, hnext x hx]
  · intro x hx
    rw [Heap.blockSize_setNext hS huse hx, Heap.blockSize_mk, hsize x hx]
  · rw [Heap.allSize_setNext, hsize use huse, if_pos rfl]

end TakeNode

section Carve

variable {pre post : List Block} {b : Block} {req : Nat}

private theorem prev_cases (pre : List Block) :
    (freeAddrs pre).getLastD A.head = A.head ∨
      ∃ x ∈ pre, x.addr = (freeAddrs pre).getLastD A.head := by
  rcases List.mem_cons.mp (getLastD_mem A.head (freeAddrs pre)) with hhead | hmem
  · exact Or.inl hhead
  · obtain ⟨x, hx, -, haddr⟩ := mem_freeAddrs.mp hmem
    exact Or.inr ⟨x, hx, haddr⟩

private theorem node_prev (pre rest : List Block) :
    A.Node (pre ++ rest) ((freeAddrs pre).getLastD A.head) := by
  rcases prev_cases (A := A) pre with hhead | ⟨x, hx, haddr⟩
  · exact Or.inl hhead
  · exact Or.inr (Or.inr ⟨x, List.mem_append_left _ hx, haddr⟩)

private theorem Represents.takeNode_whole (hR : Represents A h (pre ++ b :: post))
    (hfree : b.free = true) (hreq : req ≤ b.size) (hsmall : ¬ A.word.minSize < b.size - req) :
    Represents A (CcRpc.takeNode A h req ((freeAddrs pre).getLastD A.head) b.addr).1
      (pre ++ ⟨b.addr, b.size, false⟩ :: post) := by
  have hw := headerSize_pos A.word
  have hL := hR.layout
  have hb : b ∈ pre ++ b :: post := by simp
  have hbelow := hL.below b hb
  have hblt := hL.size_lt hb
  have haround := hL.tiles.around
  have hmark : Layout A (pre ++ ⟨b.addr, b.size, false⟩ :: post) := by
    simpa using Layout.mark (by simpa using hL : Layout A (pre ++ [b] ++ post)) false
  have hsub : A.word.sub (h.blockSize A b.addr) req = b.size - req := by
    rw [hR.sizes b hb, WordSize.sub_of_le hreq (by omega)]
  have hprevtail := hL.ne_tail ((prev_cases pre).imp id fun ⟨x, hx, hxa⟩ => ⟨x, by simp [hx], hxa⟩)
  obtain ⟨hnext, hsize, htail, hallSize⟩ := CcRpc.takeNode_whole req hL.separate
    (node_prev pre _) (node_block hb) (by rw [hsub]; exact hsmall)
  -- the free list before and after
  have hlist : freeAddrs (pre ++ b :: post) = freeAddrs pre ++ b.addr :: freeAddrs post := by
    rw [freeAddrs_append, freeAddrs_cons, if_pos hfree]
  have hlist' : freeAddrs (pre ++ ⟨b.addr, b.size, false⟩ :: post) =
      freeAddrs pre ++ freeAddrs post := by
    rw [freeAddrs_append, freeAddrs_cons, if_neg (by simp)]
  have hchain := hR.chain
  have hnodup := hL.nodup
  rw [hlist] at hchain hnodup
  obtain ⟨hbnot, hnodup'⟩ := List.nodup_cons.mp (List.nodup_middle.mp
    (show (A.head :: freeAddrs pre ++ b.addr :: freeAddrs post).Nodup from hnodup))
  have hprevb : (freeAddrs pre).getLastD A.head ≠ b.addr := by
    intro heq
    refine hbnot (List.mem_append_left _ ?_)
    rw [← heq]
    exact getLastD_mem _ _
  refine ⟨hmark, htail.trans hR.tail, ?_, ?_, ?_, ?_, ?_, ?_⟩
  · intro x hx
    simp only [List.mem_append, List.mem_cons] at hx
    rcases hx with hx | rfl | hx
    · rw [hsize _ (node_block (by simp [hx])), hR.sizes x (by simp [hx])]
    · rw [hsize _ (node_block hb), hR.sizes b hb]
    · rw [hsize _ (node_block (by simp [hx])), hR.sizes x (by simp [hx])]
  · rw [hlist']
    refine hchain.remove hnodup' ?_ ?_
    · rw [hnext, if_neg hprevb, if_pos rfl]
    · intro x hx hxprev
      have hxb : x ≠ b.addr := fun heq => hbnot (heq ▸ hx)
      rw [hnext, if_neg hxb, if_neg hxprev]
  · rw [hnext, if_neg (by omega), if_neg hprevtail.symm, hR.tail_next]
  · rw [hsize _ (node_tail _), hR.tail_size]
  · rw [hsize _ (node_head _), hR.head_size]
  · have hbefore : freeSize (pre ++ b :: post) = freeSize pre + (b.size + freeSize post) := by
      rw [freeSize_append, freeSize_cons, if_pos hfree]
    have hafter : freeSize (pre ++ ⟨b.addr, b.size, false⟩ :: post) =
        freeSize pre + (0 + freeSize post) := by
      rw [freeSize_append, freeSize_cons, if_neg (by simp)]
    have hlt := hL.freeSize_lt
    rw [hallSize, hR.all_size, hR.sizes b hb, hafter, WordSize.sub_of_le (by omega) hlt, hbefore]
    omega

private theorem Represents.takeNode_split (hR : Represents A h (pre ++ b :: post))
    (hfree : b.free = true) (hreq : req ≤ b.size) (hmod : req % 8 = 0)
    (hroom : A.word.heapStructSize ≤ req) (hbig : A.word.minSize < b.size - req) :
    Represents A (CcRpc.takeNode A h req ((freeAddrs pre).getLastD A.head) b.addr).1
      (pre ++ ⟨b.addr, req, false⟩ :: ⟨b.addr + req, b.size - req, true⟩ :: post) := by
  have hw := headerSize_pos A.word
  have hL := hR.layout
  have hb : b ∈ pre ++ b :: post := by simp
  have hblt := hL.size_lt hb
  have hcut : Layout A
      (pre ++ ⟨b.addr, req, false⟩ :: ⟨b.addr + req, b.size - req, true⟩ :: post) := by
    have hcarve := Layout.carve (by simpa using hL : Layout A (pre ++ [b] ++ post)) hreq hmod hroom
    rw [Block.carve, if_pos hbig] at hcarve
    simpa using hcarve
  have haround := hcut.tiles.around
  have hsub : A.word.sub (h.blockSize A b.addr) req = b.size - req := by
    rw [hR.sizes b hb, WordSize.sub_of_le hreq (by omega)]
  have hnode : A.Node (pre ++ ⟨b.addr, req, false⟩ :: ⟨b.addr + req, b.size - req, true⟩ :: post)
      b.addr := node_block (b := ⟨b.addr, req, false⟩) (by simp)
  have hnew : A.Node (pre ++ ⟨b.addr, req, false⟩ :: ⟨b.addr + req, b.size - req, true⟩ :: post)
      (b.addr + req) := node_block (b := ⟨b.addr + req, b.size - req, true⟩) (by simp)
  obtain ⟨hnext, hsize, htail, hallSize⟩ := CcRpc.takeNode_split (h := h) req hcut.separate
    (node_prev pre _) hnode hnew (by rw [hsub]; exact hbig)
  -- the free list before and after
  have hlist : freeAddrs (pre ++ b :: post) = freeAddrs pre ++ b.addr :: freeAddrs post := by
    rw [freeAddrs_append, freeAddrs_cons, if_pos hfree]
  have hlist' : freeAddrs (pre ++ ⟨b.addr, req, false⟩ :: ⟨b.addr + req, b.size - req, true⟩ :: post)
      = freeAddrs pre ++ (b.addr + req) :: freeAddrs post := by
    rw [freeAddrs_append, freeAddrs_cons, if_neg (by simp), freeAddrs_cons, if_pos rfl]
  have hchain := hR.chain
  have hnodup := hL.nodup
  have hnodupNew := hcut.nodup
  rw [hlist] at hchain hnodup
  rw [hlist'] at hnodupNew
  obtain ⟨hbnot, hnodup'⟩ := List.nodup_cons.mp (List.nodup_middle.mp
    (show (A.head :: freeAddrs pre ++ b.addr :: freeAddrs post).Nodup from hnodup))
  obtain ⟨hnewnot, -⟩ := List.nodup_cons.mp (List.nodup_middle.mp
    (show (A.head :: freeAddrs pre ++ (b.addr + req) :: freeAddrs post).Nodup from hnodupNew))
  have hprev := getLastD_mem A.head (freeAddrs pre)
  have hprevb : (freeAddrs pre).getLastD A.head ≠ b.addr :=
    fun heq => hbnot (List.mem_append_left _ (heq ▸ hprev))
  have hprevnew : (freeAddrs pre).getLastD A.head ≠ b.addr + req :=
    fun heq => hnewnot (List.mem_append_left _ (heq ▸ hprev))
  have hprevtail := hL.ne_tail ((prev_cases pre).imp id fun ⟨x, hx, hxa⟩ => ⟨x, by simp [hx], hxa⟩)
  have hbelow := hcut.below ⟨b.addr, req, false⟩ (by simp)
  have hbelow' := hcut.below ⟨b.addr + req, b.size - req, true⟩ (by simp)
  dsimp only at hbelow hbelow'
  have hkept : ∀ x ∈ pre ++ post,
      (CcRpc.takeNode A h req ((freeAddrs pre).getLastD A.head) b.addr).1.blockSize A x.addr =
        x.size := by
    intro x hx
    have hxold : x ∈ pre ++ b :: post := by
      simp only [List.mem_append, List.mem_cons] at hx ⊢
      tauto
    have hxroom := hL.room x hxold
    have hxne : x.addr ≠ b.addr ∧ x.addr ≠ b.addr + req := by
      rcases List.mem_append.mp hx with hx | hx
      · have := haround.1 x hx
        dsimp only at this
        omega
      · have := hL.tiles.around.2 x hx
        omega
    rw [hsize x.addr (node_block (by simp only [List.mem_append, List.mem_cons] at hx ⊢; tauto)),
      if_neg hxne.1, if_neg hxne.2, hR.sizes x hxold]
  have htailne : A.tailAddr ≠ b.addr ∧ A.tailAddr ≠ b.addr + req := by omega
  have hheadne : A.head ≠ b.addr ∧ A.head ≠ b.addr + req :=
    ⟨fun heq => hbnot (by simp [← heq]), fun heq => hnewnot (by simp [← heq])⟩
  refine ⟨hcut, htail.trans hR.tail, ?_, ?_, ?_, ?_, ?_, ?_⟩
  · intro x hx
    simp only [List.mem_append, List.mem_cons] at hx
    rcases hx with hx | rfl | rfl | hx
    · exact hkept x (by simp [hx])
    · rw [hsize _ hnode, if_pos rfl]
    · rw [hsize _ hnew, if_neg (by omega), if_pos rfl, hsub]
    · exact hkept x (by simp [hx])
  · rw [hlist']
    obtain ⟨hfront, hback⟩ := linked_append.mp hchain
    refine Linked.splice hfront hback.2 hnodup' ?_ ?_ ?_
    · rw [hnext _ hnew, if_neg (by omega), if_neg hprevnew.symm, if_pos rfl]
    · rw [hnext _ (node_prev pre _), if_neg hprevb, if_pos rfl]
    · intro x hx hxprev
      have hxb : x ≠ b.addr := fun heq => hbnot (heq ▸ hx)
      have hxnew : x ≠ b.addr + req := fun heq => hnewnot (heq ▸ hx)
      have hxnode : A.Node
          (pre ++ ⟨b.addr, req, false⟩ :: ⟨b.addr + req, b.size - req, true⟩ :: post) x := by
        refine node_free ?_
        rw [hlist']
        simp only [List.mem_cons, List.mem_append] at hx ⊢
        tauto
      rw [hnext x hxnode, if_neg hxb, if_neg hxprev, if_neg hxnew]
  · rw [hnext _ (node_tail _), if_neg htailne.1, if_neg hprevtail.symm, if_neg htailne.2,
      hR.tail_next]
  · rw [hsize _ (node_tail _), if_neg htailne.1, if_neg htailne.2, hR.tail_size]
  · rw [hsize _ (node_head _), if_neg hheadne.1, if_neg hheadne.2, hR.head_size]
  · have hbefore : freeSize (pre ++ b :: post) = freeSize pre + (b.size + freeSize post) := by
      rw [freeSize_append, freeSize_cons, if_pos hfree]
    have hafter : freeSize
        (pre ++ ⟨b.addr, req, false⟩ :: ⟨b.addr + req, b.size - req, true⟩ :: post) =
          freeSize pre + (0 + (b.size - req + freeSize post)) := by
      rw [freeSize_append, freeSize_cons, if_neg (by simp), freeSize_cons, if_pos rfl]
    have hlt := hL.freeSize_lt
    rw [hallSize, hR.all_size, hafter, WordSize.sub_of_le (by omega) hlt, hbefore]
    omega

theorem Represents.takeNode (hR : Represents A h (pre ++ b :: post)) (hfree : b.free = true)
    (hreq : req ≤ b.size) (hmod : req % 8 = 0) (hroom : A.word.heapStructSize ≤ req) :
    Represents A (CcRpc.takeNode A h req ((freeAddrs pre).getLastD A.head) b.addr).1
      (pre ++ b.carve A.word.minSize req ++ post) := by
  unfold Block.carve
  split
  · next hbig => simpa using hR.takeNode_split hfree hreq hmod hroom hbig
  · next hsmall => simpa using hR.takeNode_whole hfree hreq hsmall

end Carve

end CcRpc
