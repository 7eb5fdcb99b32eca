import CcRpc.HeapRefine

/-!
# Releasing a block

`real_heap_free` links the block into the free list at its address and then joins it with the free
block behind it and with the one in front. Each of the three steps takes a heap that stands for a
layout to one that stands for the next layout.
-/

namespace CcRpc

open Chain Tiling

variable {A : Arena} {h : Heap} {pre post : List Block} {b q : Block}

/-- The search stops at the last node in front of `node`. -/
theorem findPlace_eq {node fuel a z : Nat} {ns qs : List Nat}
    (hchain : Linked h.next a (ns ++ qs) z) (hfront : ∀ x ∈ ns, x < node)
    (hback : ¬ qs.headD z < node) (hfuel : ns.length < fuel) :
    findPlace h node fuel a = some (ns.getLastD a) := by
  induction ns generalizing a fuel with
  | nil =>
    obtain ⟨fuel, rfl⟩ : ∃ k, fuel = k + 1 := ⟨fuel - 1, by omega⟩
    have hnext : h.next a = qs.headD z := hchain.first
    rw [findPlace, hnext, if_neg hback]
    rfl
  | cons n ns ih =>
    obtain ⟨fuel, rfl⟩ : ∃ k, fuel = k + 1 := ⟨fuel - 1, by omega⟩
    have hlen : ns.length < fuel := Nat.lt_of_succ_lt_succ hfuel
    have hrest := ih hchain.2 (fun x hx => hfront x (by simp [hx])) hlen
    rw [findPlace, hchain.1, if_pos (hfront n (by simp)), hrest, List.getLastD_cons]

private theorem freeAddrs_marked (pre post : List Block) (b : Block) :
    freeAddrs (pre ++ ⟨b.addr, b.size, true⟩ :: post) =
      freeAddrs pre ++ b.addr :: freeAddrs post := by
  rw [freeAddrs_append, freeAddrs_cons, if_pos rfl]

theorem Represents.link (hR : Represents A h (pre ++ b :: post)) (hused : b.free = false) :
    Represents A
      ((Heap.setNext ⟨h.mem, h.tail, A.word.sizeT (h.allSize + h.blockSize A b.addr)⟩ b.addr
        (h.next ((freeAddrs pre).getLastD A.head))).setNext ((freeAddrs pre).getLastD A.head) b.addr)
      (pre ++ ⟨b.addr, b.size, true⟩ :: post) := by
  have hL := hR.layout
  have hS := hL.separate
  have hb : b ∈ pre ++ b :: post := by simp
  have hmark : Layout A (pre ++ ⟨b.addr, b.size, true⟩ :: post) := by
    simpa using Layout.mark (by simpa using hL : Layout A (pre ++ [b] ++ post)) true
  have hlist : freeAddrs (pre ++ b :: post) = freeAddrs pre ++ freeAddrs post := by
    rw [freeAddrs_append, freeAddrs_cons, if_neg (by simp [hused])]
  have hchain := hR.chain
  have hnodup := hL.nodup
  have hnodup' := hmark.nodup
  rw [hlist] at hchain hnodup
  rw [freeAddrs_marked] at hnodup'
  obtain ⟨hbnot, -⟩ := List.nodup_cons.mp (List.nodup_middle.mp
    (show (A.head :: freeAddrs pre ++ b.addr :: freeAddrs post).Nodup from hnodup'))
  have hprev := getLastD_mem A.head (freeAddrs pre)
  have hbprev : b.addr ≠ (freeAddrs pre).getLastD A.head :=
    fun heq => hbnot (List.mem_append_left _ (heq ▸ hprev))
  have hprevnode : A.Node (pre ++ b :: post) ((freeAddrs pre).getLastD A.head) := by
    refine node_free ?_
    rw [hlist]
    rw [← List.cons_append]
    exact List.mem_append_left _ hprev
  have hprevtail : (freeAddrs pre).getLastD A.head ≠ A.tailAddr := by
    refine hL.ne_tail ?_
    rcases List.mem_cons.mp hprev with hhead | hmem
    · exact Or.inl hhead
    · obtain ⟨x, hx, -, hxa⟩ := mem_freeAddrs.mp hmem
      exact Or.inr ⟨x, by simp [hx], hxa⟩
  have hbtail := hL.ne_tail (Or.inr ⟨b, hb, rfl⟩)
  have hsize : ∀ x, A.Node (pre ++ b :: post) x → Heap.blockSize A
      ((Heap.setNext ⟨h.mem, h.tail, A.word.sizeT (h.allSize + h.blockSize A b.addr)⟩ b.addr
        (h.next ((freeAddrs pre).getLastD A.head))).setNext ((freeAddrs pre).getLastD A.head)
          b.addr) x = h.blockSize A x := by
    intro x hx
    rw [Heap.blockSize_setNext hS hprevnode hx, Heap.blockSize_setNext hS (node_block hb) hx,
      Heap.blockSize_mk]
  refine ⟨hmark, hR.tail, ?_, ?_, ?_, ?_, ?_, ?_⟩
  · intro x hx
    simp only [List.mem_append, List.mem_cons] at hx
    rcases hx with hx | rfl | hx
    · rw [hsize _ (node_block (by simp [hx])), hR.sizes x (by simp [hx])]
    · rw [hsize _ (node_block hb), hR.sizes b hb]
    · rw [hsize _ (node_block (by simp [hx])), hR.sizes x (by simp [hx])]
  · rw [freeAddrs_marked]
    obtain ⟨hfront, hback⟩ := linked_append.mp hchain
    refine Linked.splice hfront hback hnodup ?_ ?_ ?_
    · rw [Heap.next_setNext, if_neg hbprev, Heap.next_setNext, if_pos rfl]
    · rw [Heap.next_setNext, if_pos rfl]
    · intro x hx hxprev
      have hxb : x ≠ b.addr := fun heq => hbnot (heq ▸ hx)
      rw [Heap.next_setNext, if_neg hxprev, Heap.next_setNext, if_neg hxb, Heap.next_mk]
  · rw [Heap.next_setNext, if_neg hprevtail.symm, Heap.next_setNext, if_neg hbtail.symm,
      Heap.next_mk, hR.tail_next]
  · rw [hsize _ (node_tail _), hR.tail_size]
  · rw [hsize _ (node_head _), hR.head_size]
  · have hbefore : freeSize (pre ++ b :: post) = freeSize pre + (0 + freeSize post) := by
      rw [freeSize_append, freeSize_cons, if_neg (by simp [hused])]
    have hafter : freeSize (pre ++ ⟨b.addr, b.size, true⟩ :: post) =
        freeSize pre + (b.size + freeSize post) := by
      rw [freeSize_append, freeSize_cons, if_pos rfl]
    have hlt := hmark.freeSize_lt
    change A.word.sizeT (h.allSize + h.blockSize A b.addr) = _
    rw [hR.all_size, hR.sizes b hb, hafter, WordSize.sizeT_of_lt (by omega), hbefore]
    omega

theorem Represents.join (hR : Represents A h (pre ++ b :: q :: post)) (hb : b.free = true)
    (hq : q.free = true) :
    Represents A
      ((h.setBlockSize A b.addr (A.word.sizeT (h.blockSize A b.addr + h.blockSize A q.addr))).setNext
        b.addr (h.next q.addr))
      (pre ++ ⟨b.addr, b.size + q.size, true⟩ :: post) := by
  have hw := headerSize_pos A.word
  have hL := hR.layout
  have hS := hL.separate
  have hbm : b ∈ pre ++ b :: q :: post := by simp
  have hqm : q ∈ pre ++ b :: q :: post := by simp
  have hjoin : Layout A (pre ++ ⟨b.addr, b.size + q.size, true⟩ :: post) := by
    simpa using Layout.join (by simpa using hL : Layout A (pre ++ [b, q] ++ post)) true
  have hbnode := node_block (A := A) hbm
  have hsum : A.word.sizeT (h.blockSize A b.addr + h.blockSize A q.addr) = b.size + q.size := by
    have hlt := hjoin.size_lt (b := ⟨b.addr, b.size + q.size, true⟩) (by simp)
    dsimp only at hlt
    rw [hR.sizes b hbm, hR.sizes q hqm]
    exact WordSize.sizeT_of_lt (by omega)
  rw [hsum]
  have hnext : ∀ x, A.Node (pre ++ b :: q :: post) x →
      ((h.setBlockSize A b.addr (b.size + q.size)).setNext b.addr (h.next q.addr)).next x =
        if x = b.addr then h.next q.addr else h.next x := by
    intro x hx
    rw [Heap.next_setNext, Heap.next_setBlockSize hS hbnode hx]
  have hsize : ∀ x, A.Node (pre ++ b :: q :: post) x →
      ((h.setBlockSize A b.addr (b.size + q.size)).setNext b.addr (h.next q.addr)).blockSize A x =
        if x = b.addr then b.size + q.size else h.blockSize A x := by
    intro x hx
    rw [Heap.blockSize_setNext hS hbnode hx, Heap.blockSize_setBlockSize]
  have haround := hL.tiles.around
  have hbtail := hL.ne_tail (Or.inr ⟨b, hbm, rfl⟩)
  -- the free list before and after
  have hlist : freeAddrs (pre ++ b :: q :: post) =
      (freeAddrs pre ++ [b.addr]) ++ q.addr :: freeAddrs post := by
    rw [freeAddrs_append, freeAddrs_cons, if_pos hb, freeAddrs_cons, if_pos hq, List.append_assoc,
      List.singleton_append]
  have hlist' : freeAddrs (pre ++ ⟨b.addr, b.size + q.size, true⟩ :: post) =
      (freeAddrs pre ++ [b.addr]) ++ freeAddrs post := by
    rw [freeAddrs_append, freeAddrs_cons, if_pos rfl, List.append_assoc, List.singleton_append]
  have hchain := hR.chain
  have hnodup := hjoin.nodup
  rw [hlist] at hchain
  rw [hlist'] at hnodup
  have hlast : (freeAddrs pre ++ [b.addr]).getLastD A.head = b.addr := by simp
  have hbhead : A.head ≠ b.addr := fun heq => (List.nodup_cons.mp hnodup).1 (by simp [heq])
  have hkept : ∀ x ∈ pre ++ post,
      ((h.setBlockSize A b.addr (b.size + q.size)).setNext b.addr (h.next q.addr)).blockSize A
        x.addr = x.size := by
    intro x hx
    have hxold : x ∈ pre ++ b :: q :: post := by
      simp only [List.mem_append, List.mem_cons] at hx ⊢
      tauto
    have hxroom := hL.room x hxold
    have hbroom := hL.room b hbm
    have hxb : x.addr ≠ b.addr := by
      rcases List.mem_append.mp hx with hx | hx
      · have := haround.1 x hx
        omega
      · have := haround.2 x (List.mem_cons_of_mem _ hx)
        omega
    rw [hsize _ (node_block hxold), if_neg hxb, hR.sizes x hxold]
  refine ⟨hjoin, hR.tail, ?_, ?_, ?_, ?_, ?_, ?_⟩
  · intro x hx
    simp only [List.mem_append, List.mem_cons] at hx
    rcases hx with hx | rfl | hx
    · exact hkept x (by simp [hx])
    · rw [hsize _ hbnode, if_pos rfl]
    · exact hkept x (by simp [hx])
  · rw [hlist']
    refine hchain.remove hnodup ?_ ?_
    · rw [hlast, hnext _ hbnode, if_pos rfl]
    · intro x hx hxb
      rw [hlast] at hxb
      have hxnode : A.Node (pre ++ b :: q :: post) x := by
        refine node_free ?_
        rw [hlist]
        simp only [List.mem_cons, List.mem_append] at hx ⊢
        tauto
      rw [hnext x hxnode, if_neg hxb]
  · rw [hnext _ (node_tail _), if_neg hbtail.symm, hR.tail_next]
  · rw [hsize _ (node_tail _), if_neg hbtail.symm, hR.tail_size]
  · rw [hsize _ (node_head _), if_neg hbhead, hR.head_size]
  · have hbefore : freeSize (pre ++ b :: q :: post) =
        freeSize pre + (b.size + (q.size + freeSize post)) := by
      rw [freeSize_append, freeSize_cons, if_pos hb, freeSize_cons, if_pos hq]
    have hafter : freeSize (pre ++ ⟨b.addr, b.size + q.size, true⟩ :: post) =
        freeSize pre + (b.size + q.size + freeSize post) := by
      rw [freeSize_append, freeSize_cons, if_pos rfl]
    rw [Heap.allSize_setNext, Heap.allSize_setBlockSize, hR.all_size, hbefore, hafter]
    omega

theorem Heap.setNext_self (h : Heap) (a : Nat) : h.setNext a (h.next a) = h := by
  unfold setNext next
  rw [Function.update_eq_self]

private theorem Represents.next_free (hR : Represents A h (pre ++ b :: post))
    (hb : b.free = true) : h.next b.addr = (freeAddrs post).headD A.tailAddr := by
  have hchain := hR.chain
  rw [freeAddrs_append, freeAddrs_cons, if_pos hb] at hchain
  exact (linked_append.mp hchain).2.2.first

/-- Joining a free block with what follows it. -/
theorem Represents.absorbNext (hR : Represents A h (pre ++ b :: post)) (hb : b.free = true) :
    Represents A (CcRpc.absorbNext A h b.addr) (pre ++ joinNext b post) := by
  have hw := headerSize_pos A.word
  have hL := hR.layout
  have hbm : b ∈ pre ++ b :: post := by simp
  have hsize := hR.sizes b hbm
  have hnext := hR.next_free hb
  cases post with
  | nil =>
    -- the next node is the sentinel, and the store there stores what is there
    have htail : h.next b.addr = h.tail := by
      rw [hnext, hR.tail, freeAddrs_nil, List.headD_nil]
    have hsame : CcRpc.absorbNext A h b.addr = h := by
      unfold CcRpc.absorbNext
      split
      · rw [if_neg (not_not.mpr htail), ← htail, Heap.setNext_self]
      · rfl
    rw [hsame]
    exact hR
  | cons q post =>
    have hqm : q ∈ pre ++ b :: q :: post := by simp
    have hadj : b.addr + b.size = q.addr := by
      obtain ⟨m, -, hm⟩ := tiles_append.mp hL.tiles
      rw [hm.1, hm.2.1]
    have hqtail := hL.ne_tail (Or.inr ⟨q, hqm, rfl⟩)
    rw [joinNext]
    cases hq : q.free with
    | true =>
      rw [if_pos rfl, hb]
      rw [freeAddrs_cons, if_pos hq] at hnext
      have hnextq : h.next b.addr = q.addr := by rw [hnext, List.headD_cons]
      have hqnext : ∀ v, (h.setBlockSize A b.addr v).next b.addr = q.addr := by
        intro v
        rw [Heap.next_setBlockSize hL.separate (node_block hbm) (node_block hbm), hnextq]
      have hqnext' : ∀ v, (h.setBlockSize A b.addr v).next q.addr = h.next q.addr := fun v =>
        Heap.next_setBlockSize hL.separate (node_block hbm) (node_block hqm)
      unfold CcRpc.absorbNext
      rw [if_pos (by rw [hsize, hadj, hnextq]), if_pos (by rw [hnextq, hR.tail]; exact hqtail)]
      simp only [hnextq, hqnext, hqnext']
      exact hR.join hb hq
    | false =>
      -- the next free node is not right behind the block
      rw [if_neg Bool.false_ne_true]
      rw [freeAddrs_cons, if_neg (by simp [hq])] at hnext
      have hgap : b.addr + h.blockSize A b.addr ≠ h.next b.addr := by
        rw [hsize, hadj, hnext]
        cases hpost : freeAddrs post with
        | nil =>
          rw [List.headD_nil]
          exact hqtail
        | cons x xs =>
          obtain ⟨c, hc, -, hcx⟩ := mem_freeAddrs.mp (show x ∈ freeAddrs post by rw [hpost]; simp)
          obtain ⟨m, -, hm⟩ := tiles_append.mp hL.tiles
          have hqc := (hm.2.2.bounds hc).1
          have hqroom := hL.room q hqm
          rw [List.headD_cons, ← hcx, ← hadj, hm.1]
          omega
      unfold CcRpc.absorbNext
      rw [if_neg hgap]
      exact hR

theorem Represents.absorbInto (hR : Represents A h (pre ++ b :: post)) (hb : b.free = true) :
    Represents A (CcRpc.absorbInto A h ((freeAddrs pre).getLastD A.head) b.addr)
      (joinPrev pre b post) := by
  have hw := headerSize_pos A.word
  have hL := hR.layout
  have hbm : b ∈ pre ++ b :: post := by simp
  rcases List.eq_nil_or_concat pre with rfl | ⟨xs, x, rfl⟩
  · -- the head is no neighbour of a block
    have hne : A.head + h.blockSize A A.head ≠ b.addr := by
      rw [hR.head_size, Nat.add_zero]
      intro heq
      have hnodup := hL.nodup
      rw [List.nil_append, freeAddrs_cons, if_pos hb] at hnodup
      exact (List.nodup_cons.mp hnodup).1 (by simp [heq])
    unfold CcRpc.absorbInto
    rw [freeAddrs_nil, List.getLastD_nil, if_neg hne]
    exact hR
  · rw [List.concat_eq_append] at hR hL hbm ⊢
    have hxm : x ∈ xs ++ [x] ++ b :: post := by simp
    rw [List.append_assoc, List.singleton_append] at hR hL hbm hxm
    have hadj : x.addr + x.size = b.addr := by
      obtain ⟨m, -, hm⟩ := tiles_append.mp hL.tiles
      rw [hm.1, hm.2.1]
    rw [joinPrev_snoc]
    cases hx : x.free with
    | true =>
      have hlast : (freeAddrs (xs ++ [x])).getLastD A.head = x.addr := by
        rw [freeAddrs_append, freeAddrs_cons, if_pos hx, freeAddrs_nil]
        simp
      have hbnext : ∀ v, (h.setBlockSize A x.addr v).next b.addr = h.next b.addr := fun v =>
        Heap.next_setBlockSize hL.separate (node_block hxm) (node_block hbm)
      unfold CcRpc.absorbInto
      rw [if_pos rfl, hlast, if_pos (by rw [hR.sizes x hxm, hadj])]
      simp only [hbnext]
      exact hR.join hx hb
    | false =>
      -- the last free node in front is not right before the block
      have hgap : (freeAddrs (xs ++ [x])).getLastD A.head +
          h.blockSize A ((freeAddrs (xs ++ [x])).getLastD A.head) ≠ b.addr := by
        rw [freeAddrs_append, freeAddrs_cons, if_neg (by simp [hx]), freeAddrs_nil,
          List.append_nil]
        have hxroom := hL.room x hxm
        rcases List.mem_cons.mp (getLastD_mem A.head (freeAddrs xs)) with hhead | hmem
        · rw [hhead, hR.head_size, Nat.add_zero]
          have hnode := hL.nodup
          intro heq
          refine (List.nodup_cons.mp hnode).1 ?_
          rw [heq]
          exact mem_freeAddrs.mpr ⟨b, by simp, hb, rfl⟩
        · obtain ⟨c, hc, -, hcx⟩ := mem_freeAddrs.mp hmem
          have hcx' := hL.tiles.around.1 c hc
          rw [← hcx, hR.sizes c (by simp [hc])]
          omega
      unfold CcRpc.absorbInto
      rw [if_neg hgap, if_neg Bool.false_ne_true]
      exact hR

theorem readyHeap_of_tail (ht : h.tail = A.tailAddr) : readyHeap A h = h := by
  have hpos := tailAddr_pos A
  rw [readyHeap, if_neg (by omega)]

/-- `real_heap_malloc` returns NULL and changes nothing when no free block fits, and otherwise
carves the first that does. -/
theorem Represents.malloc {bs : List Block} (hR : Represents A h bs) {n : Nat}
    (hn : A.word.heapStructSize ≤ roundedRequest A n) :
    ((∀ b ∈ bs, b.fits (roundedRequest A n) = false) ∧ realHeapMalloc A h n = some (h, 0)) ∨
      ∃ pre b post h', bs = pre ++ b :: post ∧ b.fits (roundedRequest A n) = true ∧
        (∀ x ∈ pre, x.fits (roundedRequest A n) = false) ∧
        realHeapMalloc A h n = some (h', b.addr + A.word.heapStructSize) ∧
        Represents A h' (pre ++ b.carve A.word.minSize (roundedRequest A n) ++ post) := by
  have hw := headerSize_pos A.word
  have hmod := roundedRequest_mod A n
  cases hfind : bs.find? (Block.fits (roundedRequest A n)) with
  | none =>
    have hno : ∀ b ∈ bs, b.fits (roundedRequest A n) = false := by
      intro b hb
      simpa using List.find?_eq_none.mp hfind b hb
    refine Or.inl ⟨hno, ?_⟩
    unfold realHeapMalloc
    simp only [readyHeap_of_tail hR.tail, hR.findFit_none (by omega) hno]
  | some b =>
    obtain ⟨hb, pre, post, rfl, hpre⟩ := List.find?_eq_some_iff_append.mp hfind
    have hno : ∀ x ∈ pre, x.fits (roundedRequest A n) = false := by
      intro x hx
      simpa using hpre x hx
    have hfits : b.free = true ∧ roundedRequest A n ≤ b.size := by simpa [Block.fits] using hb
    refine Or.inr ⟨pre, b, post, _, rfl, hb, hno, ?_,
      hR.takeNode hfits.1 hfits.2 hmod (by omega)⟩
    unfold realHeapMalloc
    simp only [readyHeap_of_tail hR.tail, hR.findFit_found hb hno]
    rfl

theorem Represents.free (hR : Represents A h (pre ++ b :: post)) (hused : b.free = false) :
    ∃ h', realHeapFree A h (b.addr + A.word.heapStructSize) = some h' ∧
      Represents A h' (release pre b post) := by
  have hw := headerSize_pos A.word
  have hL := hR.layout
  let h₁ : Heap := ⟨h.mem, h.tail, A.word.sizeT (h.allSize + h.blockSize A b.addr)⟩
  let iter := (freeAddrs pre).getLastD A.head
  have hlist : freeAddrs (pre ++ b :: post) = freeAddrs pre ++ freeAddrs post := by
    rw [freeAddrs_append, freeAddrs_cons, if_neg (by simp [hused])]
  have hchain := hR.chain
  have hlen := hR.length_lt
  rw [hlist] at hchain hlen
  have haround := hL.tiles.around
  have hplace : findPlace h₁ b.addr configHeap A.head = some iter := by
    refine findPlace_eq (h := h₁) hchain ?_ ?_ (by rw [List.length_append] at hlen; omega)
    · intro x hx
      obtain ⟨c, hc, -, rfl⟩ := mem_freeAddrs.mp hx
      have := haround.1 c hc
      have := hL.room c (by simp [hc])
      omega
    · cases hpost : freeAddrs post with
      | nil =>
        rw [List.headD_nil]
        have := hL.below b (by simp)
        omega
      | cons x xs =>
        obtain ⟨c, hc, -, hcx⟩ := mem_freeAddrs.mp (show x ∈ freeAddrs post by rw [hpost]; simp)
        have := haround.2 c hc
        rw [List.headD_cons, ← hcx]
        omega
  have hlink := hR.link hused
  have hnext := hlink.absorbNext rfl
  obtain ⟨b', post', hjoin, haddr, hfree⟩ : ∃ b' post',
      joinNext ⟨b.addr, b.size, true⟩ post = b' :: post' ∧ b'.addr = b.addr ∧ b'.free = true := by
    cases post with
    | nil => exact ⟨_, _, rfl, rfl, rfl⟩
    | cons q qs =>
      rw [joinNext]
      split <;> exact ⟨_, _, rfl, rfl, rfl⟩
  rw [hjoin] at hnext
  have hinto := hnext.absorbInto hfree
  rw [haddr] at hinto
  refine ⟨_, ?_, by rw [release, hjoin]; exact hinto⟩
  have hpos : b.addr + A.word.heapStructSize ≠ 0 := by omega
  rw [realHeapFree, if_neg hpos, Nat.add_sub_cancel]
  change (findPlace h₁ b.addr configHeap A.head).map _ = _
  rw [hplace]
  rfl

end CcRpc
