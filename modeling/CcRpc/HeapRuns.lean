import CcRpc.HeapRelease
import CcRpc.Lib.Runs

/-!
# Runs of the heap

A run is any sequence of `heap_malloc` and of `heap_free` of pointers that are live. In every state
of a run the live blocks and the free list are one tiling of the region `heap_init` set up.
-/

namespace CcRpc

open Chain Tiling

structure HeapSys where
  heap : Heap
  live : List Nat

/-- Before the first call. -/
def HeapSys.initial : HeapSys := ⟨Heap.initial, []⟩

inductive HeapOp where
  | malloc (n : Nat)
  | free (ptr : Nat)

variable (A : Arena)

/-- One call; only a live pointer may be freed. -/
def heapStep (s : HeapSys) : HeapOp → Option HeapSys
  | .malloc n =>
    (realHeapMalloc A s.heap n).map fun (h, ptr) =>
      ⟨h, if ptr = 0 then s.live else ptr :: s.live⟩
  | .free ptr =>
    if ptr ∈ s.live then (realHeapFree A s.heap ptr).map fun h => ⟨h, s.live.erase ptr⟩ else none

/-- Adding the header and the alignment to `n` does not wrap. -/
def Unwrapped (n : Nat) : Prop := n + A.word.heapStructSize + alignmentByte < 2 ^ A.word.bits

/-- The size a request is rounded to has room for a header; only a request that wraps has not. -/
def HeaderFits (n : Nat) : Prop := A.word.heapStructSize ≤ roundedRequest A n

/-- The nodes that a walk of the free list meets before the tail. -/
def freeNodesFrom (h : Heap) : Nat → Nat → List Nat
  | 0, _ => []
  | fuel + 1, a => if a = h.tail then [] else a :: freeNodesFrom h fuel (h.next a)

def freeNodes (h : Heap) : List Nat := freeNodesFrom h configHeap (h.next A.head)

/-- The blocks of the live pointers and of the free list, each with its `block_size`. The heap is
the one the next call works on, after `heap_init` if there was no call yet. -/
def HeapSys.blocks (s : HeapSys) : List (Nat × Nat) :=
  (s.live.map (· - A.word.heapStructSize) ++ freeNodes A (readyHeap A s.heap)).map fun a =>
    (a, (readyHeap A s.heap).blockSize A a)

/-- The address and the size of the block `heap_init` makes. -/
def Arena.region : Nat × Nat :=
  let h := heapInit A Heap.initial
  (h.next A.head, h.blockSize A (h.next A.head))

/-- The state stands for a layout whose used blocks are the live ones. -/
structure HeapInv (s : HeapSys) (bs : List Block) : Prop where
  heap : Represents A (readyHeap A s.heap) bs
  live : s.live.Perm ((usedAddrs bs).map (· + A.word.heapStructSize))
  fresh : s.heap.tail = 0 → s.live = []

variable {A} {s s' : HeapSys} {bs : List Block}

theorem Unwrapped.headerFits {n : Nat} (hn : Unwrapped A n) : HeaderFits A n := by
  have := (roundedRequest_eq A hn).1
  unfold HeaderFits
  omega

theorem heapInv_initial (A : Arena) : HeapInv A HeapSys.initial [A.firstBlock] := by
  have hready : readyHeap A Heap.initial = heapInit A Heap.initial := if_pos rfl
  refine ⟨?_, List.Perm.nil, fun _ => rfl⟩
  rw [show HeapSys.initial.heap = Heap.initial from rfl, hready]
  exact heapInit_represents rfl

theorem HeapInv.realHeapMalloc_ready (hI : HeapInv A s bs) (n : Nat) :
    realHeapMalloc A s.heap n = realHeapMalloc A (readyHeap A s.heap) n := by
  unfold realHeapMalloc
  rw [readyHeap_of_tail hI.heap.tail]

theorem HeapInv.readyHeap_of_live (hI : HeapInv A s bs) {ptr : Nat} (hptr : ptr ∈ s.live) :
    readyHeap A s.heap = s.heap := by
  refine if_neg ?_
  intro ht
  rw [hI.fresh ht] at hptr
  cases hptr

theorem heapInv_of_represents {h : Heap} {live : List Nat} (hR : Represents A h bs)
    (hlive : live.Perm ((usedAddrs bs).map (· + A.word.heapStructSize))) :
    HeapInv A ⟨h, live⟩ bs := by
  have hpos := tailAddr_pos A
  have ht := hR.tail
  refine ⟨by rw [readyHeap_of_tail ht]; exact hR, hlive, fun h0 => ?_⟩
  dsimp only at h0
  omega

/-- What one call of `heap_malloc` does in a run. -/
theorem HeapInv.malloc_cases (hI : HeapInv A s bs) {n : Nat} (hn : HeaderFits A n) :
    ((∀ b ∈ bs, b.fits (roundedRequest A n) = false) ∧
        realHeapMalloc A s.heap n = some (readyHeap A s.heap, 0) ∧
        heapStep A s (.malloc n) = some ⟨readyHeap A s.heap, s.live⟩ ∧
        HeapInv A ⟨readyHeap A s.heap, s.live⟩ bs) ∨
      ∃ pre b post h', bs = pre ++ b :: post ∧ b.fits (roundedRequest A n) = true ∧
        (∀ x ∈ pre, x.fits (roundedRequest A n) = false) ∧
        realHeapMalloc A s.heap n = some (h', b.addr + A.word.heapStructSize) ∧
        heapStep A s (.malloc n) = some ⟨h', (b.addr + A.word.heapStructSize) :: s.live⟩ ∧
        HeapInv A ⟨h', (b.addr + A.word.heapStructSize) :: s.live⟩
          (pre ++ b.carve A.word.minSize (roundedRequest A n) ++ post) := by
  have hw := headerSize_pos A.word
  have hready := hI.realHeapMalloc_ready n
  rcases hI.heap.malloc hn with ⟨hno, hnull⟩ | ⟨pre, b, post, h', rfl, hb, hpre, hsome, hR⟩
  · rw [hnull] at hready
    refine Or.inl ⟨hno, hready, ?_, heapInv_of_represents hI.heap hI.live⟩
    rw [heapStep, hready]
    rfl
  · rw [hsome] at hready
    refine Or.inr ⟨pre, b, post, h', rfl, hb, hpre, hready, ?_, heapInv_of_represents hR ?_⟩
    · rw [heapStep, hready, Option.map_some]
      dsimp only
      rw [if_neg (by omega)]
    · have hfree : b.free = true := by
        have hfit : b.free = true ∧ roundedRequest A n ≤ b.size := by simpa [Block.fits] using hb
        exact hfit.1
      have hcarve : usedAddrs (b.carve A.word.minSize (roundedRequest A n)) = [b.addr] := by
        unfold Block.carve
        split <;> simp [usedAddrs_cons]
      have hlive := hI.live
      rw [usedAddrs_append, usedAddrs_cons, if_pos hfree] at hlive
      rw [usedAddrs_append, usedAddrs_append, hcarve, List.append_assoc, List.singleton_append]
      have hmid : (b.addr :: (usedAddrs pre ++ usedAddrs post)).Perm
          (usedAddrs pre ++ b.addr :: usedAddrs post) := List.perm_middle.symm
      exact (hlive.cons _).trans (hmid.map (· + A.word.heapStructSize))

theorem HeapInv.free_cases (hI : HeapInv A s bs) {ptr : Nat} (hptr : ptr ∈ s.live) :
    ∃ pre b post h', bs = pre ++ b :: post ∧ b.free = false ∧
      ptr = b.addr + A.word.heapStructSize ∧
      realHeapFree A s.heap ptr = some h' ∧
      heapStep A s (.free ptr) = some ⟨h', s.live.erase ptr⟩ ∧
      HeapInv A ⟨h', s.live.erase ptr⟩ (release pre b post) := by
  have hmem := hI.live.mem_iff.mp hptr
  obtain ⟨a, ha, rfl⟩ := List.mem_map.mp hmem
  obtain ⟨b, hb, hused, rfl⟩ := mem_usedAddrs.mp ha
  obtain ⟨pre, post, rfl⟩ := List.append_of_mem hb
  have hR := hI.heap
  rw [hI.readyHeap_of_live hptr] at hR
  obtain ⟨h', hfree, hR'⟩ := hR.free hused
  refine ⟨pre, b, post, h', rfl, hused, rfl, hfree, ?_, heapInv_of_represents hR' ?_⟩
  · rw [heapStep, if_pos hptr, hfree]
    rfl
  · have hlive := hI.live
    rw [usedAddrs_append, usedAddrs_cons, if_neg (by simp [hused]), List.map_append,
      List.map_cons] at hlive
    have herase := (hlive.trans List.perm_middle).erase (b.addr + A.word.heapStructSize)
    rw [List.erase_cons_head] at herase
    rw [usedAddrs_release, List.map_append]
    exact herase

theorem heapStep_inv {op : HeapOp} (hI : ∃ bs, HeapInv A s bs)
    (hop : ∀ n, op = .malloc n → HeaderFits A n) (hstep : heapStep A s op = some s') :
    ∃ bs, HeapInv A s' bs := by
  obtain ⟨bs, hI⟩ := hI
  cases op with
  | malloc n =>
    rcases hI.malloc_cases (hop n rfl) with ⟨-, -, hs, hI'⟩ | ⟨pre, b, post, h', -, -, -, -, hs, hI'⟩
    · rw [hs] at hstep
      cases hstep
      exact ⟨_, hI'⟩
    · rw [hs] at hstep
      cases hstep
      exact ⟨_, hI'⟩
  | free ptr =>
    by_cases hptr : ptr ∈ s.live
    · obtain ⟨pre, b, post, h', -, -, -, -, hs, hI'⟩ := hI.free_cases hptr
      rw [hs] at hstep
      cases hstep
      exact ⟨_, hI'⟩
    · rw [heapStep, if_neg hptr] at hstep
      cases hstep

theorem heapRun_inv {ops : List HeapOp} (hops : ∀ n, .malloc n ∈ ops → HeaderFits A n)
    (hrun : Runs.run (heapStep A) HeapSys.initial ops = some s) : ∃ bs, HeapInv A s bs := by
  have hstep : ∀ s op s', (∃ bs, HeapInv A s bs) → (∀ n, op = .malloc n → HeaderFits A n) →
      heapStep A s op = some s' → ∃ bs, HeapInv A s' bs := fun _ _ _ hI hop => heapStep_inv hI hop
  have halong : Runs.Along (heapStep A) (fun _ op => ∀ n, op = HeapOp.malloc n → HeaderFits A n)
      HeapSys.initial ops := by
    refine Runs.along_of_forall ?_
    intro op hop n hn
    exact hops n (hn ▸ hop)
  exact Runs.run_induction hstep ⟨_, heapInv_initial A⟩ halong hrun

theorem freeNodesFrom_eq {h : Heap} {fuel a : Nat} {ns : List Nat}
    (hchain : Linked h.next a ns h.tail) (hne : ∀ x ∈ ns, x ≠ h.tail) (hfuel : ns.length < fuel) :
    freeNodesFrom h fuel (h.next a) = ns := by
  induction ns generalizing a fuel with
  | nil =>
    obtain ⟨fuel, rfl⟩ : ∃ k, fuel = k + 1 := ⟨fuel - 1, by omega⟩
    rw [freeNodesFrom, if_pos (show h.next a = h.tail from hchain)]
  | cons n ns ih =>
    obtain ⟨fuel, rfl⟩ : ∃ k, fuel = k + 1 := ⟨fuel - 1, by omega⟩
    have hlen : ns.length < fuel := Nat.lt_of_succ_lt_succ hfuel
    have hrest := ih hchain.2 (fun x hx => hne x (by simp [hx])) hlen
    rw [hchain.1, freeNodesFrom, if_neg (hne n (by simp)), hrest]

theorem Represents.freeNodes_eq {h : Heap} (hR : Represents A h bs) : freeNodes A h = freeAddrs bs := by
  refine freeNodesFrom_eq (by rw [hR.tail]; exact hR.chain) ?_ hR.length_lt
  intro x hx
  rw [hR.tail]
  obtain ⟨b, hb, -, hbx⟩ := mem_freeAddrs.mp hx
  exact hR.layout.ne_tail (Or.inr ⟨b, hb, hbx⟩)

theorem perm_used_free (bs : List Block) :
    (usedAddrs bs ++ freeAddrs bs).Perm (bs.map (·.addr)) := by
  have hperm := (List.filter_append_perm (fun b : Block => !b.free) bs).map (·.addr)
  rw [List.map_append] at hperm
  simpa [usedAddrs, freeAddrs] using hperm

/-- The live blocks and the free list are the blocks of the layout. -/
theorem HeapInv.blocks_perm (hI : HeapInv A s bs) :
    (s.blocks A).Perm (bs.map fun b => (b.addr, b.size)) := by
  have hw := headerSize_pos A.word
  have hlive := hI.live.map (· - A.word.heapStructSize)
  have hcancel : ((usedAddrs bs).map (· + A.word.heapStructSize)).map
      (· - A.word.heapStructSize) = usedAddrs bs := by
    rw [List.map_map]
    refine (List.map_congr_left fun a _ => ?_).trans (List.map_id _)
    exact Nat.add_sub_cancel a _
  rw [hcancel] at hlive
  have haddrs := (hlive.append_right (freeAddrs bs)).trans (perm_used_free bs)
  have hmap := haddrs.map fun a => (a, (readyHeap A s.heap).blockSize A a)
  unfold HeapSys.blocks
  rw [hI.heap.freeNodes_eq]
  refine hmap.trans (List.Perm.of_eq ?_)
  rw [List.map_map]
  refine List.map_congr_left fun b hb => ?_
  exact congrArg (Prod.mk b.addr) (hI.heap.sizes b hb)

theorem region_eq (A : Arena) : A.region = (A.start, A.regionEnd - A.start) := by
  have hR : Represents A (heapInit A Heap.initial) [A.firstBlock] := heapInit_represents rfl
  have hfirst : (heapInit A Heap.initial).next A.head = A.start := hR.chain.1
  have hsize := hR.sizes A.firstBlock (by simp)
  unfold Arena.region
  dsimp only
  rw [hfirst]
  exact congrArg (Prod.mk A.start) hsize

theorem HeapInv.tiles (hI : HeapInv A s bs) : ∃ l, l.Perm (s.blocks A) ∧
    Tiles Prod.fst Prod.snd A.region.1 l (A.region.1 + A.region.2) := by
  have ht := hI.heap.layout.tiles
  refine ⟨bs.map fun b => (b.addr, b.size), hI.blocks_perm.symm, ?_⟩
  rw [region_eq, Nat.add_sub_cancel' ht.le]
  exact (tiles_map (fun _ _ => rfl) fun _ _ => rfl).mpr ht

theorem HeapInv.pairwise (hI : HeapInv A s bs) :
    (s.blocks A).Pairwise fun x y => x.1 + x.2 ≤ y.1 ∨ y.1 + y.2 ≤ x.1 := by
  obtain ⟨l, hperm, ht⟩ := hI.tiles
  refine hperm.pairwise (ht.pairwise.imp Or.inl) ?_
  intro x y hxy
  exact hxy.symm

theorem HeapInv.no_fit_iff (hI : HeapInv A s bs) {req : Nat} :
    (∀ b ∈ bs, b.fits req = false) ↔
      ∀ a ∈ freeNodes A (readyHeap A s.heap), (readyHeap A s.heap).blockSize A a < req := by
  rw [hI.heap.freeNodes_eq]
  constructor
  · intro hno a ha
    obtain ⟨b, hb, hfree, rfl⟩ := mem_freeAddrs.mp ha
    have hbno := hno b hb
    rw [hI.heap.sizes b hb]
    simpa [Block.fits, hfree] using hbno
  · intro hall b hb
    cases hfree : b.free with
    | false => simp [Block.fits, hfree]
    | true =>
      have hlt := hall b.addr (mem_freeAddrs.mpr ⟨b, hb, hfree, rfl⟩)
      rw [hI.heap.sizes b hb] at hlt
      simpa [Block.fits, hfree] using hlt

theorem HeapInv.carved (hI : HeapInv A s bs) {pre post : List Block} {b : Block} {h' : Heap}
    {live : List Nat} {req : Nat} (hbs : bs = pre ++ b :: post) (hb : b.fits req = true)
    (hI' : HeapInv A ⟨h', live⟩ (pre ++ b.carve A.word.minSize req ++ post)) (ht : h'.tail ≠ 0) :
    b.addr % 8 = 0 ∧ A.allHeap ≤ b.addr ∧ b.addr + h'.blockSize A b.addr ≤ A.allHeap + configHeap ∧
      req ≤ h'.blockSize A b.addr := by
  have hfit : b.free = true ∧ req ≤ b.size := by simpa [Block.fits] using hb
  have hmem : b ∈ bs := by simp [hbs]
  have hstart := start_bounds A
  have hend := (regionEnd_bounds A).2.1
  obtain ⟨c, hc, haddr, hsize⟩ :
      ∃ c ∈ b.carve A.word.minSize req, c.addr = b.addr ∧ req ≤ c.size := by
    unfold Block.carve
    split
    · exact ⟨_, List.mem_cons_self, rfl, Nat.le_refl _⟩
    · exact ⟨_, List.mem_cons_self, rfl, hfit.2⟩
  have hc' : c ∈ pre ++ b.carve A.word.minSize req ++ post := by simp [hc]
  have hbounds := hI'.heap.layout.tiles.bounds hc'
  have hstored := hI'.heap.sizes c hc'
  have hready : readyHeap A h' = h' := if_neg ht
  rw [show readyHeap A (HeapSys.mk h' live).heap = h' from hready, haddr] at hstored
  have hmod := hI.heap.layout.addr_mod hmem
  rw [hstored]
  omega

theorem HeapInv.tail_ne (hI : HeapInv A s bs) (hlive : s.live ≠ []) : s.heap.tail ≠ 0 :=
  fun h0 => hlive (hI.fresh h0)

/-- What a request returns. -/
theorem HeapInv.malloc_spec (hI : HeapInv A s bs) {n : Nat} (hn : Unwrapped A n) :
    ∃ h' ptr, realHeapMalloc A s.heap n = some (h', ptr) ∧
      (ptr = 0 ↔ ∀ a ∈ freeNodes A (readyHeap A s.heap),
        (readyHeap A s.heap).blockSize A a < roundedRequest A n) ∧
      (ptr ≠ 0 → ptr % 8 = 0 ∧ A.allHeap + A.word.heapStructSize ≤ ptr ∧
        ptr - A.word.heapStructSize + h'.blockSize A (ptr - A.word.heapStructSize) ≤
          A.allHeap + configHeap ∧
        n + A.word.heapStructSize ≤ h'.blockSize A (ptr - A.word.heapStructSize)) := by
  have hw := headerSize_pos A.word
  have hreq := (roundedRequest_eq A hn).1
  rcases hI.malloc_cases hn.headerFits with
    ⟨hno, hnull, -, -⟩ | ⟨pre, b, post, h', hbs, hb, -, hsome, -, hI'⟩
  · exact ⟨_, 0, hnull, ⟨fun _ => hI.no_fit_iff.mp hno, fun _ => rfl⟩, fun h0 => absurd rfl h0⟩
  · have hcarved := hI.carved hbs hb hI' (hI'.tail_ne (List.cons_ne_nil _ _))
    refine ⟨h', _, hsome, ⟨fun h0 => ?_, fun hall => ?_⟩, fun _ => ?_⟩
    · omega
    · have hbno := hI.no_fit_iff.mpr hall b (by simp [hbs])
      rw [hb] at hbno
      cases hbno
    · rw [Nat.add_sub_cancel]
      omega

/-- Live blocks never overlap. In every state of a run whose requests do not wrap: the live blocks
and the free list tile the region of the first block, and so are pairwise disjoint; the next
request returns, NULL exactly when no free block is as large as the rounded request, and otherwise
an aligned payload of the asked size in a block inside `all_heap`; and the next release returns. -/
theorem heap_blocks_tile (A : Arena) {ops : List HeapOp}
    (hops : ∀ n, .malloc n ∈ ops → Unwrapped A n) {s : HeapSys}
    (hrun : Runs.run (heapStep A) HeapSys.initial ops = some s) :
    (∃ l, l.Perm (s.blocks A) ∧
        Tiles Prod.fst Prod.snd A.region.1 l (A.region.1 + A.region.2)) ∧
      (s.blocks A).Pairwise (fun x y => x.1 + x.2 ≤ y.1 ∨ y.1 + y.2 ≤ x.1) ∧
      (∀ n, Unwrapped A n → ∃ h' ptr, realHeapMalloc A s.heap n = some (h', ptr) ∧
        (ptr = 0 ↔ ∀ a ∈ freeNodes A (readyHeap A s.heap),
          (readyHeap A s.heap).blockSize A a < roundedRequest A n) ∧
        (ptr ≠ 0 → ptr % 8 = 0 ∧ A.allHeap + A.word.heapStructSize ≤ ptr ∧
          ptr - A.word.heapStructSize + h'.blockSize A (ptr - A.word.heapStructSize) ≤
            A.allHeap + configHeap ∧
          n + A.word.heapStructSize ≤ h'.blockSize A (ptr - A.word.heapStructSize))) ∧
      ∀ ptr ∈ s.live, ∃ h', realHeapFree A s.heap ptr = some h' := by
  obtain ⟨bs, hI⟩ := heapRun_inv (fun n hn => (hops n hn).headerFits) hrun
  refine ⟨hI.tiles, hI.pairwise, fun n hn => hI.malloc_spec hn, ?_⟩
  intro ptr hptr
  obtain ⟨-, -, -, h', -, -, -, hfree, -, -⟩ := hI.free_cases hptr
  exact ⟨h', hfree⟩

/-- An aligned `all_heap` on a 64-bit host. -/
def Arena.low : Arena where
  word := .w64
  allHeap := 0x100000
  head := 0x1000
  allHeap_pos := by decide
  allHeap_fits := by decide
  head_apart := by decide

/-- After the first request. -/
theorem heap_blocks_tile_small :
    ∃ s, Runs.run (heapStep Arena.low) HeapSys.initial [.malloc 100] = some s ∧
      (s.blocks Arena.low).Pairwise (fun x y => x.1 + x.2 ≤ y.1 ∨ y.1 + y.2 ≤ x.1) := by
  have hn : Unwrapped Arena.low 100 := by
    unfold Unwrapped
    decide
  have hrun : ∃ s, Runs.run (heapStep Arena.low) HeapSys.initial [.malloc 100] = some s := by
    rcases (heapInv_initial Arena.low).malloc_cases hn.headerFits with
      ⟨-, -, hs, -⟩ | ⟨_, _, _, _, -, -, -, -, hs, -⟩
    · exact ⟨_, Runs.run_cons.mpr ⟨_, hs, rfl⟩⟩
    · exact ⟨_, Runs.run_cons.mpr ⟨_, hs, rfl⟩⟩
  obtain ⟨s, hs⟩ := hrun
  refine ⟨s, hs, (heap_blocks_tile Arena.low ?_ hs).2.1⟩
  intro n hmem
  rw [List.mem_singleton, HeapOp.malloc.injEq] at hmem
  rw [hmem]
  exact hn

end CcRpc
