import CcRpc.HeapSafety

/-!
# The free list in canonical form

Two free blocks are never neighbours, so the free list is determined by the blocks handed out: its
nodes are the longest runs of bytes that no live block covers. Taking a block and giving it back
restores the list, and giving everything back restores the block `heap_init` made.
-/

namespace CcRpc

open Chain Tiling

variable {A : Arena} {s s' : HeapSys} {bs : List Block}

/-- The address `p` is in the block of a live pointer. -/
def Covered (A : Arena) (s : HeapSys) (p : Nat) : Prop :=
  ∃ ptr ∈ s.live, ptr - A.word.heapStructSize ≤ p ∧
    p < ptr - A.word.heapStructSize +
      (readyHeap A s.heap).blockSize A (ptr - A.word.heapStructSize)

/-- The nodes of the free list with their `block_size`. -/
def freeList (A : Arena) (h : Heap) : List (Nat × Nat) :=
  (freeNodes A h).map fun a => (a, h.blockSize A a)

/-- The free list is canonical. The heap is the one the next call works on. -/
structure Canonical (A : Arena) (s : HeapSys) : Prop where
  /-- A walk from `the_heap.head` ends at the tail. -/
  linked : Linked (readyHeap A s.heap).next A.head (freeNodes A (readyHeap A s.heap))
    (readyHeap A s.heap).tail
  increasing : (freeNodes A (readyHeap A s.heap)).Pairwise (· < ·)
  runs : ∀ a n, (a, n) ∈ freeList A (readyHeap A s.heap) ↔
    MaximalRun (fun p => ¬ Covered A s p) A.region.1 (A.region.1 + A.region.2) a n
  allSize : (readyHeap A s.heap).allSize = ((freeList A (readyHeap A s.heap)).map Prod.snd).sum

/-- Of two neighbours one is not free. -/
def NoFreeNeighbours (bs : List Block) : Prop := bs.IsChain fun x y => x.free = true → ¬ y.free = true

theorem NoFreeNeighbours.replace {pre mid mid' post : List Block}
    (hbs : NoFreeNeighbours (pre ++ mid ++ post)) (hmid : NoFreeNeighbours mid') (hne : mid' ≠ [])
    (hfirst : ∀ x ∈ pre.getLast?, ∀ y ∈ mid'.head?, x.free = true → ¬ y.free = true)
    (hlast : ∀ x ∈ mid'.getLast?, ∀ y ∈ post.head?, x.free = true → ¬ y.free = true) :
    NoFreeNeighbours (pre ++ mid' ++ post) := by
  have hpre := List.IsChain.left_of_append (List.IsChain.left_of_append hbs)
  have hpost := List.IsChain.right_of_append hbs
  refine List.isChain_append.mpr ⟨List.isChain_append.mpr ⟨hpre, hmid, hfirst⟩, hpost, ?_⟩
  intro x hx y hy
  rw [List.getLast?_append_of_ne_nil _ hne] at hx
  exact hlast x hx y hy

/-- Beside a free block there is none. -/
theorem NoFreeNeighbours.beside {pre post : List Block} {b : Block}
    (hbs : NoFreeNeighbours (pre ++ [b] ++ post)) (hb : b.free = true) :
    (∀ x ∈ pre.getLast?, ¬ x.free = true) ∧ ∀ y ∈ post.head?, ¬ y.free = true := by
  obtain ⟨hleft, -, hright⟩ := List.isChain_append.mp hbs
  obtain ⟨-, -, hprev⟩ := List.isChain_append.mp hleft
  constructor
  · intro x hx hfree
    exact hprev x hx b (by simp) hfree hb
  · intro y hy
    exact hright b (by simp) y hy hb

theorem NoFreeNeighbours.carve {pre post : List Block} {b : Block}
    (hbs : NoFreeNeighbours (pre ++ b :: post)) (hb : b.free = true) (minSize req : Nat) :
    NoFreeNeighbours (pre ++ b.carve minSize req ++ post) := by
  have hbs' : NoFreeNeighbours (pre ++ [b] ++ post) := by simpa using hbs
  obtain ⟨hprev, hnext⟩ := hbs'.beside hb
  unfold Block.carve
  split
  · apply hbs'.replace
    · exact List.isChain_pair.mpr (fun hfree => by cases hfree)
    · simp
    · intro x hx y hy hfree
      exact absurd hfree (hprev x hx)
    · intro x hx y hy hfree
      exact hnext y hy
  · apply hbs'.replace
    · exact List.isChain_singleton _
    · simp
    · intro x hx y hy hfree
      exact absurd hfree (hprev x hx)
    · intro x hx y hy hfree
      simp only [List.getLast?_singleton, Option.mem_some_iff] at hx
      subst hx
      cases hfree

theorem NoFreeNeighbours.cons {b : Block} {post : List Block} (hpost : NoFreeNeighbours post)
    (hhead : b.free = true → ∀ y ∈ post.head?, ¬ y.free = true) : NoFreeNeighbours (b :: post) :=
  List.IsChain.cons hpost fun y hy hfree => hhead hfree y hy

theorem NoFreeNeighbours.joinPrev {pre post : List Block} (b : Block) (hpre : NoFreeNeighbours pre)
    (hpost : NoFreeNeighbours post) (hhead : ∀ y ∈ post.head?, ¬ y.free = true) :
    NoFreeNeighbours (CcRpc.joinPrev pre b post) := by
  rcases List.eq_nil_or_concat pre with rfl | ⟨xs, x, rfl⟩
  · exact hpost.cons fun _ => hhead
  · rw [List.concat_eq_append] at hpre ⊢
    obtain ⟨hxs, -, hlast⟩ := List.isChain_append.mp hpre
    rw [joinPrev_snoc]
    split
    · refine List.isChain_append.mpr ⟨hxs, hpost.cons fun _ => hhead, ?_⟩
      intro y hy z hz
      cases hz
      exact hlast y hy x (by simp)
    · next hused =>
      have hback : NoFreeNeighbours (x :: b :: post) :=
        (hpost.cons fun _ => hhead).cons fun hfree => absurd hfree hused
      refine List.isChain_append.mpr ⟨hxs, hback, ?_⟩
      intro y hy z hz
      cases hz
      exact hlast y hy x (by simp)

theorem NoFreeNeighbours.release {pre post : List Block} {b : Block}
    (hbs : NoFreeNeighbours (pre ++ b :: post)) : NoFreeNeighbours (CcRpc.release pre b post) := by
  have hpre : NoFreeNeighbours pre := List.IsChain.left_of_append hbs
  have hback : NoFreeNeighbours (b :: post) := List.IsChain.right_of_append hbs
  have hpost : NoFreeNeighbours post := hback.tail
  unfold CcRpc.release
  cases post with
  | nil => exact hpre.joinPrev _ hpost (by simp)
  | cons q qs =>
    rw [joinNext]
    cases hq : q.free with
    | true =>
      rw [if_pos rfl]
      have hqs : NoFreeNeighbours qs := hpost.tail
      apply hpre.joinPrev _ hqs
      intro y hy
      exact List.IsChain.rel_head? hpost hy hq
    | false =>
      rw [if_neg Bool.false_ne_true]
      apply hpre.joinPrev _ hpost
      intro y hy
      cases hy
      rw [hq]
      exact Bool.false_ne_true

/-- The invariant of runs, with free blocks apart. -/
structure HeapApart (A : Arena) (s : HeapSys) (bs : List Block) : Prop where
  inv : HeapInv A s bs
  apart : NoFreeNeighbours bs

theorem heapApart_initial (A : Arena) : HeapApart A HeapSys.initial [A.firstBlock] :=
  ⟨heapInv_initial A, List.isChain_singleton _⟩

theorem fits_free {req : Nat} {b : Block} (hb : b.fits req = true) : b.free = true ∧ req ≤ b.size := by
  simpa [Block.fits] using hb

/-- One call keeps free blocks apart. -/
theorem HeapApart.step (hI : HeapApart A s bs) {op : HeapOp}
    (hop : ∀ n, op = .malloc n → HeaderFits A n) (hstep : heapStep A s op = some s') :
    ∃ bs', HeapApart A s' bs' := by
  cases op with
  | malloc n =>
    rcases hI.inv.malloc_cases (hop n rfl) with
      ⟨-, -, hs, hI'⟩ | ⟨pre, b, post, h', rfl, hb, -, -, hs, hI'⟩
    · rw [hs] at hstep
      cases hstep
      exact ⟨bs, hI', hI.apart⟩
    · rw [hs] at hstep
      cases hstep
      exact ⟨_, hI', hI.apart.carve (fits_free hb).1 _ _⟩
  | free ptr =>
    by_cases hptr : ptr ∈ s.live
    · obtain ⟨pre, b, post, h', rfl, -, -, -, hs, hI'⟩ := hI.inv.free_cases hptr
      rw [hs] at hstep
      cases hstep
      exact ⟨_, hI', hI.apart.release⟩
    · rw [heapStep, if_neg hptr] at hstep
      cases hstep

theorem heapApart_run {ops : List HeapOp} (hops : ∀ n, .malloc n ∈ ops → HeaderFits A n)
    (hrun : Runs.run (heapStep A) HeapSys.initial ops = some s) : ∃ bs, HeapApart A s bs := by
  have hstep : ∀ s op s', (∃ bs, HeapApart A s bs) → (∀ n, op = .malloc n → HeaderFits A n) →
      heapStep A s op = some s' → ∃ bs, HeapApart A s' bs := by
    rintro s op s' ⟨bs, hI⟩ hop hs
    exact hI.step hop hs
  have halong : Runs.Along (heapStep A) (fun _ op => ∀ n, op = HeapOp.malloc n → HeaderFits A n)
      HeapSys.initial ops := by
    apply Runs.along_of_forall
    intro op hop n hn
    exact hops n (hn ▸ hop)
  exact Runs.run_induction hstep ⟨_, heapApart_initial A⟩ halong hrun

theorem Represents.freeList_eq {h : Heap} (hR : Represents A h bs) :
    freeList A h = (bs.filter (·.free)).map fun b => (b.addr, b.size) := by
  unfold freeList
  rw [hR.freeNodes_eq, freeAddrs, List.map_map]
  apply List.map_congr_left
  intro b hb
  exact congrArg (Prod.mk b.addr) (hR.sizes b (List.mem_filter.mp hb).1)

/-- A byte of a block is covered if and only if the block is handed out. -/
theorem HeapInv.covered_iff (hI : HeapInv A s bs) {b : Block} (hb : b ∈ bs) {p : Nat}
    (hbp : b.addr ≤ p) (hpb : p < b.addr + b.size) : ¬ Covered A s p ↔ b.free = true := by
  have hcovers : Covered A s p ↔ ∃ c ∈ bs, c.free = false ∧ c.addr ≤ p ∧ p < c.addr + c.size := by
    constructor
    · rintro ⟨ptr, hptr, hle, hlt⟩
      obtain ⟨a, ha, rfl⟩ := List.mem_map.mp (hI.live.mem_iff.mp hptr)
      obtain ⟨c, hc, hused, rfl⟩ := mem_usedAddrs.mp ha
      rw [Nat.add_sub_cancel] at hle hlt
      rw [hI.heap.sizes c hc] at hlt
      exact ⟨c, hc, hused, hle, hlt⟩
    · rintro ⟨c, hc, hused, hle, hlt⟩
      refine ⟨c.addr + A.word.heapStructSize, ?_, ?_⟩
      · exact hI.live.mem_iff.mpr (List.mem_map_of_mem (mem_usedAddrs.mpr ⟨c, hc, hused, rfl⟩))
      · rw [Nat.add_sub_cancel, hI.heap.sizes c hc]
        exact ⟨hle, hlt⟩
  rw [hcovers]
  constructor
  · intro hno
    by_contra hused
    exact hno ⟨b, hb, by simpa using hused, hbp, hpb⟩
  · rintro hfree ⟨c, hc, hused, hcp, hpc⟩
    rcases hI.heap.layout.tiles.eq_or_apart hb hc with rfl | hapart | hapart
    · rw [hfree] at hused
      cases hused
    · omega
    · omega

theorem HeapApart.canonical (hI : HeapApart A s bs) : Canonical A s := by
  have hR := hI.inv.heap
  have hL := hR.layout
  have hw := headerSize_pos A.word
  constructor
  · rw [hR.freeNodes_eq, hR.tail]
    exact hR.chain
  · rw [hR.freeNodes_eq]
    have hincreasing : bs.Pairwise fun x y => x.addr < y.addr := by
      refine hL.tiles.pairwise.imp_of_mem ?_
      intro x y hx _ hxy
      have hroom := hL.room x hx
      omega
    exact List.pairwise_map.mpr (hincreasing.sublist List.filter_sublist)
  · intro a n
    have hregion : A.region.1 + A.region.2 = A.regionEnd := by
      rw [region_eq]
      exact Nat.add_sub_cancel' hL.tiles.le
    have hstart : A.region.1 = A.start := by rw [region_eq]
    have hruns : MaximalRun (fun p => ¬ Covered A s p) A.start A.regionEnd a n ↔
        ∃ b ∈ bs, b.free = true ∧ b.addr = a ∧ b.size = n := by
      apply hL.tiles.maximalRun_iff
      · intro b hb
        have hroom := hL.room b hb
        omega
      · exact fun b hb p hbp hpb => hI.inv.covered_iff hb hbp hpb
      · exact hI.apart
    rw [hregion, hstart, hR.freeList_eq, hruns]
    simp [and_assoc]
  · rw [hR.all_size, hR.freeList_eq, List.map_map]
    rfl

theorem HeapApart.firstBlock (hI : HeapApart A s bs) (hlive : s.live = []) : bs = [A.firstBlock] := by
  have hall : ∀ b ∈ bs, b.free = true := by
    intro b hb
    by_contra hused
    have hmem := hI.inv.live.mem_iff.mpr (List.mem_map_of_mem
      (mem_usedAddrs.mpr ⟨b, hb, by simpa using hused, rfl⟩))
    rw [hlive] at hmem
    cases hmem
  have ht := hI.inv.heap.layout.tiles
  cases bs with
  | nil =>
    have hs := start_bounds A
    have hta := tailAddr_bounds A
    have he := regionEnd_bounds A
    have hw := headerSize_pos A.word
    have heq : A.start = A.regionEnd := ht
    simp only [configHeap] at hta
    omega
  | cons b post =>
    cases post with
    | nil =>
      have haddr := ht.1
      have hend : A.start + b.size = A.regionEnd := ht.2
      have hfree := hall b (by simp)
      obtain ⟨addr, size, free⟩ := b
      dsimp only at haddr hend hfree
      subst haddr hfree
      rw [Arena.firstBlock, ← hend, Nat.add_sub_cancel_left]
    | cons c cs =>
      have hapart : ¬ c.free = true :=
        List.IsChain.rel_head? hI.apart (by simp) (hall b (by simp))
      exact absurd (hall c (by simp)) hapart

theorem HeapApart.free_all (hI : HeapApart A s bs) {order : List Nat} (hperm : order.Perm s.live) :
    ∃ s', Runs.run (heapStep A) s (order.map HeapOp.free) = some s' ∧
      HeapApart A s' [A.firstBlock] ∧ s'.live = [] := by
  induction order generalizing s bs with
  | nil =>
    have hlive : s.live = [] := List.nil_perm.mp hperm
    have hbs := hI.firstBlock hlive
    subst hbs
    exact ⟨s, rfl, hI, hlive⟩
  | cons ptr order ih =>
    obtain ⟨hptr, hrest⟩ := List.cons_perm_iff_perm_erase.mp hperm
    obtain ⟨pre, b, post, h', rfl, -, -, -, hs, hI'⟩ := hI.inv.free_cases hptr
    obtain ⟨s', hrun, hfirst, hlive⟩ := ih ⟨hI', hI.apart.release⟩ hrest
    exact ⟨s', Runs.run_cons.mpr ⟨_, hs, hrun⟩, hfirst, hlive⟩

theorem NoFreeNeighbours.release_carve {pre post : List Block} {b : Block}
    (hbs : NoFreeNeighbours (pre ++ b :: post)) (minSize : Nat) {req : Nat} (hb : b.free = true)
    (hreq : req ≤ b.size) :
    ∃ c rest, b.carve minSize req = c :: rest ∧ c.free = false ∧ c.addr = b.addr ∧
      CcRpc.release pre c (rest ++ post) = pre ++ b :: post := by
  have hbs' : NoFreeNeighbours (pre ++ [b] ++ post) := by simpa using hbs
  obtain ⟨hprev, hnext⟩ := hbs'.beside hb
  have hwhole : (⟨b.addr, b.size, true⟩ : Block) = b := by rw [← hb]
  have hjoinPrev : CcRpc.joinPrev pre b post = pre ++ b :: post := by
    rcases List.eq_nil_or_concat pre with rfl | ⟨xs, x, rfl⟩
    · rfl
    · rw [List.concat_eq_append] at hprev ⊢
      rw [joinPrev_snoc, if_neg (hprev x (by simp)), List.append_assoc]
      rfl
  unfold Block.carve
  split
  · refine ⟨_, _, rfl, rfl, rfl, ?_⟩
    have hsum : req + (b.size - req) = b.size := by omega
    unfold CcRpc.release
    rw [List.cons_append, joinNext, if_pos rfl]
    dsimp only
    rw [hsum, hwhole]
    exact hjoinPrev
  · refine ⟨_, _, rfl, rfl, rfl, ?_⟩
    unfold CcRpc.release
    rw [List.nil_append, hwhole]
    cases post with
    | nil => exact hjoinPrev
    | cons q qs =>
      rw [joinNext, if_neg (hnext q (by simp))]
      exact hjoinPrev

/-- `heap_free` of what `heap_malloc` returned puts the free list back. -/
theorem HeapApart.free_malloc (hI : HeapApart A s bs) {n : Nat} (hn : HeaderFits A n) :
    ∃ h₁ ptr h₂, realHeapMalloc A s.heap n = some (h₁, ptr) ∧ realHeapFree A h₁ ptr = some h₂ ∧
      freeList A h₂ = freeList A (readyHeap A s.heap) ∧
      h₂.allSize = (readyHeap A s.heap).allSize := by
  have hR := hI.inv.heap
  rcases hI.inv.malloc_cases hn with
    ⟨-, hnull, -, -⟩ | ⟨pre, b, post, h', rfl, hb, -, hsome, -, hI'⟩
  · exact ⟨_, 0, _, hnull, if_pos rfl, rfl, rfl⟩
  · obtain ⟨hfree, hreq⟩ := fits_free hb
    obtain ⟨c, rest, hcarve, hused, haddr, hrelease⟩ :=
      hI.apart.release_carve A.word.minSize hfree hreq
    have hR' := hI'.ready (List.cons_ne_nil _ _)
    rw [hcarve, List.append_assoc, List.cons_append] at hR'
    obtain ⟨h'', hfreed, hR''⟩ := hR'.free hused
    rw [hrelease] at hR''
    rw [haddr] at hfreed
    refine ⟨h', _, h'', hsome, hfreed, ?_, ?_⟩
    · rw [hR''.freeList_eq, hR.freeList_eq]
    · rw [hR''.all_size, hR.all_size]

/-- The free list is canonical in every state of a run whose requests have room for their header after
rounding. Giving back all live blocks, in any order, leaves the block of `heap_init`, and giving back
what was just taken restores the list. -/
theorem heap_canonical (A : Arena) {ops : List HeapOp} (hops : ∀ n, .malloc n ∈ ops → HeaderFits A n)
    {s : HeapSys} (hrun : Runs.run (heapStep A) HeapSys.initial ops = some s) :
    Canonical A s ∧
      (∀ order : List Nat, order.Perm s.live →
        ∃ s', Runs.run (heapStep A) s (order.map HeapOp.free) = some s' ∧ s'.live = [] ∧
          freeList A (readyHeap A s'.heap) = [A.region] ∧
          (readyHeap A s'.heap).allSize = (heapInit A Heap.initial).allSize) ∧
      ∀ n, HeaderFits A n →
        ∃ h₁ ptr h₂, realHeapMalloc A s.heap n = some (h₁, ptr) ∧ realHeapFree A h₁ ptr = some h₂ ∧
          freeList A h₂ = freeList A (readyHeap A s.heap) ∧
          h₂.allSize = (readyHeap A s.heap).allSize := by
  obtain ⟨bs, hI⟩ := heapApart_run hops hrun
  refine ⟨hI.canonical, ?_, fun n hn => hI.free_malloc hn⟩
  intro order hperm
  obtain ⟨s', hfreed, hfirst, hlive⟩ := hI.free_all hperm
  have hinit : Represents A (heapInit A Heap.initial) [A.firstBlock] := heapInit_represents rfl
  refine ⟨s', hfreed, hlive, ?_, ?_⟩
  · rw [hfirst.inv.heap.freeList_eq, region_eq]
    rfl
  · rw [hfirst.inv.heap.all_size, hinit.all_size]

/-- A request and its release. -/
theorem heap_canonical_small :
    ∃ s, Runs.run (heapStep Arena.low) HeapSys.initial [.malloc 100] = some s ∧ Canonical Arena.low s := by
  have hn : HeaderFits Arena.low 100 := by
    unfold HeaderFits
    decide
  have hrun : ∃ s, Runs.run (heapStep Arena.low) HeapSys.initial [.malloc 100] = some s := by
    rcases (heapInv_initial Arena.low).malloc_cases hn with
      ⟨-, -, hs, -⟩ | ⟨_, _, _, _, -, -, -, -, hs, -⟩
    · exact ⟨_, Runs.run_cons.mpr ⟨_, hs, rfl⟩⟩
    · exact ⟨_, Runs.run_cons.mpr ⟨_, hs, rfl⟩⟩
  obtain ⟨s, hs⟩ := hrun
  refine ⟨s, hs, (heap_canonical Arena.low ?_ hs).1⟩
  intro n hmem
  rw [List.mem_singleton, HeapOp.malloc.injEq] at hmem
  rw [hmem]
  exact hn

/-- The heap after a first request of `2^64 - 16` bytes, which is rounded to 0. -/
def wrappedHeap : Heap := (takeNode Arena.low (heapInit Arena.low Heap.initial) 0 0x1000 0x100000).1

/-- A request that wraps to 0 takes the first block for 0 bytes and ends the free list at it with NULL. -/
theorem malloc_wrap_uncanonical :
    ∃ s, Runs.run (heapStep Arena.low) HeapSys.initial [.malloc (2 ^ 64 - 16)] = some s ∧
      ¬ Canonical Arena.low s := by
  have hround : roundedRequest Arena.low (2 ^ 64 - 16) = 0 := by decide
  have hready : readyHeap Arena.low Heap.initial = heapInit Arena.low Heap.initial := if_pos rfl
  have hR : Represents Arena.low (heapInit Arena.low Heap.initial) ([] ++ [Arena.low.firstBlock]) :=
    heapInit_represents rfl
  have hfits : Arena.low.firstBlock.fits 0 = true := by decide
  have hfind := hR.findFit_found hfits (by simp)
  have hmalloc : realHeapMalloc Arena.low Heap.initial (2 ^ 64 - 16) = some (wrappedHeap, 0x100010) := by
    unfold realHeapMalloc
    simp only [hround, hready, hfind]
    rfl
  have hstep : heapStep Arena.low HeapSys.initial (.malloc (2 ^ 64 - 16)) =
      some ⟨wrappedHeap, [0x100010]⟩ := by
    rw [heapStep, show HeapSys.initial.heap = Heap.initial from rfl, hmalloc]
    rfl
  refine ⟨_, Runs.run_cons.mpr ⟨_, hstep, rfl⟩, ?_⟩
  intro hcanonical
  have htail : wrappedHeap.tail = 2097136 := by decide +kernel
  have hhead : wrappedHeap.next Arena.low.head = 0x100000 := by decide +kernel
  have hnext : wrappedHeap.next 0x100000 = 0 := by decide +kernel
  have hsame : readyHeap Arena.low wrappedHeap = wrappedHeap := by
    rw [readyHeap, if_neg (by rw [htail]; decide)]
  -- the walk goes from the first block to NULL
  obtain ⟨k, hk⟩ : ∃ k, configHeap = k + 1 + 1 := ⟨1048574, by decide⟩
  have hnodes : ∃ rest, freeNodes Arena.low wrappedHeap = 0x100000 :: 0 :: rest := by
    rw [freeNodes, hhead, hk, freeNodesFrom, htail, if_neg (by decide), hnext, freeNodesFrom, htail,
      if_neg (by decide)]
    exact ⟨_, rfl⟩
  obtain ⟨rest, hnodes⟩ := hnodes
  have hincreasing := hcanonical.increasing
  rw [show readyHeap Arena.low (HeapSys.mk wrappedHeap [0x100010]).heap = wrappedHeap from hsame,
    hnodes] at hincreasing
  exact absurd (List.rel_of_pairwise_cons hincreasing List.mem_cons_self) (by decide)

end CcRpc
