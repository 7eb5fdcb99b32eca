import CcRpc.HeapRuns

/-!
# User data and the allocator's nodes

The payload of a live block may be written by its owner. It stays off the free list and off the
sentinel unless the block that ends the arena was handed out, and unless `all_heap` is aligned:
only then does the first block reach over the sentinel.
-/

namespace CcRpc

open Chain Tiling

variable (A : Arena)

/-- The payload of every live block is disjoint from the header of every free node and from the
sentinel. -/
def MetadataSafe (s : HeapSys) : Prop :=
  ∀ ptr ∈ s.live, ∀ node ∈ freeNodes A s.heap ++ [s.heap.tail],
    ptr + (s.heap.blockSize A (ptr - A.word.heapStructSize) - A.word.heapStructSize) ≤ node ∨
      node + A.word.heapStructSize ≤ ptr

/-- The first free block that is large enough ends the arena and is not worth cutting. -/
def TakesArenaEnd (s : HeapSys) : HeapOp → Prop
  | .malloc n =>
    let h := readyHeap A s.heap
    ∃ use, (freeNodes A h).find? (fun a => decide (roundedRequest A n ≤ h.blockSize A a)) = some use ∧
      use + h.blockSize A use = A.allHeap + configHeap ∧
      h.blockSize A use - roundedRequest A n ≤ A.word.minSize
  | .free _ => False

/-- A block handed out ends the region. -/
def EndUsed (bs : List Block) : Prop := ∃ b ∈ bs, b.free = false ∧ b.addr + b.size = A.regionEnd

variable {A} {s s' : HeapSys} {bs : List Block}

theorem regionEnd_of_aligned (hA : A.allHeap % 8 = 0) :
    A.regionEnd = A.allHeap + configHeap ∧ A.regionEnd = A.tailAddr + A.word.heapStructSize := by
  have hw := headerSize_pos A.word
  have ht := tailAddr_bounds A
  have he : A.regionEnd = A.allHeap + configHeap := if_pos hA
  refine ⟨he, ?_⟩
  simp only [configHeap] at ht he
  omega

theorem regionEnd_of_unaligned (hA : A.allHeap % 8 ≠ 0) : A.regionEnd = A.tailAddr := if_neg hA

/-- A used block ends before the sentinel, unless it ends an aligned arena. -/
theorem Layout.end_le_tail (hL : Layout A bs) (hend : A.allHeap % 8 ≠ 0 ∨ ¬ EndUsed A bs) {b : Block}
    (hb : b ∈ bs) (hused : b.free = false) : b.addr + b.size ≤ A.tailAddr := by
  rcases hend with hA | hno
  · rw [← regionEnd_of_unaligned hA]
    exact (hL.tiles.bounds hb).2
  · obtain ⟨pre, post, rfl⟩ := List.append_of_mem hb
    cases post with
    | nil =>
      refine absurd ⟨b, hb, hused, ?_⟩ hno
      obtain ⟨m, -, hm⟩ := tiles_append.mp hL.tiles
      rw [hm.1]
      exact hm.2
    | cons c cs =>
      have hafter := hL.tiles.around.2 c (by simp)
      have hbelow := hL.below c (by simp)
      omega

theorem HeapInv.ready (hI : HeapInv A s bs) (hlive : s.live ≠ []) : Represents A s.heap bs := by
  have hR := hI.heap
  rw [show readyHeap A s.heap = s.heap from if_neg (hI.tail_ne hlive)] at hR
  exact hR

/-- Which states are safe. -/
theorem HeapInv.metadataSafe_iff (hI : HeapInv A s bs) :
    MetadataSafe A s ↔ A.allHeap % 8 ≠ 0 ∨ ¬ EndUsed A bs := by
  have hw := headerSize_pos A.word
  constructor
  · intro hsafe
    by_contra hnot
    simp only [not_or, not_not] at hnot
    obtain ⟨hA, b, hb, hused, hend⟩ := hnot
    have hptr : b.addr + A.word.heapStructSize ∈ s.live :=
      hI.live.mem_iff.mpr (List.mem_map_of_mem (mem_usedAddrs.mpr ⟨b, hb, hused, rfl⟩))
    have hR := hI.ready (List.ne_nil_of_mem hptr)
    have hlap := hsafe _ hptr s.heap.tail (by simp)
    have hroom := hR.layout.room b hb
    have hbelow := hR.layout.below b hb
    have htail := (regionEnd_of_aligned hA).2
    rw [Nat.add_sub_cancel, hR.sizes b hb, hR.tail] at hlap
    omega
  · intro hend ptr hptr node hnode
    have hR := hI.ready (List.ne_nil_of_mem hptr)
    obtain ⟨a, ha, rfl⟩ := List.mem_map.mp (hI.live.mem_iff.mp hptr)
    obtain ⟨b, hb, hused, rfl⟩ := mem_usedAddrs.mp ha
    have hroom := hR.layout.room b hb
    rw [Nat.add_sub_cancel, hR.sizes b hb]
    rw [hR.freeNodes_eq, hR.tail, List.mem_append, List.mem_singleton] at hnode
    rcases hnode with hnode | rfl
    · obtain ⟨c, hc, hfree, rfl⟩ := mem_freeAddrs.mp hnode
      have hcroom := hR.layout.room c hc
      rcases hR.layout.tiles.eq_or_apart hb hc with rfl | h | h
      · rw [hused] at hfree
        cases hfree
      · left; omega
      · right; omega
    · have := hR.layout.end_le_tail hend hb hused
      left; omega

theorem find?_freeAddrs {h : Heap} (req : Nat) (hsizes : ∀ b ∈ bs, h.blockSize A b.addr = b.size) :
    (freeAddrs bs).find? (fun a => decide (req ≤ h.blockSize A a)) =
      (bs.find? (Block.fits req)).map (·.addr) := by
  induction bs with
  | nil => rfl
  | cons b bs ih =>
    have hrest := ih fun c hc => hsizes c (by simp [hc])
    have hb := hsizes b (by simp)
    rw [freeAddrs_cons]
    cases hfree : b.free with
    | false => simp [Block.fits, hfree, hrest]
    | true =>
      rw [if_pos rfl, List.find?_cons, List.find?_cons, hb, hrest]
      simp only [Block.fits, hfree, Bool.true_and]
      split <;> rfl

/-- Only handing out the end of the arena makes the end used. -/
theorem endUsed_carve (hA : A.allHeap % 8 = 0) {pre post : List Block} {b : Block} {req : Nat}
    (hL : Layout A (pre ++ b :: post)) (hno : ¬ EndUsed A (pre ++ b :: post)) (hfit : b.fits req = true) :
    EndUsed A (pre ++ b.carve A.word.minSize req ++ post) ↔
      b.addr + b.size = A.allHeap + configHeap ∧ b.size - req ≤ A.word.minSize := by
  have hregion := (regionEnd_of_aligned hA).1
  have hend := (hL.tiles.bounds (x := b) (by simp)).2
  have hreq : b.free = true ∧ req ≤ b.size := by simpa [Block.fits] using hfit
  constructor
  · rintro ⟨c, hc, hused, hcend⟩
    have hcmem : c ∈ b.carve A.word.minSize req := by
      by_contra hcnot
      refine hno ⟨c, ?_, hused, hcend⟩
      simp only [List.mem_append, List.mem_cons, hcnot, or_false] at hc ⊢
      tauto
    unfold Block.carve at hcmem
    split at hcmem
    · next hbig =>
      simp only [List.mem_cons, List.not_mem_nil, or_false] at hcmem
      rcases hcmem with rfl | rfl
      · dsimp only at hcend
        omega
      · cases hused
    · next hsmall =>
      rw [List.mem_singleton] at hcmem
      subst hcmem
      dsimp only at hcend
      omega
  · rintro ⟨hbend, hsmall⟩
    refine ⟨⟨b.addr, b.size, false⟩, ?_, rfl, by rw [hregion]; exact hbend⟩
    rw [Block.carve, if_neg (by omega)]
    simp

/-- In an aligned arena whose end is free, one call makes the end used exactly when it takes it. -/
theorem HeapInv.step_endUsed (hA : A.allHeap % 8 = 0) (hI : HeapInv A s bs) (hno : ¬ EndUsed A bs)
    {op : HeapOp} (hop : ∀ n, op = .malloc n → HeaderFits A n) (hstep : heapStep A s op = some s') :
    ∃ bs', HeapInv A s' bs' ∧ (EndUsed A bs' ↔ TakesArenaEnd A s op) := by
  cases op with
  | malloc n =>
    have hfind := find?_freeAddrs (roundedRequest A n) hI.heap.sizes
    rw [← hI.heap.freeNodes_eq] at hfind
    rcases hI.malloc_cases (hop n rfl) with
      ⟨hnone, -, hs, hI'⟩ | ⟨pre, b, post, h', rfl, hb, hpre, -, hs, hI'⟩
    · rw [hs] at hstep
      cases hstep
      refine ⟨bs, hI', iff_of_false hno ?_⟩
      rintro ⟨use, huse, -⟩
      rw [hfind, List.find?_eq_none.mpr (by simpa using hnone)] at huse
      cases huse
    · rw [hs] at hstep
      cases hstep
      refine ⟨_, hI', (endUsed_carve hA hI.heap.layout hno hb).trans ?_⟩
      have hfirst : (pre ++ b :: post).find? (Block.fits (roundedRequest A n)) = some b :=
        List.find?_eq_some_iff_append.mpr ⟨hb, pre, post, rfl, by simpa using hpre⟩
      have hsize := hI.heap.sizes b (by simp)
      rw [hfirst] at hfind
      unfold TakesArenaEnd
      dsimp only
      rw [hfind, Option.map_some]
      constructor
      · intro h
        refine ⟨b.addr, rfl, ?_⟩
        rw [hsize]
        exact h
      · rintro ⟨use, huse, h⟩
        cases huse
        rw [hsize] at h
        exact h
  | free ptr =>
    by_cases hptr : ptr ∈ s.live
    · obtain ⟨pre, b, post, h', rfl, -, -, -, hs, hI'⟩ := hI.free_cases hptr
      rw [hs] at hstep
      cases hstep
      refine ⟨_, hI', iff_of_false ?_ id⟩
      rintro ⟨c, hc, hused, hcend⟩
      have hcused : c ∈ (release pre b post).filter (!·.free) :=
        List.mem_filter.mpr ⟨hc, by simp [hused]⟩
      rw [used_release, ← List.filter_append] at hcused
      have hcmem := (List.mem_filter.mp hcused).1
      exact hno ⟨c, by simp only [List.mem_append, List.mem_cons] at hcmem ⊢; tauto, hused, hcend⟩
    · rw [heapStep, if_neg hptr] at hstep
      cases hstep

theorem HeapInv.safe_iff_along (hA : A.allHeap % 8 = 0) {ops : List HeapOp} (hI : HeapInv A s bs)
    (hno : ¬ EndUsed A bs) (hops : ∀ n, .malloc n ∈ ops → HeaderFits A n) :
    (∀ pre s', pre <+: ops → Runs.run (heapStep A) s pre = some s' → MetadataSafe A s') ↔
      Runs.Along (heapStep A) (fun s op => ¬ TakesArenaEnd A s op) s ops := by
  induction ops generalizing s bs with
  | nil =>
    refine iff_of_true ?_ trivial
    intro pre s' hpre hrun
    rw [List.prefix_nil.mp hpre] at hrun
    cases hrun
    exact hI.metadataSafe_iff.mpr (Or.inr hno)
  | cons op ops ih =>
    have hop : ∀ n, op = .malloc n → HeaderFits A n := by
      intro n hn
      exact hops n (by simp [hn])
    have htail : ∀ n, .malloc n ∈ ops → HeaderFits A n := by
      intro n hn
      exact hops n (by simp [hn])
    constructor
    · intro hsafe
      have hkeeps : ∀ s₁, heapStep A s op = some s₁ → ¬ TakesArenaEnd A s op := by
        intro s₁ hs₁ htakes
        obtain ⟨bs', hI', hend⟩ := hI.step_endUsed hA hno hop hs₁
        have hbad := hsafe [op] s₁ (by simp) (Runs.run_cons.mpr ⟨s₁, hs₁, rfl⟩)
        rcases hI'.metadataSafe_iff.mp hbad with hunaligned | hfree
        · exact hunaligned hA
        · exact hfree (hend.mpr htakes)
      refine ⟨?_, fun s₁ hs₁ => ?_⟩
      · cases hs₁ : heapStep A s op with
        | some s₁ => exact hkeeps s₁ hs₁
        | none =>
          cases op with
          | malloc n =>
            rcases hI.malloc_cases (hop n rfl) with ⟨-, -, hs, -⟩ | ⟨_, _, _, _, -, -, -, -, hs, -⟩ <;>
              rw [hs] at hs₁ <;> cases hs₁
          | free ptr => exact id
      · obtain ⟨bs', hI', hend⟩ := hI.step_endUsed hA hno hop hs₁
        refine (ih hI' (fun h => hkeeps s₁ hs₁ (hend.mp h)) htail).mp ?_
        intro pre s' hpre hrun
        exact hsafe (op :: pre) s' (by simpa using hpre) (Runs.run_cons.mpr ⟨s₁, hs₁, hrun⟩)
    · rintro ⟨hkeep, hrest⟩ pre s' hpre hrun
      cases pre with
      | nil =>
        cases hrun
        exact hI.metadataSafe_iff.mpr (Or.inr hno)
      | cons op' pre =>
        obtain ⟨rfl, hpre'⟩ := List.cons_prefix_cons.mp hpre
        obtain ⟨s₁, hs₁, hrun⟩ := Runs.run_cons.mp hrun
        obtain ⟨bs', hI', hend⟩ := hI.step_endUsed hA hno hop hs₁
        exact (ih hI' (fun h => hkeep (hend.mp h)) htail).mpr (hrest s₁ hs₁) pre s' hpre' hrun

theorem endUsed_firstBlock (A : Arena) : ¬ EndUsed A [A.firstBlock] := by
  rintro ⟨b, hb, hused, -⟩
  rw [List.mem_singleton.mp hb] at hused
  cases hused

/-- User data and allocator metadata. Over the runs whose rounded requests have room for a header:
every state of a run is safe exactly when `all_heap` is not aligned or no request of the run takes
the end of the arena. -/
theorem metadataSafe_iff_along (A : Arena) {ops : List HeapOp}
    (hops : ∀ n, .malloc n ∈ ops → HeaderFits A n) :
    (∀ pre s, pre <+: ops → Runs.run (heapStep A) HeapSys.initial pre = some s → MetadataSafe A s) ↔
      A.allHeap % 8 ≠ 0 ∨
        Runs.Along (heapStep A) (fun s op => ¬ TakesArenaEnd A s op) HeapSys.initial ops := by
  by_cases hA : A.allHeap % 8 = 0
  · rw [(heapInv_initial A).safe_iff_along hA (endUsed_firstBlock A) hops]
    simp [hA]
  · refine iff_of_true ?_ (Or.inl hA)
    intro pre s hpre hrun
    obtain ⟨bs, hI⟩ := heapRun_inv (fun n hn => hops n (hpre.subset hn)) hrun
    exact hI.metadataSafe_iff.mpr (Or.inl hA)

/-- Two small requests on an aligned arena; neither comes near its end. -/
theorem metadataSafe_iff_along_small :
    (∀ pre s, pre <+: [HeapOp.malloc 100, HeapOp.malloc 7] →
      Runs.run (heapStep Arena.low) HeapSys.initial pre = some s → MetadataSafe Arena.low s) ↔
      Arena.low.allHeap % 8 ≠ 0 ∨ Runs.Along (heapStep Arena.low)
        (fun s op => ¬ TakesArenaEnd Arena.low s op) HeapSys.initial
          [HeapOp.malloc 100, HeapOp.malloc 7] := by
  refine metadataSafe_iff_along Arena.low ?_
  intro n hn
  simp only [List.mem_cons, HeapOp.malloc.injEq, List.not_mem_nil, or_false] at hn
  rcases hn with rfl | rfl
  · unfold HeaderFits
    decide
  · unfold HeaderFits
    decide

/-- One request for all there is gets the bytes of the sentinel. -/
theorem malloc_arena_unsafe :
    ∃ s, Runs.run (heapStep Arena.low) HeapSys.initial [.malloc (configHeap - 16)] = some s ∧
      ¬ MetadataSafe Arena.low s := by
  have hfits : HeaderFits Arena.low (configHeap - 16) := by
    unfold HeaderFits
    decide
  have hblock : Arena.low.firstBlock.fits (roundedRequest Arena.low (configHeap - 16)) = true := by
    decide
  rcases (heapInv_initial Arena.low).malloc_cases hfits with
    ⟨hno, -, -, -⟩ | ⟨pre, b, post, h', hbs, hb, -, -, hs, hI'⟩
  · rw [hno Arena.low.firstBlock (by simp)] at hblock
    cases hblock
  · refine ⟨_, Runs.run_cons.mpr ⟨_, hs, rfl⟩, fun hsafe => ?_⟩
    have hnil : pre = [] ∧ post = [] ∧ b = Arena.low.firstBlock := by
      cases pre with
      | nil =>
        rw [List.nil_append, List.cons.injEq] at hbs
        exact ⟨rfl, hbs.2.symm, hbs.1.symm⟩
      | cons x xs => simp at hbs
    obtain ⟨rfl, rfl, rfl⟩ := hnil
    rcases hI'.metadataSafe_iff.mp hsafe with hunaligned | hfree
    · exact hunaligned (by decide)
    · refine hfree ((endUsed_carve (by decide) (layout_firstBlock _) (endUsed_firstBlock _) hb).mpr ?_)
      decide

end CcRpc
