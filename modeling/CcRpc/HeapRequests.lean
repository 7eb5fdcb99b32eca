import CcRpc.HeapCanonical

/-!
# Requests near the end of `size_t`

The header and the alignment are added to a request in `size_t` without a check. A request that wraps
is taken for a small one, and then gets a block that is too small for it, unless not even that is
there.
-/

namespace CcRpc

open Chain Tiling

variable (A : Arena)

/-- What `heap_malloc(n)` should do: return NULL and leave the heap as it is, or return `n` bytes; in
both cases with a canonical free list. -/
def HeapServed (s : HeapSys) (n : Nat) : Prop :=
  ∃ h' ptr, realHeapMalloc A s.heap n = some (h', ptr) ∧ (ptr = 0 → h' = readyHeap A s.heap) ∧
    (ptr ≠ 0 → n + A.word.heapStructSize ≤ h'.blockSize A (ptr - A.word.heapStructSize)) ∧
    Canonical A ⟨h', if ptr = 0 then s.live else ptr :: s.live⟩

/-- The request does not wrap, or no node that the search looks at is as large as what it wraps to. -/
def HeapRequestFits (s : HeapSys) (n : Nat) : Prop :=
  Unwrapped A n ∨ ∀ a ∈ freeNodes A (readyHeap A s.heap) ++ [(readyHeap A s.heap).tail],
    (readyHeap A s.heap).blockSize A a < roundedRequest A n

/-- Every request of a run is of that kind. -/
def HeapOpFits (s : HeapSys) : HeapOp → Prop
  | .malloc n => HeapRequestFits A s n
  | .free _ => True

variable {A} {s s' : HeapSys} {h : Heap} {bs : List Block}

theorem Represents.chain_null (hR : Represents A h bs) :
    Linked h.next A.head (freeAddrs bs ++ [A.tailAddr]) 0 := by
  -- the rewriting keeps the kernel from evaluating `A.tailAddr`
  rw [linked_append, List.headD_cons]
  exact ⟨hR.chain, hR.chain.last, hR.tail_next⟩

theorem Represents.search (hR : Represents A h bs) (size : Nat) :
    ((∀ a ∈ freeAddrs bs ++ [A.tailAddr], h.blockSize A a < size) ∧
        findFit A h size configHeap A.head (h.next A.head) = some none) ∨
      ∃ prev use, prev ∈ A.head :: freeAddrs bs ∧ use ∈ freeAddrs bs ++ [A.tailAddr] ∧ prev ≠ use ∧
        size ≤ h.blockSize A use ∧
        findFit A h size configHeap A.head (h.next A.head) = some (some (prev, use)) := by
  have htail := tailAddr_pos A
  have hpos : ∀ x ∈ freeAddrs bs ++ [A.tailAddr], x ≠ 0 := by
    intro x hx
    rcases List.mem_append.mp hx with hx | hx
    · exact hR.free_ne_zero x hx
    · rw [List.mem_singleton.mp hx]
      omega
  have hnodup : (A.head :: freeAddrs bs ++ [A.tailAddr]).Nodup := by
    apply List.nodup_append.mpr
    refine ⟨hR.layout.nodup, List.nodup_singleton _, ?_⟩
    intro x hx y hy heq
    rw [List.mem_singleton.mp hy] at heq
    rcases List.mem_cons.mp hx with rfl | hx
    · exact hR.layout.ne_tail (Or.inl rfl) heq
    · obtain ⟨b, hb, -, haddr⟩ := mem_freeAddrs.mp hx
      exact hR.layout.ne_tail (Or.inr ⟨b, hb, haddr⟩) heq
  cases hfind : (freeAddrs bs ++ [A.tailAddr]).find? fun a => decide (size ≤ h.blockSize A a) with
  | none =>
    have hsmall : ∀ a ∈ freeAddrs bs ++ [A.tailAddr], h.blockSize A a < size := by
      intro a ha
      simpa using List.find?_eq_none.mp hfind a ha
    refine Or.inl ⟨hsmall, ?_⟩
    exact CcRpc.findFit_none hR.chain (fun x hx => hsmall x (by simp [hx])) (hsmall _ (by simp))
      hR.tail_next hR.free_ne_zero (by omega) hR.length_lt
  | some use =>
    obtain ⟨huse, ns, qs, hsplit, hns⟩ := List.find?_eq_some_iff_append.mp hfind
    rw [decide_eq_true_eq] at huse
    have hchain := hR.chain_null
    rw [hsplit] at hchain hpos
    have hlen : ns.length < configHeap := by
      have hlen := congrArg List.length hsplit
      have hlt := hR.length_lt
      simp only [List.length_append, List.length_cons, List.length_nil] at hlen
      omega
    have hfound := CcRpc.findFit_found hchain (fun x hx => by simpa using hns x hx) huse hpos hlen
    refine Or.inr ⟨_, use, ?_, by simp [hsplit], ?_, huse, hfound⟩
    · -- the node before it is not the sentinel, which is the last
      have hfront : ns <+: freeAddrs bs := by
        rcases List.eq_nil_or_concat qs with rfl | ⟨qs, q, rfl⟩
        · have hlen : [A.tailAddr].length = [use].length := by
            rw [List.length_singleton, List.length_singleton]
          exact (List.append_inj_left' hsplit hlen) ▸ List.prefix_refl _
        · rw [List.concat_eq_append, ← List.cons_append, ← List.append_assoc] at hsplit
          rw [List.append_inj_left' hsplit (by rw [List.length_singleton, List.length_singleton])]
          exact List.prefix_append _ _
      rcases List.mem_cons.mp (getLastD_mem A.head ns) with heq | hmem
      · rw [heq]
        exact List.mem_cons_self
      · exact List.mem_cons_of_mem _ (hfront.subset hmem)
    · rw [List.cons_append, hsplit, ← List.cons_append] at hnodup
      intro heq
      have hmem := getLastD_mem A.head ns
      rw [heq] at hmem
      exact (List.nodup_append.mp hnodup).2.2 use hmem use List.mem_cons_self rfl

/-- Whatever the size, the `block_size` stored is the size, or was a link or a `block_size` before. -/
theorem takeNode_blockSize_le {size prev use bound : Nat} (hprev : prev ≠ use + A.word.bytes)
    (hsize : size ≤ h.blockSize A use) (hlt : h.blockSize A use < 2 ^ A.word.bits)
    (hbound : h.blockSize A use ≤ bound) (hnext : h.next use ≤ bound) :
    (takeNode A h size prev use).1.blockSize A use ≤ bound := by
  have hbytes : 0 < A.word.bytes := by
    rcases A.word.bytes_eq with hw | hw <;> omega
  have hsub : A.word.sub (h.blockSize A use) size = h.blockSize A use - size :=
    WordSize.sub_of_le hsize hlt
  have hfirst : (h.setNext prev (h.next use)).blockSize A use = h.blockSize A use :=
    Function.update_of_ne (Ne.symm hprev) ..
  unfold takeNode
  dsimp only
  rw [hfirst, hsub]
  by_cases hbig : A.word.minSize < h.blockSize A use - size
  · rw [if_pos hbig]
    -- the new node's `next`, stored last, may lie over the `block_size`
    let h₂ := (h.setNext prev (h.next use)).setBlockSize A (use + size) (h.blockSize A use - size)
    have hlink : (h₂.setBlockSize A use size).next prev ≤ bound := by
      change Function.update h₂.mem (use + A.word.bytes) size prev ≤ bound
      rw [Function.update_of_ne hprev]
      change Function.update (Function.update h.mem prev (h.next use)) (use + size + A.word.bytes)
        (h.blockSize A use - size) prev ≤ bound
      by_cases hover : prev = use + size + A.word.bytes
      · rw [← hover, Function.update_self]
        omega
      · rwa [Function.update_of_ne hover, Function.update_self]
    change Function.update (Function.update (Function.update (h₂.setBlockSize A use size).mem
      (use + size) ((h₂.setBlockSize A use size).next prev)) prev (use + size)) use 0
      (use + A.word.bytes) ≤ bound
    rw [Function.update_of_ne (by omega), Function.update_of_ne (Ne.symm hprev)]
    by_cases hover : use + A.word.bytes = use + size
    · rwa [hover, Function.update_self]
    · rw [Function.update_of_ne hover]
      change Function.update h₂.mem (use + A.word.bytes) size (use + A.word.bytes) ≤ bound
      rw [Function.update_self]
      exact hsize.trans hbound
  · rw [if_neg hbig]
    change Function.update (h.setNext prev (h.next use)).mem use 0 (use + A.word.bytes) ≤ bound
    rw [Function.update_of_ne (by omega)]
    exact hfirst.trans_le hbound

/-- A request that wraps gets a block that is too small for it, or NULL. -/
theorem Represents.malloc_wrapped (hR : Represents A h bs) {n : Nat} (hn : ¬ Unwrapped A n) :
    ((∀ a ∈ freeAddrs bs ++ [A.tailAddr], h.blockSize A a < roundedRequest A n) ∧
        realHeapMalloc A h n = some (h, 0)) ∨
      ∃ h' use, realHeapMalloc A h n = some (h', use + A.word.heapStructSize) ∧
        (∃ a ∈ freeAddrs bs ++ [A.tailAddr], roundedRequest A n ≤ h.blockSize A a) ∧
        h'.blockSize A use < n + A.word.heapStructSize := by
  have hw := headerSize_pos A.word
  have hready := readyHeap_of_tail hR.tail
  have htail := tailAddr_bounds A
  have hfits := A.allHeap_fits
  have hword := A.word.two_pow_le
  rcases hR.search (roundedRequest A n) with ⟨hsmall, hfind⟩ | ⟨prev, use, hprev, huse, hne, hsize, hfind⟩
  · refine Or.inl ⟨hsmall, ?_⟩
    unfold realHeapMalloc
    simp only [hready, hfind]
  · right
    refine ⟨(CcRpc.takeNode A h (roundedRequest A n) prev use).1, use, ?_, ⟨use, huse, hsize⟩, ?_⟩
    · unfold realHeapMalloc
      simp only [hready, hfind]
      rfl
    · -- links are below the end of the arena, sizes are at most its size
      have hnode : A.Node bs use := by
        rcases List.mem_append.mp huse with huse | huse
        · exact node_free (List.mem_cons_of_mem _ huse)
        · rw [List.mem_singleton.mp huse]
          exact node_tail bs
      have hapart := (hR.layout.separate prev use (node_free hprev) hnode).resolve_left hne
      have hbytes : prev ≠ use + A.word.bytes := by
        simp only [Arena.Apart, heapStructSize_eq] at hapart
        rcases A.word.bytes_eq with hw | hw <;> omega
      have hblock : h.blockSize A use ≤ configHeap := by
        rcases List.mem_append.mp huse with huse | huse
        · obtain ⟨b, hb, -, rfl⟩ := mem_freeAddrs.mp huse
          have hin := hR.layout.tiles.bounds hb
          have hstart := start_bounds A
          have hend := regionEnd_bounds A
          rw [hR.sizes b hb]
          omega
        · rw [List.mem_singleton.mp huse, hR.tail_size]
          exact Nat.zero_le _
      have hnext : h.next use ≤ A.tailAddr := by
        rcases List.mem_append.mp huse with huse | huse
        · obtain ⟨ns, qs, hsplit⟩ := List.append_of_mem huse
          have hchain := hR.chain
          rw [hsplit] at hchain
          rw [(linked_append.mp hchain).2.2.first]
          cases qs with
          | nil => rw [List.headD_nil]
          | cons q qs =>
            have hq : q ∈ freeAddrs bs := by simp [hsplit]
            obtain ⟨b, hb, -, rfl⟩ := mem_freeAddrs.mp hq
            have hbelow := hR.layout.below b hb
            rw [List.headD_cons]
            exact (Nat.le_add_right _ _).trans hbelow
        · rw [List.mem_singleton.mp huse, hR.tail_next]
          exact Nat.zero_le _
      have hlt : h.blockSize A use < 2 ^ A.word.bits := by
        simp only [configHeap] at hblock
        omega
      have hmax : max configHeap A.tailAddr < 2 ^ A.word.bits - 7 := by
        apply max_lt
        · simp only [configHeap]
          omega
        · omega
      have hle := takeNode_blockSize_le hbytes hsize hlt (le_max_of_le_left hblock)
        (le_max_of_le_right hnext)
      apply (hle.trans_lt hmax).trans_le
      unfold Unwrapped at hn
      simp only [alignmentByte] at hn
      omega

theorem HeapApart.malloc_fits (hI : HeapApart A s bs) {n : Nat} (hn : HeapRequestFits A s n) :
    ∃ h' ptr bs', realHeapMalloc A s.heap n = some (h', ptr) ∧
      (ptr = 0 → h' = readyHeap A s.heap) ∧
      (ptr ≠ 0 → n + A.word.heapStructSize ≤ h'.blockSize A (ptr - A.word.heapStructSize)) ∧
      HeapApart A ⟨h', if ptr = 0 then s.live else ptr :: s.live⟩ bs' := by
  have hw := headerSize_pos A.word
  by_cases hunwrapped : Unwrapped A n
  · obtain ⟨h', ptr, hmalloc, -, hblock⟩ := hI.inv.malloc_spec hunwrapped
    rcases hI.inv.malloc_cases hunwrapped.headerFits with
      ⟨-, hnull, -, hI'⟩ | ⟨pre, b, post, h'', rfl, hb, -, hsome, -, hI'⟩
    · exact ⟨_, 0, bs, hnull, fun _ => rfl, fun hne => absurd rfl hne, hI', hI.apart⟩
    · rw [hsome, Option.some_inj, Prod.mk.injEq] at hmalloc
      obtain ⟨rfl, rfl⟩ := hmalloc
      have hne : b.addr + A.word.heapStructSize ≠ 0 := by omega
      refine ⟨h'', _, pre ++ b.carve A.word.minSize (roundedRequest A n) ++ post, hsome,
        fun hzero => absurd hzero hne, fun _ => (hblock hne).2.2.2, ?_⟩
      rw [if_neg hne]
      exact ⟨hI', hI.apart.carve (fits_free hb).1 _ _⟩
  · have hsmall := hn.resolve_left hunwrapped
    have hR := hI.inv.heap
    rw [hR.freeNodes_eq, hR.tail] at hsmall
    rcases hR.malloc_wrapped hunwrapped with ⟨-, hnull⟩ | ⟨-, -, -, ⟨a, ha, hle⟩, -⟩
    · rw [← hI.inv.realHeapMalloc_ready] at hnull
      exact ⟨_, 0, bs, hnull, fun _ => rfl, fun hne => absurd rfl hne,
        heapInv_of_represents hR hI.inv.live, hI.apart⟩
    · exact absurd (hsmall a ha) (Nat.not_lt.mpr hle)

theorem HeapApart.served_iff (hI : HeapApart A s bs) (n : Nat) :
    HeapServed A s n ↔ HeapRequestFits A s n := by
  constructor
  · rintro ⟨h', ptr, hmalloc, -, hblock, -⟩
    by_cases hunwrapped : Unwrapped A n
    · exact Or.inl hunwrapped
    · right
      have hw := headerSize_pos A.word
      have hR := hI.inv.heap
      rw [hR.freeNodes_eq, hR.tail]
      rcases hR.malloc_wrapped hunwrapped with ⟨hsmall, -⟩ | ⟨h'', use, hsome, -, hlt⟩
      · exact hsmall
      · rw [← hI.inv.realHeapMalloc_ready, hmalloc, Option.some_inj, Prod.mk.injEq] at hsome
        obtain ⟨rfl, rfl⟩ := hsome
        have hle := hblock (by omega)
        rw [Nat.add_sub_cancel] at hle
        exact absurd hlt (Nat.not_lt.mpr hle)
  · intro hn
    obtain ⟨h', ptr, bs', hmalloc, hnull, hblock, hI'⟩ := hI.malloc_fits hn
    exact ⟨h', ptr, hmalloc, hnull, hblock, hI'.canonical⟩

theorem heapApart_run_fits {ops : List HeapOp}
    (hops : Runs.Along (heapStep A) (HeapOpFits A) HeapSys.initial ops)
    (hrun : Runs.run (heapStep A) HeapSys.initial ops = some s) : ∃ bs, HeapApart A s bs := by
  have hstep : ∀ s op s', (∃ bs, HeapApart A s bs) → HeapOpFits A s op →
      heapStep A s op = some s' → ∃ bs, HeapApart A s' bs := by
    rintro s op s' ⟨bs, hI⟩ hop hs
    cases op with
    | malloc n =>
      obtain ⟨h', ptr, bs', hmalloc, -, -, hI'⟩ := hI.malloc_fits hop
      rw [heapStep, hmalloc] at hs
      obtain rfl := Option.some.inj hs
      exact ⟨bs', hI'⟩
    | free ptr => exact hI.step (fun n hn => by cases hn) hs
  exact Runs.run_induction hstep ⟨_, heapApart_initial A⟩ hops hrun

end CcRpc
