import CcRpc.Lib.HeapPrograms
import CcRpc.HeapCanonical
import CcRpc.Payload

/-!
# Programs on the heap

`heap_malloc` and `heap_free` serve programs that hold blocks: what is granted lies in the arena and
has no byte in common with what is held, whoever holds it, and only what is held is freed.
-/

namespace CcRpc

open HeapPrograms

/-- `heap_malloc_dbg` and `heap_free_dbg`, each as a whole under `heap_lock`. Only a live pointer may be
freed. -/
def heapAllocator (A : Arena) : Allocator HeapSys where
  malloc s n := (realHeapMalloc A s.heap n).map fun (h, ptr) =>
    if ptr = 0 then (⟨h, s.live⟩, none) else (⟨h, ptr :: s.live⟩, some ptr)
  free s ptr := heapStep A s (.free ptr)

/-- The live pointers are those of the blocks held, and each has the bytes that were asked for behind
the header of a block of the arena. -/
structure HeapHolds (A : Arena) (s : HeapSys) (bs : Multiset (Nat × Nat)) : Prop where
  layout : ∃ l, HeapApart A s l ∧ ∀ x ∈ bs, ∃ b ∈ l, b.free = false ∧
    x.1 = b.addr + A.word.heapStructSize ∧ x.2 + A.word.heapStructSize ≤ b.size
  live : (s.live : Multiset Nat) = bs.map Prod.fst

namespace OnHeap

/-- `heap_malloc`. -/
def heapMalloc (n : Nat) : Program (Option Nat) := .malloc n .done

/-- `heap_free`. -/
def heapFree (p : Nat) : Program Unit := .free p (.done ())

end OnHeap

variable {A : Arena} {s : HeapSys} {bs : Multiset (Nat × Nat)} {l : List Block}

theorem heapAllocator_malloc {n ptr : Nat} {h : Heap} (hcall : realHeapMalloc A s.heap n = some (h, ptr)) :
    (heapAllocator A).malloc s n =
      some (if ptr = 0 then (⟨h, s.live⟩, none) else (⟨h, ptr :: s.live⟩, some ptr)) := by
  simp [heapAllocator, hcall]

theorem HeapApart.nodup (hI : HeapApart A s l) : s.live.Nodup := by
  have hw := headerSize_pos A.word
  rw [hI.inv.live.nodup_iff, List.nodup_map_iff fun a b h => Nat.add_right_cancel h, usedAddrs]
  have hpair := hI.inv.heap.layout.tiles.pairwise
  have haddrs : (l.map Block.addr).Nodup := by
    rw [List.Nodup, List.pairwise_map]
    refine hpair.imp_of_mem ?_
    intro b c hb _ hle heq
    have hroom := hI.inv.heap.layout.room b hb
    omega
  exact haddrs.sublist (List.filter_sublist.map _)

theorem HeapApart.within (hI : HeapApart A s l) {b c : Block} (hb : b ∈ l) (hc : c ∈ l)
    (hne : b.addr ≠ c.addr) {n m : Nat} (hn : n + A.word.heapStructSize ≤ b.size)
    (hm : m + A.word.heapStructSize ≤ c.size) :
    Apart (b.addr + A.word.heapStructSize) n (c.addr + A.word.heapStructSize) m := by
  rcases hI.inv.heap.layout.tiles.eq_or_apart hb hc with rfl | hle | hle
  · exact absurd rfl hne
  · apply Or.inl
    omega
  · apply Or.inr
    omega

theorem HeapHolds.pairwise {xs : List (Nat × Nat)} (hs : HeapHolds A s xs) :
    xs.Pairwise fun x y => Apart x.1 x.2 y.1 y.2 := by
  obtain ⟨l, hI, hat⟩ := hs.layout
  have hlive : s.live.Perm (xs.map Prod.fst) := Multiset.coe_eq_coe.mp hs.live
  have hnodup : (xs.map Prod.fst).Nodup := hlive.nodup_iff.mp hI.nodup
  refine (List.pairwise_map.mp hnodup).imp_of_mem ?_
  intro x y hx hy hne
  obtain ⟨b, hb, -, hxb, hxn⟩ := hat x (Multiset.mem_coe.mpr hx)
  obtain ⟨c, hc, -, hyc, hyn⟩ := hat y (Multiset.mem_coe.mpr hy)
  rw [hxb, hyc] at hne ⊢
  exact hI.within hb hc (fun heq => hne (by rw [heq])) hxn hyn

theorem HeapHolds.payload (hs : HeapHolds A s bs) {x : Nat × Nat} (hx : x ∈ bs) : A.Payload x.2 x.1 := by
  obtain ⟨l, hI, hat⟩ := hs.layout
  obtain ⟨b, hb, -, hxb, hxn⟩ := hat x hx
  have hbounds := hI.inv.heap.layout.tiles.bounds hb
  have hmod := hI.inv.heap.layout.addr_mod hb
  have hw := headerSize_pos A.word
  have hstart := start_bounds A
  have hend := regionEnd_bounds A
  refine ⟨?_, ?_, ?_⟩
  · rw [hxb]
    omega
  · rw [hxb]
    omega
  · rw [hxb]
    omega

theorem HeapHolds.malloc (hs : HeapHolds A s bs) {n : Nat} (hn : Unwrapped A n) :
    ∃ s' a, (heapAllocator A).malloc s n = some (s', a) ∧
      (a = none ∧ HeapHolds A s' bs ∨
        ∃ p, a = some p ∧ A.Payload n p ∧ (∀ x ∈ bs, Apart p n x.1 x.2) ∧
          HeapHolds A s' ((p, n) ::ₘ bs)) := by
  obtain ⟨l, hI, hat⟩ := hs.layout
  rcases hI.inv.malloc_cases hn.headerFits with
    ⟨-, hnull, -, hI'⟩ | ⟨pre, b, post, h', rfl, hb, -, hsome, -, hI'⟩
  · have hcall := heapAllocator_malloc hnull
    rw [if_pos rfl] at hcall
    exact ⟨_, none, hcall, .inl ⟨rfl, ⟨l, ⟨hI', hI.apart⟩, hat⟩, hs.live⟩⟩
  · obtain ⟨hfree, hfit⟩ := fits_free hb
    have hreq := (roundedRequest_eq A hn).1
    have hpos : b.addr + A.word.heapStructSize ≠ 0 := by
      have hw := headerSize_pos A.word
      omega
    have hapart' : HeapApart A ⟨h', (b.addr + A.word.heapStructSize) :: s.live⟩
        (pre ++ b.carve A.word.minSize (roundedRequest A n) ++ post) := ⟨hI', hI.apart.carve hfree _ _⟩
    -- the block that is handed out, and those that were before
    obtain ⟨c, hc, hused, haddr, hsize⟩ : ∃ c ∈ pre ++ b.carve A.word.minSize (roundedRequest A n) ++ post,
        c.free = false ∧ c.addr = b.addr ∧ n + A.word.heapStructSize ≤ c.size := by
      unfold Block.carve
      split
      · exact ⟨⟨b.addr, roundedRequest A n, false⟩, by simp, rfl, rfl, hreq⟩
      · exact ⟨⟨b.addr, b.size, false⟩, by simp, rfl, rfl, hreq.trans hfit⟩
    have hkept : ∀ d ∈ pre ++ b :: post, d.free = false →
        d ∈ pre ++ b.carve A.word.minSize (roundedRequest A n) ++ post := by
      intro d hd hdused
      rcases List.mem_append.mp hd with hpre | hrest
      · simp [hpre]
      · rcases List.mem_cons.mp hrest with rfl | hpost
        · rw [hfree] at hdused
          cases hdused
        · simp [hpost]
    have hholds : HeapHolds A ⟨h', (b.addr + A.word.heapStructSize) :: s.live⟩
        ((b.addr + A.word.heapStructSize, n) ::ₘ bs) := by
      refine ⟨⟨_, hapart', ?_⟩, ?_⟩
      · intro x hx
        rcases Multiset.mem_cons.mp hx with rfl | hx
        · exact ⟨c, hc, hused, by rw [haddr], hsize⟩
        · obtain ⟨d, hd, hdused, hxd, hxn⟩ := hat x hx
          exact ⟨d, hkept d hd hdused, hdused, hxd, hxn⟩
      · rw [Multiset.map_cons, ← hs.live, Multiset.cons_coe]
    have hcall := heapAllocator_malloc hsome
    rw [if_neg hpos] at hcall
    refine ⟨_, _, hcall, .inr ⟨_, rfl, ?_, ?_, hholds⟩⟩
    · exact hholds.payload (Multiset.mem_cons_self _ _)
    · intro x hx
      obtain ⟨d, hd, hdused, hxd, hxn⟩ := hat x hx
      rw [hxd, ← haddr]
      apply hapart'.within hc (hkept d hd hdused) _ hsize hxn
      rw [haddr]
      intro heq
      rcases hI.inv.heap.layout.tiles.eq_or_apart (show b ∈ pre ++ b :: post by simp) hd with rfl | hle | hle
      · rw [hfree] at hdused
        cases hdused
      · have hroom := hI.inv.heap.layout.room b (by simp)
        have hw := headerSize_pos A.word
        omega
      · have hroom := hI.inv.heap.layout.room d hd
        have hw := headerSize_pos A.word
        omega

theorem HeapHolds.free {p n : Nat} (hs : HeapHolds A s ((p, n) ::ₘ bs)) :
    ∃ s', (heapAllocator A).free s p = some s' ∧ HeapHolds A s' bs := by
  obtain ⟨l, hI, hat⟩ := hs.layout
  have hlive : (s.live : Multiset Nat) = p ::ₘ bs.map Prod.fst := by
    rw [hs.live, Multiset.map_cons]
  have hp : p ∈ s.live := by
    rw [← Multiset.mem_coe, hlive]
    exact Multiset.mem_cons_self _ _
  obtain ⟨pre, b, post, h', rfl, hused, hpb, -, hstep, hI'⟩ := hI.inv.free_cases hp
  refine ⟨_, hstep, ⟨_, ⟨hI', hI.apart.release⟩, ?_⟩, ?_⟩
  · intro x hx
    obtain ⟨d, hd, hdused, hxd, hxn⟩ := hat x (Multiset.mem_cons_of_mem hx)
    -- another block than the one that is freed
    have hnodup : p ∉ bs.map Prod.fst := by
      have hnodup := Multiset.coe_nodup.mpr hI.nodup
      rw [hlive, Multiset.nodup_cons] at hnodup
      exact hnodup.1
    have hne : d ≠ b := by
      rintro rfl
      exact hnodup (Multiset.mem_map.mpr ⟨x, hx, by rw [hxd, hpb]⟩)
    have hmem : d ∈ (release pre b post).filter (!·.free) := by
      rw [used_release, ← List.filter_append]
      refine List.mem_filter.mpr ⟨?_, by simp [hdused]⟩
      simpa [hne] using hd
    exact ⟨d, (List.mem_filter.mp hmem).1, hdused, hxd, hxn⟩
  · rw [← Multiset.coe_erase, hlive, Multiset.erase_cons_head]

/-- When nothing is held the heap is one free block, whatever it went through. -/
theorem HeapHolds.whole (hs : HeapHolds A s 0) :
    freeList A (readyHeap A s.heap) = [A.region] := by
  obtain ⟨l, hI, -⟩ := hs.layout
  have hlive : s.live = [] := by
    have hzero := hs.live
    rwa [Multiset.map_zero, Multiset.coe_eq_zero] at hzero
  have hfirst := hI.firstBlock hlive
  subst hfirst
  rw [hI.inv.heap.freeList_eq, region_eq]
  rfl

end CcRpc
