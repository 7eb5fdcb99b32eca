import CcRpc.HeapRelease
import CcRpc.MemAllocBlocks

/-!
# The calls of the size-tree allocator

`mem_init` makes one free block, `mem_malloc` carves the smallest free block that is larger than the
request, and `mem_free` joins a block with free neighbours: on the ring and the tree the calls
compute the operations of block lists.
-/

namespace CcRpc.MemAlloc

open Chain Tiling

variable {A : Arena} {h : Mem} {bs pre post : List Block} {b : Block}

/-- The ring, the tree, the marks and the counter stand for the blocks. -/
structure Represents (A : Arena) (h : Mem) (bs : List Block) : Prop where
  holds : Holds A h bs
  used : ∀ b ∈ bs, h.used b.addr = !b.free
  all_size : h.allSize = freeSize bs

theorem Holds.of_marks (hH : Holds A h bs) (used : Nat → Bool) (n : Nat) :
    Holds A { h with used := used, allSize := n } bs :=
  ⟨hH.layout, hH.ring, hH.sizes, hH.tree⟩

theorem freeSize_le (hL : Layout A bs) : freeSize bs ≤ configHeap := by
  have hsum := hL.tiles.sum
  have hle := freeSize_le_sum bs
  have hstart := start_bounds A
  omega

/-- The block that `mem_init` makes. -/
def Arena.firstBlock (A : Arena) : Block := ⟨A.start, A.allHeap + configHeap - A.start, true⟩

theorem layout_first (A : Arena) (f : Bool) :
    Layout A [⟨A.start, A.allHeap + configHeap - A.start, f⟩] := by
  have hw := heapStructSize_bounds A.word
  have hstart := start_bounds A
  have hsize : A.start + (A.allHeap + configHeap - A.start) = A.allHeap + configHeap ∧
      heapStructSize A.word ≤ A.allHeap + configHeap - A.start := by
    simp only [configHeap]
    omega
  refine ⟨⟨rfl, hsize.1⟩, ?_, ?_⟩
  · intro b hb
    rw [List.mem_singleton.mp hb]
    exact hstart.2.2
  · intro b hb
    rw [List.mem_singleton.mp hb]
    exact hsize.2

theorem initSize_eq (hsize : h.allSize = configHeap) :
    (if A.allHeap &&& alignmentByte ≠ 0 then
      h.setAllSize (A.word.sub h.allSize (A.start - A.allHeap)) else h) =
    h.setAllSize (A.allHeap + configHeap - A.start) := by
  have hstart := start_bounds A
  have hfits := A.allHeap_fits
  have hpos := A.allHeap_pos
  split
  · rw [hsize, WordSize.sub_of_le (by simp only [configHeap]; omega) (by omega)]
    congr 1
    omega
  · next haligned =>
    have hsame : A.start = A.allHeap := if_neg haligned
    rw [hsame, Nat.add_sub_cancel_left, ← hsize]
    rfl

theorem memInit_represents (hsize : h.allSize = configHeap) :
    ∃ h', memInit A h = some h' ∧ Represents A h' [A.firstBlock] := by
  have hL := layout_first A false
  have hcache : A.start ≠ A.cacheNode := hL.ne_cacheNode List.mem_cons_self
  have hbytes := (hL.bounds List.mem_cons_self).2.2.2
  let h₁ := listNodeInit A.start ((listNodeInit A.cacheNode (h.setTree (rbRootInit h.tree))).setAllSize
    (A.allHeap + configHeap - A.start))
  have hring : Ring h₁.next h₁.prev A.cacheNode ([] ++ []) := by
    apply Ring.single
    · exact (Function.update_of_ne hcache.symm _ _).trans (Function.update_self ..)
    · exact (Function.update_of_ne hcache.symm _ _).trans (Function.update_self ..)
  have hpos : ∀ x ∈ A.cacheNode :: ([] ++ []), x ≠ 0 := by
    intro x hx
    rw [List.append_nil, List.mem_singleton] at hx
    rw [hx]
    exact Nat.pos_iff_ne_zero.mp A.cacheNode_pos
  obtain ⟨next, prev, hadd, hring'⟩ := listAddNext_spec hring (n := A.start) (by simpa using hcache) hpos
  let h₂ : Mem := { h₁ with next := next, prev := prev }
  let h₃ : Mem := ((h₂.setTree (rbNodeInit (A.iterNode A.start) h₂.tree)).setSize A A.start
    (A.allHeap + configHeap - A.start)).setUsed A.start false
  have hH : Holds A h₃ ([] ++ [⟨A.start, A.allHeap + configHeap - A.start, false⟩]) := by
    refine ⟨hL, hring', ?_, .leaf, keeping_leaf rfl⟩
    intro x hx
    rw [List.nil_append, List.mem_singleton] at hx
    rw [hx]
    exact (size_setSize hbytes).trans (if_pos rfl)
  obtain ⟨S, hinsert, hH'⟩ := hH.treeInsert rfl
  refine ⟨h₃.setTree S, ?_, hH', ?_, ?_⟩
  · have hinit := initSize_eq (A := A) (h := listNodeInit A.cacheNode (h.setTree (rbRootInit h.tree)))
      hsize
    dsimp only [memInit]
    rw [hinit]
    change (listAddNext A.cacheNode A.start h₁).bind _ = _
    rw [show listAddNext A.cacheNode A.start h₁ = some h₂ from hadd]
    exact hinsert
  · intro x hx
    rw [List.mem_singleton.mp hx]
    exact Function.update_self ..
  · change A.allHeap + configHeap - A.start = freeSize [A.firstBlock]
    simp [freeSize_cons, Arena.firstBlock]

theorem Holds.mergeNext (hH : Holds A h (pre ++ b :: post)) (hb : b.free = false)
    (hused : ∀ q ∈ post, h.used q.addr = !q.free) :
    ∃ h' n post', mergeNext A b.addr h = some h' ∧
      Holds A h' (pre ++ ⟨b.addr, n, false⟩ :: post') ∧
        joinNext ⟨b.addr, b.size, true⟩ post = ⟨b.addr, n, true⟩ :: post' ∧
          post' <:+ post ∧ h'.used = h.used ∧ h'.allSize = h.allSize := by
  have hring : Ring h.next h.prev A.cacheNode (pre.map (·.addr) ++ b.addr :: post.map (·.addr)) := by
    simpa using hH.ring
  have hnext := hring.next_eq
  have hsame : (⟨b.addr, b.size, false⟩ : Block) = b := by rw [← hb]
  cases post with
  | nil =>
    refine ⟨h, b.size, [], ?_, ?_, rfl, List.suffix_refl _, rfl, rfl⟩
    · have hend : h.next b.addr = A.cacheNode := hnext
      rw [MemAlloc.mergeNext, if_neg (not_not.mpr hend)]
    · rw [hsame]
      exact hH
  | cons q qs =>
    have hnext : h.next b.addr = q.addr := hnext
    have hqm : q ∈ pre ++ b :: q :: qs := by simp
    have hqpos := Nat.pos_iff_ne_zero.mp (hH.layout.bounds hqm).2.2.1
    have hqused := hused q List.mem_cons_self
    rw [MemAlloc.mergeNext, hnext, if_pos (hH.layout.ne_cacheNode hqm), deref_of_ne hqpos]
    cases hq : q.free with
    | true =>
      have hfree : freeAddrs [b, q] = [q.addr] := by simp [freeAddrs_cons, hb, hq]
      obtain ⟨h', hmerge, hH', hu, hn⟩ := hH.mergeBlocks hfree
      refine ⟨h', b.size + q.size, qs, ?_, hH', ?_, List.suffix_cons q qs, hu, hn⟩
      · rw [hq] at hqused
        simpa [hqused] using hmerge
      · rw [CcRpc.joinNext, if_pos hq]
    | false =>
      refine ⟨h, b.size, q :: qs, ?_, ?_, ?_, List.suffix_refl _, rfl, rfl⟩
      · rw [hq] at hqused
        simp [hqused]
      · rw [hsame]
        exact hH
      · rw [CcRpc.joinNext, if_neg (by simp [hq])]

theorem Holds.mergePrev (hH : Holds A h (pre ++ b :: post)) (hb : b.free = false)
    (hused : ∀ q ∈ pre, h.used q.addr = !q.free) (hbused : h.used b.addr = false) :
    ∃ h' pre', ∃ c : Block, mergePrev A b.addr h = some (h', c.addr) ∧
      Holds A h' (pre' ++ ⟨c.addr, c.size, false⟩ :: post) ∧
        joinPrev pre ⟨b.addr, b.size, true⟩ post = pre' ++ ⟨c.addr, c.size, true⟩ :: post ∧
          pre' <+: pre ∧ h.used c.addr = false ∧ h'.used = h.used ∧ h'.allSize = h.allSize := by
  have hring : Ring h.next h.prev A.cacheNode (pre.map (·.addr) ++ b.addr :: post.map (·.addr)) := by
    simpa using hH.ring
  have hprev := hring.prev_eq
  have hsame : (⟨b.addr, b.size, false⟩ : Block) = b := by rw [← hb]
  rcases List.eq_nil_or_concat pre with rfl | ⟨xs, x, rfl⟩
  · refine ⟨h, [], b, ?_, ?_, rfl, List.prefix_refl _, hbused, rfl, rfl⟩
    · have hstart : h.prev b.addr = A.cacheNode := hprev
      rw [MemAlloc.mergePrev, if_neg (not_not.mpr hstart)]
    · rw [hsame]
      exact hH
  · rw [List.concat_eq_append] at *
    have hprev : h.prev b.addr = x.addr := by
      rw [hprev, List.map_append, List.map_singleton, List.getLastD_concat]
    have hxm : x ∈ xs ++ [x] ++ b :: post := by simp
    have hxpos := Nat.pos_iff_ne_zero.mp (hH.layout.bounds hxm).2.2.1
    have hxused := hused x (by simp)
    rw [MemAlloc.mergePrev, hprev, if_pos (hH.layout.ne_cacheNode hxm), deref_of_ne hxpos,
      joinPrev_snoc]
    cases hx : x.free with
    | true =>
      have hfree : freeAddrs [x, b] = [x.addr] := by simp [freeAddrs_cons, hb, hx]
      rw [← List.append_cons] at hH
      obtain ⟨h', hmerge, hH', hu, hn⟩ := hH.mergeBlocks hfree
      rw [hx] at hxused
      refine ⟨h', xs, ⟨x.addr, x.size + b.size, true⟩, ?_, hH', rfl, List.prefix_append _ _, hxused,
        hu, hn⟩
      simp [hxused, hmerge]
    | false =>
      refine ⟨h, xs ++ [x], b, ?_, ?_, ?_, List.prefix_refl _, hbused, rfl, rfl⟩
      · rw [hx] at hxused
        simp [hxused]
      · rw [hsame]
        exact hH
      · simp

theorem Represents.free (hR : Represents A h (pre ++ b :: post)) (hb : b.free = false) :
    ∃ h', memFree A (b.addr + heapStructSize A.word) h = some h' ∧
      Represents A h' (release pre b post) := by
  have hw := heapStructSize_bounds A.word
  have hL := hR.holds.layout
  have hbm : b ∈ pre ++ b :: post := by simp
  let h₁ : Mem :=
    { h with
      used := Function.update h.used b.addr false
      allSize := A.word.sizeT (h.allSize + h.size A b.addr) }
  have hothers : ∀ x ∈ pre ++ post, h₁.used x.addr = !x.free := by
    intro x hx
    have hxm : x ∈ pre ++ b :: post := by
      simp only [List.mem_append, List.mem_cons] at hx ⊢
      tauto
    exact (Function.update_of_ne (hL.ne_addr hx) ..).trans (hR.used x hxm)
  obtain ⟨h₂, n, post', hnext, hH₂, hjoin, hsuffix, hused₂, hsize₂⟩ :=
    (hR.holds.of_marks h₁.used h₁.allSize).mergeNext hb
      (fun q hq => hothers q (List.mem_append_right _ hq))
  have hbused : h₂.used b.addr = false := by
    rw [hused₂]
    exact Function.update_self ..
  obtain ⟨h₃, pre', c, hprev, hH₃, hjoin', hfront, hcused, hused₃, hsize₃⟩ :=
    hH₂.mergePrev rfl (fun q hq => by
      rw [hused₂]
      exact hothers q (List.mem_append_left _ hq)) hbused
  obtain ⟨S, hinsert, hH₄⟩ := hH₃.treeInsert rfl
  have hrelease : release pre b post = pre' ++ ⟨c.addr, c.size, true⟩ :: post' := by
    rw [release, hjoin]
    exact hjoin'
  refine ⟨h₃.setTree S, ?_, ?_, ?_, ?_⟩
  · rw [memFree, if_neg (by omega), Nat.add_sub_cancel]
    change (MemAlloc.mergeNext A b.addr h₁).bind _ = _
    rw [show MemAlloc.mergeNext A b.addr h₁ = some h₂ from hnext, Option.bind_some]
    change (MemAlloc.mergePrev A b.addr h₂).bind _ = _
    rw [show MemAlloc.mergePrev A b.addr h₂ = some (h₃, c.addr) from hprev]
    exact hinsert
  · rw [hrelease]
    exact hH₄
  · have hkept : ∀ x ∈ pre ++ post, h₃.used x.addr = !x.free := by
      rw [hused₃, hused₂]
      exact hothers
    intro x hx
    rw [hrelease] at hx
    simp only [List.mem_append, List.mem_cons] at hx
    rcases hx with hx | rfl | hx
    · exact hkept x (List.mem_append_left _ (hfront.subset hx))
    · change h₃.used c.addr = false
      rw [hused₃]
      exact hcused
    · exact hkept x (List.mem_append_right _ (hsuffix.subset hx))
  · have hsum : freeSize (release pre b post) = freeSize pre + (b.size + freeSize post) := by
      have hnextsize := freeSize_joinNext (b := ⟨b.addr, b.size, true⟩) rfl post
      rw [hjoin, freeSize_cons, if_pos rfl] at hnextsize
      rw [release, hjoin]
      dsimp only at hnextsize ⊢
      rw [freeSize_joinPrev rfl, hnextsize]
    have hbefore : freeSize (pre ++ b :: post) = freeSize pre + (0 + freeSize post) := by
      rw [freeSize_append, freeSize_cons, if_neg (by simp [hb])]
    have hle := freeSize_le hH₄.layout
    rw [← hrelease] at hle
    have hfits := A.allHeap_fits
    change h₃.allSize = _
    rw [hsize₃, hsize₂]
    change A.word.sizeT (h.allSize + h.size A b.addr) = _
    rw [hR.all_size, hR.holds.sizes b hbm, WordSize.sizeT_of_lt (by omega)]
    omega

theorem Holds.mem_tree (hH : Holds A h bs) {T : RedBlack.ColorTree Nat}
    (hT : h.tree.Keeping T ((freeAddrs bs).map A.iterNode)) {x : Nat} :
    x ∈ T.toList ↔ ∃ b ∈ bs, b.free = true ∧ x = A.iterNode b.addr ∧
      (h.tree.value x).toNat = b.size := by
  rw [hT.perm.mem_iff, List.mem_map]
  constructor
  · rintro ⟨a, ha, rfl⟩
    obtain ⟨b, hb, hfree, rfl⟩ := mem_freeAddrs.mp ha
    exact ⟨b, hb, hfree, rfl, hH.sizes b hb⟩
  · rintro ⟨b, hb, hfree, rfl, -⟩
    exact ⟨b.addr, mem_freeAddrs.mpr ⟨b, hb, hfree, rfl⟩, rfl⟩

/-- The block found is the smallest of the free blocks that are larger than the request. -/
theorem Holds.findBlock (hH : Holds A h bs) (want : Nat) :
    (findBlock want h = some none ∧ ∀ b ∈ bs, b.free = true → b.size ≤ want) ∨
      ∃ b ∈ bs, b.free = true ∧ findBlock want h = some (some (A.iterNode b.addr)) ∧
        want < b.size ∧ ∀ c ∈ bs, c.free = true → want < c.size → b.size ≤ c.size := by
  obtain ⟨T, hT⟩ := hH.tree
  have hmem : ∀ b ∈ bs, b.free = true →
      A.iterNode b.addr ∈ T.toList ∧ (h.tree.value (A.iterNode b.addr)).toNat = b.size := by
    intro b hb hfree
    exact ⟨(hH.mem_tree hT).mpr ⟨b, hb, hfree, rfl, hH.sizes b hb⟩, hH.sizes b hb⟩
  have hlast := hT.shelters.last
  unfold MemAlloc.findBlock
  rw [hlast]
  rcases List.eq_nil_or_concat T.toList with hnil | ⟨xs, last, hlist⟩
  · rw [hnil]
    refine Or.inl ⟨rfl, fun b hb hfree => ?_⟩
    have habsurd := (hmem b hb hfree).1
    rw [hnil] at habsurd
    cases habsurd
  · rw [List.concat_eq_append] at hlist
    rw [hlist, List.getLast?_concat]
    dsimp only
    by_cases hsmall : (h.tree.value last).toNat < want
    · rw [if_pos hsmall]
      refine Or.inl ⟨rfl, fun b hb hfree => ?_⟩
      obtain ⟨hin, hvalue⟩ := hmem b hb hfree
      have hsorted := hT.sorted
      rw [hlist] at hin hsorted
      have hle : (h.tree.value (A.iterNode b.addr)).toNat ≤ (h.tree.value last).toNat := by
        rcases List.mem_append.mp hin with hin | hin
        · exact (List.pairwise_append.mp hsorted).2.2 _ hin last (by simp)
        · rw [List.mem_singleton.mp hin]
      omega
    · rw [if_neg hsmall]
      have hfuel : T.toList.length < configHeap := by
        rw [hT.perm.length_eq]
        exact hH.layout.freeAddrs_length_lt
      rw [rbFirstGreater_spec hT.shelters.holds hT.sorted hfuel]
      cases hfind : T.toList.find? fun x => decide (want < (h.tree.value x).toNat) with
      | none =>
        refine Or.inl ⟨rfl, fun b hb hfree => ?_⟩
        obtain ⟨hin, hvalue⟩ := hmem b hb hfree
        have hno := List.find?_eq_none.mp hfind _ hin
        rw [decide_eq_true_eq] at hno
        omega
      | some x =>
        obtain ⟨hx, ys, zs, hsplit, hys⟩ := List.find?_eq_some_iff_append.mp hfind
        rw [decide_eq_true_eq] at hx
        have hxm : x ∈ T.toList := by simp [hsplit]
        obtain ⟨b, hb, hfree, rfl, hvalue⟩ := (hH.mem_tree hT).mp hxm
        refine Or.inr ⟨b, hb, hfree, rfl, hvalue ▸ hx, fun c hc hcfree hclt => ?_⟩
        obtain ⟨hin, hcvalue⟩ := hmem c hc hcfree
        have hsorted := hT.sorted
        rw [hsplit] at hin hsorted
        obtain ⟨-, htail, -⟩ := List.pairwise_append.mp hsorted
        rw [List.mem_append, List.mem_cons] at hin
        rcases hin with hin | hsame | hin
        · have hno := hys _ hin
          rw [hcvalue] at hno
          simp [hclt] at hno
        · rw [← hvalue, ← hcvalue, hsame]
        · have hle : (h.tree.value (A.iterNode b.addr)).toNat ≤
              (h.tree.value (A.iterNode c.addr)).toNat := (List.pairwise_cons.mp htail).1 _ hin
          omega

theorem Represents.take {want : Nat} (hR : Represents A h (pre ++ b :: post)) (hb : b.free = true)
    (hlt : want < b.size) (hwant : heapStructSize A.word ≤ want) (hmod : want % 8 = 0) :
    ∃ h', takeBlock A want (A.iterNode b.addr) h = some (h', b.addr + heapStructSize A.word) ∧
      Represents A h' (pre ++ b.carve (minSize A.word) want ++ post) := by
  have hw := heapStructSize_bounds A.word
  have hL := hR.holds.layout
  have hbm : b ∈ pre ++ b :: post := by simp
  have hfits := A.allHeap_fits
  have hbounds := hL.bounds hbm
  obtain ⟨S, hremove, hH⟩ := hR.holds.treeRemove hb
  let h₁ := (h.setTree S).setUsed b.addr true
  have hH₁ : Holds A h₁ (pre ++ ⟨b.addr, b.size, false⟩ :: post) := hH.of_marks h₁.used h₁.allSize
  have hbefore : freeSize (pre ++ b :: post) = freeSize pre + (b.size + freeSize post) := by
    rw [freeSize_append, freeSize_cons, if_pos hb]
  have hle := freeSize_le hL
  have hothers : ∀ x ∈ pre ++ post, h₁.used x.addr = !x.free := by
    intro x hx
    have hxm : x ∈ pre ++ b :: post := by
      simp only [List.mem_append, List.mem_cons] at hx ⊢
      tauto
    exact (Function.update_of_ne (hL.ne_addr hx) ..).trans (hR.used x hxm)
  have hsub : A.word.sub b.size want = b.size - want := WordSize.sub_of_le (by omega) (by omega)
  have hsize : (h.tree.value (A.iterNode b.addr)).toNat = b.size := hR.holds.sizes b hbm
  dsimp only [takeBlock]
  rw [hsize, hremove, containerOf_iterNode, hsub]
  by_cases hsplit : minSize A.word < b.size - want
  · have hrest : want + heapStructSize A.word ≤ b.size := by omega
    obtain ⟨h₂, hcut, hH₂, hused₂, hsize₂⟩ :=
      hH₁.splitBlock (b := ⟨b.addr, b.size, false⟩) rfl hwant hmod hrest
    have hvalue : h₂.size A b.addr = want := hH₂.sizes ⟨b.addr, want, false⟩ (by simp)
    have hnew : ∀ x ∈ pre ++ b :: post, x.addr ≠ b.addr + want := by
      intro x hx heq
      rcases hL.tiles.eq_or_apart hbm hx with rfl | hafter | hbefore
      · omega
      · omega
      · have hroom := hL.room x hx
        omega
    refine ⟨h₂.setAllSize (A.word.sub h₂.allSize (h₂.size A b.addr)), ?_, ?_, ?_, ?_⟩
    · rw [Option.bind_eq_bind, Option.bind_some, if_pos hsplit]
      change (MemAlloc.splitBlock A b.addr want b.size h₁).bind _ = _
      rw [show MemAlloc.splitBlock A b.addr want b.size h₁ = some h₂ from hcut]
      rfl
    · rw [Block.carve, if_pos hsplit, List.append_assoc]
      exact hH₂.of_marks _ _
    · have hused : ∀ a, a ≠ b.addr + want → h₂.used a = h₁.used a := by
        intro a ha
        rw [hused₂]
        exact Function.update_of_ne ha ..
      intro x hx
      change h₂.used x.addr = _
      rw [Block.carve, if_pos hsplit] at hx
      simp only [List.mem_append, List.mem_cons, List.not_mem_nil, or_false] at hx
      rcases hx with (hx | rfl | rfl) | hx
      · rw [hused _ (hnew x (by simp [hx]))]
        exact hothers x (List.mem_append_left _ hx)
      · rw [hused _ (by dsimp only; omega)]
        exact Function.update_self ..
      · rw [hused₂]
        exact Function.update_self ..
      · rw [hused _ (hnew x (by simp [hx]))]
        exact hothers x (List.mem_append_right _ hx)
    · have hafter : freeSize (pre ++ b.carve (minSize A.word) want ++ post) =
          freeSize pre + (b.size - want + freeSize post) := by
        rw [Block.carve, if_pos hsplit]
        simp [freeSize_cons]
      change A.word.sub h₂.allSize (h₂.size A b.addr) = _
      rw [hsize₂, hvalue, hafter]
      change A.word.sub h.allSize want = _
      rw [hR.all_size, WordSize.sub_of_le (by omega) (by omega)]
      omega
  · have hvalue : h₁.size A b.addr = b.size := hH₁.sizes ⟨b.addr, b.size, false⟩ (by simp)
    refine ⟨h₁.setAllSize (A.word.sub h₁.allSize (h₁.size A b.addr)), ?_, ?_, ?_, ?_⟩
    · rw [Option.bind_eq_bind, Option.bind_some, if_neg hsplit]
      rfl
    · rw [Block.carve, if_neg hsplit, List.append_assoc]
      exact hH₁.of_marks _ _
    · intro x hx
      change h₁.used x.addr = _
      rw [Block.carve, if_neg hsplit] at hx
      simp only [List.mem_append, List.mem_singleton] at hx
      rcases hx with (hx | rfl) | hx
      · exact hothers x (List.mem_append_left _ hx)
      · exact Function.update_self ..
      · exact hothers x (List.mem_append_right _ hx)
    · have hafter : freeSize (pre ++ b.carve (minSize A.word) want ++ post) =
          freeSize pre + freeSize post := by
        rw [Block.carve, if_neg hsplit]
        simp [freeSize_cons]
      change A.word.sub h₁.allSize (h₁.size A b.addr) = _
      rw [hvalue, hafter]
      change A.word.sub h.allSize b.size = _
      rw [hR.all_size, WordSize.sub_of_le (by omega) (by omega)]
      omega

theorem Holds.readyMem (hH : Holds A h bs) : readyMem A h = some h := by
  have hprev : h.prev A.cacheNode = (bs.map (·.addr)).getLastD A.cacheNode := by
    rw [← headD_reverse]
    exact hH.ring.back.first
  have hne := hH.pos _ (getLastD_mem A.cacheNode (bs.map (·.addr)))
  rw [MemAlloc.readyMem, if_neg (hprev ▸ hne)]

theorem Holds.memMalloc (hH : Holds A h bs) {want : Nat} (hwant : want ≠ 0) :
    memMalloc A want h = (MemAlloc.findBlock (roundedRequest A want) h).bind fun r =>
      match r with
      | none => some (h, 0)
      | some find => takeBlock A (roundedRequest A want) find h := by
  rw [MemAlloc.memMalloc, if_neg hwant]
  dsimp only
  rw [hH.readyMem]
  rfl

/-- A request is served from the smallest free block larger than it, and by NULL if there is none. -/
theorem Represents.malloc {want : Nat} (hR : Represents A h bs) (hwant : want ≠ 0)
    (hfits : heapStructSize A.word ≤ roundedRequest A want) :
    (memMalloc A want h = some (h, 0) ∧
        ∀ b ∈ bs, b.free = true → b.size ≤ roundedRequest A want) ∨
      ∃ pre b post h', bs = pre ++ b :: post ∧ b.free = true ∧ roundedRequest A want < b.size ∧
        (∀ c ∈ bs, c.free = true → roundedRequest A want < c.size → b.size ≤ c.size) ∧
        memMalloc A want h = some (h', b.addr + heapStructSize A.word) ∧
        Represents A h' (pre ++ b.carve (minSize A.word) (roundedRequest A want) ++ post) := by
  rw [hR.holds.memMalloc hwant]
  rcases hR.holds.findBlock (roundedRequest A want) with
    ⟨hfind, hno⟩ | ⟨b, hb, hfree, hfind, hlt, hbest⟩
  · left
    rw [hfind]
    exact ⟨rfl, hno⟩
  · obtain ⟨pre, post, rfl⟩ := List.append_of_mem hb
    obtain ⟨h', htake, hR'⟩ := hR.take hfree hlt hfits (WordSize.roundUp_mod ..)
    refine Or.inr ⟨pre, b, post, h', rfl, hfree, hlt, hbest, ?_, hR'⟩
    rw [hfind]
    exact htake

end CcRpc.MemAlloc
