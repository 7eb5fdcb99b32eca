import CcRpc.HeapBlocks
import CcRpc.Lib.Ring
import CcRpc.MemAlloc
import CcRpc.RbtreeRuns

/-!
# The blocks of the size-tree allocator

The ring and the tree stand for one list of blocks that tiles the arena: the ring has all their
headers in order, and the tree those of the free blocks. While a block changes hands it is on the
ring and not in the tree.
-/

namespace CcRpc.MemAlloc

open Chain Tiling

variable (A : Arena)

/-- The blocks tile the arena from its first aligned address on; each is aligned and has room for its
header. -/
structure Layout (bs : List Block) : Prop where
  tiles : Tiles Block.addr Block.size A.start bs (A.allHeap + configHeap)
  aligned : ∀ b ∈ bs, b.addr % 8 = 0
  room : ∀ b ∈ bs, heapStructSize A.word ≤ b.size

/-- What memory says of the blocks. Those marked free are the ones in the tree. -/
structure Holds (h : Mem) (bs : List Block) : Prop where
  layout : Layout A bs
  ring : Ring h.next h.prev A.cacheNode (bs.map (·.addr))
  sizes : ∀ b ∈ bs, h.size A b.addr = b.size
  tree : ∃ T, h.tree.Keeping T ((freeAddrs bs).map A.iterNode)

variable {A} {h : Mem} {bs pre post : List Block} {b u v : Block}

theorem heapStructSize_bounds (w : WordSize) : 40 ≤ heapStructSize w ∧ heapStructSize w ≤ 72 ∧
    heapStructSize w % 8 = 0 ∧ heapNodeSize w ≤ heapStructSize w ∧
      minSize w = 2 * heapStructSize w := by
  cases w <;> decide

theorem start_bounds (A : Arena) :
    A.allHeap ≤ A.start ∧ A.start < A.allHeap + 8 ∧ A.start % 8 = 0 := by
  unfold Arena.start
  rw [and_alignmentByte, clearAlignment_eq]
  simp only [alignmentByte]
  split <;> omega

theorem Layout.bounds (hL : Layout A bs) (hb : b ∈ bs) :
    A.allHeap ≤ b.addr ∧ b.addr + b.size ≤ A.allHeap + configHeap ∧ 0 < b.addr ∧
      b.size < 2 ^ 32 := by
  have hbounds := hL.tiles.bounds hb
  have hstart := start_bounds A
  have hpos := A.allHeap_pos
  simp only [configHeap] at hbounds ⊢
  omega

theorem Layout.length_lt (hL : Layout A bs) : bs.length < configHeap := by
  have hlen := hL.tiles.length_mul_le hL.room
  have hw := heapStructSize_bounds A.word
  have hstart := start_bounds A
  have hmul : bs.length * 40 ≤ bs.length * heapStructSize A.word := Nat.mul_le_mul_left _ hw.1
  simp only [configHeap] at hlen ⊢
  omega

theorem Layout.addrs_nodup (hL : Layout A bs) : (bs.map (·.addr)).Nodup := by
  have hw := heapStructSize_bounds A.word
  apply List.pairwise_map.mpr
  apply hL.tiles.pairwise.imp_of_mem
  intro x y hx _ hxy
  have hroom := hL.room x hx
  omega

theorem Layout.ne_addr (hL : Layout A (pre ++ b :: post)) {x : Block} (hx : x ∈ pre ++ post) :
    x.addr ≠ b.addr := by
  have hnodup := hL.addrs_nodup
  rw [List.map_append, List.map_cons] at hnodup
  obtain ⟨hout, -⟩ := List.nodup_cons.mp (List.nodup_middle.mp hnodup)
  intro heq
  rw [← List.map_append, ← heq] at hout
  exact hout (List.mem_map_of_mem hx)

theorem Layout.ne_cacheNode (hL : Layout A bs) (hb : b ∈ bs) : b.addr ≠ A.cacheNode := by
  have hw := heapStructSize_bounds A.word
  have hbounds := hL.bounds hb
  have hroom := hL.room b hb
  have hapart := A.cacheNode_apart
  have hword := A.word.bytes_eq
  omega

theorem Layout.nodup (hL : Layout A bs) : (A.cacheNode :: bs.map (·.addr)).Nodup := by
  apply List.nodup_cons.mpr
  refine ⟨fun hmem => ?_, hL.addrs_nodup⟩
  obtain ⟨b, hb, heq⟩ := List.mem_map.mp hmem
  exact hL.ne_cacheNode hb heq

theorem Layout.replace {mid mid' : List Block} (hL : Layout A (pre ++ mid ++ post))
    (htiles : ∀ a b, Tiles Block.addr Block.size a mid b → Tiles Block.addr Block.size a mid' b)
    (hmid : ∀ b ∈ mid', b.addr % 8 = 0 ∧ heapStructSize A.word ≤ b.size) :
    Layout A (pre ++ mid' ++ post) := by
  obtain ⟨m, hpm, hpost⟩ := tiles_append.mp hL.tiles
  obtain ⟨k, hpre, htile⟩ := tiles_append.mp hpm
  refine ⟨tiles_append.mpr ⟨m, tiles_append.mpr ⟨k, hpre, htiles k m htile⟩, hpost⟩, ?_, ?_⟩
  · intro b hb
    simp only [List.mem_append] at hb
    rcases hb with (hb | hb) | hb
    · exact hL.aligned b (by simp [hb])
    · exact (hmid b hb).1
    · exact hL.aligned b (by simp [hb])
  · intro b hb
    simp only [List.mem_append] at hb
    rcases hb with (hb | hb) | hb
    · exact hL.room b (by simp [hb])
    · exact (hmid b hb).2
    · exact hL.room b (by simp [hb])

theorem Layout.mark (hL : Layout A (pre ++ b :: post)) (f : Bool) :
    Layout A (pre ++ ⟨b.addr, b.size, f⟩ :: post) := by
  have hb : b ∈ pre ++ b :: post := by simp
  have hmid : Layout A (pre ++ [b] ++ post) := by simpa using hL
  have hmark : Layout A (pre ++ [⟨b.addr, b.size, f⟩] ++ post) := by
    apply hmid.replace
    · intro x y hxy
      exact hxy
    · simpa using ⟨hL.aligned b hb, hL.room b hb⟩
  simpa using hmark

theorem Layout.cut (hL : Layout A (pre ++ b :: post)) {want : Nat}
    (hwant : heapStructSize A.word ≤ want) (hmod : want % 8 = 0)
    (hrest : want + heapStructSize A.word ≤ b.size) (f g : Bool) :
    Layout A (pre ++ ⟨b.addr, want, f⟩ :: ⟨b.addr + want, b.size - want, g⟩ :: post) := by
  have hb : b ∈ pre ++ b :: post := by simp
  have haligned := hL.aligned b hb
  have hmid : Layout A (pre ++ [b] ++ post) := by simpa using hL
  have hcut : Layout A
      (pre ++ [⟨b.addr, want, f⟩, ⟨b.addr + want, b.size - want, g⟩] ++ post) := by
    apply hmid.replace
    · intro x y hxy
      obtain ⟨rfl, hy⟩ := hxy
      have hy : b.addr + b.size = y := hy
      refine ⟨rfl, rfl, ?_⟩
      change b.addr + want + (b.size - want) = y
      omega
    · simp only [List.mem_cons, List.not_mem_nil, or_false, forall_eq_or_imp, forall_eq]
      omega
  simpa using hcut

theorem Layout.join (hL : Layout A (pre ++ u :: v :: post)) (f : Bool) :
    Layout A (pre ++ ⟨u.addr, u.size + v.size, f⟩ :: post) := by
  have hu : u ∈ pre ++ u :: v :: post := by simp
  have haligned := hL.aligned u hu
  have hroom := hL.room u hu
  have hmid : Layout A (pre ++ [u, v] ++ post) := by simpa using hL
  have hjoin : Layout A (pre ++ [⟨u.addr, u.size + v.size, f⟩] ++ post) := by
    apply hmid.replace
    · intro x y hxy
      obtain ⟨rfl, -, hy⟩ := hxy
      refine ⟨rfl, ?_⟩
      rw [← hy]
      exact (Nat.add_assoc _ _ _).symm
    · simp only [List.mem_singleton, forall_eq]
      omega
  simpa using hjoin

theorem deref_of_ne {p : Nat} (hp : p ≠ 0) : deref p = some p := if_neg hp

variable {c n x : Nat} {ns qs : List Nat}

theorem listAddNext_spec (hring : Ring h.next h.prev c (ns ++ qs)) (hn : n ∉ c :: (ns ++ qs))
    (hpos : ∀ x ∈ c :: (ns ++ qs), x ≠ 0) :
    ∃ next prev, listAddNext (ns.getLastD c) n h = some { h with next := next, prev := prev } ∧
      Ring next prev c (ns ++ n :: qs) := by
  obtain ⟨hlast, hhead⟩ := ends_mem c ns qs
  have hlastn : ns.getLastD c ≠ n := fun heq => hn (heq ▸ hlast)
  have hheadn : qs.headD c ≠ n := fun heq => hn (heq ▸ hhead)
  have hnext := hring.next_getLastD
  refine ⟨_, _, ?_, hring.insert_update hn⟩
  simp only [listAddNext, Mem.setPrev, Mem.setNext, Function.update_of_ne hlastn, hnext,
    deref_of_ne (hpos _ hhead), Option.bind_eq_bind, Option.bind_some, Option.pure_def]

theorem listRemove_spec (hring : Ring h.next h.prev c (ns ++ n :: qs))
    (hpos : ∀ x ∈ c :: (ns ++ qs), x ≠ 0) :
    ∃ next prev, listRemove n h = some { h with next := next, prev := prev } ∧
      Ring next prev c (ns ++ qs) := by
  obtain ⟨hlast, hhead⟩ := ends_mem c ns qs
  have hn : n ∉ c :: (ns ++ qs) := (List.nodup_cons.mp (List.nodup_middle.mp
    (show (c :: ns ++ n :: qs).Nodup from hring.nodup))).1
  have hlastn : n ≠ ns.getLastD c := fun heq => hn (heq ▸ hlast)
  have hnext := hring.next_eq
  have hprev := hring.prev_eq
  refine ⟨_, _, ?_, hring.remove_update⟩
  simp only [listRemove, Mem.setPrev, Mem.setNext, hnext, hprev, Function.update_of_ne hlastn,
    deref_of_ne (hpos _ hhead), deref_of_ne (hpos _ hlast), Option.bind_eq_bind,
    Option.bind_some, Option.pure_def]

theorem iterNode_inj (A : Arena) {a b : Nat} : A.iterNode a = A.iterNode b ↔ a = b := by
  simp [Arena.iterNode]

theorem containerOf_iterNode (A : Arena) (a : Nat) : A.containerOf (A.iterNode a) = a :=
  Nat.add_sub_cancel a _

theorem size_setSize {a b v : Nat} (hv : v < 2 ^ 32) :
    (h.setSize A a v).size A b = if b = a then v else h.size A b := by
  simp only [Mem.size, Mem.setSize, Mem.setTree, Rb.value_setValue, iterNode_inj]
  split
  · exact UInt32.toNat_ofNat_of_lt' hv
  · rfl

@[simp] theorem next_setSize {a v : Nat} : (h.setSize A a v).next = h.next := rfl
@[simp] theorem prev_setSize {a v : Nat} : (h.setSize A a v).prev = h.prev := rfl

theorem mem_iters {bs : List Block} {a : Nat} :
    A.iterNode a ∈ (freeAddrs bs).map A.iterNode ↔ a ∈ freeAddrs bs := by
  simp [iterNode_inj]

theorem Layout.not_mem_freeAddrs (hL : Layout A (pre ++ b :: post)) (hb : b.free = false) :
    b.addr ∉ freeAddrs (pre ++ b :: post) := by
  intro hmem
  obtain ⟨x, hx, hfree, heq⟩ := mem_freeAddrs.mp hmem
  have hbm : b ∈ pre ++ b :: post := by simp
  have hsame : x = b := List.inj_on_of_nodup_map hL.addrs_nodup hx hbm heq
  rw [hsame, hb] at hfree
  cases hfree

theorem Layout.freeAddrs_length_lt (hL : Layout A bs) :
    ((freeAddrs bs).map A.iterNode).length < configHeap := by
  rw [List.length_map, freeAddrs, List.length_map]
  exact Nat.lt_of_le_of_lt (List.length_filter_le _ _) hL.length_lt

theorem freeAddrs_mark (pre post : List Block) (b : Block) :
    freeAddrs (pre ++ ⟨b.addr, b.size, true⟩ :: post) = freeAddrs pre ++ b.addr :: freeAddrs post := by
  rw [freeAddrs_append, freeAddrs_cons, if_pos rfl]

theorem freeAddrs_unmark (pre post : List Block) (a n : Nat) :
    freeAddrs (pre ++ ⟨a, n, false⟩ :: post) = freeAddrs pre ++ freeAddrs post := by
  rw [freeAddrs_append, freeAddrs_cons, if_neg (by simp)]

theorem Holds.pos (hH : Holds A h bs) : ∀ x ∈ A.cacheNode :: bs.map (·.addr), x ≠ 0 := by
  intro x hx
  rcases List.mem_cons.mp hx with rfl | hx
  · exact Nat.pos_iff_ne_zero.mp A.cacheNode_pos
  · obtain ⟨b, hb, rfl⟩ := List.mem_map.mp hx
    exact Nat.pos_iff_ne_zero.mp (hH.layout.bounds hb).2.2.1

theorem Holds.withTree {S : Rb} {f : Bool} (hH : Holds A h (pre ++ b :: post))
    (hvalue : ∀ x, S.value x = h.tree.value x)
    (htree : ∃ T, S.Keeping T ((freeAddrs (pre ++ ⟨b.addr, b.size, f⟩ :: post)).map A.iterNode)) :
    Holds A (h.setTree S) (pre ++ ⟨b.addr, b.size, f⟩ :: post) := by
  have hsize : ∀ a, (h.setTree S).size A a = h.size A a := fun a => congrArg UInt32.toNat (hvalue _)
  refine ⟨hH.layout.mark f, ?_, ?_, htree⟩
  · have hring := hH.ring
    rw [List.map_append, List.map_cons] at hring ⊢
    exact hring
  · intro x hx
    rw [hsize]
    simp only [List.mem_append, List.mem_cons] at hx
    rcases hx with hx | rfl | hx
    · exact hH.sizes x (by simp [hx])
    · exact hH.sizes b (by simp)
    · exact hH.sizes x (by simp [hx])

theorem Holds.treeInsert (hH : Holds A h (pre ++ b :: post)) (hb : b.free = false) :
    ∃ S, treeInsert (A.iterNode b.addr) h = some (h.setTree S) ∧
      Holds A (h.setTree S) (pre ++ ⟨b.addr, b.size, true⟩ :: post) := by
  obtain ⟨T, hT⟩ := hH.tree
  have hout := mem_iters (A := A) |>.not.mpr (hH.layout.not_mem_freeAddrs hb)
  have hfuel := hH.layout.freeAddrs_length_lt
  have hroom : ((freeAddrs (pre ++ b :: post)).map A.iterNode).length + 1 < 2 ^ 32 := by
    simp only [configHeap] at hfuel
    omega
  obtain ⟨S, T', hrun, hT', hvalue⟩ := hT.insert hout hroom hfuel
  refine ⟨S, by rw [MemAlloc.treeInsert, hrun]; rfl, hH.withTree hvalue ⟨T', hT'.of_perm ?_⟩⟩
  rw [freeAddrs_mark, freeAddrs_append, freeAddrs_cons, if_neg (by simp [hb]), ← List.map_cons]
  exact List.perm_middle.symm.map A.iterNode

theorem Holds.treeRemove (hH : Holds A h (pre ++ b :: post)) (hb : b.free = true) :
    ∃ S, treeRemove (A.iterNode b.addr) h = some (h.setTree S) ∧
      Holds A (h.setTree S) (pre ++ ⟨b.addr, b.size, false⟩ :: post) := by
  obtain ⟨T, hT⟩ := hH.tree
  have hin : A.iterNode b.addr ∈ (freeAddrs (pre ++ b :: post)).map A.iterNode :=
    mem_iters.mpr (mem_freeAddrs.mpr ⟨b, by simp, hb, rfl⟩)
  have hfuel := hH.layout.freeAddrs_length_lt
  obtain ⟨S, T', hrun, hT', hvalue⟩ :=
    hT.remove hin hT.nodup.not_mem_erase (h.tree.value (A.iterNode b.addr)) hfuel
  rw [Rb.setValue_self] at hrun
  have hvalue : ∀ x, S.value x = h.tree.value x := by
    intro x
    rw [hvalue]
    split
    · next heq => rw [heq]
    · rfl
  refine ⟨S, by rw [MemAlloc.treeRemove, hrun]; rfl, hH.withTree hvalue ⟨T', hT'.of_perm ?_⟩⟩
  have hmid : (freeAddrs (pre ++ b :: post)).Perm (b.addr :: (freeAddrs pre ++ freeAddrs post)) := by
    rw [freeAddrs_append, freeAddrs_cons, if_pos hb]
    exact List.perm_middle
  rw [freeAddrs_unmark]
  have herase := (hmid.map A.iterNode).erase (A.iterNode b.addr)
  rw [List.map_cons, List.erase_cons_head] at herase
  exact herase

theorem Layout.eq_of_addr (hL : Layout A bs) (hu : u ∈ bs) (hv : v ∈ bs) (heq : u.addr = v.addr) :
    u = v :=
  List.inj_on_of_nodup_map hL.addrs_nodup hu hv heq

/-- Two neighbours, one of them in the tree, become one block outside it. -/
theorem Holds.mergeBlocks {t : Nat} (hH : Holds A h (pre ++ u :: v :: post))
    (ht : freeAddrs [u, v] = [t]) :
    ∃ h', mergeBlocks A u.addr v.addr t h = some h' ∧
      Holds A h' (pre ++ ⟨u.addr, u.size + v.size, false⟩ :: post) ∧ h'.used = h.used ∧
        h'.allSize = h.allSize := by
  have hL := hH.layout
  have hu : u ∈ pre ++ u :: v :: post := by simp
  have hv : v ∈ pre ++ u :: v :: post := by simp
  have hjoin := hL.join false
  have hsum := (hjoin.bounds (b := ⟨u.addr, u.size + v.size, false⟩) (by simp)).2.2.2
  dsimp only at hsum
  -- the ring loses the second block
  have hring : Ring h.next h.prev A.cacheNode
      ((pre.map (·.addr) ++ [u.addr]) ++ v.addr :: post.map (·.addr)) := by
    simpa using hH.ring
  have hpos : ∀ x ∈ A.cacheNode :: ((pre.map (·.addr) ++ [u.addr]) ++ post.map (·.addr)), x ≠ 0 := by
    intro x hx
    apply hH.pos
    simp only [List.map_append, List.map_cons, List.mem_cons, List.mem_append] at hx ⊢
    simp only [List.not_mem_nil, or_false] at hx
    tauto
  obtain ⟨next, prev, hremove, hring'⟩ := listRemove_spec hring hpos
  -- the tree loses the one that was in it, whatever its value is by then
  obtain ⟨T, hT⟩ := hH.tree
  have hfree : (freeAddrs (pre ++ u :: v :: post)).Perm (t :: (freeAddrs pre ++ freeAddrs post)) := by
    rw [show pre ++ u :: v :: post = pre ++ ([u, v] ++ post) by simp, freeAddrs_append,
      freeAddrs_append, ht, List.singleton_append]
    exact List.perm_middle
  have hin : A.iterNode t ∈ (freeAddrs (pre ++ u :: v :: post)).map A.iterNode :=
    mem_iters.mpr (hfree.mem_iff.mpr List.mem_cons_self)
  have herase := (hfree.map A.iterNode).erase (A.iterNode t)
  rw [List.map_cons, List.erase_cons_head] at herase
  have hout : A.iterNode u.addr ∉
      ((freeAddrs (pre ++ u :: v :: post)).map A.iterNode).erase (A.iterNode t) := by
    intro hmem
    have hmem := herase.mem_iff.mp hmem
    rw [← freeAddrs_unmark pre post u.addr (u.size + v.size), mem_iters] at hmem
    exact hjoin.not_mem_freeAddrs (b := ⟨u.addr, u.size + v.size, false⟩) rfl hmem
  obtain ⟨S, T', hrun, hT', hvalue⟩ :=
    hT.remove hin hout (UInt32.ofNat (u.size + v.size)) hL.freeAddrs_length_lt
  refine ⟨{ h with next := next, prev := prev, tree := S }, ?_, ⟨hjoin, ?_, ?_, ?_⟩, rfl, rfl⟩
  · rw [MemAlloc.mergeBlocks, hremove]
    change (MemAlloc.treeRemove (A.iterNode t) (Mem.setSize A { h with next := next, prev := prev }
      u.addr (h.size A u.addr + h.size A v.addr))) = _
    rw [hH.sizes u hu, hH.sizes v hv, MemAlloc.treeRemove]
    change Option.map _ (rbRemoveNode configHeap (A.iterNode t)
      (h.tree.setValue (A.iterNode u.addr) (UInt32.ofNat (u.size + v.size)))) = _
    rw [hrun]
    rfl
  · simpa using hring'
  · intro x hx
    change (S.value (A.iterNode x.addr)).toNat = x.size
    simp only [hvalue, iterNode_inj]
    by_cases hxu : x.addr = u.addr
    · rw [if_pos hxu, hjoin.eq_of_addr hx (v := ⟨u.addr, u.size + v.size, false⟩) (by simp) hxu]
      exact UInt32.toNat_ofNat_of_lt' hsum
    · rw [if_neg hxu]
      apply hH.sizes
      simp only [List.mem_append, List.mem_cons] at hx ⊢
      rcases hx with hx | rfl | hx
      · exact Or.inl hx
      · exact absurd rfl hxu
      · exact Or.inr (Or.inr (Or.inr hx))
  · rw [freeAddrs_unmark]
    exact ⟨T', hT'.of_perm herase⟩

/-- The stores that cut a block outside the tree in two, before the second half is inserted. -/
theorem Holds.cut {next prev : Nat → Nat} {want : Nat} (used : Nat → Bool)
    (hH : Holds A h (pre ++ b :: post)) (hb : b.free = false)
    (hwant : heapStructSize A.word ≤ want) (hmod : want % 8 = 0)
    (hrest : want + heapStructSize A.word ≤ b.size)
    (hring : Ring next prev A.cacheNode
      ((pre.map (·.addr) ++ [b.addr]) ++ (b.addr + want) :: post.map (·.addr))) :
    Holds A ((Mem.setSize A { h with next := next, prev := prev, used := used } b.addr want).setSize A
        (b.addr + want) (b.size - want))
      (pre ++ ⟨b.addr, want, false⟩ :: ⟨b.addr + want, b.size - want, false⟩ :: post) := by
  have hL := hH.layout
  have hcut := hL.cut hwant hmod hrest false false
  have hbm : b ∈ pre ++ b :: post := by simp
  have hsize := (hL.bounds hbm).2.2.2
  have hnew : b.addr ≠ b.addr + want := by
    have hw := heapStructSize_bounds A.word
    omega
  have hfree : freeAddrs
      (pre ++ ⟨b.addr, want, false⟩ :: ⟨b.addr + want, b.size - want, false⟩ :: post) =
        freeAddrs (pre ++ b :: post) := by
    simp [freeAddrs_append, freeAddrs_cons, hb]
  have hnot := hcut.not_mem_freeAddrs (b := ⟨b.addr, want, false⟩) rfl
  have hnotnew : b.addr + want ∉ freeAddrs (pre ++ b :: post) := by
    rw [← hfree]
    rw [List.append_cons] at hcut ⊢
    exact hcut.not_mem_freeAddrs (b := ⟨b.addr + want, b.size - want, false⟩) rfl
  rw [hfree] at hnot
  refine ⟨hcut, ?_, ?_, ?_⟩
  · simpa using hring
  · intro x hx
    rw [size_setSize (by omega), size_setSize (by omega)]
    by_cases hxnew : x.addr = b.addr + want
    · have heq := hcut.eq_of_addr hx (v := ⟨b.addr + want, b.size - want, false⟩) (by simp) hxnew
      rw [if_pos hxnew, heq]
    · rw [if_neg hxnew]
      by_cases hxb : x.addr = b.addr
      · rw [if_pos hxb, hcut.eq_of_addr hx (v := ⟨b.addr, want, false⟩) (by simp) hxb]
      · rw [if_neg hxb]
        apply hH.sizes
        simp only [List.mem_append, List.mem_cons] at hx ⊢
        rcases hx with hx | rfl | rfl | hx
        · exact Or.inl hx
        · exact absurd rfl hxb
        · exact absurd rfl hxnew
        · exact Or.inr (Or.inr hx)
  · obtain ⟨T, hT⟩ := hH.tree
    rw [hfree]
    refine ⟨T, Rb.Keeping.setValue (hT.setValue ?_ _) ?_ _⟩
    · rw [mem_iters]
      exact hnot
    · rw [mem_iters]
      exact hnotnew

theorem Holds.splitBlock {want : Nat} (hH : Holds A h (pre ++ b :: post)) (hb : b.free = false)
    (hwant : heapStructSize A.word ≤ want) (hmod : want % 8 = 0)
    (hrest : want + heapStructSize A.word ≤ b.size) :
    ∃ h', splitBlock A b.addr want b.size h = some h' ∧
      Holds A h' (pre ++ ⟨b.addr, want, false⟩ :: ⟨b.addr + want, b.size - want, true⟩ :: post) ∧
        h'.used = Function.update h.used (b.addr + want) false ∧ h'.allSize = h.allSize := by
  have hL := hH.layout
  have hnodup := (hL.cut hwant hmod hrest false false).nodup
  have hring : Ring h.next h.prev A.cacheNode
      ((pre.map (·.addr) ++ [b.addr]) ++ post.map (·.addr)) := by
    simpa using hH.ring
  have hpos : ∀ x ∈ A.cacheNode :: ((pre.map (·.addr) ++ [b.addr]) ++ post.map (·.addr)), x ≠ 0 := by
    intro x hx
    apply hH.pos
    simpa using hx
  have hnew : b.addr + want ∉
      A.cacheNode :: ((pre.map (·.addr) ++ [b.addr]) ++ post.map (·.addr)) := by
    have hmid : (A.cacheNode :: (pre.map (·.addr) ++ [b.addr]) ++
        (b.addr + want) :: post.map (·.addr)).Nodup := by
      simpa using hnodup
    exact (List.nodup_cons.mp (List.nodup_middle.mp hmid)).1
  obtain ⟨next, prev, hadd, hring'⟩ := listAddNext_spec
    (h := (h.setUsed (b.addr + want) false).setSize A b.addr want) hring hnew hpos
  rw [List.getLastD_concat] at hadd
  have hcut := hH.cut (Function.update h.used (b.addr + want) false) hb hwant hmod hrest hring'
  rw [List.append_cons] at hcut
  obtain ⟨S, hinsert, hH'⟩ := hcut.treeInsert rfl
  have hsub : A.word.sub b.size want = b.size - want := by
    have hbounds := hL.bounds (b := b) (by simp)
    have hfits := A.allHeap_fits
    exact WordSize.sub_of_le (by omega) (by omega)
  rw [List.append_cons]
  dsimp only [MemAlloc.splitBlock]
  rw [hadd, hsub]
  exact ⟨_, hinsert, hH', rfl, rfl⟩

end CcRpc.MemAlloc
