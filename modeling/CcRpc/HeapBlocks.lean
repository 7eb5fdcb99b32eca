import CcRpc.Heap
import CcRpc.Lib.Chain
import CcRpc.Lib.Tiling

/-!
# The arena as a list of blocks

The arena is a list of blocks in address order, each free or handed out. Allocation carves the
first free block that is large enough; release marks a block free and joins it with free
neighbours. The heap in memory stands for such a list, and its functions compute these operations.
-/

namespace CcRpc

open Chain Tiling

/-- A header and the payload behind it. -/
structure Block where
  addr : Nat
  size : Nat
  free : Bool
  deriving DecidableEq, Repr

/-- `b` can serve a request. -/
def Block.fits (req : Nat) (b : Block) : Bool := b.free && decide (req ≤ b.size)

/-- `b` handed out for a request: cut in two if what is left over is worth a block. -/
def Block.carve (minSize req : Nat) (b : Block) : List Block :=
  if minSize < b.size - req then [⟨b.addr, req, false⟩, ⟨b.addr + req, b.size - req, true⟩]
  else [⟨b.addr, b.size, false⟩]

/-- A free block joined with the block after it, if that is free. -/
def joinNext (b : Block) : List Block → List Block
  | [] => [b]
  | q :: post => if q.free then ⟨b.addr, b.size + q.size, b.free⟩ :: post else b :: q :: post

/-- A free block joined with the block before it, if that is free. -/
def joinPrev : List Block → Block → List Block → List Block
  | [], b, post => b :: post
  | [x], b, post =>
    if x.free then ⟨x.addr, x.size + b.size, x.free⟩ :: post else x :: b :: post
  | x :: y :: pre, b, post => x :: joinPrev (y :: pre) b post

/-- The block `b` between `pre` and `post`, released and joined with its neighbours. -/
def release (pre : List Block) (b : Block) (post : List Block) : List Block :=
  match joinNext ⟨b.addr, b.size, true⟩ post with
  | [] => pre
  | b' :: post' => joinPrev pre b' post'

/-- The addresses on the free list. -/
def freeAddrs (bs : List Block) : List Nat := (bs.filter (·.free)).map (·.addr)

/-- The bytes of the free blocks. -/
def freeSize (bs : List Block) : Nat := ((bs.filter (·.free)).map (·.size)).sum

@[simp] theorem freeAddrs_nil : freeAddrs [] = [] := rfl

@[simp] theorem freeAddrs_append (as bs : List Block) :
    freeAddrs (as ++ bs) = freeAddrs as ++ freeAddrs bs := by
  simp [freeAddrs]

theorem freeAddrs_cons (b : Block) (bs : List Block) :
    freeAddrs (b :: bs) = if b.free then b.addr :: freeAddrs bs else freeAddrs bs := by
  unfold freeAddrs
  cases hb : b.free <;> simp [hb]

@[simp] theorem freeSize_nil : freeSize [] = 0 := rfl

@[simp] theorem freeSize_append (as bs : List Block) :
    freeSize (as ++ bs) = freeSize as + freeSize bs := by
  simp [freeSize]

theorem freeSize_cons (b : Block) (bs : List Block) :
    freeSize (b :: bs) = (if b.free then b.size else 0) + freeSize bs := by
  unfold freeSize
  cases hb : b.free <;> simp [hb]

/-- The addresses of the blocks handed out. -/
def usedAddrs (bs : List Block) : List Nat := (bs.filter (!·.free)).map (·.addr)

@[simp] theorem usedAddrs_nil : usedAddrs [] = [] := rfl

@[simp] theorem usedAddrs_append (as bs : List Block) :
    usedAddrs (as ++ bs) = usedAddrs as ++ usedAddrs bs := by
  simp [usedAddrs]

theorem usedAddrs_cons (b : Block) (bs : List Block) :
    usedAddrs (b :: bs) = if b.free then usedAddrs bs else b.addr :: usedAddrs bs := by
  unfold usedAddrs
  cases hb : b.free <;> simp [hb]

theorem mem_usedAddrs {bs : List Block} {a : Nat} :
    a ∈ usedAddrs bs ↔ ∃ b ∈ bs, b.free = false ∧ b.addr = a := by
  simp [usedAddrs, and_assoc]

theorem used_joinPrev {b : Block} (hb : b.free = true) (pre post : List Block) :
    (joinPrev pre b post).filter (!·.free) = pre.filter (!·.free) ++ post.filter (!·.free) := by
  induction pre with
  | nil => simp [joinPrev, hb]
  | cons x xs ih =>
    cases xs with
    | nil =>
      rw [joinPrev]
      cases hx : x.free <;> simp [hx, hb]
    | cons y ys =>
      rw [joinPrev, List.filter_cons, ih, List.filter_cons (x := x)]
      split <;> simp

theorem joinPrev_snoc (pre post : List Block) (x b : Block) : joinPrev (pre ++ [x]) b post =
    if x.free then pre ++ ⟨x.addr, x.size + b.size, x.free⟩ :: post else pre ++ x :: b :: post := by
  induction pre with
  | nil => rfl
  | cons y ys ih =>
    cases ys with
    | nil =>
      change y :: joinPrev [x] b post = _
      rw [joinPrev]
      split <;> rfl
    | cons z zs =>
      change y :: joinPrev (z :: zs ++ [x]) b post = _
      rw [ih]
      split <;> rfl

theorem freeSize_joinNext {b : Block} (hb : b.free = true) (post : List Block) :
    freeSize (joinNext b post) = b.size + freeSize post := by
  cases post with
  | nil => simp [joinNext, freeSize_cons, hb]
  | cons q qs =>
    rw [joinNext]
    cases hq : q.free with
    | true => simp [freeSize_cons, hb, hq, Nat.add_assoc]
    | false => simp [freeSize_cons, hb, hq]

theorem freeSize_joinPrev {b : Block} (hb : b.free = true) (pre post : List Block) :
    freeSize (joinPrev pre b post) = freeSize pre + (b.size + freeSize post) := by
  rcases List.eq_nil_or_concat pre with rfl | ⟨xs, x, rfl⟩
  · simp [joinPrev, freeSize_cons, hb]
  · rw [List.concat_eq_append, joinPrev_snoc]
    cases hx : x.free with
    | true => simp [freeSize_cons, hx, Nat.add_assoc]
    | false => simp [freeSize_cons, hx, hb]

theorem used_release (pre post : List Block) (b : Block) :
    (release pre b post).filter (!·.free) = pre.filter (!·.free) ++ post.filter (!·.free) := by
  unfold release
  cases post with
  | nil =>
    rw [joinNext]
    exact used_joinPrev rfl pre []
  | cons q qs =>
    rw [joinNext]
    cases hq : q.free with
    | true =>
      rw [if_pos rfl]
      dsimp only
      rw [used_joinPrev rfl, List.filter_cons_of_neg (by simp [hq])]
    | false =>
      rw [if_neg Bool.false_ne_true]
      exact used_joinPrev rfl pre (q :: qs)

theorem usedAddrs_release (pre post : List Block) (b : Block) :
    usedAddrs (release pre b post) = usedAddrs pre ++ usedAddrs post := by
  rw [usedAddrs, used_release, List.map_append]
  rfl

theorem mem_freeAddrs {bs : List Block} {a : Nat} :
    a ∈ freeAddrs bs ↔ ∃ b ∈ bs, b.free = true ∧ b.addr = a := by
  simp [freeAddrs, and_assoc]

variable (A : Arena)

/-- The address of the tail sentinel. -/
def Arena.tailAddr : Nat := clearAlignment (A.allHeap + configHeap - A.word.heapStructSize)

/-- The end of the first block that `heap_init` makes. When `all_heap` is aligned, `all_size` still
counts the header it set aside for the sentinel. -/
def Arena.regionEnd : Nat :=
  if A.allHeap % 8 = 0 then A.allHeap + configHeap else A.tailAddr

/-- The blocks tile the region; each is aligned, has room for its header, and keeps the header off
the sentinel. -/
structure Layout (bs : List Block) : Prop where
  tiles : Tiles Block.addr Block.size A.start bs A.regionEnd
  mod : ∀ b ∈ bs, b.size % 8 = 0
  room : ∀ b ∈ bs, A.word.heapStructSize ≤ b.size
  below : ∀ b ∈ bs, b.addr + A.word.heapStructSize ≤ A.tailAddr

/-- The nodes the allocator reads and writes: the head, the block headers and the sentinel. -/
def Arena.Node (bs : List Block) (x : Nat) : Prop :=
  x = A.head ∨ x = A.tailAddr ∨ ∃ b ∈ bs, b.addr = x

variable {A}

theorem headerSize_pos (w : WordSize) : 8 ≤ w.heapStructSize ∧ w.heapStructSize % 8 = 0 ∧
    w.heapStructSize ≤ 16 := by
  cases w <;> decide

theorem start_bounds (A : Arena) :
    A.allHeap ≤ A.start ∧ A.start < A.allHeap + 8 ∧ A.start % 8 = 0 := by
  unfold Arena.start
  rw [and_alignmentByte, clearAlignment_eq]
  simp only [alignmentByte]
  split <;> omega

theorem tailAddr_bounds (A : Arena) :
    A.tailAddr + A.word.heapStructSize ≤ A.allHeap + configHeap ∧
      A.allHeap + configHeap < A.tailAddr + A.word.heapStructSize + 8 ∧
      A.tailAddr % 8 = 0 := by
  have hw := headerSize_pos A.word
  unfold Arena.tailAddr
  rw [clearAlignment_eq]
  simp only [configHeap]
  omega

theorem regionEnd_bounds (A : Arena) :
    A.tailAddr ≤ A.regionEnd ∧ A.regionEnd ≤ A.allHeap + configHeap ∧
      A.regionEnd ≤ A.tailAddr + A.word.heapStructSize ∧ A.regionEnd % 8 = 0 := by
  have hw := headerSize_pos A.word
  have ht := tailAddr_bounds A
  unfold Arena.regionEnd
  simp only [configHeap] at ht ⊢
  split <;> omega

/-- No two nodes overlap. -/
theorem Layout.separate {bs : List Block} (hL : Layout A bs) : A.Separate (A.Node bs) := by
  have hw := headerSize_pos A.word
  have ht := tailAddr_bounds A
  have hs := start_bounds A
  have hhead := A.head_apart
  have hblock : ∀ b ∈ bs, A.start ≤ b.addr ∧ b.addr + A.word.heapStructSize ≤ A.tailAddr :=
    fun b hb => ⟨(hL.tiles.bounds hb).1, hL.below b hb⟩
  have hstart : A.start + A.word.heapStructSize ≤ A.tailAddr := by
    simp only [configHeap] at ht
    omega
  intro x y hx hy
  simp only [Arena.Apart]
  rcases hx with rfl | rfl | ⟨b, hb, rfl⟩ <;> rcases hy with rfl | rfl | ⟨c, hc, rfl⟩
  · exact Or.inl rfl
  · right; omega
  · have := hblock c hc
    right; omega
  · right; omega
  · exact Or.inl rfl
  · have := hblock c hc
    right; omega
  · have := hblock b hb
    right; omega
  · have := hblock b hb
    right; omega
  · have hbs := hL.room b hb
    have hcs := hL.room c hc
    rcases hL.tiles.eq_or_apart hb hc with rfl | h | h
    · exact Or.inl rfl
    · right; omega
    · right; omega

theorem Layout.addr_pos {bs : List Block} (hL : Layout A bs) {b : Block} (hb : b ∈ bs) :
    0 < b.addr := by
  have h := (hL.tiles.bounds hb).1
  have hs := start_bounds A
  have := A.allHeap_pos
  omega

theorem Layout.addr_mod {bs : List Block} (hL : Layout A bs) {b : Block} (hb : b ∈ bs) :
    b.addr % 8 = 0 := by
  have hs := (start_bounds A).2.2
  exact Nat.mod_eq_zero_of_dvd (hL.tiles.dvd_addr (Nat.dvd_of_mod_eq_zero hs)
    (fun x hx => Nat.dvd_of_mod_eq_zero (hL.mod x hx)) hb)

theorem Layout.nodup {bs : List Block} (hL : Layout A bs) : (A.head :: freeAddrs bs).Nodup := by
  have hw := headerSize_pos A.word
  refine List.nodup_cons.mpr ⟨?_, ?_⟩
  · intro hmem
    obtain ⟨b, hb, -, hhead⟩ := mem_freeAddrs.mp hmem
    have h1 := (hL.tiles.bounds hb).1
    have h2 := hL.below b hb
    have hs := start_bounds A
    have ht := tailAddr_bounds A
    have := A.head_apart
    omega
  · have hpw : bs.Pairwise fun x y => x.addr ≠ y.addr := by
      refine hL.tiles.pairwise.imp_of_mem ?_
      intro x y hx _ hxy
      have := hL.room x hx
      omega
    have hsub : (freeAddrs bs).Sublist (bs.map (·.addr)) := List.filter_sublist.map _
    exact List.Nodup.sublist hsub (List.pairwise_map.mpr hpw)

theorem Layout.ne_tail {bs : List Block} (hL : Layout A bs) {x : Nat}
    (hx : x = A.head ∨ ∃ b ∈ bs, b.addr = x) : x ≠ A.tailAddr := by
  have hw := headerSize_pos A.word
  have ht := tailAddr_bounds A
  have hhead := A.head_apart
  rcases hx with rfl | ⟨b, hb, rfl⟩
  · simp only [configHeap] at ht hhead
    omega
  · have := hL.below b hb
    omega

theorem Layout.length_lt {bs : List Block} (hL : Layout A bs) : bs.length + 1 < configHeap := by
  have hlen := hL.tiles.length_mul_le hL.room
  have hw := headerSize_pos A.word
  have hs := start_bounds A
  have he := regionEnd_bounds A
  have hmul : bs.length * 8 ≤ bs.length * A.word.heapStructSize := Nat.mul_le_mul_left _ hw.1
  simp only [configHeap] at he ⊢
  omega

theorem freeSize_le_sum (bs : List Block) : freeSize bs ≤ (bs.map Block.size).sum := by
  induction bs with
  | nil => exact Nat.le_refl _
  | cons b bs ih =>
    rw [freeSize_cons, List.map_cons, List.sum_cons]
    split <;> omega

theorem Layout.freeSize_lt {bs : List Block} (hL : Layout A bs) : freeSize bs < 2 ^ A.word.bits := by
  have hsum := hL.tiles.sum
  have hle := freeSize_le_sum bs
  have he := (regionEnd_bounds A).2.1
  have := A.allHeap_fits
  omega

theorem Layout.size_lt {bs : List Block} (hL : Layout A bs) {b : Block} (hb : b ∈ bs) :
    b.addr + b.size < 2 ^ A.word.bits := by
  have h := (hL.tiles.bounds hb).2
  have he := (regionEnd_bounds A).2.1
  have := A.allHeap_fits
  omega

/-- A run of blocks gives way to another one over the same bytes. -/
theorem Layout.replace {pre mid mid' post : List Block} (hL : Layout A (pre ++ mid ++ post))
    (htiles : ∀ a b, Tiles Block.addr Block.size a mid b → Tiles Block.addr Block.size a mid' b)
    (hmod : ∀ b ∈ mid', b.size % 8 = 0) (hroom : ∀ b ∈ mid', A.word.heapStructSize ≤ b.size)
    (hbelow : ∀ b ∈ mid', b.addr + A.word.heapStructSize ≤ A.tailAddr) :
    Layout A (pre ++ mid' ++ post) := by
  obtain ⟨m, hpm, hpost⟩ := tiles_append.mp hL.tiles
  obtain ⟨k, hpre, hmid⟩ := tiles_append.mp hpm
  refine ⟨tiles_append.mpr ⟨m, tiles_append.mpr ⟨k, hpre, htiles k m hmid⟩, hpost⟩, ?_, ?_, ?_⟩
  all_goals
    intro b hb
    simp only [List.mem_append] at hb
    rcases hb with (hb | hb) | hb
  · exact hL.mod b (by simp [hb])
  · exact hmod b hb
  · exact hL.mod b (by simp [hb])
  · exact hL.room b (by simp [hb])
  · exact hroom b hb
  · exact hL.room b (by simp [hb])
  · exact hL.below b (by simp [hb])
  · exact hbelow b hb
  · exact hL.below b (by simp [hb])

theorem Layout.mark {pre post : List Block} {b : Block} (hL : Layout A (pre ++ [b] ++ post))
    (f : Bool) : Layout A (pre ++ [⟨b.addr, b.size, f⟩] ++ post) := by
  have hb : b ∈ pre ++ [b] ++ post := by simp
  refine hL.replace (fun x y hxy => hxy) ?_ ?_ ?_
  · simpa using hL.mod b hb
  · simpa using hL.room b hb
  · simpa using hL.below b hb

theorem Layout.carve {pre post : List Block} {b : Block} (hL : Layout A (pre ++ [b] ++ post))
    {req : Nat} (hreq : req ≤ b.size) (hmod : req % 8 = 0) (hroom : A.word.heapStructSize ≤ req) :
    Layout A (pre ++ b.carve A.word.minSize req ++ post) := by
  have hb : b ∈ pre ++ [b] ++ post := by simp
  have hbmod := hL.mod b hb
  have hbroom := hL.room b hb
  have hbelow := hL.below b hb
  have hend := (hL.tiles.bounds hb).2
  have hregion := regionEnd_bounds A
  have hmin : A.word.minSize = 2 * A.word.heapStructSize := by
    rw [WordSize.minSize, Nat.shiftLeft_eq]
    omega
  unfold Block.carve
  split
  · next hsplit =>
    refine hL.replace ?_ ?_ ?_ ?_
    · intro x y hxy
      obtain ⟨rfl, hy⟩ := hxy
      have hy' : b.addr + b.size = y := hy
      refine ⟨rfl, rfl, ?_⟩
      change b.addr + req + (b.size - req) = y
      omega
    · simp only [List.mem_cons, List.not_mem_nil, or_false, forall_eq_or_imp, forall_eq]
      omega
    · simp only [List.mem_cons, List.not_mem_nil, or_false, forall_eq_or_imp, forall_eq]
      omega
    · simp only [List.mem_cons, List.not_mem_nil, or_false, forall_eq_or_imp, forall_eq]
      omega
  · exact hL.mark false

theorem Layout.join {pre post : List Block} {b q : Block} (hL : Layout A (pre ++ [b, q] ++ post))
    (f : Bool) : Layout A (pre ++ [⟨b.addr, b.size + q.size, f⟩] ++ post) := by
  have hb : b ∈ pre ++ [b, q] ++ post := by simp
  have hq : q ∈ pre ++ [b, q] ++ post := by simp
  have hbmod := hL.mod b hb
  have hqmod := hL.mod q hq
  have hbroom := hL.room b hb
  refine hL.replace ?_ ?_ ?_ ?_
  · intro x y hxy
    obtain ⟨rfl, -, hy⟩ := hxy
    refine ⟨rfl, ?_⟩
    rw [← hy]
    exact (Nat.add_assoc _ _ _).symm
  · simp only [List.mem_singleton, forall_eq]
    omega
  · simp only [List.mem_singleton, forall_eq]
    omega
  · simpa using hL.below b hb

end CcRpc
